import Conic.Program.Builder
import Conic.Proofs.Program.VariableMap
import Conic.Proofs.Program.WorkingCopy
import Conic.Proofs.Sparse.Triplets

/-!
# What a builder builds

A builder collects what it is asked for, call by call (`Builder.collects_after`).  It
builds a program exactly if every variable that a constraint or a cone names has
been added, every variable stands at exactly one position of the cones, and every
second-order cone bounds something (`Builder.Buildable`).  `Builder.Built` says what
the program is then.

Ids, columns and positions of terms are three index spaces.  If the cones name every
variable once, the layout of the columns is just the list of the names
(`Builder.layout_eq`), so the column of a variable is its place in this list
(`Builder.exists_variableMap`).
-/

namespace Conic

variable {α : Type}

namespace Builder

/-! ## Calls -/

/-- A call of a builder. -/
inductive Call (α : Type) where
  /-- Adds a variable. -/
  | addVariable (cost : α)
  /-- Adds a constraint. -/
  | addConstraint (terms : List (VariableId × α)) (rhs : α)
  /-- Adds a half line. -/
  | addNonnegative (v : VariableId)
  /-- Adds a second-order cone. -/
  | addSecondOrder (bound : VariableId) (vector : List VariableId)

namespace Call

/-- The builder after a call. -/
def perform (B : Builder α) : Call α → Builder α
  | addVariable cost => (B.addVariable cost).2
  | addConstraint terms rhs => (B.addConstraint terms rhs).2
  | addNonnegative v => B.addNonnegative v
  | addSecondOrder bound vector => B.addSecondOrder bound vector

/-- The cost of the variable that a call adds. -/
def cost? : Call α → Option α
  | addVariable cost => some cost
  | _ => none

/-- The constraint that a call adds. -/
def constraint? : Call α → Option (List (VariableId × α) × α)
  | addConstraint terms rhs => some (terms, rhs)
  | _ => none

/-- The cone that a call adds. -/
def cone? : Call α → Option (ConeSpec VariableId)
  | addNonnegative v => some (.nonnegative v)
  | addSecondOrder bound vector => some (.secondOrder bound vector)
  | _ => none

end Call

/-- The builder after some calls. -/
def after (calls : List (Call α)) : Builder α := calls.foldl Call.perform empty

/-- The parts of a builder are what the calls have asked for. -/
structure Collects (B : Builder α) (calls : List (Call α)) : Prop where
  costs : B.costs.toList = calls.filterMap Call.cost?
  rows : B.rows.toList = calls.filterMap Call.constraint?
  cones : B.cones.toList = calls.filterMap Call.cone?

theorem Collects.perform {B : Builder α} {calls : List (Call α)} (h : B.Collects calls)
    (call : Call α) : (call.perform B).Collects (calls ++ [call]) := by
  obtain ⟨hcosts, hrows, hcones⟩ := h
  cases call <;> constructor <;>
    simp [Call.perform, addVariable, addConstraint, addNonnegative, addSecondOrder, Call.cost?,
      Call.constraint?, Call.cone?, *]

theorem collects_after (calls : List (Call α)) : (after calls).Collects calls :=
  Loop.foldl_induction (fun done B => Collects B done) ⟨rfl, rfl, rfl⟩
    fun _ call _ _ _ h => h.perform call

/-! ## Parts that fit together -/

/-- The variables that the cones name, one cone after the other and the bound of each
cone first. -/
def members (B : Builder α) : List VariableId := B.cones.toList.flatMap ConeSpec.indices

/-- The parts of a builder fit together. -/
structure Buildable (B : Builder α) : Prop where
  /-- The variables of the constraints have been added. -/
  terms : ∀ row ∈ B.rows, ∀ term ∈ row.1, term.1.index < B.costs.size
  /-- The variables of the cones have been added. -/
  cones : ∀ K ∈ B.cones, ∀ v ∈ K.indices, v.index < B.costs.size
  /-- Every variable stands at one position of the cones. -/
  once : ∀ v : VariableId, v.index < B.costs.size → B.members.count v = 1
  /-- Every second-order cone bounds something. -/
  bounded : ∀ bound, .secondOrder bound [] ∉ B.cones

variable {B : Builder α}

theorem mem_members {v : VariableId} : v ∈ B.members ↔ ∃ K ∈ B.cones, v ∈ K.indices := by
  simp [members]

/-- The variables that have been added. -/
def ids (B : Builder α) : List VariableId := (List.range B.costs.size).map VariableId.mk

theorem mem_ids {v : VariableId} : v ∈ B.ids ↔ v.index < B.costs.size := by
  cases v
  simp [ids]

theorem nodup_ids : B.ids.Nodup :=
  List.nodup_range.map fun _ _ h => VariableId.mk.inj h

/-- The cones name every variable once if they name the variables in some order. -/
theorem perm_members_iff : B.members.Perm B.ids ↔
    (∀ K ∈ B.cones, ∀ v ∈ K.indices, v.index < B.costs.size) ∧
      ∀ v : VariableId, v.index < B.costs.size → B.members.count v = 1 := by
  constructor
  · refine fun h => ⟨fun K hK v hv => ?_, fun v hv => ?_⟩
    · exact mem_ids.mp (h.mem_iff.mp (mem_members.mpr ⟨K, hK, hv⟩))
    · rw [h.count_eq]
      exact List.count_eq_one_of_mem nodup_ids (mem_ids.mpr hv)
  · rintro ⟨hcones, honce⟩
    refine List.perm_iff_count.mpr fun v => ?_
    by_cases hv : v.index < B.costs.size
    · rw [honce v hv, List.count_eq_one_of_mem nodup_ids (mem_ids.mpr hv)]
    · rw [List.count_eq_zero.mpr fun hmem => hv (mem_ids.mp hmem), List.count_eq_zero]
      intro hmem
      obtain ⟨K, hK, hvK⟩ := mem_members.mp hmem
      exact hv (hcones K hK v hvK)

/-! ## The columns of the variables -/

theorem known_eq_ok_iff {u v : VariableId} :
    B.known v = .ok u ↔ v.index < B.costs.size ∧ v = u := by
  rw [known]
  split <;> simp [*]

theorem mem_layout {v : VariableId} : v ∈ B.layout ↔ v ∈ B.members ∨ v ∈ B.ids := by
  rw [layout, List.mem_eraseDups, List.mem_append, members, ids]

theorem eraseDups_of_nodup {l : List VariableId} (h : l.Nodup) : l.eraseDups = l := by
  induction l with
  | nil => rfl
  | cons v l ih =>
    obtain ⟨hv, hl⟩ := List.nodup_cons.mp h
    rw [List.eraseDups_cons, List.filter_eq_self.mpr fun u hu => by
      simpa using fun heq : u = v => hv (heq ▸ hu), ih hl]

/-- If the cones name every variable once, the columns are in the order of the names. -/
theorem layout_eq (h : B.members.Perm B.ids) : B.layout = B.members := by
  have hnodup : B.members.Nodup := h.nodup_iff.mpr nodup_ids
  have hrest : B.ids.removeAll B.members = [] := by
    simpa [List.removeAll] using fun v hv => h.mem_iff.mpr hv
  rw [layout, List.eraseDups_append]
  show B.members.eraseDups ++ (B.ids.removeAll B.members).eraseDups = _
  rw [eraseDups_of_nodup hnodup, hrest]
  simp

example : layout (⟨#[0, 1, 2], #[], #[.secondOrder ⟨1⟩ [⟨2⟩], .nonnegative ⟨0⟩]⟩ : Builder ℕ) =
    [⟨1⟩, ⟨2⟩, ⟨0⟩] := by decide

theorem map_idxOf {l : List VariableId} (h : l.Nodup) :
    l.map (fun v => l.idxOf v) = List.range l.length := by
  apply List.ext_getElem (by simp)
  intro i hi hi'
  have hi : i < l.length := by simpa using hi
  rw [List.getElem_map, List.getElem_range, h.idxOf_getElem i hi]

/-- If the cones name every variable once, its column is the place of its name. -/
theorem exists_variableMap (h : B.members.Perm B.ids) : ∃ m, B.variableMap = .ok m ∧
    m.check B.costs.size = .ok () ∧
    B.members.map m.column = (List.range B.costs.size).map .ok := by
  have hnodup : B.members.Nodup := h.nodup_iff.mpr nodup_ids
  have hlength : B.members.length = B.costs.size := by simpa [ids] using h.length_eq
  set columns := ((List.range B.costs.size).map fun i => B.members.idxOf ⟨i⟩).toArray with hcolumns
  have hsize : columns.size = B.costs.size := by simp [hcolumns]
  have hperm : columns.toList.Perm (List.range columns.size) := by
    have hnames := (h.map fun v => B.members.idxOf v).symm
    rw [map_idxOf hnodup, hlength, ids, List.map_map] at hnames
    rw [hsize]
    exact hnames
  obtain ⟨m, hm, hmcolumns, hcheck⟩ := VariableMap.exists_ofColumns hperm
  refine ⟨m, ?_, hsize ▸ hcheck, ?_⟩
  · have hknown : B.members.mapM B.known = .ok B.members :=
      Loop.mapM_eq_ok_iff.mpr (List.map_congr_left fun v hv =>
        known_eq_ok_iff.mpr ⟨mem_ids.mp (h.mem_iff.mp hv), rfl⟩)
    rw [variableMap, layout_eq h, hknown]
    exact hm
  · rw [← hlength, ← map_idxOf hnodup, List.map_map]
    refine List.map_congr_left fun v hv => VariableMap.column_eq_ok.mpr ?_
    have hv : v.index < B.costs.size := mem_ids.mp (h.mem_iff.mp hv)
    simp [hmcolumns, hcolumns, hv]

/-! ## Constraints -/

/-- The coefficients of a variable, in the order of the terms. -/
def coefficients (terms : List (VariableId × α)) (v : VariableId) : List α :=
  (terms.filter fun term => term.1 = v).map Prod.snd

/-- The triplets of the constraints. -/
def placed (B : Builder α) (m : VariableMap) : List (Triplet α) :=
  B.rows.toList.zipIdx.flatMap fun row => row.1.1.map fun term => ⟨row.2, m.place term.1, term.2⟩

theorem terms_of_triplets {m : VariableMap} {ts : List (Triplet α)} (h : B.triplets m = .ok ts) :
    ∀ row ∈ B.rows, ∀ term ∈ row.1, term.1.index < B.costs.size := by
  intro row hrow term hterm
  obtain ⟨rows, hrows, -⟩ := bind_eq_ok_iff.mp h
  obtain ⟨i, hi⟩ := List.mem_iff_getElem?.mp (Array.mem_toList_iff.mpr hrow)
  have hmem : (row, i) ∈ B.rows.toList.zipIdx := List.mem_zipIdx_iff_getElem?.mpr hi
  obtain ⟨_, -, hparts⟩ := Loop.exists_of_mapM_eq_ok hrows hmem
  obtain ⟨_, -, hpart⟩ := Loop.exists_of_mapM_eq_ok hparts hterm
  obtain ⟨v, hv, -⟩ := bind_eq_ok_iff.mp hpart
  exact (known_eq_ok_iff.mp hv).1

/-- The part of a list at one index. -/
theorem flatMap_zipIdx_ite {β γ : Type} (f : β → List γ) {l : List β} {i : ℕ} {b : β}
    (h : l[i]? = some b) (k : ℕ) :
    ((l.zipIdx k).flatMap fun e => if e.2 = k + i then f e.1 else []) = f b := by
  induction l generalizing i k with
  | nil => simp at h
  | cons a l ih =>
    rw [List.zipIdx_cons, List.flatMap_cons]
    cases i with
    | zero =>
      have hrest :
          (l.zipIdx (k + 1)).flatMap (fun e => if e.2 = k + 0 then f e.1 else []) = [] := by
        refine List.flatMap_eq_nil_iff.mpr fun e he => if_neg ?_
        have := List.le_snd_of_mem_zipIdx he
        omega
      rw [hrest, if_pos (Nat.add_zero k).symm, List.append_nil, Option.some.inj h]
    | succ i =>
      have hrest := ih h (k + 1)
      rw [Nat.add_assoc, Nat.add_comm 1 i] at hrest
      rw [if_neg (by omega), List.nil_append, hrest]

section

variable {m : VariableMap} (hm : m.check B.costs.size = .ok ())
  (hterms : ∀ row ∈ B.rows, ∀ term ∈ row.1, term.1.index < B.costs.size)

include hm hterms

/-- The variable of a term has been added and has a column. -/
theorem column_of_term {row : (List (VariableId × α) × α) × ℕ}
    (hrow : row ∈ B.rows.toList.zipIdx) {term : VariableId × α} (hterm : term ∈ row.1.1) :
    B.known term.1 = .ok term.1 ∧ m.column term.1 = .ok (m.place term.1) := by
  obtain ⟨hsize, -, -⟩ := VariableMap.check_eq_ok_iff.mp hm
  have hlt := hterms row.1 (by simpa using List.fst_mem_of_mem_zipIdx hrow) term hterm
  exact ⟨known_eq_ok_iff.mpr ⟨hlt, rfl⟩, m.column_eq_place (hsize.symm ▸ hlt)⟩

theorem triplets_eq_ok : B.triplets m = .ok (B.placed m) := by
  refine bind_eq_ok_iff.mpr ⟨_, Loop.mapM_eq_ok (fun row => row.1.1.map fun term =>
    ⟨row.2, m.place term.1, term.2⟩) fun row hrow => Loop.mapM_eq_ok _ fun term hterm => ?_, ?_⟩
  · obtain ⟨hknown, hcolumn⟩ := column_of_term hm hterms hrow hterm
    simp only [hknown, bind, Except.bind, hcolumn]
    rfl
  · rw [placed, List.flatMap_def]
    rfl

theorem inside_of_mem_placed : ∀ t ∈ B.placed m, t.row < B.rows.size ∧ t.col < B.costs.size := by
  intro t ht
  obtain ⟨row, hrow, ht⟩ := List.mem_flatMap.mp ht
  obtain ⟨term, hterm, rfl⟩ := List.mem_map.mp ht
  obtain ⟨-, hcolumn⟩ := column_of_term hm hterms hrow hterm
  exact ⟨by simpa using List.snd_lt_of_mem_zipIdx hrow, (VariableMap.lt_of_column hm hcolumn).2⟩

/-- The values at the place of a constraint and a variable are the coefficients of the
variable: no other variable has its column. -/
theorem valuesAt_placed {v : VariableId} {j : ℕ} (hj : m.column v = .ok j) {i : ℕ}
    {row : List (VariableId × α) × α} (hrow : B.rows[i]? = some row) :
    Triplet.valuesAt i j (B.placed m) = coefficients row.1 v := by
  have hpart (e : (List (VariableId × α) × α) × ℕ) (he : e ∈ B.rows.toList.zipIdx) :
      Triplet.valuesAt i j (e.1.1.map fun term => ⟨e.2, m.place term.1, term.2⟩) =
        if e.2 = 0 + i then coefficients e.1.1 v else [] := by
    rw [Triplet.valuesAt, List.filter_map, List.map_map, Nat.zero_add]
    split
    next hi =>
      rw [coefficients]
      refine congrArg (List.map Prod.snd) (List.filter_congr fun term hterm => ?_)
      obtain ⟨-, hcolumn⟩ := column_of_term hm hterms he hterm
      have hiff : m.place term.1 = j ↔ term.1 = v :=
        ⟨fun heq => VariableMap.eq_of_column hm (heq ▸ hcolumn) hj,
          fun heq => Except.ok.inj (hcolumn.symm.trans (heq ▸ hj))⟩
      simp [hi, hiff]
    next hi => simp [hi]
  rw [placed, Triplet.valuesAt, List.filter_flatMap, List.map_flatMap]
  refine (List.flatMap_congr hpart).trans ?_
  exact flatMap_zipIdx_ite (fun row => coefficients row.1 v)
    (Array.getElem?_toList.trans hrow) 0

end

/-! ## Cones -/

theorem columnCone_eq_ok_iff {m : VariableMap} {K : ConeSpec VariableId} {K' : ConeSpec ℕ} :
    columnCone m K = .ok K' ↔ K.map m.column = K'.map .ok := by
  cases K with
  | nonnegative v =>
    simp only [columnCone, bind_eq_ok_iff]
    cases K' <;> simp [ConeSpec.map, pure, Except.pure]
  | secondOrder bound vector =>
    simp only [columnCone, bind_eq_ok_iff, Loop.mapM_eq_ok_iff]
    cases K' <;> simp [ConeSpec.map, pure, Except.pure]

theorem mapM_columnCone_eq_ok_iff {m : VariableMap} {Ks : List (ConeSpec VariableId)}
    {Ks' : List (ConeSpec ℕ)} : Ks.mapM (columnCone m) = .ok Ks' ↔
      Ks.map (ConeSpec.map m.column) = Ks'.map (ConeSpec.map .ok) := by
  rw [Loop.mapM_eq_ok_iff]
  induction Ks generalizing Ks' with
  | nil => cases Ks' <;> simp
  | cons K Ks ih =>
    cases Ks' with
    | nil => simp
    | cons K' Ks' => simp only [List.map_cons, List.cons.injEq, columnCone_eq_ok_iff, ih]

/-- Cones whose variables all have columns. -/
theorem map_column_eq {m : VariableMap} {K : ConeSpec VariableId}
    (h : ∀ v ∈ K.indices, m.column v = .ok (m.place v)) :
    K.map m.column = (K.map m.place).map .ok := by
  cases K with
  | nonnegative v => exact congrArg ConeSpec.nonnegative (h v (by simp [ConeSpec.indices]))
  | secondOrder bound vector =>
    simp only [ConeSpec.map, List.map_map]
    rw [h bound (by simp [ConeSpec.indices]), List.map_congr_left fun v hv =>
      h v (by simp [ConeSpec.indices, hv])]
    rfl

/-- Cones that have been renamed bound something if they have done so before. -/
theorem exists_empty_of_map_eq {ι κ γ : Type} {f : ι → γ} {g : κ → γ} {Ks : List (ConeSpec ι)}
    {Ks' : List (ConeSpec κ)} (h : Ks.map (ConeSpec.map f) = Ks'.map (ConeSpec.map g)) {bound : ι}
    (hbound : .secondOrder bound [] ∈ Ks) : ∃ bound', .secondOrder bound' [] ∈ Ks' := by
  have hmem : (ConeSpec.secondOrder bound []).map f ∈ Ks'.map (ConeSpec.map g) :=
    h ▸ List.mem_map_of_mem hbound
  obtain ⟨K, hK, heq⟩ := List.mem_map.mp hmem
  cases K with
  | nonnegative i => cases heq
  | secondOrder bound' vector =>
    obtain ⟨-, hvector⟩ := ConeSpec.secondOrder.inj heq
    exact ⟨bound', List.map_eq_nil_iff.mp hvector ▸ hK⟩

/-- The columns of cones are the columns of their variables. -/
theorem map_column_members {m : VariableMap} {Ks : List (ConeSpec ℕ)}
    (h : B.cones.toList.map (ConeSpec.map m.column) = Ks.map (ConeSpec.map .ok)) :
    B.members.map m.column = (Ks.flatMap ConeSpec.indices).map .ok := by
  have hindices := congrArg (List.flatMap ConeSpec.indices) h
  simp only [List.flatMap_map, ConeSpec.indices_map] at hindices
  rw [members, List.map_flatMap, List.map_flatMap]
  exact hindices

/-! ## Building -/

/-- The program is what the parts of the builder ask for. -/
structure Built [Add α] (B : Builder α) (p : Program α) : Prop where
  /-- There is a row for each constraint and a column for each variable. -/
  shape : p.A.nrows = B.rows.size ∧ p.A.ncols = B.costs.size
  /-- Every variable has a column, and every column has a variable. -/
  total : (∀ v : VariableId, v.index < B.costs.size → ∃ j < p.A.ncols, p.map.column v = .ok j) ∧
    ∀ j < p.A.ncols, ∃ v : VariableId, v.index < B.costs.size ∧ p.map.variableAt j = some v
  /-- The columns of the variables and the variables of the columns are inverse to each
  other. -/
  inverse : ∀ v j, p.map.column v = .ok j ↔ p.map.variableAt j = some v
  /-- The columns are numbered in the order in which the cones name their variables. -/
  numbers : B.members.map p.map.column = (List.range p.A.ncols).map .ok
  /-- The cost of a column is that of its variable. -/
  cost : ∀ v j, p.map.column v = .ok j → p.c[j]? = B.costs[v.index]?
  /-- The right-hand sides are those of the constraints. -/
  rhs : p.b = B.rows.map (·.2)
  /-- The cones are those of the builder, by the columns of their variables. -/
  cones : B.cones.toList.map (ConeSpec.map p.map.column) = p.cones.map (ConeSpec.map .ok)
  /-- A constraint has an entry for each variable of its terms, which is the sum of the
  coefficients of the variable from left to right. -/
  entry : ∀ (i : ℕ) (row : List (VariableId × α) × α) (v : VariableId) (j : ℕ),
    B.rows[i]? = some row → p.map.column v = .ok j →
      p.A.entry? i j = some (leftSum (coefficients row.1 v))

variable [Scalar α]

theorem build_eq_ok_iff {p : Program α} : B.build = .ok p ↔
    ∃ m, B.variableMap = .ok m ∧ ∃ ts, B.triplets m = .ok ts ∧
      ∃ A, Csc.ofTriplets B.rows.size B.costs.size ts = .ok A ∧
      ∃ Ks, B.cones.toList.map (ConeSpec.map m.column) = Ks.map (ConeSpec.map .ok) ∧
      Program.ofParts A (B.rows.map (·.2)) (B.columnCosts m) Ks m = .ok p := by
  simp only [build, bind_eq_ok_iff, Fault.lift_eq_ok_iff, Fault.mapCause_eq_ok_iff,
    mapM_columnCone_eq_ok_iff]

/-- What can be built fits together. -/
theorem buildable_of_build {p : Program α} (h : B.build = .ok p) : B.Buildable := by
  obtain ⟨m, hm, ts, hts, A, hA, Ks, hKs, hp⟩ := build_eq_ok_iff.mp h
  obtain ⟨hp, hvalid⟩ := Program.ofParts_eq_ok_iff.mp hp
  have hvalidated := WorkingCopy.validated_of_validate hvalid
  have hncols : p.A.ncols = B.costs.size := hp ▸ (Csc.wellFormed_of_ofTriplets hA).2.2
  have hcones : p.cones = Ks := hp ▸ rfl
  have hcolumns := map_column_members hKs
  have hperm : (B.members.map m.column).Perm ((List.range B.costs.size).map .ok) := by
    rw [hcolumns, ← hcones, ← hncols]
    exact hvalidated.covered.map _
  have hnodup : B.members.Nodup := by
    refine List.Nodup.of_map m.column (hperm.nodup_iff.mpr ?_)
    exact List.nodup_range.map fun _ _ heq => Except.ok.inj heq
  have hknown (v : VariableId) (hv : v ∈ B.members) : v ∈ B.ids := by
    obtain ⟨order, horder, -⟩ := bind_eq_ok_iff.mp hm
    obtain ⟨_, -, hv⟩ := Loop.exists_of_mapM_eq_ok horder (mem_layout.mpr (.inl hv))
    exact mem_ids.mpr (known_eq_ok_iff.mp hv).1
  -- as many different variables as have been added are all of them
  have hmembers : B.members.Perm B.ids :=
    (List.subperm_of_subset hnodup hknown).perm_of_length_le
      (by simpa [ids] using hperm.length_eq.ge)
  obtain ⟨hadded, honce⟩ := perm_members_iff.mp hmembers
  refine ⟨terms_of_triplets hts, hadded, honce, fun bound hbound => ?_⟩
  obtain ⟨column, hcolumn⟩ := exists_empty_of_map_eq hKs (Array.mem_toList_iff.mpr hbound)
  exact hvalidated.bounded column (hcones ▸ hcolumn)

/-- The variables, the matrix and the cones of the program that a builder builds. -/
structure Pieces (B : Builder α) (m : VariableMap) (A : Csc α) (Ks : List (ConeSpec ℕ)) : Prop where
  variableMap : B.variableMap = .ok m
  check : m.check B.costs.size = .ok ()
  numbers : B.members.map m.column = (List.range B.costs.size).map .ok
  matrix : Csc.ofTriplets B.rows.size B.costs.size (B.placed m) = .ok A
  cones : B.cones.toList.map (ConeSpec.map m.column) = Ks.map (ConeSpec.map .ok)

/-- The program of these pieces, which starts from the zero point. -/
def program (B : Builder α) (m : VariableMap) (A : Csc α) (Ks : List (ConeSpec ℕ)) : Program α where
  A := A
  b := B.rows.map (·.2)
  c := B.columnCosts m
  x := Vec.zeros (B.columnCosts m).size
  w := Vec.zeros (B.rows.map (·.2)).size
  s := Vec.zeros (B.columnCosts m).size
  cones := Ks
  map := m

theorem Buildable.exists_pieces (h : B.Buildable) : ∃ m A Ks, B.Pieces m A Ks := by
  obtain ⟨m, hm, hcheck, hnumbers⟩ := exists_variableMap (perm_members_iff.mpr ⟨h.cones, h.once⟩)
  obtain ⟨hcolumns, -, -⟩ := VariableMap.check_eq_ok_iff.mp hcheck
  obtain ⟨A, hA⟩ := Csc.exists_ofTriplets_iff.mpr (inside_of_mem_placed hcheck h.terms)
  refine ⟨m, A, B.cones.toList.map (ConeSpec.map m.place), hm, hcheck, hnumbers, hA, ?_⟩
  rw [List.map_map]
  exact List.map_congr_left fun K hK => map_column_eq fun v hv =>
    m.column_eq_place (hcolumns.symm ▸ h.cones K (Array.mem_toList_iff.mp hK) v hv)

namespace Pieces

variable {m : VariableMap} {A : Csc α} {Ks : List (ConeSpec ℕ)} (hpieces : B.Pieces m A Ks)

include hpieces

/-- The cones name the columns one after the other. -/
theorem indices_eq : Ks.flatMap ConeSpec.indices = List.range B.costs.size :=
  List.map_injective_iff.mpr (fun _ _ heq => Except.ok.inj heq)
    ((map_column_members hpieces.cones).symm.trans hpieces.numbers)

theorem validated (hbounded : ∀ bound, .secondOrder bound [] ∉ B.cones) :
    WorkingCopy.Validated (B.program m A Ks) := by
  obtain ⟨hwellFormed, hnrows, hncols⟩ := Csc.wellFormed_of_ofTriplets hpieces.matrix
  obtain ⟨-, hids, -⟩ := VariableMap.check_eq_ok_iff.mp hpieces.check
  have hsize : (B.columnCosts m).size = B.costs.size := by simp [columnCosts, hids]
  refine ⟨hwellFormed, by simp [program, hnrows, hncols, hsize], ?_, fun bound hbound => ?_⟩
  · rw [program, hpieces.indices_eq, hncols]
  · obtain ⟨bound', hbound'⟩ := exists_empty_of_map_eq hpieces.cones.symm hbound
    exact hbounded bound' (Array.mem_toList_iff.mp hbound')

theorem built (hterms : ∀ row ∈ B.rows, ∀ term ∈ row.1, term.1.index < B.costs.size) :
    B.Built (B.program m A Ks) := by
  obtain ⟨-, hnrows, hncols⟩ := Csc.wellFormed_of_ofTriplets hpieces.matrix
  obtain ⟨hcolumns, -, -⟩ := VariableMap.check_eq_ok_iff.mp hpieces.check
  have hinverse (v : VariableId) (j : ℕ) : m.column v = .ok j ↔ m.variableAt j = some v :=
    VariableMap.column_eq_ok_iff hpieces.check
  refine {
    shape := ⟨hnrows, hncols⟩
    total := ⟨fun v hv => ?_, fun j hj => ?_⟩
    inverse := hinverse
    numbers := by rw [program, hncols, hpieces.numbers]
    cost := fun v j hj => ?_
    rhs := rfl
    cones := hpieces.cones
    entry := fun i row v j hrow hj => ?_ }
  · have hplace := m.column_eq_place (hcolumns.symm ▸ hv)
    exact ⟨m.place v, hncols.symm ▸ (VariableMap.lt_of_column hpieces.check hplace).2, hplace⟩
  · obtain ⟨v, hv⟩ := VariableMap.exists_of_lt hpieces.check (hncols ▸ hj)
    exact ⟨v, (VariableMap.lt_of_column hpieces.check hv).1, (hinverse v j).mp hv⟩
  · have hlt := (VariableMap.lt_of_column hpieces.check hj).1
    have hv : m.ids[j]? = some v := (hinverse v j).mp hj
    simp [program, columnCosts, hv, hlt]
  · have hentry := Csc.entry?_of_ofTriplets hpieces.matrix i
      (VariableMap.lt_of_column hpieces.check hj).2
    rwa [valuesAt_placed hpieces.check hterms hj hrow] at hentry

/-- The pieces of a builder whose parts fit together are put together. -/
theorem build_eq (h : B.Buildable) : B.build = .ok (B.program m A Ks) := by
  obtain ⟨-, -, hncols⟩ := Csc.wellFormed_of_ofTriplets hpieces.matrix
  have hvalid := WorkingCopy.validate_eq_ok_iff.mpr
    ⟨hpieces.validated h.bounded, hncols.symm ▸ hpieces.check⟩
  exact build_eq_ok_iff.mpr ⟨m, hpieces.variableMap, _, triplets_eq_ok hpieces.check h.terms, A,
    hpieces.matrix, Ks, hpieces.cones, Program.ofParts_eq_ok_iff.mpr ⟨rfl, hvalid⟩⟩

end Pieces

/-- What fits together can be built, and the program is what was asked for. -/
theorem exists_build (h : B.Buildable) : ∃ p, B.build = .ok p ∧ B.Built p := by
  obtain ⟨m, A, Ks, hpieces⟩ := h.exists_pieces
  exact ⟨_, hpieces.build_eq h, hpieces.built h.terms⟩

/-- After any calls, a program is built exactly if the parts fit together, and then it is
what the calls have asked for. -/
theorem build_after (calls : List (Call α)) :
    (after calls).Collects calls ∧
      ((∃ p, (after calls).build = .ok p) ↔ (after calls).Buildable) ∧
      ∀ p, (after calls).build = .ok p → (after calls).Built p := by
  refine ⟨collects_after calls, ⟨fun ⟨p, hp⟩ => buildable_of_build hp, fun h => ?_⟩, fun p hp => ?_⟩
  · obtain ⟨p, hp, -⟩ := exists_build h
    exact ⟨p, hp⟩
  · obtain ⟨p', hp', hbuilt⟩ := exists_build (buildable_of_build hp)
    rwa [Except.ok.inj (hp.symm.trans hp')]

end Builder

end Conic
