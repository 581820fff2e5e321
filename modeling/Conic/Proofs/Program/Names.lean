import Conic.Proofs.Program.Building
import Conic.Proofs.Program.Move

/-!
# Names of variables

Variables are named by the order in which they are added.  `Builder.Renames` says
that the calls of two builders add the same variables in two orders and are the
same otherwise, each variable under its own name.

The columns of a program are numbered in the order in which the cones name their
variables.  The names themselves have no influence on it, so both builders build
the same program.  Only the variables of its columns have other names
(`Builder.Renamed.exists_build`).
-/

namespace Conic

variable {α : Type} {n : ℕ}

namespace ConeSpec

variable {ι κ γ : Type}

theorem map_id (K : ConeSpec ι) : K.map id = K := by
  cases K <;> simp [map]

theorem map_map (f : ι → κ) (g : κ → γ) (K : ConeSpec ι) : (K.map f).map g = K.map (g ∘ f) := by
  cases K <;> simp [map]

theorem map_injective {f : ι → κ} (hf : Function.Injective f) : Function.Injective (map f) := by
  intro K K' heq
  cases K <;> cases K' <;> simp_all [map, hf.eq_iff, hf.list_map.eq_iff]

end ConeSpec

/-- The name of a variable after the variables have been permuted. -/
def VariableId.rename (π : Equiv.Perm (Fin n)) (v : VariableId) : VariableId :=
  ⟨Program.renamed π v.index⟩

namespace Builder

/-! ## Calls -/

/-- The call with its variables renamed. -/
def Call.rename (π : Equiv.Perm (Fin n)) : Call α → Call α
  | addVariable cost => addVariable cost
  | addConstraint terms rhs => addConstraint (terms.map fun term => (term.1.rename π, term.2)) rhs
  | addNonnegative v => addNonnegative (v.rename π)
  | addSecondOrder bound vector => addSecondOrder (bound.rename π) (vector.map (·.rename π))

/-- The second calls add the variables of the first ones in another order, and make the same
other calls, with the variables renamed. -/
structure Renames (π : Equiv.Perm (Fin n)) (calls₁ calls₂ : List (Call α)) : Prop where
  /-- Both add `n` variables. -/
  length : (calls₁.filterMap Call.cost?).length = n ∧ (calls₂.filterMap Call.cost?).length = n
  /-- The variables have the same costs. -/
  costs : ∀ i : Fin n,
    (calls₂.filterMap Call.cost?)[(π i : ℕ)]? = (calls₁.filterMap Call.cost?)[(i : ℕ)]?
  /-- The other calls are the same, in the same order. -/
  others : calls₂.filter (fun call => call.cost?.isNone) =
    (calls₁.filter fun call => call.cost?.isNone).map (Call.rename π)

/-- A constraint with its variables renamed. -/
def renameRow (π : Equiv.Perm (Fin n)) (row : List (VariableId × α) × α) :
    List (VariableId × α) × α :=
  (row.1.map fun term => (term.1.rename π, term.2), row.2)

theorem Call.constraint?_rename (π : Equiv.Perm (Fin n)) (call : Call α) :
    (call.rename π).constraint? = call.constraint?.map (renameRow π) := by
  cases call <;> rfl

theorem Call.cone?_rename (π : Equiv.Perm (Fin n)) (call : Call α) :
    (call.rename π).cone? = call.cone?.map (ConeSpec.map (·.rename π)) := by
  cases call <;> rfl

/-- What calls ask for apart from variables is asked for by the calls that add none. -/
theorem filterMap_others {β : Type} {part : Call α → Option β}
    (h : ∀ cost, part (.addVariable cost) = none) (calls : List (Call α)) :
    (calls.filter fun call => call.cost?.isNone).filterMap part = calls.filterMap part := by
  rw [List.filterMap_filter]
  congr 1
  funext call
  cases call <;> simp [Call.cost?, h]

theorem Renames.filterMap_eq {β : Type} {π : Equiv.Perm (Fin n)} {calls₁ calls₂ : List (Call α)}
    (h : Renames π calls₁ calls₂) {part : Call α → Option β} {f : β → β}
    (hnone : ∀ cost, part (.addVariable cost) = none)
    (hrename : ∀ call : Call α, part (call.rename π) = (part call).map f) :
    calls₂.filterMap part = (calls₁.filterMap part).map f := by
  rw [← filterMap_others hnone, h.others, List.filterMap_map, ← filterMap_others hnone calls₁,
    List.map_filterMap]
  congr 1
  funext call
  exact hrename call

/-! ## Parts -/

/-- The parts of the second builder are those of the first one, with the variables renamed. -/
structure Renamed (π : Equiv.Perm (Fin n)) (B₁ B₂ : Builder α) : Prop where
  size : B₁.costs.size = n ∧ B₂.costs.size = n
  costs : ∀ i : Fin n, B₂.costs[(π i : ℕ)]? = B₁.costs[(i : ℕ)]?
  rows : B₂.rows.toList = B₁.rows.toList.map (renameRow π)
  cones : B₂.cones.toList = B₁.cones.toList.map (ConeSpec.map (·.rename π))

theorem Renames.renamed {π : Equiv.Perm (Fin n)} {calls₁ calls₂ : List (Call α)}
    (h : Renames π calls₁ calls₂) : Renamed π (after calls₁) (after calls₂) := by
  have h₁ := collects_after calls₁
  have h₂ := collects_after calls₂
  refine ⟨⟨?_, ?_⟩, fun i => ?_, ?_, ?_⟩
  · rw [← Array.length_toList, h₁.costs, h.length.1]
  · rw [← Array.length_toList, h₂.costs, h.length.2]
  · rw [← Array.getElem?_toList, ← Array.getElem?_toList, h₁.costs, h₂.costs, h.costs i]
  · rw [h₁.rows, h₂.rows, h.filterMap_eq (fun _ => rfl) (Call.constraint?_rename π)]
  · rw [h₁.cones, h₂.cones, h.filterMap_eq (fun _ => rfl) (Call.cone?_rename π)]

namespace Renamed

variable {π : Equiv.Perm (Fin n)} {B₁ B₂ : Builder α} (h : Renamed π B₁ B₂)

include h

theorem members_eq : B₂.members = B₁.members.map (·.rename π) := by
  rw [members, members, h.cones, List.flatMap_map, List.map_flatMap]
  simp only [ConeSpec.indices_map]

/-- The names of the variables are permuted. -/
theorem perm_ids : (B₁.ids.map (·.rename π)).Perm B₂.ids := by
  have hnames : B₁.ids.map (·.rename π) =
      ((List.range n).map (Program.renamed π)).map VariableId.mk := by
    rw [ids, h.size.1, List.map_map, List.map_map]
    rfl
  rw [hnames, ids, h.size.2]
  exact (Program.perm_map_renamed π).map VariableId.mk

theorem buildable (hB : B₁.Buildable) : B₂.Buildable := by
  have hperm : B₂.members.Perm B₂.ids := by
    rw [h.members_eq]
    exact ((perm_members_iff.mpr ⟨hB.cones, hB.once⟩).map _).trans h.perm_ids
  obtain ⟨hcones, honce⟩ := perm_members_iff.mp hperm
  refine ⟨fun row hrow term hterm => ?_, hcones, honce, fun bound hbound => ?_⟩
  · rw [← Array.mem_toList_iff, h.rows] at hrow
    obtain ⟨row', hrow', rfl⟩ := List.mem_map.mp hrow
    obtain ⟨term', hterm', rfl⟩ := List.mem_map.mp hterm
    have hlt := hB.terms row' (Array.mem_toList_iff.mp hrow') term' hterm'
    rw [h.size.1] at hlt
    rw [h.size.2]
    exact Program.renamed_lt π hlt
  · have hcones : B₂.cones.toList.map (ConeSpec.map id) =
        B₁.cones.toList.map (ConeSpec.map (·.rename π)) := by
      rw [← h.cones]
      exact (List.map_congr_left fun K _ => K.map_id).trans (List.map_id _)
    obtain ⟨bound', hbound'⟩ := exists_empty_of_map_eq hcones (Array.mem_toList_iff.mpr hbound)
    exact hB.bounded bound' (Array.mem_toList_iff.mp hbound')

end Renamed

/-! ## Columns -/

/-- The second map gives every variable the column that the first map gives it under its old
name. -/
structure SameColumns (π : Equiv.Perm (Fin n)) (m₁ m₂ : VariableMap) : Prop where
  column : ∀ v : VariableId, m₂.column (v.rename π) = m₁.column v
  variableAt : ∀ j, m₂.variableAt j = (m₁.variableAt j).map (·.rename π)

variable {π : Equiv.Perm (Fin n)} {B₁ B₂ : Builder α} {m₁ m₂ : VariableMap}

/-- The columns are numbered by the places where the cones name the variables, so they do not
depend on the names. -/
theorem Renamed.sameColumns (h : Renamed π B₁ B₂) (hB : B₁.Buildable)
    (hcheck₁ : m₁.check B₁.costs.size = .ok ()) (hcheck₂ : m₂.check B₂.costs.size = .ok ())
    (hnumbers₁ : B₁.members.map m₁.column = (List.range B₁.costs.size).map .ok)
    (hnumbers₂ : B₂.members.map m₂.column = (List.range B₂.costs.size).map .ok) :
    SameColumns π m₁ m₂ := by
  have hsize : B₁.costs.size = B₂.costs.size := h.size.1.trans h.size.2.symm
  have hmembers : B₁.members.map (fun v => m₂.column (v.rename π)) = B₁.members.map m₁.column := by
    rw [hnumbers₁, hsize, ← hnumbers₂, h.members_eq, List.map_map]
    rfl
  have hperm := perm_members_iff.mpr ⟨hB.cones, hB.once⟩
  have hcolumn (v : VariableId) : m₂.column (v.rename π) = m₁.column v := by
    by_cases hv : v.index < B₁.costs.size
    · exact List.map_inj_left.mp hmembers v (hperm.mem_iff.mpr (mem_ids.mpr hv))
    · -- a variable that has not been added keeps its name, and neither map has it
      have hname : v.rename π = v := by
        rw [VariableId.rename, Program.renamed, dif_neg (h.size.1 ▸ hv)]
      have hv₁ : B₁.costs.size ≤ v.index := not_lt.mp hv
      rw [hname, VariableMap.column_of_le hcheck₁ hv₁,
        VariableMap.column_of_le hcheck₂ (hsize ▸ hv₁)]
  refine ⟨hcolumn, fun j => ?_⟩
  by_cases hj : j < B₁.costs.size
  · obtain ⟨v, hv⟩ := VariableMap.exists_of_lt hcheck₁ hj
    rw [(VariableMap.column_eq_ok_iff hcheck₁).mp hv, Option.map_some]
    exact (VariableMap.column_eq_ok_iff hcheck₂).mp ((hcolumn v).trans hv)
  · have hj₁ : B₁.costs.size ≤ j := not_lt.mp hj
    rw [VariableMap.variableAt_of_le hcheck₁ hj₁,
      VariableMap.variableAt_of_le hcheck₂ (hsize ▸ hj₁)]
    rfl

theorem SameColumns.place_eq (h : SameColumns π m₁ m₂) (v : VariableId) :
    m₂.place (v.rename π) = m₁.place v := by
  have hcolumn : m₂.columns[(v.rename π).index]? = m₁.columns[v.index]? := by
    refine Option.ext fun j => ?_
    rw [← VariableMap.column_eq_ok, ← VariableMap.column_eq_ok, h.column v]
  rw [VariableMap.place, VariableMap.place, Array.getD_eq_getD_getElem?, hcolumn,
    Array.getD_eq_getD_getElem?]

/-! ## The program -/

namespace Renamed

variable (h : Renamed π B₁ B₂) (hcolumns : SameColumns π m₁ m₂)

include h hcolumns

theorem placed_eq : B₂.placed m₂ = B₁.placed m₁ := by
  rw [placed, placed, h.rows, List.zipIdx_map, List.flatMap_map]
  refine List.flatMap_congr fun row _ => ?_
  simp only [Prod.map_fst, Prod.map_snd, renameRow, List.map_map, Function.comp_def, id_eq,
    hcolumns.place_eq]

theorem map_cones_eq : B₂.cones.toList.map (ConeSpec.map m₂.column) =
    B₁.cones.toList.map (ConeSpec.map m₁.column) := by
  rw [h.cones, List.map_map]
  refine List.map_congr_left fun K _ => ?_
  rw [Function.comp_apply, ConeSpec.map_map]
  congr 1
  funext v
  exact hcolumns.column v

theorem columnCosts_eq [Zero α] (hcheck : m₁.check B₁.costs.size = .ok ()) :
    B₂.columnCosts m₂ = B₁.columnCosts m₁ := by
  refine Array.ext_getElem? fun j => ?_
  have hids : m₂.ids[j]? = m₁.ids[j]?.map (·.rename π) := hcolumns.variableAt j
  rw [columnCosts, columnCosts, Array.getElem?_map, Array.getElem?_map, hids, Option.map_map]
  cases hv : m₁.ids[j]? with
  | none => rfl
  | some v =>
    have hlt := (VariableMap.lt_of_column hcheck
      ((VariableMap.column_eq_ok_iff (j := j) hcheck).mpr hv)).1
    rw [h.size.1] at hlt
    have hcost := h.costs ⟨v.index, hlt⟩
    rw [← Program.renamed_of_lt π hlt] at hcost
    simp only [Option.map_some, Function.comp_apply, VariableId.rename,
      Array.getD_eq_getD_getElem?, hcost]

end Renamed

variable [Scalar α]

/-- Both builders build the same program, but for the names of its variables. -/
theorem Renamed.exists_build (h : Renamed π B₁ B₂) {p₁ : Program α} (hp : B₁.build = .ok p₁) :
    ∃ m, B₂.build = .ok { p₁ with map := m } ∧ SameColumns π p₁.map m := by
  have hB₁ := buildable_of_build hp
  obtain ⟨m₁, A₁, Ks₁, hpieces₁⟩ := hB₁.exists_pieces
  obtain ⟨m₂, A₂, Ks₂, hpieces₂⟩ := (h.buildable hB₁).exists_pieces
  have hcolumns := h.sameColumns hB₁ hpieces₁.check hpieces₂.check hpieces₁.numbers
    hpieces₂.numbers
  have hrhs : B₂.rows.map (·.2) = B₁.rows.map (·.2) := by
    rw [← Array.toList_inj, Array.toList_map, Array.toList_map, h.rows, List.map_map]
    rfl
  have hsize : B₂.rows.size = B₁.rows.size := by simpa using congrArg Array.size hrhs
  have hA : A₂ = A₁ := by
    have hmatrix := hpieces₂.matrix
    rw [h.placed_eq hcolumns, hsize, h.size.2, ← h.size.1, hpieces₁.matrix] at hmatrix
    exact (Except.ok.inj hmatrix).symm
  have hKs : Ks₂ = Ks₁ := by
    have hcones := hpieces₂.cones
    rw [h.map_cones_eq hcolumns, hpieces₁.cones] at hcones
    have hinjective : Function.Injective (ConeSpec.map (ι := ℕ) (Except.ok (ε := ProgramError))) :=
      ConeSpec.map_injective fun _ _ => Except.ok.inj
    exact (hinjective.list_map hcones).symm
  have hp₁ : p₁ = B₁.program m₁ A₁ Ks₁ := Except.ok.inj (hp.symm.trans (hpieces₁.build_eq hB₁))
  refine ⟨m₂, ?_, by rwa [hp₁]⟩
  rw [hpieces₂.build_eq (h.buildable hB₁), hp₁, hA, hKs]
  simp only [program, hrhs, h.columnCosts_eq hcolumns hpieces₁.check]

end Builder

end Conic
