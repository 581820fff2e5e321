import Conic.Proofs.Ldl.Analysis

/-!
# The pattern of a row

`Ldl.collect?` scatters a column of the triangle and lists the columns in which
the row of the factor has entries.  The list is collected from paths of the
elimination tree, each path in front of those before it.

The list has every such column once.  A column that fills another one comes
before it: within a path the columns increase, and a column of an earlier path
cannot fill a column of a later one, since the later path would have ended
there (`RowPattern.cons_path`).

`Ldl.Walk` is one such path, and it always ends at a marked node
(`Ldl.exists_walk`).  The program has path and pattern on one stack, the path at
the bottom and the pattern at the top.  A path that is complete is lifted below
the pattern (`Ldl.Walk.exists_climb?_lift?`).  What the stack holds between the
two is never read, so the outcome does not depend on it.
-/

namespace Conic.Ldl

variable {E : ℕ → ℕ → Prop} {n k : ℕ}

/-- A path in row `k` follows the parents. -/
theorem parentBelow_eq_nextBelow {i : ℕ} (h : Fill E i k) (hk : k < n) :
    parentBelow E n i = some (nextBelow E k i) := by
  unfold nextBelow
  cases hparent : parentBelow E k i with
  | some p =>
    obtain ⟨hp, hlt⟩ := parentBelow_eq_some_iff.mp hparent
    exact parentBelow_eq_some_iff.mpr ⟨hp, hlt.trans hk⟩
  | none =>
    have hnone := parentBelow_eq_none_iff.mp hparent
    exact parentBelow_eq_some_iff.mpr
      ⟨⟨h, fun r hr => not_lt.mp fun hrk => hnone r hrk hr⟩, hk⟩

/-! ## Walks along the tree -/

/-- The walk from a node along the parents, up to the first node marked for row
`k`.  The nodes before it make up the path, and are marked afterwards.  Each of
them has a parent: a walk does not end at a root. -/
inductive Walk (parent : Array (Option ℕ)) (k : ℕ) :
    ℕ → Array ℕ → List ℕ → Array ℕ → Prop
  /-- The walk ends at a marked node. -/
  | stop {i : ℕ} {mark : Array ℕ} : mark[i]? = some k → Walk parent k i mark [] mark
  /-- The walk goes on from the parent. -/
  | pass {i r p : ℕ} {mark mark' mark'' : Array ℕ} {path : List ℕ} :
    mark[i]? = some r → r ≠ k → update? mark i (fun _ => k) = some mark' →
    parent[i]? = some (some p) → Walk parent k p mark' path mark'' →
    Walk parent k i mark (i :: path) mark''

/-- The walk from a row of column `k` reaches a marked node, at `k` or before. -/
theorem exists_walk {parent : Array (Option ℕ)} (hparent : Holds parent n (parentBelow E n))
    (hk : k < n) {fuel i : ℕ} {S : ℕ → Prop} {mark : Array ℕ} (h : Marked n k S mark)
    (hS : RowPart E k i S) (hi : i = k ∨ Fill E i k) (hfuel : k - i ≤ fuel) :
    ∃ path mark', Walk parent k i mark path mark' ∧ path.length ≤ fuel ∧
      Marked n k (fun j => S j ∨ j ∈ path) mark' ∧ RowPart E k k (fun j => S j ∨ j ∈ path) ∧
      (i = k ∨ S i ∨ i ∈ path) ∧ path.Pairwise (· < ·) ∧ ∀ j ∈ path, ¬ S j ∧ i ≤ j := by
  have hin : i < n := by
    rcases hi with rfl | hi
    · exact hk
    · exact hi.lt.trans hk
  obtain ⟨r, hr, hrk⟩ := h.get hin
  by_cases hrk' : r = k
  · have hmem := hrk.mp hrk'
    refine ⟨[], mark, .stop (hrk' ▸ hr), Nat.zero_le _, h.congr (by simp), ?_, hmem.imp id .inl,
      .nil, by simp⟩
    simpa using hS.close hmem
  · have hnot := fun hmem => hrk' (hrk.mpr hmem)
    have hfill : Fill E i k := hi.resolve_left fun heq => hnot (.inl heq)
    have hSi : ¬ S i := fun hmem => hnot (.inr hmem)
    obtain ⟨mark', hmark', hmarked⟩ := h.insert hin
    obtain ⟨hlt, hle, hnext⟩ := hfill.next
    cases fuel with
    | zero => have := hfill.lt; omega
    | succ fuel =>
      obtain ⟨path, mark'', hwalk, hlength, hmarked', hpart, -, hsorted, hnew⟩ :=
        exists_walk hparent hk hmarked (hS.insert hfill) hnext (show _ ≤ fuel by omega)
      have hset : ∀ j, ((S j ∨ j = i) ∨ j ∈ path) ↔ S j ∨ j ∈ i :: path := by
        simp [or_assoc]
      have hp : parent[i]? = some (some (nextBelow E k i)) := by
        rw [hparent.get i hin, parentBelow_eq_nextBelow hfill hk]
      refine ⟨i :: path, mark'', .pass hr hrk' hmark' hp hwalk, Nat.succ_le_succ hlength,
        hmarked'.congr hset, by simpa only [hset] using hpart, .inr (.inr (by simp)),
        List.pairwise_cons.mpr ⟨fun j hj => hlt.trans_le (hnew j hj).2, hsorted⟩, ?_⟩
      intro j hj
      rcases List.mem_cons.mp hj with rfl | hj
      · exact ⟨hSi, le_rfl⟩
      · exact ⟨fun hSj => (hnew j hj).1 (.inl hSj), hlt.le.trans (hnew j hj).2⟩

namespace Walk

variable {parent : Array (Option ℕ)} {i fuel : ℕ} {mark mark' : Array ℕ} {path : List ℕ}

/-- Climbing follows the walk.  On the stack the path takes the place of as many
entries behind those that are there. -/
theorem exists_climb? (h : Walk parent k i mark path mark') (hfuel : path.length ≤ fuel)
    {stack : Array ℕ} {pre old post : List ℕ} (hstack : stack.toList = pre ++ old ++ post)
    (hlength : old.length = path.length) :
    ∃ stack', climb? parent k fuel i mark stack pre.length =
        some (mark', stack', pre.length + path.length) ∧ stack'.toList = pre ++ path ++ post := by
  induction h generalizing fuel stack pre old with
  | stop hmark =>
    refine ⟨stack, ?_, by rw [hstack, List.length_eq_zero_iff.mp hlength]⟩
    cases fuel <;> simp [climb?, hmark]
  | @pass i r p mark mark' mark'' path hr hrk hmark hp _ ih =>
    cases fuel with
    | zero => cases hfuel
    | succ fuel =>
      cases old with
      | nil => cases hlength
      | cons x old =>
        have hroom : pre.length < stack.size := by
          have := congrArg List.length hstack
          simp at this
          omega
        have hpush : update? stack pre.length (fun _ => i) = some (stack.set pre.length i) :=
          dif_pos hroom
        have hstack' : (stack.set pre.length i).toList = pre ++ [i] ++ old ++ post := by
          simp [hstack]
        obtain ⟨stack', hclimb, hlist⟩ :=
          ih (Nat.le_of_succ_le_succ hfuel) hstack' (Nat.succ.inj hlength)
        refine ⟨stack', ?_, by simpa using hlist⟩
        rw [List.length_append, List.length_singleton] at hclimb
        simp only [climb?, hr, Option.bind_eq_bind, Option.bind_some, hrk, if_false, hpush, hmark,
          hp, hclimb]
        rw [List.length_cons, Nat.add_right_comm, Nat.add_assoc]

end Walk

/-! ## The stack -/

/-- Two entries of an array change places. -/
theorem exists_swap? {β : Type} {path mid pattern : List β} {a b : β} {stack : Array β}
    (h : stack.toList = path ++ a :: (mid ++ b :: pattern)) :
    ∃ stack', swap? stack (path.length + mid.length + 1) path.length = some stack' ∧
      stack'.toList = path ++ b :: (mid ++ a :: pattern) := by
  have hsize := congrArg List.length h
  simp only [Array.length_toList, List.length_append, List.length_cons] at hsize
  have hi : path.length + mid.length + 1 < stack.size ∧ path.length < stack.size := by omega
  refine ⟨_, dif_pos hi, ?_⟩
  have ha : stack[path.length] = a := by
    rw [← Array.getElem_toList, List.getElem_of_append h rfl]
  have hb : stack[path.length + mid.length + 1] = b := by
    rw [← Array.getElem_toList]
    exact List.getElem_of_append
      (show stack.toList = (path ++ a :: mid) ++ b :: pattern by simp [h]) (by simp; omega)
  rw [Array.toList_swap, h, ha, hb, List.set_append_right _ _ (by omega),
    show path.length + mid.length + 1 - path.length = mid.length + 1 by omega]
  simp

/-- Lifting a path puts it in front of the pattern. -/
theorem exists_lift? {path mid pattern : List ℕ} {stack : Array ℕ}
    (h : stack.toList = path ++ mid ++ pattern) :
    ∃ stack' mid', lift? path.length (path.length + mid.length) stack = some (stack', mid.length) ∧
      mid'.length = mid.length ∧ stack'.toList = mid' ++ (path ++ pattern) := by
  induction path using List.reverseRecOn generalizing mid pattern stack with
  | nil => exact ⟨stack, mid, by simp [lift?], rfl, by simpa using h⟩
  | append_singleton path a ih =>
    -- the last node of the path changes places with the entry below the pattern
    obtain ⟨stack', mid', hswap, hlength, hlist⟩ : ∃ stack' mid',
        swap? stack (path.length + mid.length) path.length = some stack' ∧
          mid'.length = mid.length ∧ stack'.toList = path ++ mid' ++ a :: pattern := by
      rcases mid.eq_nil_or_concat with rfl | ⟨mid, b, rfl⟩
      · have hlist : stack.toList = path ++ a :: pattern := by simpa using h
        have hlen : path.length < stack.size := by
          have := congrArg List.length hlist
          simp at this
          omega
        have ha : stack[path.length] = a := by
          rw [← Array.getElem_toList, List.getElem_of_append hlist rfl]
        refine ⟨_, [], dif_pos ⟨hlen, hlen⟩, rfl, ?_⟩
        simp [Array.toList_swap, hlist, ha]
      · obtain ⟨stack', hswap, hlist⟩ := exists_swap?
          (show stack.toList = path ++ a :: (mid ++ b :: pattern) by simpa using h)
        exact ⟨stack', b :: mid, by simpa [Nat.add_assoc] using hswap, by simp,
          by simpa using hlist⟩
    obtain ⟨stack'', mid'', hlift, hlength', hlist'⟩ := ih hlist
    refine ⟨stack'', mid'', ?_, hlength'.trans hlength, by simpa using hlist'⟩
    rw [List.length_append, List.length_singleton, Nat.add_right_comm, lift?, hswap]
    rw [hlength] at hlift
    exact hlift

/-- A walk of which there is room for the path below the pattern: the path is put
on the bottom of the stack, and from there in front of the pattern. -/
theorem Walk.exists_climb?_lift? {parent : Array (Option ℕ)} {i fuel : ℕ} {mark mark' : Array ℕ}
    {path front pattern : List ℕ} (h : Walk parent k i mark path mark')
    (hfuel : path.length ≤ fuel) {stack : Array ℕ} (hstack : stack.toList = front ++ pattern)
    (hroom : path.length ≤ front.length) :
    ∃ climbed lifted front', climb? parent k fuel i mark stack 0 =
        some (mark', climbed, path.length) ∧
      climbed.toList = path ++ (front.drop path.length ++ pattern) ∧
      lift? path.length front.length climbed = some (lifted, front'.length) ∧
      front'.length + path.length = front.length ∧ lifted.toList = front' ++ (path ++ pattern) := by
  have hsplit : stack.toList =
      [] ++ front.take path.length ++ (front.drop path.length ++ pattern) := by
    rw [hstack, List.nil_append, ← List.append_assoc, List.take_append_drop]
  obtain ⟨climbed, hclimb, hclimbed⟩ := h.exists_climb? hfuel hsplit (by simpa using hroom)
  obtain ⟨lifted, front', hlift, hlen, hlifted⟩ := exists_lift?
    (show climbed.toList = path ++ front.drop path.length ++ pattern by simpa using hclimbed)
  have htop : path.length + (front.drop path.length).length = front.length := by simp; omega
  rw [List.length_nil, Nat.zero_add] at hclimb
  rw [htop, ← hlen] at hlift
  exact ⟨climbed, lifted, front', hclimb, by simpa using hclimbed, hlift, by omega, hlifted⟩

/-! ## The pattern -/

/-- A list has the columns of `S`, each once, and each before those that it
fills. -/
structure RowPattern (E : ℕ → ℕ → Prop) (S : ℕ → Prop) (pattern : List ℕ) : Prop where
  /-- The list has the columns of the set. -/
  mem : ∀ i, i ∈ pattern ↔ S i
  /-- No column occurs twice. -/
  nodup : pattern.Nodup
  /-- A column does not fill an earlier one. -/
  order : pattern.Pairwise fun a b => ¬ Fill E b a

/-- A path in front of a pattern. -/
theorem RowPattern.cons_path {S : ℕ → Prop} {pattern path : List ℕ} (h : RowPattern E S pattern)
    (hS : RowPart E k k S) (hpath : RowPart E k k fun j => S j ∨ j ∈ path)
    (hsorted : path.Pairwise (· < ·)) (hnew : ∀ j ∈ path, ¬ S j) :
    RowPattern E (fun j => S j ∨ j ∈ path) (path ++ pattern) := by
  refine ⟨fun i => by simp [h.mem, or_comm], ?_, ?_⟩
  · rw [List.nodup_append]
    refine ⟨hsorted.imp fun hlt => hlt.ne, h.nodup, ?_⟩
    rintro a ha b hb rfl
    exact hnew a ha ((h.mem a).mp hb)
  · rw [List.pairwise_append]
    refine ⟨hsorted.imp fun hlt hfill => (hlt.trans hfill.lt).false, h.order, ?_⟩
    intro a ha b hb hfill
    exact hnew a ha
      (hS.mem_of_mem ((h.mem b).mp hb) hfill (hpath.fill a (.inr ha)).lt)

/-- A pattern of columns below `k` is not longer than `k`. -/
theorem RowPattern.length_le {S : ℕ → Prop} {pattern : List ℕ} (h : RowPattern E S pattern)
    (hS : ∀ j, S j → j < k) : pattern.length ≤ k := by
  have hsub : pattern ⊆ List.range k := fun j hj => List.mem_range.mpr (hS j ((h.mem j).mp hj))
  simpa using (List.subperm_of_subset h.nodup hsub).length_le

variable {α : Type} [Scalar α]

/-! ## Collecting a row -/

/-- The symbolic part of a factorisation is that of its triangle, there is room
for the factor, and the scratch is as every use leaves it. -/
structure Symbolic (F : Ldl α) : Prop where
  divided : F.permuted.Divided
  isTriu : F.permuted.IsTriu
  /-- There is a pivot for each column. -/
  ncols_eq : F.permuted.ncols = F.dim
  /-- The elimination tree. -/
  parent : Holds F.parent F.dim (parentBelow (Stored F.permuted) F.dim)
  /-- Each column of the factor has room for the rows that it fills. -/
  colPtr : Holds F.colPtr (F.dim + 1) (columnStart (Stored F.permuted) F.dim)
  size_rowIdx : F.rowIdx.size = columnStart (Stored F.permuted) F.dim F.dim
  size_values : F.values.size = columnStart (Stored F.permuted) F.dim F.dim
  /-- The rows of the factor, also those that are still to be replaced. -/
  rowIdx_lt : ∀ i ∈ F.rowIdx, i < F.dim
  /-- The scratch row is zero. -/
  y : F.y = Vec.zeros F.dim
  size_mark : F.mark.size = F.dim
  size_stack : F.stack.size = F.dim
  size_filled : F.filled.size = F.dim

/-- A column added to a row, entry by entry. -/
def scattered (col : List (ℕ × α)) (y : Array α) : Array α :=
  col.foldl (fun y e => y.modify e.1 (· + e.2)) y

theorem size_scattered (col : List (ℕ × α)) (y : Array α) : (scattered col y).size = y.size := by
  unfold scattered
  induction col generalizing y with
  | nil => rfl
  | cons e col ih =>
    rw [List.foldl_cons, ih]
    simp

theorem scattered_concat (col : List (ℕ × α)) (e : ℕ × α) (y : Array α) :
    scattered (col ++ [e]) y = (scattered col y).modify e.1 (· + e.2) := by
  simp [scattered]

theorem getElem?_scattered_of_ne {col : List (ℕ × α)} {j : ℕ} (h : ∀ e ∈ col, e.1 ≠ j)
    (y : Array α) : (scattered col y)[j]? = y[j]? := by
  unfold scattered
  induction col generalizing y with
  | nil => rfl
  | cons e col ih =>
    rw [List.foldl_cons, ih fun e' he' => h e' (by simp [he']), Array.getElem?_modify,
      if_neg (h e (by simp))]

variable {F : Ldl α}

/-- The rows of a column are the column itself or columns of its row. -/
theorem Symbolic.eq_or_fill (hF : F.Symbolic) (hk : k < F.dim) {e : ℕ × α}
    (he : e ∈ F.permuted.column k) : e.1 = k ∨ Fill (Stored F.permuted) e.1 k := by
  have hk' : k < F.permuted.ncols := hF.ncols_eq ▸ hk
  rw [hF.divided.column_eq_map hk'] at he
  obtain ⟨idx, hidx, rfl⟩ := List.mem_map.mp he
  exact eq_or_fill_of_mem_span (hF.divided.isTriu_iff.mp hF.isTriu k hk') hk' hidx

/-- Scattering one entry succeeds.  The path of its row comes in front of the
pattern, which is read from the stack. -/
theorem exists_scatter? {idx i : ℕ} {v : α} {w : Work α} {path pattern front : List ℕ}
    {mark : Array ℕ} (hrow : F.permuted.rowIdx[idx]? = some i)
    (hvalue : F.permuted.values[idx]? = some v) (hi : i < w.y.size)
    (hwalk : Walk F.parent k i w.mark path mark) (hfuel : path.length ≤ F.dim)
    (hstack : w.stack.toList = front ++ pattern) (hroom : path.length ≤ front.length) :
    ∃ stack front', scatter? F k (w, front.length) idx =
        some ({ w with y := w.y.modify i (· + v), mark := mark, stack := stack }, front'.length) ∧
      stack.size = w.stack.size ∧ stack.toList = front' ++ (path ++ pattern) := by
  obtain ⟨_, stack, front', hclimb, -, hlift, hlength, hlist⟩ :=
    hwalk.exists_climb?_lift? hfuel hstack hroom
  refine ⟨stack, front', ?_, ?_, hlist⟩
  · simp only [scatter?, hrow, hvalue, Option.bind_eq_bind, Option.bind_some, update?_of_lt _ hi,
      hclimb, hlift, Option.pure_def]
  · rw [← Array.length_toList, ← Array.length_toList, hlist, hstack]
    simp only [List.length_append]
    omega

/-- The entries `done` of column `k` have been scattered.  The nodes of their
paths are marked, and the pattern lists them. -/
structure Collecting (F : Ldl α) (k : ℕ) (done : List ℕ) (mark : Array ℕ) (pattern : List ℕ) :
    Prop where
  marked : Marked F.dim k (· ∈ pattern) mark
  part : RowPart (Stored F.permuted) k k (· ∈ pattern)
  inOrder : RowPattern (Stored F.permuted) (· ∈ pattern) pattern
  /-- The pattern has the rows of the entries. -/
  seen : ∀ idx ∈ done, F.permuted.row idx = k ∨ F.permuted.row idx ∈ pattern

namespace Collecting

variable {done : List ℕ} {mark : Array ℕ} {pattern : List ℕ}

omit [Scalar α] in
/-- Nothing has been scattered. -/
theorem nil (h : Marked F.dim k (fun _ => False) mark) : Collecting F k [] mark [] :=
  ⟨h.congr (by simp), by simpa using RowPart.empty k, ⟨by simp, .nil, .nil⟩, by simp⟩

omit [Scalar α] in
theorem length_le (h : Collecting F k done mark pattern) : pattern.length ≤ k :=
  h.inOrder.length_le fun j hj => (h.part.fill j hj).lt

/-- One entry more: the walk from its row ends at a marked node. -/
theorem exists_walk (h : Collecting F k done mark pattern) (hF : F.Symbolic) (hk : k < F.dim)
    {idx : ℕ} (hidx : idx ∈ F.permuted.span k) :
    ∃ path mark', Walk F.parent k (F.permuted.row idx) mark path mark' ∧ path.length ≤ F.dim ∧
      Collecting F k (done ++ [idx]) mark' (path ++ pattern) := by
  have hk' : k < F.permuted.ncols := hF.ncols_eq ▸ hk
  have htri := hF.divided.isTriu_iff.mp hF.isTriu k hk'
  obtain ⟨path, mark', hwalk, hfuel, hmarked, hpart, hmem, hsorted, hnew⟩ :=
    Ldl.exists_walk hF.parent hk h.marked (h.part.weaken _) (eq_or_fill_of_mem_span htri hk' hidx)
      (show k - F.permuted.row idx ≤ F.dim by omega)
  have hpattern := h.inOrder.cons_path h.part hpart hsorted fun j hj => (hnew j hj).1
  have hset : ∀ j, (j ∈ pattern ∨ j ∈ path) ↔ j ∈ path ++ pattern := by
    simp [or_comm]
  refine ⟨path, mark', hwalk, hfuel, hmarked.congr hset, by simpa only [hset] using hpart,
    ⟨fun _ => Iff.rfl, hpattern.nodup, hpattern.order⟩, fun idx' hidx' => ?_⟩
  rcases List.mem_append.mp hidx' with hidx' | hidx'
  · exact (h.seen idx' hidx').imp id (List.mem_append_right _)
  · rw [List.mem_singleton.mp hidx']
    exact hmem.imp id (hset _).mp

omit [Scalar α] in
/-- Once the whole column has been scattered, the pattern is that of the row. -/
theorem rowPattern (h : Collecting F k (F.permuted.span k) mark pattern) :
    RowPattern (Stored F.permuted) (fun i => Fill (Stored F.permuted) i k) pattern := by
  refine ⟨fun i => ⟨h.part.fill i, h.part.mem_of_fill fun i hE hlt => ?_⟩, h.inOrder.nodup,
    h.inOrder.order⟩
  obtain ⟨_, idx, hidx, rfl⟩ := hE
  exact (h.seen idx hidx).resolve_left hlt.ne

end Collecting

/-- Scattering the first entries of a column succeeds.  Marks and pattern do not
depend on the row and on what the stack has been used for. -/
theorem Symbolic.exists_scattered (hF : F.Symbolic) (hk : k < F.dim) {mark₀ : Array ℕ}
    (hmark₀ : Marked F.dim k (fun _ => False) mark₀) {done rest : List ℕ}
    (hspan : F.permuted.span k = done ++ rest) :
    ∃ mark pattern, Collecting F k done mark pattern ∧
      ∀ w : Work α, w.mark = mark₀ → w.y.size = F.dim → w.stack.size = F.dim →
        ∃ stack front, stack.size = F.dim ∧ stack.toList = front ++ pattern ∧
          done.foldlM (scatter? F k) (w, F.dim) = some ({ w with
            y := scattered (done.map fun idx => (F.permuted.row idx, F.permuted.value idx)) w.y
            mark := mark, stack := stack }, front.length) := by
  have hk' : k < F.permuted.ncols := hF.ncols_eq ▸ hk
  have htri := hF.divided.isTriu_iff.mp hF.isTriu k hk'
  let entry (idx : ℕ) : ℕ × α := (F.permuted.row idx, F.permuted.value idx)
  obtain ⟨⟨mark, pattern⟩, hcollecting, hloop⟩ :=
    Loop.exists_foldlM_of_simulation (l := done) (f := scatter? F k) (t := (mark₀, ([] : List ℕ)))
      (fun (done : List ℕ) (t : Array ℕ × List ℕ) => Collecting F k done t.1 t.2)
      (fun (s₀ : Work α × ℕ) done t s => ∃ stack front, stack.size = F.dim ∧ s₀.1.y.size = F.dim ∧
        s = ({ s₀.1 with
          y := scattered (done.map entry) s₀.1.y, mark := t.1, stack := stack }, front.length) ∧
        stack.toList = front ++ t.2)
      (.nil hmark₀) (by
        rintro done' idx rest' heq ⟨mark, pattern⟩ h
        have hidx : idx ∈ F.permuted.span k := by
          rw [hspan, heq]
          simp
        obtain ⟨path, mark', hwalk, hfuel, h'⟩ := h.exists_walk hF hk hidx
        refine ⟨(mark', path ++ pattern), h', ?_⟩
        rintro ⟨w, top⟩ _ ⟨stack, front, hsize, hy, rfl, hstack⟩
        have hroom : path.length ≤ front.length := by
          have hlen := congrArg List.length hstack
          have hle := h'.length_le
          rw [Array.length_toList, List.length_append, hsize] at hlen
          rw [List.length_append] at hle
          omega
        have hlt : F.permuted.row idx < (scattered (done'.map entry) w.y).size := by
          rw [size_scattered, hy]
          exact (htri idx hidx).trans_lt hk
        obtain ⟨stack', front', hscatter, hsize', hstack'⟩ := exists_scatter?
          (w := { w with y := scattered (done'.map entry) w.y, mark := mark, stack := stack })
          (hF.divided.row_eq hk' hidx) (hF.divided.value_eq hk' hidx) hlt hwalk hfuel hstack hroom
        refine ⟨_, hscatter, stack', front', hsize'.trans hsize, hy, ?_, hstack'⟩
        rw [List.map_append, List.map_singleton, scattered_concat])
  refine ⟨mark, pattern, hcollecting, fun w hwmark hy hstack => ?_⟩
  obtain ⟨_, hrun, stack, front, hsize, -, rfl, hlist⟩ := hloop (w, F.dim)
    ⟨w.stack, w.stack.toList, hstack, hy, by simp [scattered, hstack, ← hwmark], by simp⟩
  exact ⟨stack, front, hsize, hlist, hrun⟩

/-- Collecting a row succeeds.  It scatters the column and gives the pattern of
the row. -/
theorem Symbolic.exists_collect? (hF : F.Symbolic) (hk : k < F.dim) {mark : Array ℕ}
    (hmark : Unmarked F.dim k mark) :
    ∃ mark' pattern, Unmarked F.dim (k + 1) mark' ∧
      RowPattern (Stored F.permuted) (fun i => Fill (Stored F.permuted) i k) pattern ∧
      ∀ w : Work α, w.mark = mark → w.y.size = F.dim → w.stack.size = F.dim →
        ∃ stack, stack.size = F.dim ∧ F.collect? k w = some ({ w with
          y := scattered (F.permuted.column k) w.y, mark := mark', stack := stack }, pattern) := by
  have hk' : k < F.permuted.ncols := hF.ncols_eq ▸ hk
  obtain ⟨mark₀, hmark₀, hmarked⟩ := hmark.start hk
  obtain ⟨mark', pattern, hcollecting, hloop⟩ :=
    hF.exists_scattered hk hmarked (List.append_nil _).symm
  refine ⟨mark', pattern, hcollecting.marked.unmarked, hcollecting.rowPattern,
    fun w hwmark hy hstack => ?_⟩
  obtain ⟨stack, front, hsize, hlist, hrun⟩ := hloop { w with mark := mark₀ } rfl hy hstack
  have hslice : slice? stack front.length F.dim = some pattern.toArray := by
    have hlen := congrArg List.length hlist
    rw [Array.length_toList, List.length_append, hsize] at hlen
    rw [slice?_of_le (by omega) hsize.ge, ← hsize, Option.some.injEq, ← Array.toList_inj,
      Array.toList_extract, List.extract_eq_take_drop, hlist, List.drop_left]
    exact List.take_of_length_le (by omega)
  refine ⟨stack, hsize, ?_⟩
  rw [hF.divided.column_eq_map hk']
  simp only [collect?, hwmark, hmark₀, span?_eq hF.divided hk', Option.bind_eq_bind,
    Option.bind_some, hrun, hslice]
  rfl

end Conic.Ldl
