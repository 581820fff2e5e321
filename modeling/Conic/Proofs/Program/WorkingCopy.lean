import Conic.Proofs.Cone.Boundary
import Conic.Proofs.Embedding.Residuals
import Conic.Proofs.Program.Partition
import Conic.Proofs.Sparse.Columns
import Conic.Solver.Basic

/-!
# Working copies in exact arithmetic

`WorkingCopy.Copies` says what a working copy of a program holds: the columns
of the program in working order, and a cone with a block for the half lines and
one for each second-order cone.  It follows that its parts fit together
(`WorkingCopy.Copies.wellFormed`) and that the cone has an interior
(`WorkingCopy.Copies.isInterior_unit`).
-/

namespace Conic

open Vec

/-- Validity does not depend on the entries of the point. -/
theorem Program.validate_congr {α : Type} {p₁ p₂ : Program α}
    (hdata : p₂ = { p₁ with x := p₂.x, w := p₂.w, s := p₂.s })
    (hsizes : p₂.x.size = p₁.x.size ∧ p₂.w.size = p₁.w.size ∧ p₂.s.size = p₁.s.size) :
    p₂.validate = p₁.validate := by
  rw [hdata]
  simp only [validate, hsizes]

/-- A program of given parts starts from the zero point. -/
theorem Program.ofParts_eq_ok_iff {α : Type} [Scalar α] {A : Csc α} {b c : Array α}
    {cones : List (ConeSpec ℕ)} {map : VariableMap} {p : Program α} :
    ofParts A b c cones map = .ok p ↔ p = ⟨A, b, c, zeros c.size, zeros b.size, zeros c.size,
      cones, map⟩ ∧ p.validate = .ok () := by
  simp only [ofParts, bind_eq_ok_iff]
  constructor
  · rintro ⟨_, hvalid, hp⟩
    cases hp
    exact ⟨rfl, hvalid⟩
  · rintro ⟨rfl, hvalid⟩
    exact ⟨(), hvalid, rfl⟩

/-! ## What a working copy holds -/

namespace WorkingCopy

variable {α : Type} [Scalar α]

/-- The blocks of the cones of a program. -/
def blocks (cones : List (ConeSpec ℕ)) : List (Block α) :=
  (if 0 < (orthantColumns cones).length then [.orthant (.ofDim (orthantColumns cones).length)]
    else []) ++
    (secondOrderColumns cones).map fun cols => .secondOrder (.ofDim cols.length)

/-- The working copy of a valid program. -/
structure Copies (W : WorkingCopy α) (p : Program α) : Prop where
  /-- The arrays of the program are a matrix. -/
  matrix : p.A.WellFormed
  /-- The vectors of the program have the lengths of the matrix. -/
  sizes : p.b.size = p.A.nrows ∧ p.c.size = p.A.ncols ∧ p.x.size = p.A.ncols ∧
    p.w.size = p.A.nrows ∧ p.s.size = p.A.ncols
  /-- The cones name every column once. -/
  covered : (p.cones.flatMap ConeSpec.indices).Perm (List.range p.A.ncols)
  /-- Every second-order cone bounds something. -/
  bounded : ∀ bound, .secondOrder bound [] ∉ p.cones
  /-- The columns are those of the program in working order. -/
  perm : W.perm = order p.cones
  A : W.A = Csc.ofColumns p.A.nrows (W.perm.map p.A.column)
  b : W.b = p.b
  c : W.c = (W.perm.map fun j => p.c.getD j 0).toArray
  cones : W.cones = ⟨blocks p.cones⟩

theorem checkLength_eq_ok_iff {what : Operand} {expected found : ℕ} {u : Unit} :
    Program.checkLength what expected found = .ok u ↔ expected = found := by
  rw [Program.checkLength]
  split <;> simp [*]

/-- What validation establishes about a program. -/
structure Validated (p : Program α) : Prop where
  matrix : p.A.WellFormed
  sizes : p.b.size = p.A.nrows ∧ p.c.size = p.A.ncols ∧ p.x.size = p.A.ncols ∧
    p.w.size = p.A.nrows ∧ p.s.size = p.A.ncols
  covered : (p.cones.flatMap ConeSpec.indices).Perm (List.range p.A.ncols)
  bounded : ∀ bound, .secondOrder bound [] ∉ p.cones

omit [Scalar α] in
/-- Validation accepts exactly the programs whose parts fit together. -/
theorem validate_eq_ok_iff {p : Program α} :
    p.validate = .ok () ↔ Validated p ∧ p.map.check p.A.ncols = .ok () := by
  simp only [Program.validate, bind_eq_ok_iff, Fault.lift_eq_ok_iff, Fault.mapCause_eq_ok_iff,
    checkLength_eq_ok_iff, Program.checkPartition_eq_ok_iff]
  constructor
  · rintro ⟨_, hb, _, hc, _, hx, _, hw, _, hs, _, hformat, _, hmap, hperm, hbounded⟩
    exact ⟨⟨Csc.checkFormat_eq_ok_iff.mp hformat,
      ⟨hb.symm, hc.symm, hx.symm, hw.symm, hs.symm⟩, hperm, hbounded⟩, hmap⟩
  · rintro ⟨⟨hmatrix, ⟨hb, hc, hx, hw, hs⟩, hperm, hbounded⟩, hmap⟩
    exact ⟨(), hb.symm, (), hc.symm, (), hx.symm, (), hw.symm, (), hs.symm, (),
      Csc.checkFormat_eq_ok_iff.mpr hmatrix, (), hmap, hperm, hbounded⟩

omit [Scalar α] in
theorem validated_of_validate {p : Program α} (h : p.validate = .ok ()) : Validated p :=
  (validate_eq_ok_iff.mp h).1

omit [Scalar α] in
theorem Validated.lt_of_mem_order {p : Program α} (h : Validated p) {j : ℕ}
    (hj : j ∈ order p.cones) : j < p.A.ncols :=
  List.mem_range.mp ((perm_order p.cones).trans h.covered |>.mem_iff.mp hj)

/-- The working copy of a program, put together. -/
def copy (p : Program α) : WorkingCopy α where
  A := Csc.ofColumns p.A.nrows ((order p.cones).map p.A.column)
  b := p.b
  c := ((order p.cones).map fun j => p.c.getD j 0).toArray
  cones := ⟨blocks p.cones⟩
  perm := order p.cones

/-- A second-order cone of a validated program has a bound and bounds something. -/
theorem Validated.ofDims_eq {p : Program α} (h : Validated p) :
    Composite.ofDims (orthantColumns p.cones).length
      ((secondOrderColumns p.cones).map List.length) = .ok (⟨blocks p.cones⟩ : Composite α) := by
  have hdims : ((secondOrderColumns p.cones).map List.length).find? (· < 2) = none := by
    rw [List.find?_eq_none]
    intro dim hdim
    obtain ⟨cols, hcols, rfl⟩ := List.mem_map.mp hdim
    obtain ⟨bound, vector, hK, rfl⟩ := mem_secondOrderColumns.mp hcols
    cases vector with
    | nil => exact absurd hK (h.bounded bound)
    | cons => simp
  rw [Composite.ofDims, hdims]
  simp only [blocks, List.map_map]
  rfl

/-- Checking out a program validates it.  A program that is valid has a copy. -/
theorem checkOut_eq_ok_iff {p : Program α} {W : WorkingCopy α} :
    checkOut p = .ok W ↔ p.validate = .ok () ∧ W = copy p := by
  have hcopy (h : Validated p) : p.A.permuteColumns? (order p.cones) = some (copy p).A ∧
      (order p.cones).mapM (fun j => p.c[j]?) =
        some ((order p.cones).map fun j => p.c.getD j 0) := by
    refine ⟨Csc.permuteColumns?_eq h.matrix.toDivided fun j hj => h.lt_of_mem_order hj,
      Loop.mapM_eq_some _ fun j hj => ?_⟩
    have hj' : j < p.c.size := h.sizes.2.1 ▸ h.lt_of_mem_order hj
    simp [Array.getD, hj']
  simp only [checkOut, bind_eq_ok_iff, Fault.ofOption_eq_ok_iff, Fault.mapCause_eq_ok_iff,
    Fault.lift_eq_ok_iff]
  constructor
  · rintro ⟨_, hvalid, A, hA, c, hc, K, hK, hW⟩
    have h := validated_of_validate hvalid
    obtain ⟨hA', hc'⟩ := hcopy h
    obtain rfl := Option.some.inj (hA.symm.trans hA')
    obtain rfl := Option.some.inj (hc.symm.trans hc')
    obtain rfl := Except.ok.inj (hK.symm.trans h.ofDims_eq)
    exact ⟨hvalid, (Except.ok.inj hW).symm⟩
  · rintro ⟨hvalid, rfl⟩
    have h := validated_of_validate hvalid
    obtain ⟨hA, hc⟩ := hcopy h
    exact ⟨(), hvalid, _, hA, _, hc, _, h.ofDims_eq, rfl⟩

theorem copies_of_checkOut {p : Program α} {W : WorkingCopy α} (h : checkOut p = .ok W) :
    W.Copies p := by
  obtain ⟨hvalid, rfl⟩ := checkOut_eq_ok_iff.mp h
  have h := validated_of_validate hvalid
  exact ⟨h.matrix, h.sizes, h.covered, h.bounded, rfl, rfl, rfl, rfl, rfl⟩

theorem numel_blocks (cones : List (ConeSpec ℕ)) :
    (Composite.mk (blocks cones : List (Block α))).numel = (order cones).length := by
  have hsum (bs : List (Block α)) : (Composite.mk bs).numel = (bs.map Block.numel).sum := by
    induction bs with
    | nil => rfl
    | cons b bs ih => rw [Composite.numel_cons, ih, List.map_cons, List.sum_cons]
  have hcones : ((secondOrderColumns cones).map fun cols =>
      Block.numel (.secondOrder (.ofDim cols.length) : Block α)) =
        (secondOrderColumns cones).map List.length :=
    List.map_congr_left fun cols _ => SecondOrder.numel_ofDim cols.length
  rw [hsum, blocks, List.map_append, List.sum_append, List.map_map, order, List.length_append,
    List.length_flatten]
  congr 1
  · split
    next => simp [Block.numel]
    next hpos => simp [Nat.le_zero.mp (not_lt.mp hpos)]
  · exact congrArg List.sum hcones

/-! ## The pieces of a vector -/

theorem pieces_secondOrder {β : Type} (f : ℕ → β) (cols : List (List ℕ)) :
    Composite.pieces (cols.map fun c => (.secondOrder (.ofDim c.length) : Block α))
      (cols.flatten.map f) = cols.map (List.map f) := by
  induction cols with
  | nil => rfl
  | cons c cols ih =>
    have hnumel : (.secondOrder (.ofDim c.length) : Block α).numel = (c.map f).length := by
      simp [Block.numel]
    rw [List.map_cons, List.flatten_cons, List.map_append, Composite.pieces,
      List.take_left' hnumel.symm, List.drop_left' hnumel.symm, ih, List.map_cons]

/-- The blocks cut a vector in working order into the values of the half lines and
of each second-order cone. -/
theorem pieces_blocks {β : Type} (f : ℕ → β) (cones : List (ConeSpec ℕ)) :
    Composite.pieces (blocks cones : List (Block α)) ((order cones).map f) =
      (if 0 < (orthantColumns cones).length then [(orthantColumns cones).map f] else []) ++
        (secondOrderColumns cones).map (List.map f) := by
  rw [blocks, order, List.map_append]
  split
  next =>
    have hnumel : (.orthant (.ofDim (orthantColumns cones).length) : Block α).numel =
        ((orthantColumns cones).map f).length := by simp [Block.numel]
    rw [List.singleton_append, Composite.pieces, List.take_left' hnumel.symm,
      List.drop_left' hnumel.symm, pieces_secondOrder, List.singleton_append]
  next hempty =>
    have hnil : orthantColumns cones = [] :=
      List.length_eq_zero_iff.mp (Nat.le_zero.mp (not_lt.mp hempty))
    rw [hnil]
    simp only [List.map_nil, List.nil_append]
    exact pieces_secondOrder f _

/-- The pieces satisfy the conditions of their blocks if the values satisfy the
conditions of the cones. -/
theorem each_blocks_iff {β : Type} {P : Block α → List β → Prop} {Q : ConeSpec ℕ → Prop}
    {f : ℕ → β}
    (horthant : ∀ (K : Orthant α) (cols : List ℕ),
      P (.orthant K) (cols.map f) ↔ ∀ i ∈ cols, Q (.nonnegative i))
    (hsecond : ∀ (K : SecondOrder α) (bound : ℕ) (vector : List ℕ),
      P (.secondOrder K) ((bound :: vector).map f) ↔ Q (.secondOrder bound vector))
    (cones : List (ConeSpec ℕ)) :
    Composite.Each P (blocks cones) ((order cones).map f) ↔ ∀ K ∈ cones, Q K := by
  have hparts : Composite.Each P (blocks cones) ((order cones).map f) ↔
      (∀ i ∈ orthantColumns cones, Q (.nonnegative i)) ∧
        ∀ cols ∈ secondOrderColumns cones, P (.secondOrder (.ofDim cols.length)) (cols.map f) := by
    rw [Composite.Each, pieces_blocks, blocks, List.zip_append (by split <;> rfl), List.zip_map',
      List.forall_mem_append, List.forall_mem_map]
    refine and_congr ?_ Iff.rfl
    split
    next => simp [horthant]
    next hempty => simp [List.length_eq_zero_iff.mp (Nat.le_zero.mp (not_lt.mp hempty))]
  rw [hparts]
  constructor
  · rintro ⟨hfirst, hrest⟩ K hK
    cases K with
    | nonnegative i => exact hfirst i (mem_orthantColumns.mpr hK)
    | secondOrder bound vector =>
      exact (hsecond _ bound vector).mp
        (hrest _ (mem_secondOrderColumns.mpr ⟨bound, vector, hK, rfl⟩))
  · intro hall
    refine ⟨fun i hi => hall _ (mem_orthantColumns.mp hi), fun cols hcols => ?_⟩
    obtain ⟨bound, vector, hK, rfl⟩ := mem_secondOrderColumns.mp hcols
    exact (hsecond _ bound vector).mpr (hall _ hK)

namespace Copies

variable {W : WorkingCopy α} {p : Program α} (h : W.Copies p)

include h

/-- The working order is a permutation of the columns. -/
theorem perm_range : W.perm.Perm (List.range p.A.ncols) := by
  rw [h.perm]
  exact (perm_order p.cones).trans h.covered

theorem length_perm : W.perm.length = p.A.ncols := by
  simpa using h.perm_range.length_eq

theorem lt_of_mem_perm {j : ℕ} (hj : j ∈ W.perm) : j < p.A.ncols :=
  List.mem_range.mp (h.perm_range.mem_iff.mp hj)

theorem nrows_eq : W.A.nrows = p.A.nrows := by rw [h.A, Csc.ofColumns]

theorem ncols_eq : W.A.ncols = W.perm.length := by rw [h.A, Csc.ofColumns, List.length_map]

theorem size_b : W.b.size = W.A.nrows := by rw [h.b, h.nrows_eq, h.sizes.1]

theorem size_c : W.c.size = W.A.ncols := by
  rw [h.c, h.ncols_eq, List.size_toArray, List.length_map]

/-- The cone of a working copy has a coordinate for each column. -/
theorem regular : W.cones.Regular W.A.ncols where
  numel := by rw [h.cones, numel_blocks, h.ncols_eq, h.perm]
  blocks b hb := by
    rw [h.cones] at hb
    rcases List.mem_append.mp hb with hb | hb
    · split at hb
      next =>
        rw [List.mem_singleton.mp hb]
        trivial
      next => simp at hb
    · obtain ⟨cols, -, rfl⟩ := List.mem_map.mp hb
      show SecondOrder.Regular _
      simp [SecondOrder.Regular, SecondOrder.ofDim]

end Copies

end WorkingCopy

variable [Machine]

/-! ## The interior of the identity -/

namespace Composite

theorem isInterior_blockUnit {b : Block ℝ} (h : 0 < b.numel) : b.isInterior b.unit = true := by
  cases b with
  | orthant K => simp [Block.isInterior, Block.unit, Orthant.isInterior]
  | secondOrder K =>
    obtain ⟨n, hn⟩ : ∃ n, K.numel = n + 1 := ⟨K.numel - 1, (Nat.succ_pred_eq_of_pos h).symm⟩
    have hunit : (SecondOrder.unit (n + 1) : List ℝ) = 1 :: List.replicate n 0 := by
      simp [SecondOrder.unit]
    show SecondOrder.isInterior (SecondOrder.unit K.numel) = true
    rw [hn, hunit]
    simp [SecondOrder.isInterior, SecondOrder.residual, SecondOrder.sumsq,
      SecondOrder.inner_replicate_zero]

/-- The identity of a cone without empty blocks is interior. -/
theorem isInterior_unit {K : Composite ℝ} (h : ∀ b ∈ K.blocks, 0 < b.numel) :
    K.isInterior K.unit = true := by
  obtain ⟨blocks⟩ := K
  show InteriorOn blocks (blocks.flatMap Block.unit)
  induction blocks with
  | nil => rfl
  | cons b bs ih =>
    rw [interiorOn_cons, List.flatMap_cons, List.take_left' b.length_unit,
      List.drop_left' b.length_unit]
    exact ⟨isInterior_blockUnit (h b (by simp)), ih fun b' hb' => h b' (by simp [hb'])⟩

end Composite

/-! ## The parts of a working copy -/

namespace WorkingCopy

namespace Copies

variable {W : WorkingCopy ℝ} {p : Program ℝ} (h : W.Copies p)

include h

/-- The parts of a working copy fit together. -/
theorem wellFormed : W.WellFormed where
  matrix := by
    rw [h.A]
    refine Csc.wellFormed_ofColumns fun col hcol => ?_
    obtain ⟨j, hj, rfl⟩ := List.mem_map.mp hcol
    have hj := h.lt_of_mem_perm hj
    exact ⟨h.matrix.sorted j hj, fun e he => h.matrix.toValid.row_lt_of_mem_column hj he⟩
  size_b := h.size_b
  size_c := h.size_c
  numel := h.regular.numel

/-- The cone of a working copy has an interior. -/
theorem isInterior_unit : W.cones.isInterior W.cones.unit = true := by
  refine Composite.isInterior_unit fun b hb => ?_
  rw [h.cones] at hb
  rcases List.mem_append.mp hb with hb | hb
  · split at hb
    next hpos =>
      rw [List.mem_singleton.mp hb]
      simpa [Block.numel] using hpos
    next => simp at hb
  · obtain ⟨cols, hcols, rfl⟩ := List.mem_map.mp hb
    obtain ⟨bound, vector, -, rfl⟩ := mem_secondOrderColumns.mp hcols
    simp [Block.numel]

end Copies

end WorkingCopy

end Conic
