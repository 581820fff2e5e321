import Conic.Proofs.Cone.Blocks

/-!
# The laws of a composite cone

The operations of a composite cone are those of the product of its blocks
(`Composite.operations`), so a composite cone that is scaled block by block
satisfies the laws (`Composite.ScaledAt.laws`).  An update that succeeds scales
every block at its piece of the points (`Composite.scaledAt_updateScaling`).

An update keeps the *shape* of the cone: the kinds and the dimensions of its
blocks (`Composite.shape_updateScaling`).
-/

namespace Conic

open Vec

variable [Machine]

namespace Composite

/-- The operations of a composite cone. -/
noncomputable def operations (K : Composite ℝ) : Operations :=
  K.blocks.foldr (fun b o => b.operations.prod o) .trivial

theorem operations_cons (b : Block ℝ) (bs : List (Block ℝ)) :
    (mk (b :: bs)).operations = b.operations.prod (mk bs).operations := rfl

theorem dim_block (b : Block ℝ) : b.operations.dim = b.numel := by
  cases b <;> rfl

theorem degree_block (b : Block ℝ) : b.operations.degree = b.degree := by
  cases b <;> rfl

theorem dim_operations (K : Composite ℝ) : K.operations.dim = K.numel := by
  obtain ⟨blocks⟩ := K
  induction blocks with
  | nil => rfl
  | cons b bs ih =>
    rw [operations_cons, numel_cons, ← ih, ← dim_block]
    rfl

theorem degree_operations (K : Composite ℝ) : K.operations.degree = K.degree := by
  obtain ⟨blocks⟩ := K
  induction blocks with
  | nil => rfl
  | cons b bs ih =>
    show b.operations.degree + (mk bs).operations.degree = b.degree + (mk bs).degree
    rw [ih, degree_block]

theorem toList_unit (K : Composite ℝ) : K.unit.toList = K.operations.unit := by
  obtain ⟨blocks⟩ := K
  induction blocks with
  | nil => rfl
  | cons b bs ih =>
    have hunit : b.unit = b.operations.unit := by
      cases b <;> rfl
    show b.unit ++ (mk bs).unit.toList = b.operations.unit ++ (mk bs).operations.unit
    rw [ih, hunit]

/-! ## Operations block by block -/

section

variable (K : Composite ℝ)

/-- An operation on one vector, as an operation of the product. -/
theorem eachBlock_eq {f : Block ℝ → List ℝ → List ℝ} {g : Operations → List ℝ → List ℝ}
    (hblock : ∀ b v, f b v = g b.operations v) (hnil : ∀ v, g .trivial v = [])
    (hprod : ∀ o₁ o₂ v, g (Operations.prod o₁ o₂) v =
      g o₁ (v.take o₁.dim) ++ g o₂ (v.drop o₁.dim)) (v : Array ℝ) :
    (K.eachBlock f v).toList = g K.operations v.toList := by
  obtain ⟨blocks⟩ := K
  rw [eachBlock, List.toList_toArray]
  generalize v.toList = v
  induction blocks generalizing v with
  | nil => exact (hnil v).symm
  | cons b bs ih =>
    rw [operations_cons, hprod, ← ih, ← hblock, dim_block]
    rfl

/-- An operation on two vectors, as an operation of the product. -/
theorem eachBlock₂_eq {f : Block ℝ → List ℝ → List ℝ → List ℝ}
    {g : Operations → List ℝ → List ℝ → List ℝ} (hblock : ∀ b u v, f b u v = g b.operations u v)
    (hnil : ∀ u v, g .trivial u v = []) (hprod : ∀ o₁ o₂ u v, g (Operations.prod o₁ o₂) u v =
      g o₁ (u.take o₁.dim) (v.take o₁.dim) ++ g o₂ (u.drop o₁.dim) (v.drop o₁.dim))
    (u v : Array ℝ) : (K.eachBlock₂ f u v).flatten = g K.operations u.toList v.toList := by
  obtain ⟨blocks⟩ := K
  rw [eachBlock₂]
  generalize u.toList = u
  generalize v.toList = v
  induction blocks generalizing u v with
  | nil => exact (hnil u v).symm
  | cons b bs ih =>
    rw [operations_cons, hprod, ← ih, ← hblock, dim_block]
    rfl

theorem toList_mulTheta (v : Array ℝ) : (K.mulTheta v).toList = K.operations.theta v.toList :=
  K.eachBlock_eq (g := Operations.theta) (fun b _ => by cases b <;> rfl) (fun _ => rfl)
    (fun _ _ _ => rfl) v

theorem toList_mulThetaInv (v : Array ℝ) :
    (K.mulThetaInv v).toList = K.operations.thetaInv v.toList :=
  K.eachBlock_eq (g := Operations.thetaInv) (fun b _ => by cases b <;> rfl) (fun _ => rfl)
    (fun _ _ _ => rfl) v

theorem toList_mulThetaSq (v : Array ℝ) :
    (K.mulThetaSq v).toList = K.operations.thetaSq v.toList :=
  K.eachBlock_eq (g := Operations.thetaSq) (fun b _ => by cases b <;> rfl) (fun _ => rfl)
    (fun _ _ _ => rfl) v

theorem toList_circ (u v : Array ℝ) :
    (K.circ u v).toList = K.operations.circ u.toList v.toList :=
  K.eachBlock₂_eq (g := Operations.circ) (fun b _ _ => by cases b <;> rfl) (fun _ _ => rfl)
    (fun _ _ _ _ => rfl) u v

theorem toList_invCirc (u v : Array ℝ) :
    (K.invCirc u v).toList = K.operations.invCirc u.toList v.toList :=
  K.eachBlock₂_eq (g := Operations.invCirc) (fun b _ _ => by cases b <;> rfl) (fun _ _ => rfl)
    (fun _ _ _ _ => rfl) u v

/-- Nothing stands behind the blocks of a vector of the dimension of the cone. -/
theorem toList_addScaledE (a : ℝ) {v : Array ℝ} (hv : v.size = K.numel) :
    (K.addScaledE a v).toList = K.operations.addScaledE a v.toList := by
  have hrest : v.extract K.numel v.size = #[] := by
    rw [hv]
    simp
  rw [addScaledE, hrest, Array.append_empty]
  exact K.eachBlock_eq (g := fun o => o.addScaledE a) (fun b _ => by cases b <;> rfl)
    (fun _ => rfl) (fun _ _ _ => rfl) v

end

/-! ## Scaling -/

/-- The blocks are scaled at the pieces of a pair of points. -/
inductive ScaledAt : List (Block ℝ) → List ℝ → List ℝ → Prop
  /-- There is nothing to scale. -/
  | nil : ScaledAt [] [] []
  /-- A block is scaled at the first pieces, and the others at the rest. -/
  | cons {b : Block ℝ} {bs : List (Block ℝ)} {x s xs ss : List ℝ} :
      b.IsScaling x s → ScaledAt bs xs ss → ScaledAt (b :: bs) (x ++ xs) (s ++ ss)

/-- A scaled cone satisfies the laws. -/
theorem ScaledAt.laws {blocks : List (Block ℝ)} {x s : List ℝ} (h : ScaledAt blocks x s) :
    (mk blocks).operations.Laws x s := by
  induction h with
  | nil => exact Operations.laws_trivial
  | cons hb _ ih => exact hb.laws.prod ih

/-- The kind of a block with its dimension. -/
noncomputable def shapeOf : Block ℝ → ℕ ⊕ ℕ
  | .orthant K => .inl K.numel
  | .secondOrder K => .inr K.numel

/-- The kinds and the dimensions of the blocks. -/
noncomputable def shape (K : Composite ℝ) : List (ℕ ⊕ ℕ) := K.blocks.map shapeOf

theorem length_reflection (b : Block ℝ) : b.reflection.length = b.numel := by
  cases b with
  | orthant K => exact List.length_replicate
  | secondOrder K => exact SecondOrder.length_reflection _

theorem toList_reflection (K : Composite ℝ) :
    K.reflection.toList = K.blocks.flatMap Block.reflection := by
  rw [Composite.reflection, List.toList_toArray]
  refine List.flatMap_congr fun b _ => ?_
  cases b <;> rfl

/-- The updates of the blocks. -/
noncomputable def updates (blocks : List (Block ℝ)) (x s refl : List ℝ) :
    List (Bool × Block ℝ) :=
  List.zipWith (fun b p => b.updateScaling p.1 p.2.1 p.2.2) blocks
    ((pieces blocks x).zip ((pieces blocks s).zip (pieces blocks refl)))

theorem updateScaling_eq (K : Composite ℝ) (x s refl : Array ℝ) :
    K.updateScaling x s refl =
      ((updates K.blocks x.toList s.toList refl.toList).all (·.1),
        ⟨(updates K.blocks x.toList s.toList refl.toList).map (·.2)⟩) := rfl

theorem updates_cons (b : Block ℝ) (bs : List (Block ℝ)) (x s refl : List ℝ) :
    updates (b :: bs) x s refl =
      b.updateScaling (x.take b.numel) (s.take b.numel) (refl.take b.numel) ::
        updates bs (x.drop b.numel) (s.drop b.numel) (refl.drop b.numel) := rfl

theorem shapeOf_updateScaling {b : Block ℝ} {x s refl : List ℝ} (hx : x.length = b.numel)
    (h : (b.updateScaling x s refl).2.IsScaling x s) :
    shapeOf (b.updateScaling x s refl).2 = shapeOf b := by
  cases b with
  | orthant K => exact congrArg Sum.inl ((Orthant.IsScaling.length h).1.symm.trans hx)
  | secondOrder K => exact congrArg Sum.inr ((SecondOrder.IsScaling.length h).1.symm.trans hx)

theorem scaledAt_updates {blocks : List (Block ℝ)} {x s : List ℝ}
    (hx : x.length = (mk blocks).numel) (hs : s.length = (mk blocks).numel)
    (h : (updates blocks x s (blocks.flatMap Block.reflection)).all (·.1) = true) :
    ScaledAt ((updates blocks x s (blocks.flatMap Block.reflection)).map (·.2)) x s ∧
      ((updates blocks x s (blocks.flatMap Block.reflection)).map (·.2)).map shapeOf =
        blocks.map shapeOf := by
  induction blocks generalizing x s with
  | nil =>
    rw [List.length_eq_zero_iff.mp hx, List.length_eq_zero_iff.mp hs]
    exact ⟨.nil, rfl⟩
  | cons b bs ih =>
    rw [numel_cons] at hx hs
    have hreflTake : (b.reflection ++ bs.flatMap Block.reflection).take b.numel = b.reflection :=
      List.take_left' (length_reflection b)
    have hreflDrop : (b.reflection ++ bs.flatMap Block.reflection).drop b.numel =
        bs.flatMap Block.reflection := List.drop_left' (length_reflection b)
    rw [List.flatMap_cons, updates_cons, hreflTake, hreflDrop, List.all_cons, Bool.and_eq_true] at h
    have hxTake : (x.take b.numel).length = b.numel := by simp [hx]
    have hscaling := Block.isScaling_updateScaling hxTake (s := s.take b.numel) (by simp [hs]) h.1
    obtain ⟨hrest, hshape⟩ := ih (x := x.drop b.numel) (s := s.drop b.numel) (by simp [hx])
      (by simp [hs]) h.2
    rw [List.flatMap_cons, updates_cons, hreflTake, hreflDrop, List.map_cons, List.map_cons,
      List.map_cons, hshape, shapeOf_updateScaling hxTake hscaling]
    refine ⟨?_, rfl⟩
    have := ScaledAt.cons hscaling hrest
    rwa [List.take_append_drop, List.take_append_drop] at this

section

variable {K : Composite ℝ} {x s : Array ℝ} (hx : x.size = K.numel) (hs : s.size = K.numel)
  (h : (K.updateScaling x s K.reflection).1 = true)

include hx hs h

/-- An update that succeeds scales the cone at the points. -/
theorem scaledAt_updateScaling :
    ScaledAt (K.updateScaling x s K.reflection).2.blocks x.toList s.toList := by
  rw [updateScaling_eq, toList_reflection] at h ⊢
  exact (scaledAt_updates (by simpa using hx) (by simpa using hs) h).1

/-- An update that succeeds keeps the shape of the cone. -/
theorem shape_updateScaling : (K.updateScaling x s K.reflection).2.shape = K.shape := by
  rw [updateScaling_eq, toList_reflection] at h ⊢
  exact (scaledAt_updates (by simpa using hx) (by simpa using hs) h).2

end

/-! ## What the shape determines -/

omit [Machine] in
theorem numel_eq_of_shape {K K' : Composite ℝ} (h : K'.shape = K.shape) : K'.numel = K.numel := by
  have hsum (K : Composite ℝ) : K.numel = (K.shape.map (Sum.elim id id)).sum := by
    obtain ⟨blocks⟩ := K
    induction blocks with
    | nil => rfl
    | cons b bs ih =>
      rw [numel_cons, ih]
      cases b <;> rfl
  rw [hsum, hsum, h]

omit [Machine] in
theorem degree_eq_of_shape {K K' : Composite ℝ} (h : K'.shape = K.shape) :
    K'.degree = K.degree := by
  have hsum (K : Composite ℝ) : K.degree = (K.shape.map (Sum.elim id fun _ => 1)).sum := by
    obtain ⟨blocks⟩ := K
    induction blocks with
    | nil => rfl
    | cons b bs ih =>
      show b.degree + (mk bs).degree = _
      rw [ih]
      cases b <;> rfl
  rw [hsum, hsum, h]

theorem reflection_eq_of_shape {K K' : Composite ℝ} (h : K'.shape = K.shape) :
    K'.reflection = K.reflection := by
  have hflat (K : Composite ℝ) : K.reflection.toList = K.shape.flatMap
      (Sum.elim (fun n => List.replicate n 1) SecondOrder.reflection) := by
    rw [toList_reflection, shape, List.flatMap_map]
    refine List.flatMap_congr fun b _ => ?_
    cases b <;> rfl
  rw [← Array.toList_inj, hflat, hflat, h]

end Composite

end Conic
