import Conic.Proofs.Cone.Boundary

/-!
# Division in a composite cone

At an interior point the Jordan product and its division are inverse to each other
(`Operations.Divides`).  A product of blocks divides if each block does, and each
block does at an interior point, whatever it is scaled with
(`Composite.divides_of_interior`).

The trace of a vector adds up the coordinates in the orthant and the bounds of the
second-order cones.  The trace of a Jordan product is the inner product
(`Composite.trace_circ`).

A product can be written into a vector that holds something else.  Each block writes
over its own range, and nothing is left of what the vector held
(`Composite.into_eq`).
-/

namespace Conic

open Vec

/-! ## Results that are written over a vector -/

/-- The list with a part of it replaced from an index on. -/
def Vec.overwrite {α : Type} (z : List α) (start : ℕ) (part : List α) : List α :=
  z.take start ++ part ++ z.drop (start + part.length)

namespace Vec

section

variable {α : Type} {z part : List α} {start : ℕ} (h : start + part.length ≤ z.length)

include h

theorem length_overwrite : (overwrite z start part).length = z.length := by
  simp only [overwrite, List.length_append, List.length_take, List.length_drop]
  omega

theorem take_overwrite : (overwrite z start part).take (start + part.length) =
    z.take start ++ part := by
  have hlen : (z.take start ++ part).length = start + part.length := by
    rw [List.length_append, List.length_take, min_eq_left (by omega)]
  rw [overwrite, List.take_left' hlen]

theorem drop_overwrite (n : ℕ) : (overwrite z start part).drop (start + part.length + n) =
    z.drop (start + part.length + n) := by
  have hlen : (z.take start ++ part).length = start + part.length := by
    rw [List.length_append, List.length_take, min_eq_left (by omega)]
  rw [overwrite, ← List.drop_drop, List.drop_left' hlen, List.drop_drop]

end

end Vec

namespace Composite

section

variable {α : Type}

/-- The result of an operation on the pieces of a block, written over the range of the block. -/
def writeBlock (f : Block α → List α → List α → List α) (x y z : List α) (span : ℕ × Block α) :
    List α :=
  overwrite z span.1
    (f span.2 ((x.drop span.1).take span.2.numel) ((y.drop span.1).take span.2.numel))

/-- An operation on two vectors, block by block.  The results are written into a vector. -/
def into (K : Composite α) (f : Block α → List α → List α → List α) (z x y : Array α) : Array α :=
  (K.spans.foldl (writeBlock f x.toList y.toList) z.toList).toArray

section

variable {f : Block α → List α → List α → List α}
  (hf : ∀ (b : Block α) (u v : List α), u.length = b.numel → v.length = b.numel →
    (f b u v).length = b.numel)

include hf

/-- The writes of some blocks replace the range of these blocks. -/
theorem foldl_writeBlock (blocks : List (Block α)) {start : ℕ} {x y z : List α}
    (hx : start + (mk blocks).numel ≤ x.length) (hy : start + (mk blocks).numel ≤ y.length)
    (hz : start + (mk blocks).numel ≤ z.length) :
    (spansFrom start blocks).foldl (writeBlock f x y) z =
      z.take start ++ (List.zipWith (fun b p => f b p.1 p.2) blocks
        ((pieces blocks (x.drop start)).zip (pieces blocks (y.drop start)))).flatten ++
          z.drop (start + (mk blocks).numel) := by
  induction blocks generalizing start z with
  | nil => simp [spansFrom, pieces, numel]
  | cons b bs ih =>
    rw [numel_cons, ← Nat.add_assoc] at hx hy hz
    have hpart := hf b ((x.drop start).take b.numel) ((y.drop start).take b.numel)
      (by rw [List.length_take, List.length_drop]; omega)
      (by rw [List.length_take, List.length_drop]; omega)
    set part := f b ((x.drop start).take b.numel) ((y.drop start).take b.numel) with hdef
    have hfits : start + part.length ≤ z.length := by omega
    have htake := take_overwrite hfits
    have hdrop := drop_overwrite hfits (mk bs).numel
    rw [hpart] at htake hdrop
    rw [spansFrom, List.foldl_cons, writeBlock, ← hdef,
      ih hx hy (by rwa [length_overwrite hfits]), htake, hdrop]
    simp only [pieces, List.zip_cons_cons, List.zipWith_cons_cons, List.flatten_cons,
      List.drop_drop, ← hdef, numel_cons, List.append_assoc, Nat.add_assoc]

/-- Nothing is left of what a vector held, if it is as long as the result. -/
theorem into_eq {K : Composite α} {z x y : Array α} (hz : z.size = K.numel)
    (hx : x.size = K.numel) (hy : y.size = K.numel) :
    K.into f z x y = (K.eachBlock₂ f x y).flatten.toArray := by
  have hrest : z.toList.drop (0 + K.numel) = [] := List.drop_of_length_le (by simp [hz])
  rw [into, spans, foldl_writeBlock hf K.blocks (by simp [hx]) (by simp [hy]) (by simp [hz]), hrest,
    List.take_zero, List.nil_append, List.append_nil]
  rfl

end

variable [Scalar α]

/-- The Jordan product, written into a vector. -/
def circInto (K : Composite α) (z x y : Array α) : Array α := K.into Block.circ z x y

/-- The solution `v` of `x ∘ v = y`, written into a vector. -/
def invCircInto (K : Composite α) (z x y : Array α) : Array α := K.into Block.invCirc z x y

section

variable {K : Composite α} {z x y : Array α} (hz : z.size = K.numel) (hx : x.size = K.numel)
  (hy : y.size = K.numel)

include hz hx hy

theorem circInto_eq : K.circInto z x y = K.circ x y :=
  into_eq (fun _ _ _ hu hv => Block.length_circ hv hu) hz hx hy

theorem invCircInto_eq : K.invCircInto z x y = K.invCirc x y :=
  into_eq (fun _ _ _ hu hv => Block.length_invCirc hv hu) hz hx hy

end

end

end Composite

/-! ## Division -/

/-- The product with a point and the division by it are inverse to each other. -/
structure Operations.Divides (o : Operations) (x : List ℝ) : Prop where
  /-- The point has the dimension of the cone. -/
  length : x.length = o.dim
  length_circ : ∀ y, y.length = o.dim → (o.circ x y).length = o.dim
  length_invCirc : ∀ y, y.length = o.dim → (o.invCirc x y).length = o.dim
  circ_invCirc : ∀ y, y.length = o.dim → o.circ x (o.invCirc x y) = y
  invCirc_circ : ∀ y, y.length = o.dim → o.invCirc x (o.circ x y) = y

/-- A product of cones divides by the points of both. -/
theorem Operations.Divides.prod {o₁ o₂ : Operations} {x₁ x₂ : List ℝ} (h₁ : o₁.Divides x₁)
    (h₂ : o₂.Divides x₂) : (o₁.prod o₂).Divides (x₁ ++ x₂) where
  length := by
    rw [List.length_append, h₁.length, h₂.length]
    rfl
  length_circ y hy := by
    obtain ⟨y₁, y₂, rfl, hy₁, hy₂⟩ := exists_append hy
    rw [prod_circ h₁.length hy₁, List.length_append, h₁.length_circ y₁ hy₁, h₂.length_circ y₂ hy₂]
    rfl
  length_invCirc y hy := by
    obtain ⟨y₁, y₂, rfl, hy₁, hy₂⟩ := exists_append hy
    rw [prod_invCirc h₁.length hy₁, List.length_append, h₁.length_invCirc y₁ hy₁,
      h₂.length_invCirc y₂ hy₂]
    rfl
  circ_invCirc y hy := by
    obtain ⟨y₁, y₂, rfl, hy₁, hy₂⟩ := exists_append hy
    rw [prod_invCirc h₁.length hy₁, prod_circ h₁.length (h₁.length_invCirc y₁ hy₁),
      h₁.circ_invCirc y₁ hy₁, h₂.circ_invCirc y₂ hy₂]
  invCirc_circ y hy := by
    obtain ⟨y₁, y₂, rfl, hy₁, hy₂⟩ := exists_append hy
    rw [prod_circ h₁.length hy₁, prod_invCirc h₁.length (h₁.length_circ y₁ hy₁),
      h₁.invCirc_circ y₁ hy₁, h₂.invCirc_circ y₂ hy₂]

variable [Machine]

/-- A block divides by its interior points. -/
theorem Block.divides_of_interior {b : Block ℝ} {x : List ℝ} (hx : x.length = b.numel)
    (hint : b.isInterior x = true) : b.operations.Divides x := by
  have hlength (y : List ℝ) (hy : y.length = b.numel) : x.length = y.length := hx.trans hy.symm
  cases b with
  | orthant K =>
    exact ⟨hx, fun _ hy => length_circ (b := .orthant K) hy hx,
      fun _ hy => length_invCirc (b := .orthant K) hy hx,
      fun y hy => Orthant.circ_invCirc hint (hlength y hy),
      fun y hy => Orthant.invCirc_circ hint (hlength y hy)⟩
  | secondOrder K =>
    exact ⟨hx, fun _ hy => length_circ (b := .secondOrder K) hy hx,
      fun _ hy => length_invCirc (b := .secondOrder K) hy hx,
      fun y hy => SecondOrder.circ_invCirc hint (hlength y hy),
      fun y hy => SecondOrder.invCirc_circ hint (hlength y hy)⟩

/-! ## The trace -/

/-- The sum of the coordinates in the orthant, or the bound. -/
def Block.trace : Block ℝ → List ℝ → ℝ
  | orthant _, v => v.sum
  | secondOrder _, v => v.headD 0

/-- The trace of a Jordan product is the inner product. -/
theorem Block.trace_circ (b : Block ℝ) (x y : List ℝ) : b.trace (b.circ x y) = inner x y := by
  cases b with
  | orthant K =>
    rw [Vec.inner, foldl_add_eq, zero_add]
    rfl
  | secondOrder K =>
    cases x with
    | nil => exact (inner_nil_left y).symm
    | cons x₀ x₁ =>
      cases y with
      | nil => exact (inner_nil_right (x₀ :: x₁)).symm
      | cons y₀ y₁ => rfl

namespace Composite

/-- The sum over the coordinates in the orthant and the bounds. -/
def trace (K : Composite ℝ) (v : Array ℝ) : ℝ :=
  (List.zipWith Block.trace K.blocks (pieces K.blocks v.toList)).sum

theorem divides_of_interior (blocks : List (Block ℝ)) {x : List ℝ}
    (hx : x.length = (mk blocks).numel) (hint : InteriorOn blocks x) :
    (mk blocks).operations.Divides x := by
  induction blocks generalizing x with
  | nil =>
    have hnil (y : List ℝ) (hy : y.length = 0) : [] = y := (List.length_eq_zero_iff.mp hy).symm
    exact ⟨hx, fun _ _ => rfl, fun _ _ => rfl, hnil, hnil⟩
  | cons b bs ih =>
    rw [numel_cons] at hx
    obtain ⟨hfirst, hrest⟩ := interiorOn_cons.mp hint
    have hdivides := (Block.divides_of_interior (by simp [hx]) hfirst).prod
      (ih (by simp [hx]) hrest)
    rwa [List.take_append_drop] at hdivides

/-- The trace of a Jordan product is the inner product. -/
theorem trace_circ {K : Composite ℝ} {x y : Array ℝ} (hx : x.size = K.numel)
    (hy : y.size = K.numel) : K.trace (K.circ x y) = dot x y := by
  rw [trace, toList_circ, dot]
  rw [← Array.length_toList, ← dim_operations] at hx hy
  obtain ⟨blocks⟩ := K
  generalize x.toList = x at hx ⊢
  generalize y.toList = y at hy ⊢
  induction blocks generalizing x y with
  | nil =>
    rw [List.length_eq_zero_iff.mp hx, inner_nil_left]
    rfl
  | cons b bs ih =>
    rw [operations_cons] at hx hy ⊢
    obtain ⟨x₁, x₂, rfl, hx₁, hx₂⟩ := Operations.exists_append hx
    obtain ⟨y₁, y₂, rfl, hy₁, hy₂⟩ := Operations.exists_append hy
    rw [dim_block] at hx₁ hy₁
    have hcirc : b.operations.circ = b.circ := by
      cases b <;> rfl
    have hlength := Block.length_circ hy₁ hx₁
    rw [Operations.prod_circ (hx₁.trans (dim_block b).symm) (hy₁.trans (dim_block b).symm), hcirc,
      pieces, List.take_left' hlength, List.drop_left' hlength, List.zipWith_cons_cons,
      List.sum_cons, b.trace_circ, ih x₂ hx₂ y₂ hy₂, inner_append (hx₁.trans hy₁.symm)]

/-- Division by an interior point undoes the product with it, and is undone by it.  The trace
of the product is the inner product.  The results do not depend on what the vectors held that
they are written into. -/
theorem circInto_invCircInto {K : Composite ℝ} {x y z w : Array ℝ} (hx : x.size = K.numel)
    (hy : y.size = K.numel) (hz : z.size = K.numel) (hw : w.size = K.numel)
    (hint : K.isInterior x = true) :
    K.circ? x y = some (K.circInto z x y) ∧ K.invCirc? x y = some (K.invCircInto z x y) ∧
      K.circInto w x (K.invCircInto z x y) = y ∧ K.invCircInto w x (K.circInto z x y) = y ∧
      K.trace (K.circInto z x y) = dot x y := by
  have hcovered {β : Type} (r : β) : K.ifCovered [x, y] r = some r := if_pos (by simp [hx, hy])
  have hdivides := divides_of_interior K.blocks (by simpa using hx) hint
  have hdim : y.toList.length = K.operations.dim := by simp [hy, dim_operations]
  have hcirc : (K.circ x y).size = K.numel := by
    rw [← Array.length_toList, toList_circ, ← dim_operations]
    exact hdivides.length_circ _ hdim
  have hinvCirc : (K.invCirc x y).size = K.numel := by
    rw [← Array.length_toList, toList_invCirc, ← dim_operations]
    exact hdivides.length_invCirc _ hdim
  rw [circInto_eq hz hx hy, invCircInto_eq hz hx hy, circInto_eq hw hx hinvCirc,
    invCircInto_eq hw hx hcirc]
  refine ⟨hcovered _, hcovered _, ?_, ?_, trace_circ hx hy⟩
  · rw [← Array.toList_inj, toList_circ, toList_invCirc]
    exact hdivides.circ_invCirc _ hdim
  · rw [← Array.toList_inj, toList_invCirc, toList_circ]
    exact hdivides.invCirc_circ _ hdim

omit [Machine] in
/-- A product and the division that undoes it, each written over other numbers. -/
theorem circInto_invCircInto_mixed : letI := Machine.double
    let K : Composite ℝ := ⟨[.orthant (.ofDim 2), .secondOrder (.ofDim 3)]⟩
    let x : Array ℝ := #[2, 4, 3, 1, -2]
    let y : Array ℝ := #[3, -2, 1, 1 / 2, 4]
    let p : Array ℝ := #[6, -8, -9 / 2, 5 / 2, 10]
    (ofDims 2 [3] = .ok K ∧ x.size = K.numel ∧ y.size = K.numel ∧ K.isInterior x = true) ∧
    K.circInto #[8, 8, 8, 8, 8] x y = p ∧ K.invCircInto #[9, 9, 9, 9, 9] x p = y ∧
      K.trace p = dot x y := by
  let _ := Machine.double
  intro K x y p
  have hint : K.isInterior x = true := by
    norm_num [K, x, isInterior, pieces, Block.numel, Block.isInterior, Orthant.isInterior,
      SecondOrder.isInterior, SecondOrder.residual, SecondOrder.sumsq]
  have hp : K.circ? x y = some p := by
    norm_num [K, x, y, p, circ?, ifCovered, circ, eachBlock₂, pieces, numel, Block.numel, Block.circ,
      Orthant.circ, SecondOrder.circ]
  obtain ⟨hcirc, -, -, hback, htrace⟩ := circInto_invCircInto (K := K) (x := x) (y := y)
    (z := #[8, 8, 8, 8, 8]) (w := #[9, 9, 9, 9, 9]) rfl rfl rfl rfl hint
  have hwritten : K.circInto #[8, 8, 8, 8, 8] x y = p := Option.some.inj (hcirc.symm.trans hp)
  rw [hwritten] at hback htrace
  exact ⟨⟨rfl, rfl, rfl, hint⟩, hwritten, hback, htrace⟩

end Composite

end Conic
