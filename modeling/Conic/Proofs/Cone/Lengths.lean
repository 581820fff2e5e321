import Conic.Embedding.Newton
import Conic.Proofs.Loops

/-!
# The lengths of a composite cone

In any arithmetic the operations of a block keep the length of their arguments,
if the reflection that a second-order cone holds is as long as its scaling point
(`Block.Regular`).  An update of the scaling keeps that, also if it fails, and it
keeps the dimension of the block.

`Composite.Regular` says the same of a whole cone, together with the number of its
coordinates.
-/

namespace Conic

variable {α : Type} [Scalar α]

/-! ## The second-order cone -/

namespace SecondOrder

/-- The reflection is as long as the scaling point. -/
def Regular (K : SecondOrder α) : Prop := K.q.length = K.w.length

theorem length_mulTheta {K : SecondOrder α} {v : List α} (hv : v.length = K.numel) :
    (K.mulTheta v).length = K.numel := by
  obtain ⟨w, η, q⟩ := K
  cases w with
  | nil => rfl
  | cons w₀ w₁ =>
    cases v with
    | nil => cases hv
    | cons v₀ v₁ =>
      have hlen : v₁.length = w₁.length := Nat.succ.inj hv
      simp [mulTheta, numel, hlen]

theorem Regular.length_mulThetaInv {K : SecondOrder α} (hK : K.Regular) {v : List α}
    (hv : v.length = K.numel) : (K.mulThetaInv v).length = K.numel := by
  obtain ⟨w, η, q⟩ := K
  cases w with
  | nil => rfl
  | cons w₀ w₁ =>
    cases q with
    | nil => cases hK
    | cons q₀ q₁ =>
      cases v with
      | nil => cases hv
      | cons v₀ v₁ =>
        have hlen : v₁.length = w₁.length := Nat.succ.inj hv
        have hlen' : q₁.length = w₁.length := Nat.succ.inj hK
        simp [mulThetaInv, numel, hlen, hlen']

theorem Regular.length_mulThetaSq {K : SecondOrder α} (hK : K.Regular) {v : List α}
    (hv : v.length = K.numel) : (K.mulThetaSq v).length = K.numel := by
  rw [Regular] at hK
  rw [numel] at hv
  simp [mulThetaSq, numel, hv, hK]

theorem length_circ {x y : List α} (h : x.length = y.length) : (circ x y).length = x.length := by
  cases x with
  | nil => rfl
  | cons x₀ x₁ =>
    cases y with
    | nil => simp at h
    | cons y₀ y₁ =>
      simp only [List.length_cons] at h
      simp only [circ, List.length_cons, List.length_zipWith]
      omega

theorem length_invCirc {x y : List α} (h : x.length = y.length) :
    (invCirc x y).length = x.length := by
  cases x with
  | nil => rfl
  | cons x₀ x₁ =>
    cases y with
    | nil => simp at h
    | cons y₀ y₁ =>
      simp only [List.length_cons] at h
      simp only [invCirc, List.length_cons, List.length_zipWith]
      omega

/-- An update takes over the reflection, or changes nothing. -/
theorem Regular.updateScaling {K : SecondOrder α} (hK : K.Regular) {x s refl : List α}
    (hx : x.length = K.numel) (hs : s.length = K.numel) (hrefl : refl.length = K.numel) :
    (K.updateScaling x s refl).2.Regular ∧ (K.updateScaling x s refl).2.numel = K.numel := by
  rw [SecondOrder.updateScaling]
  split
  · simp [Regular, numel, hx, hs, hrefl]
  · exact ⟨hK, rfl⟩

end SecondOrder

/-! ## Blocks -/

namespace Block

/-- The parts of a block have the length of the block. -/
def Regular : Block α → Prop
  | orthant _ => True
  | secondOrder K => K.Regular

theorem length_unit (b : Block α) : b.unit.length = b.numel := by
  cases b with
  | orthant K => exact List.length_replicate
  | secondOrder K => exact SecondOrder.length_unit _

variable {b : Block α} (hb : b.Regular) {v : List α} (hv : v.length = b.numel)

include hv

theorem length_mulTheta : (b.mulTheta v).length = b.numel := by
  cases b with
  | orthant K =>
    rw [numel, Orthant.numel] at hv
    simp [mulTheta, Orthant.mulTheta, numel, Orthant.numel, hv]
  | secondOrder K => exact SecondOrder.length_mulTheta hv

theorem length_addScaledE (a : α) : (b.addScaledE a v).length = b.numel := by
  cases b with
  | orthant K => simpa [addScaledE, Orthant.addScaledE] using hv
  | secondOrder K =>
    rw [← hv]
    cases v <;> rfl

include hb

theorem Regular.length_mulThetaInv : (b.mulThetaInv v).length = b.numel := by
  cases b with
  | orthant K =>
    rw [numel, Orthant.numel] at hv
    simp [mulThetaInv, Orthant.mulThetaInv, numel, Orthant.numel, hv]
  | secondOrder K => exact SecondOrder.Regular.length_mulThetaInv hb hv

theorem Regular.length_mulThetaSq : (b.mulThetaSq v).length = b.numel := by
  cases b with
  | orthant K =>
    rw [numel, Orthant.numel] at hv
    simp [mulThetaSq, Orthant.mulThetaSq, numel, Orthant.numel, hv]
  | secondOrder K => exact SecondOrder.Regular.length_mulThetaSq hb hv

omit hb

variable {u : List α} (hu : u.length = b.numel)

include hu

theorem length_circ : (b.circ u v).length = b.numel := by
  cases b with
  | orthant K => simp [circ, Orthant.circ, hu, hv]
  | secondOrder K => exact (SecondOrder.length_circ (hu.trans hv.symm)).trans hu

theorem length_invCirc : (b.invCirc u v).length = b.numel := by
  cases b with
  | orthant K => simp [invCirc, Orthant.invCirc, hu, hv]
  | secondOrder K => exact (SecondOrder.length_invCirc (hu.trans hv.symm)).trans hu

include hb

theorem Regular.updateScaling {refl : List α} (hrefl : refl.length = b.numel) :
    (b.updateScaling u v refl).2.Regular ∧ (b.updateScaling u v refl).2.numel = b.numel := by
  cases b with
  | orthant K => exact ⟨trivial, K.numel_updateScaling u v⟩
  | secondOrder K => exact SecondOrder.Regular.updateScaling hb hu hv hrefl

end Block

/-! ## Composite cones -/

namespace Composite

omit [Scalar α] in
theorem numel_cons (b : Block α) (bs : List (Block α)) :
    (mk (b :: bs)).numel = b.numel + (mk bs).numel := rfl

/-- The blocks are regular and have `n` coordinates together. -/
structure Regular (K : Composite α) (n : ℕ) : Prop where
  numel : K.numel = n
  blocks : ∀ b ∈ K.blocks, b.Regular

theorem size_unit (K : Composite α) : K.unit.size = K.numel := by
  obtain ⟨blocks⟩ := K
  induction blocks with
  | nil => rfl
  | cons b bs ih =>
    rw [numel_cons, ← ih, ← b.length_unit]
    simp [unit]

theorem size_reflection (K : Composite α) : K.reflection.size = K.numel := by
  obtain ⟨blocks⟩ := K
  induction blocks with
  | nil => rfl
  | cons b bs ih =>
    rw [numel_cons, ← ih]
    cases b with
    | orthant K => simp [reflection, Block.numel]
    | secondOrder K => simp [reflection, Block.numel]

omit [Scalar α] in
/-- An operation that keeps the length of every piece keeps the length. -/
theorem size_eachBlock {K : Composite α} {n : ℕ} (hK : K.Regular n)
    {f : Block α → List α → List α}
    (hf : ∀ b : Block α, b.Regular → ∀ v : List α, v.length = b.numel → (f b v).length = b.numel)
    {v : Array α} (hv : v.size = n) : (K.eachBlock f v).size = n := by
  obtain ⟨blocks⟩ := K
  obtain ⟨rfl, hblocks⟩ := hK
  rw [eachBlock, List.size_toArray]
  rw [← Array.length_toList] at hv
  generalize v.toList = v at hv
  induction blocks generalizing v with
  | nil => rfl
  | cons b bs ih =>
    rw [numel_cons] at hv ⊢
    rw [pieces, List.zipWith_cons_cons, List.flatten_cons, List.length_append,
      hf b (hblocks b (by simp)) _ (by simp [hv]),
      ih (fun b' hb' => hblocks b' (by simp [hb'])) _ (by simp [hv])]

omit [Scalar α] in
/-- The same for an operation on two vectors. -/
theorem length_eachBlock₂ {K : Composite α} {f : Block α → List α → List α → List α}
    (hf : ∀ (b : Block α) (u v : List α), u.length = b.numel → v.length = b.numel →
      (f b u v).length = b.numel) {u v : Array α} (hu : u.size = K.numel)
    (hv : v.size = K.numel) : (K.eachBlock₂ f u v).flatten.length = K.numel := by
  obtain ⟨blocks⟩ := K
  rw [eachBlock₂]
  rw [← Array.length_toList] at hu hv
  generalize u.toList = u at hu
  generalize v.toList = v at hv
  induction blocks generalizing u v with
  | nil => rfl
  | cons b bs ih =>
    rw [numel_cons] at hu hv ⊢
    rw [pieces, pieces, List.zip_cons_cons, List.zipWith_cons_cons, List.flatten_cons,
      List.length_append, hf b _ _ (by simp [hu]) (by simp [hv]),
      ih _ (by simp [hu]) _ (by simp [hv])]

namespace Regular

variable {K : Composite α} {n : ℕ} (hK : K.Regular n)

include hK

section

variable {v : Array α} (hv : v.size = n)

include hv

theorem size_mulTheta : (K.mulTheta v).size = n :=
  size_eachBlock hK (fun _ _ _ hv => Block.length_mulTheta hv) hv

theorem size_mulThetaInv : (K.mulThetaInv v).size = n :=
  size_eachBlock hK (fun _ hb _ hv => hb.length_mulThetaInv hv) hv

theorem size_mulThetaSq : (K.mulThetaSq v).size = n :=
  size_eachBlock hK (fun _ hb _ hv => hb.length_mulThetaSq hv) hv

theorem size_addScaledE (a : α) : (K.addScaledE a v).size = n := by
  rw [addScaledE, Array.size_append,
    size_eachBlock hK (fun _ _ _ hv => Block.length_addScaledE hv a) hv, Array.size_extract, hv,
    hK.numel]
  omega

variable {u : Array α} (hu : u.size = n)

include hu

theorem size_circ : (K.circ u v).size = n := by
  rw [circ, List.size_toArray, length_eachBlock₂ (fun _ _ _ hu hv => Block.length_circ hv hu)
    (hu.trans hK.numel.symm) (hv.trans hK.numel.symm), hK.numel]

theorem size_invCirc : (K.invCirc u v).size = n := by
  rw [invCirc, List.size_toArray, length_eachBlock₂ (fun _ _ _ hu hv => Block.length_invCirc hv hu)
    (hu.trans hK.numel.symm) (hv.trans hK.numel.symm), hK.numel]

end

/-- An update of the scaling keeps a cone regular, whether or not it succeeds. -/
theorem updateScaling {x s refl : Array α} (hx : x.size = n) (hs : s.size = n)
    (hrefl : refl.size = n) : (K.updateScaling x s refl).2.Regular n := by
  obtain ⟨blocks⟩ := K
  obtain ⟨rfl, hblocks⟩ := hK
  rw [Composite.updateScaling]
  rw [← Array.length_toList] at hx hs hrefl
  generalize x.toList = x at hx
  generalize s.toList = s at hs
  generalize refl.toList = refl at hrefl
  induction blocks generalizing x s refl with
  | nil => exact ⟨rfl, by simp [pieces]⟩
  | cons b bs ih =>
    rw [numel_cons] at hx hs hrefl
    have hxb : (x.take b.numel).length = b.numel := by simp [hx]
    have hsb : (s.take b.numel).length = b.numel := by simp [hs]
    have hreflb : (refl.take b.numel).length = b.numel := by simp [hrefl]
    obtain ⟨hregular, hnumel⟩ := (hblocks b (by simp)).updateScaling hsb hxb hreflb
    obtain ⟨hrest, hblocks'⟩ := ih (fun b' hb' => hblocks b' (by simp [hb'])) (x.drop b.numel)
      (by simp [hx]) (s.drop b.numel) (by simp [hs]) (refl.drop b.numel) (by simp [hrefl])
    refine ⟨?_, fun b' hb' => ?_⟩
    · show (Composite.mk (_ :: _)).numel = _
      rw [numel_cons, hnumel, numel_cons]
      exact congrArg _ hrest
    · rcases List.mem_cons.mp hb' with rfl | hb'
      · exact hregular
      · exact hblocks' b' hb'

end Regular

end Composite

end Conic
