import Conic.Cone.Orthant
import Conic.Vec

/-!
# The second-order cone

The cone of the points `(t, u)` with `‖u‖ ≤ t`, the bound `t` first.  Its
*residual* is `t² - ‖u‖²`.  A point is interior if its bound and its residual
are positive.

Its scaling at a pair `(x, s)` of interior points has a scaling point `w` of
residual one and a factor `η`.  With the reflection `Q = diag(1, -1, …, -1)`
it satisfies `Θ² = η²(2wwᵀ - Q)`.  The products with `Θ` and `Θ⁻¹` use the form
of `Θ` as a boost, which needs one inner product each.

A list without a bound is no point of the cone.  The operations return the
empty list for it.
-/

namespace Conic

/-- A second-order cone with its scaling. -/
structure SecondOrder (α : Type) where
  /-- The scaling point. -/
  w : List α
  /-- The factor of the scaling. -/
  eta : α
  /-- The diagonal of the reflection. -/
  q : List α
  deriving Repr

namespace SecondOrder

variable {α : Type} [Scalar α]

/-- The diagonal `1, -1, …, -1` of length `n`. -/
def reflection (n : Nat) : List α := (1 :: List.replicate (n - 1) (-1)).take n

/-- The identity `1, 0, …, 0` of length `n`. -/
def unit (n : Nat) : List α := (1 :: List.replicate (n - 1) 0).take n

/-- The cone of dimension `n`, scaled by the identity. -/
def ofDim (n : Nat) : SecondOrder α := ⟨unit n, 1, reflection n⟩

/-- The number of coordinates. -/
def numel (K : SecondOrder α) : Nat := K.w.length

/-- The sum of the squares of a list. -/
def sumsq (u : List α) : α := Vec.inner u u

/-- The residual `t² - ‖u‖²`. -/
def residual : List α → α
  | [] => 0
  | t :: u => t * t - sumsq u

/-- The bound and the residual are positive. -/
def isInterior : List α → Bool
  | [] => false
  | t :: u => decide (0 < t) && decide (0 < residual (t :: u))

/-- The scaling at `(x, s)` with the given reflection.  It stays what it was if
one of the points is not interior.  The answer is no in that case, and also if
the scaling is not finite. -/
def updateScaling (K : SecondOrder α) (x s refl : List α) : Bool × SecondOrder α :=
  if isInterior x && isInterior s then
    let xscale := Scalar.sqrt (residual x)
    let sscale := Scalar.sqrt (residual s)
    let γ := Scalar.sqrt ((1 + Vec.inner x s / (xscale * sscale)) * 0.5)
    let w := List.zipWith
      (fun p q => p.1 / (2.0 * xscale * γ) + q * p.2 / (2.0 * sscale * γ)) (x.zip s) refl
    let η := Scalar.sqrt (xscale / sscale)
    (w.all Scalar.isFinite && Scalar.isFinite η, ⟨w, η, refl⟩)
  else (false, K)

/-- `Θv`. -/
def mulTheta (K : SecondOrder α) (v : List α) : List α :=
  match K.w, v with
  | w0 :: w1, v0 :: v1 =>
    let ζ := Vec.inner w1 v1
    let c := v0 + ζ / (1 + w0)
    K.eta * (w0 * v0 + ζ) :: List.zipWith (fun v w => K.eta * (v + c * w)) v1 w1
  | _, _ => []

/-- `Θ⁻¹v`, as `η⁻¹QWQv`. -/
def mulThetaInv (K : SecondOrder α) (v : List α) : List α :=
  match K.w, K.q, v with
  | w0 :: w1, q0 :: q1, v0 :: v1 =>
    let v0 := q0 * v0
    let ζ := (List.zipWith (fun p v => p.1 * p.2 * v) (w1.zip q1) v1).foldl (· + ·) 0
    let c := v0 + ζ / (1 + w0)
    q0 * (w0 * v0 + ζ) / K.eta ::
      List.zipWith (fun p v => p.2 * (p.2 * v + c * p.1) / K.eta) (w1.zip q1) v1
  | _, _, _ => []

/-- `Θ²v`. -/
def mulThetaSq (K : SecondOrder α) (v : List α) : List α :=
  let η2 := K.eta * K.eta
  let wv := Vec.inner K.w v
  List.zipWith (fun p v => η2 * (2.0 * p.1 * wv - p.2 * v)) (K.w.zip K.q) v

/-- The Jordan product `x ∘ y`. -/
def circ (x y : List α) : List α :=
  match x, y with
  | x0 :: x1, y0 :: y1 =>
    Vec.inner x y :: List.zipWith (fun y x => x0 * y + y0 * x) y1 x1
  | _, _ => []

/-- The solution `z` of `x ∘ z = y`. -/
def invCirc (x y : List α) : List α :=
  match x, y with
  | x0 :: x1, y0 :: y1 =>
    let pinv := Scalar.recip (residual x)
    let v := Vec.inner x1 y1
    let c1 := pinv * (v / x0 - y0)
    let c2 := Scalar.recip x0
    (x0 * y0 - v) * pinv :: List.zipWith (fun x y => c1 * x + c2 * y) x1 y1
  | _, _ => []

/-- `v + a * e`. -/
def addScaledE (a : α) : List α → List α
  | [] => []
  | t :: u => (t + a) :: u

/-! ## The step to the boundary -/

/-- A root that lies ahead: not negative, and a number. -/
def ahead (r : α) : Option α := if r < 0 ∨ Scalar.isNaN r = true then none else some r

/-- The smaller of two roots ahead. -/
def nearer : Option α → Option α → Option α
  | some r, some r' => some (Scalar.minNum r r')
  | some r, none => some r
  | none, r => r

/-- The smallest positive root of `a * t² + b * t + c`, and one if there is
none.  The two roots are computed from one sum of terms of equal sign, so no
digits cancel. -/
def firstRoot (a b c d : α) : α :=
  let t := if 0 ≤ b then -b - Scalar.sqrt d else -b + Scalar.sqrt d
  match nearer (ahead (2.0 * c / t)) (ahead (t / (2.0 * a))) with
  | some r => if Scalar.isFinite r then r else 1
  | none => 1

/-- The largest step that keeps `v + step * dv` in the cone.  It is one if the
boundary is never reached, and zero if `v` is not in the cone.  A point without
a bounded part is treated as a coordinate of the orthant. -/
def maxStep (v dv : List α) : α :=
  match v, dv with
  | v0 :: v1 :: vs, dv0 :: dv1 =>
    let a := residual dv
    let b := 2.0 * (v0 * dv0 - Vec.inner (v1 :: vs) dv1)
    let c := residual v
    let d := b * b - 4.0 * a * c
    if c < 0 ∨ v0 < 0 then 0
    else if (0 < a ∧ 0 < b) ∨ d < 0 then 1
    else if a == 0 then if b < 0 then -c / b else 1
    else if c == 0 then if 0 ≤ a then 1 else 0
    else firstRoot a b c d
  | _, _ => Orthant.maxStep v dv

/-- The largest step along any list.  It is `none` if `v` has a bounded part and
`dv` has not even a bound. -/
def maxStep? (v dv : List α) : Option α :=
  if 1 < v.length ∧ dv.isEmpty then none else some (maxStep v dv)

@[simp] theorem length_reflection (n : Nat) : (reflection n : List α).length = n := by
  cases n <;> simp [reflection]

@[simp] theorem length_unit (n : Nat) : (unit n : List α).length = n := by
  cases n <;> simp [unit]

@[simp] theorem numel_ofDim (n : Nat) : (ofDim n : SecondOrder α).numel = n := by
  simp [ofDim, numel]

end SecondOrder

end Conic
