import Conic.Breakdown
import Conic.Schur.Assembly
import Conic.Settings
import Conic.Sparse.Product

/-!
# Solving with the Schur complement

The complement is factored with a small multiple of the identity added to it,
and with small pivots replaced.  So the factors belong to a nearby matrix.  The
solution is *refined* against the complement itself: the residual is solved for
a correction, and a corrected solution is kept if its residual is smaller.

A refinement ends when the residual is within its tolerance, when it has not
shrunk by the stop ratio, or after the given number of corrections.
-/

namespace Conic

namespace Schur

variable {α : Type} [Scalar α]

/-! ## Refinement -/

/-- A solution under refinement. -/
structure Refinement (α : Type) where
  /-- The solution. -/
  x : Array α
  /-- The residual of the last vector that was tried. -/
  r : Array α
  /-- The size of that residual. -/
  err : α

/-- The residual `b - M x`. -/
def residual (M : Csc α) (b x : Array α) : Array α := M.symMulAdd (-1) x 1 b

/-- The starting point of a refinement. -/
def Refinement.start (M : Csc α) (b x : Array α) : Refinement α :=
  let r := residual M b x
  ⟨x, r, Vec.normInf r⟩

/-- Tries one correction.  The answer says whether another one is worthwhile. -/
def Refinement.correct (M : Csc α) (F : Ldl α) (stopRatio : α) (b : Array α) (s : Refinement α) :
    Bool × Refinement α :=
  let trial := Vec.axpby 1 s.x 1 (F.solve s.r)
  let r := residual M b trial
  let err := Vec.normInf r
  let x := if err < s.err then trial else s.x
  (!decide (s.err < err * stopRatio), ⟨x, r, err⟩)

/-- Corrects a solution at most the given number of times. -/
def refine (M : Csc α) (F : Ldl α) (tol stopRatio : α) (b : Array α) :
    Nat → Refinement α → Array α
  | 0, s => s.x
  | count + 1, s =>
    if !Scalar.isFinite s.err ∨ s.err ≤ tol then s.x
    else
      match s.correct M F stopRatio b with
      | (true, s) => refine M F tol stopRatio b count s
      | (false, s) => s.x

end Schur

/-- A complement with the factors that belong to its pattern, once it has been
factored. -/
structure FactoredSchur (α : Type) where
  /-- The complement. -/
  schur : Schur α
  /-- Its factors. -/
  factors : Option (Ldl α)

namespace FactoredSchur

variable {α : Type} [Scalar α]

/-- The complement of a matrix and a cone, without factors. -/
def new (A : Csc α) (K : Composite α) : FactoredSchur α := ⟨.new A K, none⟩

/-- What is added to the diagonal. -/
def shift (S : Schur α) (settings : Settings α) : α :=
  let largest := (S.diag.map fun k => Scalar.abs (S.M.values.getD k 0)).foldl Scalar.maxNum 0
  settings.staticConstant + settings.staticProportional * largest

/-- The values of the complement with the shift added to the diagonal. -/
def shifted (S : Schur α) (settings : Settings α) : Array α :=
  let t := shift S settings
  S.diag.foldl (fun values k => values.modify k (· + t)) S.M.values

/-- How small pivots are replaced. -/
def regularization (settings : Settings α) : Option (Regularization α) :=
  if settings.dynamicEnable then some ⟨settings.dynamicEps, settings.dynamicDelta⟩ else none

/-- Factors of shifted values.  Once there are factors, they are computed anew
on their pattern.  The pattern of a complement is that of a matrix, so no index
is out of bounds.  Such a fault would count as a failed ordering. -/
def factorValues (M : Csc α) (factors : Option (Ldl α)) (values : Array α)
    (reg : Option (Regularization α)) : Except LdlError (Ldl α) :=
  match factors with
  | some F =>
    match (F.updateValues values).refactor? with
    | some (F, none) => .ok F
    | some (_, some e) => .error e
    | none => .error .orderingFailed
  | none =>
    match Ldl.factor { M with values := values } reg with
    | .ok F => .ok F
    | .error (.cause e) => .error e
    | .error .outOfBounds => .error .orderingFailed

/-- Factors the complement.  There is nothing to factor without constraints. -/
def factor (S : FactoredSchur α) (settings : Settings α) :
    Except (Breakdown α) (FactoredSchur α) :=
  if S.schur.M.nrows = 0 then .ok S
  else
    match factorValues S.schur.M S.factors (shifted S.schur settings)
        (regularization settings) with
    | .ok F => .ok { S with factors := some F }
    | .error e => .error (.factorisation e)

/-- The solution of `M x = b` with the current factors, refined.  Without
factors there are no constraints, and the solution has no entries. -/
def solve (S : FactoredSchur α) (settings : Settings α) (b : Array α) :
    Except (Breakdown α) (Array α) :=
  match S.factors with
  | none => .ok (Vec.zeros S.schur.M.nrows)
  | some F =>
    let M := S.schur.M
    let x := F.solve b
    let x :=
      if settings.refineEnable then
        let tol := settings.refineAbstol + settings.refineReltol * Vec.normInf b
        Schur.refine M F tol settings.refineStopRatio b settings.refineMaxIter (.start M b x)
      else x
    if Vec.isFinite x then .ok x else .error .nonFinite

end FactoredSchur

end Conic
