import Conic.Embedding.Point
import Conic.Program.WorkingCopy

/-!
# Residuals of the embedding

The embedding asks for three equations.  Their residuals at a point are

```text
rp = bτ - Ax
rd = cτ - Aᵀw - s
rg = κ + cᵀx - bᵀw
```

All three are zero at a solution.  The residuals keep the two inner products
that the measures of progress need too.
-/

namespace Conic

/-- The residuals at a point. -/
structure Residuals (α : Type) where
  /-- The primal residual. -/
  rp : Array α
  /-- The dual residual. -/
  rd : Array α
  /-- The residual of the gap. -/
  rg : α
  /-- The primal objective `cᵀx`. -/
  dotCx : α
  /-- The dual objective `bᵀw`. -/
  dotBw : α

/-- The residuals of a program at a point. -/
def Residuals.of {α : Type} [Scalar α] (W : WorkingCopy α) (p : Point α) : Residuals α :=
  let dotCx := Vec.dot W.c p.x
  let dotBw := Vec.dot W.b p.w
  { rp := W.A.mulAdd (-1) p.x 1 (Vec.scale W.b p.tau)
    rd := Vec.axpby (-1) p.s 1 (W.A.mulAddT (-1) p.w 1 (Vec.scale W.c p.tau))
    rg := p.kappa + dotCx - dotBw
    dotCx := dotCx
    dotBw := dotBw }

end Conic
