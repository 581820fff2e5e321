import Conic.Proofs.Cone.Composite
import Conic.Proofs.Cone.Rays

/-!
# The step to the boundary

A cone contains the points that satisfy its inequality (`Composite.Contains`), and
those that satisfy it strictly are interior.  `maxStep v dv` says how far a point
`v` can move along `dv`.

The step of a product of blocks is the least extent of the pieces of the ray, and
at most one.  Until then every piece is interior.  If the step is shorter than one,
some block has that extent.  There the ray meets the boundary of the block, and
from then on it is outside the whole cone (`Composite.exists_step`).
-/

namespace Conic

open Vec

/-! ## The points of a cone -/

/-- The point satisfies the inequality of the block. -/
def Block.Contains : Block ℝ → List ℝ → Prop
  | orthant _, x => Orthant.Contains x
  | secondOrder _, x => SecondOrder.Contains x

/-- The pieces of a point satisfy a condition on their blocks. -/
def Composite.Each {α β : Type} [Scalar α] (P : Block α → List β → Prop) (blocks : List (Block α))
    (v : List β) : Prop :=
  ∀ part ∈ blocks.zip (Composite.pieces blocks v), P part.1 part.2

/-- Every piece of the point lies in its block. -/
def Composite.Contains [Machine] (K : Composite ℝ) (v : Array ℝ) : Prop :=
  Each Block.Contains K.blocks v.toList

/-! ## Steps of at most one -/

/-- A step of at most one that keeps a ray in the interior until its end, and ends
on the boundary if it is shorter than one.  The ray is outside from then on. -/
structure StepTo (interior contains : ℝ → Prop) (a : ℝ) : Prop where
  /-- Some way can be gone. -/
  pos : 0 < a
  /-- No more than one is asked for. -/
  le_one : a ≤ 1
  /-- The points before the end are interior. -/
  inside : ∀ t, 0 ≤ t → t < a → interior t
  /-- A shorter step ends on the boundary. -/
  ends : a < 1 → contains a ∧ ¬interior a ∧ ∀ t, a < t → ¬contains t

/-- A step along two rays at once, of which one has an extent. -/
theorem StepTo.min_extent {interior contains interior' contains' : ℝ → Prop} {a e : ℝ}
    (h : StepTo interior contains a) (he : Extent interior' contains' e)
    (hsub : ∀ t, interior t → contains t) (hsub' : ∀ t, interior' t → contains' t) :
    StepTo (fun t => interior t ∧ interior' t) (fun t => contains t ∧ contains' t) (min a e) where
  pos := lt_min h.pos he.pos
  le_one := (min_le_left a e).trans h.le_one
  inside t ht hlt :=
    ⟨h.inside t ht (hlt.trans_le (min_le_left a e)),
      he.interior_of_lt ht (hlt.trans_le (min_le_right a e))⟩
  ends hlt := by
    rcases le_or_gt a e with hae | hea
    · rw [min_eq_left hae] at hlt ⊢
      obtain ⟨hcontains, hnot, hbeyond⟩ := h.ends hlt
      refine ⟨⟨hcontains, ?_⟩, fun hint => hnot hint.1, fun t ht hmem => hbeyond t ht hmem.1⟩
      cases he with
      | stays hstays => exact hsub' a (hstays a h.pos.le)
      | exits _ _ hcontains' => exact (hcontains' a h.pos.le).mpr hae
    · rw [min_eq_right hea.le] at hlt ⊢
      cases he with
      | stays _ => exact absurd hlt (lt_irrefl 1)
      | exits hpos hinterior' hcontains' =>
        refine ⟨⟨hsub e (h.inside e hpos.le hea), (hcontains' e hpos.le).mpr le_rfl⟩,
          fun hint => lt_irrefl e ((hinterior' e hpos.le).mp hint.2), fun t ht hmem => ?_⟩
        exact ht.not_ge ((hcontains' t (hpos.le.trans ht.le)).mp hmem.2)

variable [Machine]

/-! ## The update of the scaling -/

theorem Orthant.updateScaling_fst (K : Orthant ℝ) (x s : List ℝ) :
    (K.updateScaling x s).1 = (isInterior x && isInterior s) := by
  rw [updateScaling]
  split
  next h => exact h.symm
  next h => simpa using h

theorem SecondOrder.updateScaling_fst (K : SecondOrder ℝ) (x s refl : List ℝ) :
    (K.updateScaling x s refl).1 = (isInterior x && isInterior s) := by
  have hfinite (l : List ℝ) : l.all Scalar.isFinite = true := by simp
  rw [updateScaling]
  split
  next h => simp only [h, hfinite, Scalar.isFinite_real, Bool.and_self]
  next h => simpa using h

/-! ## Blocks -/

namespace Block

theorem updateScaling_fst (b : Block ℝ) (x s refl : List ℝ) :
    (b.updateScaling x s refl).1 = (b.isInterior x && b.isInterior s) := by
  cases b with
  | orthant K => exact K.updateScaling_fst x s
  | secondOrder K => exact K.updateScaling_fst x s refl

theorem contains_of_isInterior {b : Block ℝ} {x : List ℝ} (h : b.isInterior x = true) :
    b.Contains x := by
  cases b with
  | orthant K => exact fun a ha => (Orthant.isInterior_iff.mp h a ha).le
  | secondOrder K => exact SecondOrder.contains_of_isInterior h

/-- The step to the boundary of a block is the extent of the ray. -/
theorem extent_maxStep {b : Block ℝ} {v dv : List ℝ} (hlen : dv.length = v.length)
    (hv : b.isInterior v = true) :
    Extent (fun t => b.isInterior (ray v dv t) = true) (fun t => b.Contains (ray v dv t))
      (b.maxStep v dv) := by
  cases b with
  | orthant K => exact Orthant.extent_maxStep hv
  | secondOrder K => exact SecondOrder.extent_maxStep hlen hv

end Block

/-! ## Products -/

namespace Composite

/-- The pieces of a point are interior. -/
def InteriorOn (blocks : List (Block ℝ)) (v : List ℝ) : Prop :=
  (List.zipWith Block.isInterior blocks (pieces blocks v)).all id = true

theorem interiorOn_cons {b : Block ℝ} {bs : List (Block ℝ)} {v : List ℝ} :
    InteriorOn (b :: bs) v ↔
      b.isInterior (v.take b.numel) = true ∧ InteriorOn bs (v.drop b.numel) := by
  simp [InteriorOn, pieces]

theorem each_cons {P : Block ℝ → List ℝ → Prop} {b : Block ℝ} {bs : List (Block ℝ)} {v : List ℝ} :
    Each P (b :: bs) v ↔ P b (v.take b.numel) ∧ Each P bs (v.drop b.numel) := by
  simp [Each, pieces]

theorem interiorOn_iff {blocks : List (Block ℝ)} {v : List ℝ} :
    InteriorOn blocks v ↔ Each (fun b x => b.isInterior x = true) blocks v := by
  rw [InteriorOn, ← List.map_uncurry_zip_eq_zipWith, List.all_map, List.all_eq_true]
  rfl

/-- The scaled form of a point is interior. -/
theorem ScaledAt.interiorOn_thetaInv {blocks : List (Block ℝ)} {x s : List ℝ}
    (h : ScaledAt blocks x s) : InteriorOn blocks ((mk blocks).operations.thetaInv x) := by
  induction h with
  | nil => rfl
  | @cons b bs x s xs ss hb _ ih =>
    have hlaws := hb.laws
    have hlen : (b.operations.thetaInv x).length = b.numel :=
      (hlaws.length_thetaInv x hlaws.length_points.1).trans (dim_block b)
    rw [operations_cons, Operations.prod_thetaInv hlaws.length_points.1, interiorOn_cons,
      List.take_left' hlen, List.drop_left' hlen]
    exact ⟨hb.isInterior_thetaInv, ih⟩

theorem isInterior_mulThetaInv {K : Composite ℝ} {x s : Array ℝ}
    (h : ScaledAt K.blocks x.toList s.toList) : K.isInterior (K.mulThetaInv x) = true := by
  rw [isInterior, toList_mulThetaInv]
  exact h.interiorOn_thetaInv

/-- The least extent of the pieces of a ray, and of a step along another ray. -/
theorem stepTo_foldl {blocks : List (Block ℝ)} {v dv : List ℝ} (hlen : dv.length = v.length)
    (hv : InteriorOn blocks v) {interior contains : ℝ → Prop} {a : ℝ}
    (h : StepTo interior contains a) (hsub : ∀ t, interior t → contains t) :
    StepTo (fun t => interior t ∧ InteriorOn blocks (ray v dv t))
      (fun t => contains t ∧ Each Block.Contains blocks (ray v dv t))
      ((List.zipWith (fun b p => Block.maxStep b p.1 p.2) blocks
        ((pieces blocks v).zip (pieces blocks dv))).foldl min a) := by
  induction blocks generalizing v dv interior contains a with
  | nil => simpa [InteriorOn, Each, pieces] using h
  | cons b bs ih =>
    obtain ⟨hfirst, hrest⟩ := interiorOn_cons.mp hv
    have hlenFirst : (dv.take b.numel).length = (v.take b.numel).length := by simp [hlen]
    have hlenRest : (dv.drop b.numel).length = (v.drop b.numel).length := by simp [hlen]
    have hextent := b.extent_maxStep hlenFirst hfirst
    have hstep := ih hlenRest hrest
      (h.min_extent hextent hsub fun t => Block.contains_of_isInterior)
      fun t ht => ⟨hsub t ht.1, Block.contains_of_isInterior ht.2⟩
    have htake (t : ℝ) : (ray v dv t).take b.numel = ray (v.take b.numel) (dv.take b.numel) t :=
      List.take_zipWith
    have hdrop (t : ℝ) : (ray v dv t).drop b.numel = ray (v.drop b.numel) (dv.drop b.numel) t :=
      List.drop_zipWith
    simp only [interiorOn_cons, each_cons, htake, hdrop, ← and_assoc]
    exact hstep

/-- What the step of a composite cone is. -/
theorem stepTo_maxStep {K : Composite ℝ} {v dv : Array ℝ} (hlen : dv.size = v.size)
    (hv : K.isInterior v = true) :
    StepTo (fun t => K.isInterior (axpby t dv 1 v) = true)
      (fun t => K.Contains (axpby t dv 1 v)) (K.maxStep v dv) := by
  have hunlimited : StepTo (fun _ => True) (fun _ => True) 1 :=
    ⟨one_pos, le_rfl, fun _ _ _ => trivial, fun h => absurd h (lt_irrefl 1)⟩
  have hlen' : dv.toList.length = v.toList.length := by simpa using hlen
  have hstep := stepTo_foldl hlen' (hv : InteriorOn K.blocks v.toList) hunlimited
    fun _ _ => trivial
  simp only [true_and] at hstep
  simp only [isInterior, Contains, toList_axpby]
  exact hstep

/-- A positive step that is shorter than `maxStep` leads from the interior to the
interior. -/
theorem isInterior_axpby {K : Composite ℝ} {v dv : Array ℝ} (hlen : dv.size = v.size)
    (hv : K.isInterior v = true) {a : ℝ} (ha : 0 < a) (hlt : a < K.maxStep v dv) :
    K.isInterior (axpby a dv 1 v) = true :=
  (stepTo_maxStep hlen hv).inside a ha.le hlt

theorem updates_fst (blocks : List (Block ℝ)) (x s refl : List ℝ)
    (hx : InteriorOn blocks x) (hs : InteriorOn blocks s) :
    (updates blocks x s refl).all (·.1) = true := by
  induction blocks generalizing x s refl with
  | nil => rfl
  | cons b bs ih =>
    obtain ⟨hx₁, hx₂⟩ := interiorOn_cons.mp hx
    obtain ⟨hs₁, hs₂⟩ := interiorOn_cons.mp hs
    rw [updates_cons, List.all_cons, Block.updateScaling_fst, hx₁, hs₁, ih _ _ _ hx₂ hs₂]
    rfl

/-- The cone can be scaled at interior points. -/
theorem updateScaling_fst {K : Composite ℝ} {x s : Array ℝ} (hx : K.isInterior x = true)
    (hs : K.isInterior s = true) (refl : Array ℝ) : (K.updateScaling x s refl).1 = true :=
  updates_fst K.blocks _ _ _ hx hs

theorem isInterior_eq_of_shapeOf {b b' : Block ℝ} (h : shapeOf b' = shapeOf b) :
    b'.numel = b.numel ∧ b'.isInterior = b.isInterior := by
  cases b with
  | orthant K =>
    cases b' with
    | orthant K' => exact ⟨Sum.inl.inj h, rfl⟩
    | secondOrder K' => cases h
  | secondOrder K =>
    cases b' with
    | orthant K' => cases h
    | secondOrder K' => exact ⟨Sum.inr.inj h, rfl⟩

/-- The interior depends on the shape of the cone alone. -/
theorem isInterior_eq_of_shape {K K' : Composite ℝ} (h : K'.shape = K.shape) (x : Array ℝ) :
    K'.isInterior x = K.isInterior x := by
  obtain ⟨blocks⟩ := K
  obtain ⟨blocks'⟩ := K'
  rw [isInterior, isInterior]
  generalize x.toList = x
  induction blocks generalizing blocks' x with
  | nil =>
    have : blocks' = [] := by simpa [shape] using h
    rw [this]
  | cons b bs ih =>
    cases blocks' with
    | nil => simp [shape] at h
    | cons b' bs' =>
      obtain ⟨hb, hbs⟩ : shapeOf b' = shapeOf b ∧ bs'.map shapeOf = bs.map shapeOf := by
        simpa [shape] using h
      obtain ⟨hnumel, hinterior⟩ := isInterior_eq_of_shapeOf hb
      have := ih bs' hbs (x.drop b.numel)
      simp only [pieces, List.zipWith_cons_cons, List.all_cons, hnumel, hinterior]
      rw [this]

/-! ## The step of an interior point -/

/-- From an interior point a step is computed.  It is positive and at most one, the points
before its end are interior, and if it is shorter than one it ends on the boundary.  From
then on the points are outside. -/
theorem exists_step {K : Composite ℝ} {v dv : Array ℝ} (hv : v.size = K.numel)
    (hdv : dv.size = K.numel) (hint : K.isInterior v = true) :
    ∃ a, K.maxStep? v dv = some a ∧ 0 < a ∧ a ≤ 1 ∧
      (∀ t, 0 ≤ t → t < a → K.isInterior (axpby t dv 1 v) = true) ∧
      (a < 1 → K.Contains (axpby a dv 1 v) ∧ K.isInterior (axpby a dv 1 v) = false ∧
        ∀ t, a < t → ¬K.Contains (axpby t dv 1 v)) := by
  have hstep := stepTo_maxStep (hdv.trans hv.symm) hint
  refine ⟨K.maxStep v dv, ?_, hstep.pos, hstep.le_one, hstep.inside, fun hlt => ?_⟩
  · exact if_pos (by simp [hv, hdv])
  · obtain ⟨hmem, hnot, hout⟩ := hstep.ends hlt
    exact ⟨hmem, Bool.eq_false_iff.mpr hnot, hout⟩

omit [Machine] in
/-- A step in a product of an orthant and two second-order cones, of which the first one
binds. -/
theorem exists_step_mixed : letI := Machine.double
    let K : Composite ℝ :=
      ⟨[.orthant (.ofDim 2), .secondOrder (.ofDim 3), .secondOrder (.ofDim 2)]⟩
    let v : Array ℝ := #[1, 1, 1, 0, 0, 1, 0]
    let dv : Array ℝ := #[-2, 0, 0, 3, 0, 0, 0]
    (ofDims 2 [3, 2] = .ok K ∧ v.size = K.numel ∧ dv.size = K.numel ∧
      K.isInterior v = true) ∧
    K.maxStep? v dv = some (1 / 3) ∧
      (∀ t, 0 ≤ t → t < 1 / 3 → K.isInterior (axpby t dv 1 v) = true) ∧
      K.Contains (axpby (1 / 3) dv 1 v) ∧ ∀ t, 1 / 3 < t → ¬K.Contains (axpby t dv 1 v) := by
  let _ := Machine.double
  intro K v dv
  have hint : K.isInterior v = true := by
    simp [K, v, isInterior, pieces, Block.numel, Block.isInterior, Orthant.isInterior,
      SecondOrder.isInterior, SecondOrder.residual, SecondOrder.sumsq]
  have horthant : Orthant.maxStep ([1, 1] : List ℝ) [-2, 0] = 1 / 2 := by
    have hratios : Orthant.ratios ([1, 1] : List ℝ) [-2, 0] = [1 / 2] := by
      norm_num [Orthant.ratios, List.filterMap_cons]
    simp [Orthant.maxStep, Orthant.least?, hratios, Orthant.lesser]
  have hfirst : SecondOrder.maxStep ([1, 0, 0] : List ℝ) [0, 3, 0] = 1 / 3 := by
    have hsqrt : Real.sqrt 36 = 6 := by
      rw [show (36 : ℝ) = 6 ^ 2 by norm_num]
      exact Real.sqrt_sq (by norm_num)
    norm_num [SecondOrder.maxStep, SecondOrder.firstRoot, SecondOrder.nearer, SecondOrder.ahead,
      SecondOrder.residual, SecondOrder.sumsq, hsqrt]
  have hsecond : SecondOrder.maxStep ([1, 0] : List ℝ) [0, 0] = 1 := by
    norm_num [SecondOrder.maxStep, SecondOrder.residual, SecondOrder.sumsq]
  have hstep : K.maxStep? v dv = some (1 / 3) := by
    have hsteps : K.eachBlock₂ Block.maxStep v dv = [Orthant.maxStep [1, 1] [-2, 0],
        SecondOrder.maxStep [1, 0, 0] [0, 3, 0], SecondOrder.maxStep [1, 0] [0, 0]] := rfl
    rw [maxStep?, maxStep, hsteps, horthant, hfirst, hsecond]
    norm_num [ifCovered, K, v, dv, numel, Block.numel]
  obtain ⟨a, ha, -, -, hinside, hends⟩ := exists_step (rfl : v.size = K.numel)
    (rfl : dv.size = K.numel) hint
  obtain rfl : 1 / 3 = a := Option.some.inj (hstep.symm.trans ha)
  obtain ⟨hmem, -, hout⟩ := hends (by norm_num)
  exact ⟨⟨rfl, rfl, rfl, hint⟩, hstep, hinside, hmem, hout⟩

end Composite

end Conic
