import Conic.Proofs.Program.WorkingCopy

/-!
# Working order and program order

A vector of a working copy holds the values of a function on the columns of the
program, in working order (`WorkingCopy.InOrder`).  The costs hold the costs of
the program, the identity of the cone holds the identity of the cones
(`WorkingCopy.Copies.inOrder_unit`), and a vector that is brought back holds what
the program holds then (`WorkingCopy.Copies.inOrder_of_scatter`).

Sums over columns do not depend on their order.  So inner products, norms and
residuals of a working copy are those of the program, and a point lies in the cone
of the copy, or in its interior, if it lies in the cones of the program, or in
their interior (`WorkingCopy.Copies.contains_iff`,
`WorkingCopy.Copies.isInterior_iff`).
-/

namespace Conic

open Vec Matrix

/-! ## Cones of a program -/

namespace ConeSpec

/-- The values of the coordinates are interior to the cone: they are positive on
a half line, and the bound is above the norm of the vector on a second-order
cone. -/
def Interior (f : ℕ → ℝ) : ConeSpec ℕ → Prop
  | nonnegative i => 0 < f i
  | secondOrder bound vector => Real.sqrt ((vector.map fun j => f j ^ 2).sum) < f bound

/-- The values of the coordinates lie in the cone. -/
def Contains (f : ℕ → ℝ) : ConeSpec ℕ → Prop
  | nonnegative i => 0 ≤ f i
  | secondOrder bound vector => Real.sqrt ((vector.map fun j => f j ^ 2).sum) ≤ f bound

/-- The interior is a cone. -/
theorem Interior.of_mul {f : ℕ → ℝ} {a : ℝ} (ha : 0 < a) {K : ConeSpec ℕ}
    (h : K.Interior fun j => f j * a) : K.Interior f := by
  cases K with
  | nonnegative i => exact pos_of_mul_pos_left h ha.le
  | secondOrder bound vector =>
    have hsqrt : Real.sqrt ((vector.map fun j => (f j * a) ^ 2).sum) =
        Real.sqrt ((vector.map fun j => f j ^ 2).sum) * a := by
      simp only [mul_pow, List.sum_map_mul_right]
      rw [Real.sqrt_mul' _ (sq_nonneg a), Real.sqrt_sq ha.le]
    have hlt : Real.sqrt ((vector.map fun j => (f j * a) ^ 2).sum) < f bound * a := h
    rw [hsqrt] at hlt
    exact lt_of_mul_lt_mul_right hlt ha.le

/-- The coordinate at which the identity of the cone is one. -/
def lead : ConeSpec ℕ → ℕ
  | nonnegative i => i
  | secondOrder bound _ => bound

/-- The identity of some cones, by columns. -/
def identity (cones : List (ConeSpec ℕ)) (j : ℕ) : ℝ := if j ∈ cones.map lead then 1 else 0

end ConeSpec

variable [Machine]

theorem Vec.inner_map (f g : ℕ → ℝ) (l : List ℕ) :
    inner (l.map f) (l.map g) = (l.map fun j => f j * g j).sum := by
  induction l with
  | nil => simp
  | cons j l ih => rw [List.map_cons, List.map_cons, inner_cons, ih, List.map_cons, List.sum_cons]

namespace WorkingCopy

/-- A vector in working order. -/
def InOrder (W : WorkingCopy ℝ) (v : Array ℝ) (f : ℕ → ℝ) : Prop := v.toList = W.perm.map f

variable {W : WorkingCopy ℝ} {v u : Array ℝ} {f g : ℕ → ℝ}

omit [Machine] in
theorem InOrder.getD (h : W.InOrder v f) {k : ℕ} (hk : k < W.perm.length) :
    v.getD k 0 = f (W.perm.getD k 0) := by
  rw [Array.getD_eq_getD_getElem?, ← Array.getElem?_toList, h]
  simp [hk]

theorem InOrder.scale (h : W.InOrder v f) (c : ℝ) : W.InOrder (scale v c) fun j => f j * c := by
  rw [InOrder, Vec.scale, Array.toList_map, h, List.map_map]
  rfl

namespace Copies

variable {p : Program ℝ} (h : W.Copies p)

include h

/-! ## Sums over columns -/

theorem sum_map_perm (φ : ℕ → ℝ) : (W.perm.map φ).sum = ∑ j : Fin p.A.ncols, φ j := by
  rw [(h.perm_range.map φ).sum_eq, ← Finset.sum_range φ]
  rfl

theorem sum_perm (φ : ℕ → ℝ) :
    ∑ k : Fin W.A.ncols, φ (W.perm.getD k 0) = ∑ j : Fin p.A.ncols, φ j := by
  have hofFn : W.perm.map φ = List.ofFn fun k : Fin W.A.ncols => φ (W.perm.getD k 0) := by
    apply List.ext_getElem (by simp [h.ncols_eq])
    intro k hk hk'
    have hk : k < W.perm.length := by simpa using hk
    simp [hk]
  rw [← h.sum_map_perm, hofFn, List.sum_ofFn]

theorem dot_inOrder (hv : W.InOrder v f) (hu : W.InOrder u g) :
    dot v u = ∑ j : Fin p.A.ncols, f j * g j := by
  rw [dot, hv, hu, inner_map]
  exact h.sum_map_perm fun j => f j * g j

theorem norm_inOrder (hv : W.InOrder v f) :
    Vec.norm v = euclidean fun j : Fin p.A.ncols => f j := by
  rw [Vec.norm, sumsq, h.dot_inOrder hv hv, euclidean, Scalar.sqrt_real]
  simp only [sq]

/-! ## The data -/

theorem inOrder_c : W.InOrder W.c fun j => p.c.getD j 0 := by
  rw [InOrder, h.c]

theorem get_eq (i : ℕ) {k : ℕ} (hk : k < W.perm.length) :
    W.A.get i k = p.A.get i (W.perm.getD k 0) := by
  have hcol : W.A.column k = p.A.column (W.perm.getD k 0) := by
    rw [h.A, Csc.column_ofColumns (by simpa using hk)]
    simp [hk]
  rw [Csc.get, hcol, Csc.get]

theorem sum_get_eq (hv : W.InOrder v f) (i : ℕ) :
    ∑ k : Fin W.A.ncols, W.A.get i k * v.getD k 0 = ∑ j : Fin p.A.ncols, p.A.get i j * f j := by
  have hterm (k : Fin W.A.ncols) : W.A.get i k * v.getD k 0 =
      p.A.get i (W.perm.getD k 0) * f (W.perm.getD k 0) := by
    have hk : (k : ℕ) < W.perm.length := h.ncols_eq ▸ k.isLt
    rw [hv.getD hk, h.get_eq i hk]
  exact (Finset.sum_congr rfl fun k _ => hterm k).trans (h.sum_perm fun j => p.A.get i j * f j)

theorem mulVec_eq (hv : W.InOrder v f) (i : Fin W.A.nrows) :
    (W.A.toMatrix *ᵥ coords W.A.ncols v) i = ∑ j : Fin p.A.ncols, p.A.get i j * f j :=
  h.sum_get_eq hv i

theorem transpose_mulVec_eq (w : Array ℝ) (k : Fin W.A.ncols) :
    (W.A.toMatrixᵀ *ᵥ coords W.A.nrows w) k =
      ∑ i : Fin p.A.nrows, p.A.get i (W.perm.getD k 0) * w.getD i 0 := by
  have hk : (k : ℕ) < W.perm.length := h.ncols_eq ▸ k.isLt
  have hterm (i : Fin W.A.nrows) : W.A.toMatrixᵀ k i * coords W.A.nrows w i =
      p.A.get i (W.perm.getD k 0) * w.getD i 0 := by
    rw [← h.get_eq i hk]
    rfl
  have hrange (m : ℕ) : ∑ i ∈ Finset.range m, p.A.get i (W.perm.getD k 0) * w.getD i 0 =
      ∑ i : Fin m, p.A.get i (W.perm.getD k 0) * w.getD i 0 := Finset.sum_range _
  have hrows : ∑ i : Fin W.A.nrows, p.A.get i (W.perm.getD k 0) * w.getD i 0 =
      ∑ i : Fin p.A.nrows, p.A.get i (W.perm.getD k 0) * w.getD i 0 := by
    rw [← hrange, h.nrows_eq, hrange]
  exact (Finset.sum_congr rfl fun i _ => hterm i).trans hrows

/-! ## Residuals -/

theorem objective_eq {q : Point ℝ} (hx : W.InOrder q.x f) : (Residuals.of W q).dotCx =
    coords p.A.ncols p.c ⬝ᵥ fun j => f j := h.dot_inOrder h.inOrder_c hx

theorem dotBw_eq (q : Point ℝ) :
    (Residuals.of W q).dotBw = coords p.A.nrows p.b ⬝ᵥ coords p.A.nrows q.w := by
  rw [Residuals.of, h.b, Vec.dot_eq h.sizes.1]

/-- The primal residual of the copy is that of the program. -/
theorem norm_rp {q : Point ℝ} (hq : q.Fits W) (hx : W.InOrder q.x f) :
    Vec.norm (Residuals.of W q).rp =
      euclidean (q.tau • coords p.A.nrows p.b - p.A.toMatrix *ᵥ fun j => f j) := by
  obtain ⟨hsize, hcoords⟩ := coords_rp h.wellFormed hq
  rw [Vec.norm_eq (hsize.trans h.nrows_eq)]
  congr 1
  funext i
  have hi : (i : ℕ) < W.A.nrows := i.isLt.trans_eq h.nrows_eq.symm
  have hentry := congrFun hcoords ⟨i, hi⟩
  rw [Pi.sub_apply, h.mulVec_eq hx ⟨i, hi⟩, Pi.smul_apply, h.b] at hentry
  exact hentry

/-- The dual residual of the copy is that of the program. -/
theorem norm_rd {q : Point ℝ} (hq : q.Fits W) (hs : W.InOrder q.s g) :
    Vec.norm (Residuals.of W q).rd =
      euclidean (q.tau • coords p.A.ncols p.c - p.A.toMatrixᵀ *ᵥ coords p.A.nrows q.w -
        fun j : Fin p.A.ncols => g j) := by
  obtain ⟨hsize, hcoords⟩ := coords_rd h.wellFormed hq
  have hrd : W.InOrder (Residuals.of W q).rd fun j => q.tau * p.c.getD j 0 -
      ∑ i : Fin p.A.nrows, p.A.get i j * q.w.getD i 0 - g j := by
    apply List.ext_getElem (by simp [hsize, h.ncols_eq])
    intro k hk hk'
    have hperm : k < W.perm.length := by simpa using hk'
    have hk₀ : k < W.A.ncols := hperm.trans_eq h.ncols_eq.symm
    have hentry := congrFun hcoords ⟨k, hk₀⟩
    rw [coords_eq_getElem (hsize.symm ▸ hk₀), Pi.sub_apply, Pi.sub_apply, h.transpose_mulVec_eq,
      Pi.smul_apply, coords_apply, h.inOrder_c.getD hperm, coords_apply, hs.getD hperm] at hentry
    rw [Array.getElem_toList, hentry, List.getElem_map, List.getD_eq_getElem _ _ hperm, smul_eq_mul]
  rw [h.norm_inOrder hrd]
  rfl

/-! ## Bringing a vector back -/

/-- A vector whose entries the columns of the program have is in the order of the
copy. -/
theorem inOrder_of_entries {v y : Array ℝ} (hv : v.size = p.A.ncols) (hy : y.size = p.A.ncols)
    (hentries : ∀ place column : ℕ, W.perm[place]? = some column → y[column]? = v[place]?) :
    W.InOrder v fun j => y.getD j 0 := by
  have hlen : W.perm.length = v.size := h.length_perm.trans hv.symm
  apply List.ext_getElem (by simp [hlen])
  intro place hplace hplace'
  have hperm : place < W.perm.length := by simpa using hplace'
  have hlt : W.perm[place] < y.size := hy ▸ h.lt_of_mem_perm (List.getElem_mem hperm)
  have hentry := hentries place _ (List.getElem?_eq_getElem hperm)
  rw [Array.getElem?_eq_getElem hlt, Array.getElem?_eq_getElem (hlen ▸ hperm),
    Option.some.injEq] at hentry
  simp [hlt, hentry]

/-! ## The interior and the identity -/

theorem contains_iff (hv : W.InOrder v f) :
    W.cones.Contains v ↔ ∀ K ∈ p.cones, K.Contains f := by
  rw [Composite.Contains, hv, h.cones, h.perm]
  refine each_blocks_iff (fun K cols => List.forall_mem_map) (fun K bound vector => ?_) p.cones
  show Real.sqrt ((vector.map f).map (· ^ 2)).sum ≤ f bound ↔ _
  rw [List.map_map]
  rfl

omit h in
theorem isInterior_secondOrder_iff {bound : ℕ} {vector : List ℕ} :
    SecondOrder.isInterior ((bound :: vector).map f) = true ↔
      (ConeSpec.secondOrder bound vector).Interior f := by
  have hsum : (vector.map fun j => f j ^ 2).sum = inner (vector.map f) (vector.map f) := by
    simp only [inner_map, sq]
  have hnonneg := inner_self_nonneg (vector.map f)
  rw [SecondOrder.isInterior_iff, ConeSpec.Interior, hsum]
  constructor
  · rintro ⟨t, u, htu, hpos, hres⟩
    obtain ⟨rfl, rfl⟩ := List.cons.inj htu
    rw [Real.sqrt_lt' hpos]
    linarith
  · intro hlt
    have hpos : 0 < f bound := (Real.sqrt_nonneg _).trans_lt hlt
    rw [Real.sqrt_lt' hpos] at hlt
    exact ⟨f bound, vector.map f, rfl, hpos, by linarith⟩

/-- A point in working order is interior to the cone of the copy if it is interior
to the cones of the program. -/
theorem isInterior_iff (hv : W.InOrder v f) :
    W.cones.isInterior v = true ↔ ∀ K ∈ p.cones, K.Interior f := by
  show Composite.InteriorOn W.cones.blocks v.toList ↔ _
  rw [Composite.interiorOn_iff, hv, h.cones, h.perm]
  exact each_blocks_iff (fun K cols => Orthant.isInterior_iff.trans List.forall_mem_map)
    (fun K bound vector => isInterior_secondOrder_iff) p.cones

omit h in
theorem unit_blocks (cones : List (ConeSpec ℕ)) :
    (blocks cones : List (Block ℝ)).flatMap Block.unit =
    List.replicate (orthantColumns cones).length 1 ++
      (secondOrderColumns cones).flatMap fun c => SecondOrder.unit c.length := by
  have hcones : ((secondOrderColumns cones).map fun c =>
      (.secondOrder (.ofDim c.length) : Block ℝ)).flatMap Block.unit =
        (secondOrderColumns cones).flatMap fun c => SecondOrder.unit c.length := by
    rw [List.flatMap_map]
    exact List.flatMap_congr fun c _ => congrArg SecondOrder.unit (SecondOrder.numel_ofDim c.length)
  rw [blocks, List.flatMap_append, hcones]
  congr 1
  split
  next => simp [Block.unit]
  next hempty => simp [Nat.le_zero.mp (not_lt.mp hempty)]

/-- The coordinates of a vector part lead no cone. -/
theorem identity_eq_zero {bound : ℕ} {vector : List ℕ} (hK : .secondOrder bound vector ∈ p.cones)
    {j : ℕ} (hj : j ∈ vector) : ConeSpec.identity p.cones j = 0 := by
  obtain ⟨hnodup, hdisjoint⟩ := List.nodup_flatMap.mp (h.covered.nodup_iff.mpr List.nodup_range)
  refine if_neg fun hlead => ?_
  obtain ⟨K, hmem, rfl⟩ := List.mem_map.mp hlead
  have hindex : K.lead ∈ K.indices := by cases K <;> simp [ConeSpec.lead, ConeSpec.indices]
  by_cases heq : K = .secondOrder bound vector
  · subst heq
    exact (List.nodup_cons.mp (hnodup _ hK)).1 hj
  · have : Std.Symm (Function.onFun List.Disjoint (@ConeSpec.indices ℕ)) :=
      ⟨fun _ _ hd => List.Disjoint.symm hd⟩
    exact hdisjoint.forall hmem hK heq hindex (List.mem_cons_of_mem _ hj)

/-- The identity of the copy is the identity of the cones of the program. -/
theorem inOrder_unit : W.InOrder W.cones.unit (ConeSpec.identity p.cones) := by
  have hlead {K : ConeSpec ℕ} (hK : K ∈ p.cones) : ConeSpec.identity p.cones K.lead = 1 :=
    if_pos (List.mem_map_of_mem hK)
  rw [InOrder, h.cones, h.perm, Composite.unit, List.toList_toArray, unit_blocks, order,
    List.map_append, List.map_flatten, ← List.flatMap_def]
  congr 1
  · refine (List.eq_replicate_iff.mpr ⟨List.length_map _, fun a ha => ?_⟩).symm
    obtain ⟨i, hi, rfl⟩ := List.mem_map.mp ha
    exact hlead (mem_orthantColumns.mp hi)
  · refine List.flatMap_congr fun c hc => ?_
    obtain ⟨bound, vector, hK, rfl⟩ := mem_secondOrderColumns.mp hc
    have hvector : vector.map (ConeSpec.identity p.cones) = List.replicate vector.length 0 :=
      List.eq_replicate_iff.mpr ⟨List.length_map _, fun a ha => by
        obtain ⟨j, hj, rfl⟩ := List.mem_map.mp ha
        exact h.identity_eq_zero hK hj⟩
    have hbound : ConeSpec.identity p.cones bound = 1 := hlead hK
    rw [List.map_cons, hvector, hbound]
    simp [SecondOrder.unit]

end Copies

end WorkingCopy

end Conic
