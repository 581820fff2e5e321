import Conic.Scalar

/-!
# Dense vectors

A vector is an array of scalars.  The operations here are the arithmetic of
dense vectors, entry by entry, and the scalars read off a vector.  Sums run
from the first entry to the last and start at zero.  An operation on two
vectors stops at the end of the shorter one.

`copyFrom?` is the one operation that insists on equal lengths.
-/

namespace Conic.Vec

variable {α : Type} [Scalar α]

/-- The vector of `n` zeros. -/
def zeros (n : Nat) : Array α := Array.replicate n 0

/-! ## Entry by entry -/

/-- The vector `x` in the place of `y`, which must be as long. -/
def copyFrom? (y x : Array α) : Option (Array α) :=
  if y.size = x.size then some x else none

/-- Every entry replaced by `c`. -/
def fill (y : Array α) (c : α) : Array α := y.map fun _ => c

/-- `y * c`, entry by entry. -/
def scale (y : Array α) (c : α) : Array α := y.map (· * c)

/-- `-y`, entry by entry. -/
def negate (y : Array α) : Array α := y.map (-·)

/-- The product of `y` and `d`, entry by entry. -/
def hadamard (y d : Array α) : Array α := Array.zipWith (· * ·) y d

/-- `a * x + b * y`, entry by entry. -/
def axpby (a : α) (x : Array α) (b : α) (y : Array α) : Array α :=
  Array.zipWith (fun xi yi => a * xi + b * yi) x y

/-! ## Scalars of a vector -/

/-- The inner product of two lists of scalars. -/
def inner (x y : List α) : α := (List.zipWith (· * ·) x y).foldl (· + ·) 0

/-- The inner product. -/
def dot (x y : Array α) : α := inner x.toList y.toList

/-- The squared Euclidean norm. -/
def sumsq (x : Array α) : α := dot x x

/-- The Euclidean norm. -/
def norm (x : Array α) : α := Scalar.sqrt (sumsq x)

/-- The largest absolute value of an entry.  If an entry is not a number, the
first such entry. -/
def normInf (x : Array α) : α :=
  match x.find? Scalar.isNaN with
  | some v => v
  | none => x.foldl (fun m v => Scalar.maxNum m (Scalar.abs v)) 0

/-- The largest absolute difference of two entries.  Differences that are not
numbers are skipped. -/
def distInf (x y : Array α) : α :=
  (Array.zipWith (fun a b => Scalar.abs (a - b)) x y).foldl Scalar.maxNum 0

/-- The Euclidean distance. -/
def dist (x y : Array α) : α :=
  Scalar.sqrt ((Array.zipWith (fun a b => (a - b) * (a - b)) x y).foldl (· + ·) 0)

/-- The smallest entry, and infinity for the empty vector. -/
def minimum (x : Array α) : α := x.foldl Scalar.minNum Scalar.infinity

/-- Every entry is finite. -/
def isFinite (x : Array α) : Bool := x.all Scalar.isFinite

/-! ## Lengths -/

@[simp] theorem size_zeros (n : Nat) : (zeros n : Array α).size = n := by simp [zeros]

@[simp] theorem size_scale (y : Array α) (c : α) : (scale y c).size = y.size := by simp [scale]

@[simp] theorem size_negate (y : Array α) : (negate y).size = y.size := by simp [negate]

@[simp] theorem size_hadamard (y d : Array α) : (hadamard y d).size = min y.size d.size := by
  simp [hadamard]

@[simp] theorem size_axpby (a : α) (x : Array α) (b : α) (y : Array α) :
    (axpby a x b y).size = min x.size y.size := by
  simp [axpby]

end Conic.Vec
