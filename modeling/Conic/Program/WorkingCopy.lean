import Conic.Program.Basic

/-!
# The working copy of a program

A solve works on a copy of the program whose columns are in another order.  The
columns of half lines come first, and each second-order cone follows with its
bound in front of its vector.  In that order every cone is a range of
consecutive columns, and the cones are one composite cone.

`WorkingCopy.checkIn` brings a point in working order back into the program.
-/

namespace Conic

/-- A program in working order. -/
structure WorkingCopy (α : Type) where
  /-- The matrix. -/
  A : Csc α
  /-- The right-hand side. -/
  b : Array α
  /-- The costs. -/
  c : Array α
  /-- The cone. -/
  cones : Composite α
  /-- Column `j` of the copy is column `perm[j]` of the program. -/
  perm : List Nat

namespace WorkingCopy

variable {α : Type} [Scalar α]

/-- The columns of half lines, in the order of the cones. -/
def orthantColumns (cones : List (ConeSpec Nat)) : List Nat :=
  cones.filterMap fun K =>
    match K with
    | .nonnegative i => some i
    | .secondOrder _ _ => none

/-- The columns of each second-order cone, in the order of the cones. -/
def secondOrderColumns (cones : List (ConeSpec Nat)) : List (List Nat) :=
  cones.filterMap fun K =>
    match K with
    | .nonnegative _ => none
    | .secondOrder bound vector => some (bound :: vector)

/-- The working copy of a valid program. -/
def checkOut (p : Program α) : Except (Fault ProgramError) (WorkingCopy α) := do
  p.validate
  let orthant := orthantColumns p.cones
  let secondOrder := secondOrderColumns p.cones
  let perm := orthant ++ secondOrder.flatten
  let A ← Fault.ofOption (p.A.permuteColumns? perm)
  let c ← Fault.ofOption (perm.mapM fun j => p.c[j]?)
  let cones ← Fault.mapCause .cone (Fault.lift
    (Composite.ofDims orthant.length (secondOrder.map List.length)))
  pure ⟨A, p.b, c.toArray, cones, perm⟩

/-- The column of the program that is column `j` of the copy. -/
def programColumn? (W : WorkingCopy α) (j : Nat) : Option Nat := W.perm[j]?

/-- A change of a program that can fail.  What it has changed before it fails
stays changed. -/
abbrev Change (α : Type) := ExceptT (Fault ProgramError) (StateM (Program α))

/-- A result that changes nothing. -/
def Change.require {β : Type} (r : Except (Fault ProgramError) β) : Change α β :=
  ExceptT.mk (pure r)

/-- Stores a value at an index of one of the vectors of a program. -/
def Change.store (read : Program α → Array α) (write : Array α → Program α → Program α)
    (i : Nat) (v : Option α) : Change α Unit := do
  let v ← Change.require (Fault.ofOption v)
  let xs ← Change.require (Fault.ofOption (update? (read (← get)) i fun _ => v))
  modify (write xs)

/-- Brings the entries of a primal point and of a dual slack at one place of the
copy to their column. -/
def checkInColumn (x s : Array α) (column place : Nat) : Change α Unit := do
  Change.store Program.x (fun x p => { p with x := x }) column x[place]?
  Change.store Program.s (fun s p => { p with s := s }) column s[place]?

/-- Replaces the dual point of a program by another one of its length. -/
def replaceDual (w : Array α) : Change α Unit := do
  if (← get).w.size = w.size then modify fun p => { p with w := w } else throw .outOfBounds

/-- Brings a point, which is in the order of the copy, into the program.  The
lengths are compared before anything is changed. -/
def checkIn (W : WorkingCopy α) (x w s : Array α) : Change α Unit := do
  Change.require (Fault.lift (Program.checkLength .x W.A.ncols x.size))
  Change.require (Fault.lift (Program.checkLength .w W.A.nrows w.size))
  Change.require (Fault.lift (Program.checkLength .s W.A.ncols s.size))
  W.perm.zipIdx.forM fun (column, place) => checkInColumn x s column place
  replaceDual w

end WorkingCopy

end Conic
