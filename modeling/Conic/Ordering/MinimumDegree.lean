import Conic.Ordering.QuotientGraph

/-!
# A fill-reducing order

`minimumDegree` orders the nodes of a symmetric pattern so that its
factorisation fills in little.  It eliminates a node of approximately least
degree again and again.  The elements form a tree by absorption.  The order
walks the tree in postorder, the child with the largest front last, and puts
the merged variables behind the one that they were merged into.

Whatever the elimination does, the result is an order of all nodes: `certify`
checks it and falls back on the given order of the nodes.  Everything that is
built on the order may rely on `isOrder_certify`.
-/

namespace Conic.Ordering

/-- Every number below `n` occurs in a list of length `n`. -/
def isOrder (n : Nat) (perm : List Nat) : Bool :=
  perm.length == n && (List.range n).all (perm.contains ·)

/-- A list that is an order of the numbers below `n`, or else the numbers in
their own order. -/
def certify (n : Nat) (perm : List Nat) : List Nat :=
  if isOrder n perm then perm else List.range n

theorem isOrder_range (n : Nat) : isOrder n (List.range n) = true := by
  simp [isOrder]

/-- What has been certified is an order. -/
theorem isOrder_certify (n : Nat) (perm : List Nat) : isOrder n (certify n perm) = true := by
  unfold certify
  split
  · assumption
  · exact isOrder_range n

/-! ## The tree of the elements -/

namespace Quotient

/-- The first ancestor that has a weight. -/
def heavyAncestor (q : Quotient) : Nat → Nat → Option Nat
  | 0, _ => none
  | fuel + 1, e =>
    if 0 < q.weight.getD e 0 then some e
    else (q.parent.getD e none).bind (heavyAncestor q fuel)

/-- Every merged variable linked to the first ancestor that has a weight. -/
def flatten (q : Quotient) : Quotient :=
  (List.range q.size).foldl (fun q i =>
    if q.weight.getD i 0 = 0 then
      match q.parent.getD i none with
      | some e => { q with parent := q.parent.setIfInBounds i (q.heavyAncestor (q.size + 1) e) }
      | none => q
    else q) q

/-- The node with the largest front, the later one of two. -/
def largest (q : Quotient) : List Nat → Option Nat
  | [] => none
  | c :: cs =>
    match largest q cs with
    | some d => if q.front.getD d 0 < q.front.getD c 0 then some c else some d
    | none => some c

/-- The children of an element.  The one with the largest front is last. -/
def children (q : Quotient) (e : Nat) : List Nat :=
  let cs := (List.range q.size).filter fun j =>
    decide (0 < q.weight.getD j 0) && q.parent.getD j none == some e
  match q.largest cs with
  | some big => cs.erase big ++ [big]
  | none => cs

/-- The elements below an element, and then itself. -/
def postorder (q : Quotient) : Nat → Nat → List Nat
  | 0, _ => []
  | fuel + 1, e => (q.children e).flatMap (postorder q fuel) ++ [e]

/-- The roots of the tree. -/
def roots (q : Quotient) : List Nat :=
  (List.range q.size).filter fun r =>
    decide (0 < q.weight.getD r 0) && (q.parent.getD r none).isNone

/-- The first position of each element, in the given order, and the number of
positions taken. -/
def places (q : Quotient) (order : List Nat) : Array Nat × Nat :=
  order.foldl (fun (s : Array Nat × Nat) e =>
    (s.1.setIfInBounds e s.2, s.2 + q.weight.getD e 0)) (Array.replicate q.size 0, 0)

/-- The position of every node.  A merged variable comes before the element
that it belongs to, and a node that was set aside comes last. -/
def positions (q : Quotient) (order : List Nat) : Array Nat :=
  let place (s : Array Nat × Nat) (i : Nat) : Array Nat × Nat :=
    let (next, k) := s
    if q.weight.getD i 0 = 0 then
      match q.parent.getD i none with
      | some e => ((next.setIfInBounds i (next.getD e 0)).modify e (· + 1), k)
      | none => (next.setIfInBounds i k, k + 1)
    else s
  ((List.range q.size).foldl place (q.places order)).1

/-- The nodes in the order of their positions. -/
def order (q : Quotient) : List Nat :=
  let q := q.flatten
  let next := q.positions (q.roots.flatMap (q.postorder (q.size + 1)))
  ((List.range q.size).foldl (fun (perm : Array Nat) i => perm.setIfInBounds (next.getD i 0) i)
    (Array.replicate q.size 0)).toList

end Quotient

/-- A fill-reducing order for the symmetric pattern whose upper triangle has
the given columns of rows. -/
def minimumDegree (columns : List (List Nat)) : List Nat :=
  let n := columns.length
  certify n ((Quotient.start n columns).run n).order

end Conic.Ordering
