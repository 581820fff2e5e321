/-!
# The quotient graph of an elimination

Eliminating a node of a graph joins its neighbours to a clique.  A quotient
graph does not store the cliques.  An eliminated node becomes an *element*
that lists the nodes of its clique, its *pattern*.  A node that is still there,
a *variable*, lists the elements whose cliques it belongs to, and the variables
that it is joined to directly.

Variables that have the same lists will stay alike to the end.  They are
merged, and one of them stands for all.  The *weight* of a variable is the
number of nodes that it stands for, and it is zero once the variable has been
merged into another one.

`eliminate` is one step of the elimination.  It takes a variable of least
degree, makes it an element and absorbs the elements inside it.  Degrees are
upper bounds.  They count the nodes of each element outside the new one, and
nodes that two elements share are counted twice.

The lists are kept in a fixed order, since the order decides which of several
variables of equal degree comes first.
-/

namespace Conic.Ordering

/-- The state of an elimination of `size` nodes. -/
structure Quotient where
  /-- The number of nodes. -/
  size : Nat
  /-- The number of nodes that a variable or an element stands for. -/
  weight : Array Nat
  /-- An upper bound for the degree of a variable, and the weight of the
  pattern of an element. -/
  degree : Array Nat
  /-- The elements that a variable belongs to. -/
  elements : Array (List Nat)
  /-- The variables that a variable is joined to, and the pattern of an
  element. -/
  pattern : Array (List Nat)
  /-- The element that absorbed an element, or what a variable was merged
  into. -/
  parent : Array (Option Nat)
  /-- The size of the front of an element. -/
  front : Array Nat
  /-- The element has not been absorbed. -/
  alive : Array Bool
  /-- The variables of each degree, the latest first. -/
  ofDegree : Array (List Nat)
  /-- The number of nodes that are eliminated. -/
  eliminated : Nat
  /-- No variable has a smaller degree. -/
  leastDegree : Nat

/-- The largest `r` with `r * r ≤ m`. -/
def root (m : Nat) : Nat :=
  if h : m = 0 then 0
  else
    let r := 2 * root (m / 4)
    if (r + 1) * (r + 1) ≤ m then r + 1 else r
termination_by m
decreasing_by omega

/-- A node with more neighbours than this is set aside and comes last. -/
def denseLimit (n : Nat) : Nat := min n (max 16 (root (100 * n)))

/-- The neighbours of each node, ascending, for the symmetric pattern whose
upper triangle is given by columns.  The diagonal is left out. -/
def neighbours (n : Nat) (columns : List (List Nat)) : Array (List Nat) :=
  let pairs := columns.zipIdx.flatMap fun c => c.1.map fun i => (i, c.2)
  let join (nb : Array (List Nat)) (p : Nat × Nat) : Array (List Nat) :=
    if p.1 = p.2 then nb else (nb.modify p.1 (p.2 :: ·)).modify p.2 (p.1 :: ·)
  (pairs.foldl join (Array.replicate n [])).map fun l =>
    (l.mergeSort fun a b => decide (a ≤ b)).eraseReps

namespace Quotient

/-- Puts a variable in front of those of its degree. -/
def enlist (q : Quotient) (i : Nat) : Quotient :=
  { q with ofDegree := q.ofDegree.modify (q.degree.getD i 0) (i :: ·) }

/-- Counts a node that has no neighbours as eliminated, sets a dense one aside,
and enlists any other one. -/
def enter (q : Quotient) (i : Nat) : Quotient :=
  let d := q.degree.getD i 0
  if d = 0 then { q with front := q.front.setIfInBounds i 1, eliminated := q.eliminated + 1 }
  else if denseLimit q.size < d then
    { q with weight := q.weight.setIfInBounds i 0, eliminated := q.eliminated + 1 }
  else q.enlist i

/-- The quotient graph before the first step. -/
def start (n : Nat) (columns : List (List Nat)) : Quotient :=
  let nb := neighbours n columns
  (List.range n).foldl enter {
    size := n
    weight := Array.replicate n 1
    degree := nb.map List.length
    elements := Array.replicate n []
    pattern := nb
    parent := Array.replicate n none
    front := Array.replicate n 0
    alive := Array.replicate n false
    ofDegree := Array.replicate n []
    eliminated := 0
    leastDegree := 0 }

/-! ## The pattern of the new element -/

/-- A new element while it is built. -/
structure Clique where
  /-- The variables that it joins, the latest first. -/
  nodes : List Nat
  /-- Marks these variables and the element itself. -/
  isIn : Array Bool
  /-- The weight of the variables. -/
  weight : Nat

/-- Takes a variable into a clique, unless it is there or merged. -/
def take (s : Quotient × Clique) (i : Nat) : Quotient × Clique :=
  let (q, c) := s
  let w := q.weight.getD i 0
  if w = 0 ∨ c.isIn.getD i true = true then (q, c)
  else
    ({ q with ofDegree := q.ofDegree.modify (q.degree.getD i 0) (·.erase i) },
      ⟨i :: c.nodes, c.isIn.setIfInBounds i true, c.weight + w⟩)

/-- Takes the pattern of an element into a clique.  The element `me` absorbs
it. -/
def absorb (me : Nat) (s : Quotient × Clique) (e : Nat) : Quotient × Clique :=
  let (q, c) := (s.1.pattern.getD e []).foldl take s
  ({ q with
      parent := q.parent.setIfInBounds e (some me)
      alive := q.alive.setIfInBounds e false }, c)

/-- The clique of the element `me`: the variables of its elements, then those
it is joined to. -/
def gather (q : Quotient) (me : Nat) : Quotient × Clique :=
  let c : Clique := ⟨[], (Array.replicate q.size false).setIfInBounds me true, 0⟩
  let (q, c) := (q.elements.getD me []).foldl (absorb me) (q, c)
  (q.pattern.getD me []).foldl take (q, c)

/-! ## Degrees -/

/-- The weight of each element outside a clique, for the elements that touch
the clique. -/
def outside (q : Quotient) (nodes : List Nat) : Array (Option Int) :=
  nodes.foldl (fun ext i =>
    (q.elements.getD i []).foldl (fun (ext : Array (Option Int)) e =>
      if q.alive.getD e false then
        let w : Int := ((ext.getD e none).getD (q.degree.getD e 0)) - q.weight.getD i 0
        ext.setIfInBounds e (some w)
      else ext) ext) (Array.replicate q.size none)

/-- A step of the elimination while the variables of its clique are revised. -/
structure Revision where
  /-- The quotient graph. -/
  graph : Quotient
  /-- The weight of the new element itself. -/
  pivot : Nat
  /-- The weight of its clique. -/
  clique : Nat
  /-- The variables by their key, the latest first. -/
  byKey : Array (List Nat)
  /-- The key of each variable. -/
  key : Array Nat

/-- The elements of a variable that reach beyond the clique of `me`, and the
weight beyond it.  The other ones are absorbed. -/
def beyond (ext : Array (Option Int)) (me : Nat) (q : Quotient) (i : Nat) :
    Quotient × List Nat × Int :=
  let (q, es, w) := (q.elements.getD i []).foldl (fun (s : Quotient × List Nat × Int) e =>
    let (q, es, w) := s
    if q.alive.getD e false then
      let x := (ext.getD e none).getD 0
      if 0 < x then (q, e :: es, w + x)
      else
        ({ q with
            parent := q.parent.setIfInBounds e (some me)
            alive := q.alive.setIfInBounds e false }, es, w)
    else s) (q, [], 0)
  (q, es.reverse, w)

/-- A list with its first entry moved to its end. -/
def rotate (l : List Nat) : List Nat := l.drop 1 ++ l.take 1

/-- Revises one variable of the clique of `me`.  A variable that reaches
nothing beyond the clique is eliminated together with `me`.  Any other one gets
its new lists, its new degree and a key that equal lists have in common. -/
def revise (ext : Array (Option Int)) (isIn : Array Bool) (me : Nat) (r : Revision) (i : Nat) :
    Revision :=
  let (q, es, w) := beyond ext me r.graph i
  let vs := (q.pattern.getD i []).filter fun j =>
    decide (0 < q.weight.getD j 0) && !isIn.getD j true
  let wi := q.weight.getD i 0
  if es.isEmpty && vs.isEmpty then
    { r with
      graph := { q with
        parent := q.parent.setIfInBounds i (some me)
        weight := q.weight.setIfInBounds i 0
        eliminated := q.eliminated + wi }
      pivot := r.pivot + wi
      clique := r.clique - wi }
  else
    let reach := vs.foldl (fun (n : Int) j => n + q.weight.getD j 0) w
    let key := (es ++ vs).foldl (· + ·) 0 % q.size
    { r with
      graph := { q with
        degree := q.degree.modify i fun d => min d reach.toNat
        elements := q.elements.setIfInBounds i (me :: rotate es)
        pattern := q.pattern.setIfInBounds i (rotate vs) }
      byKey := r.byKey.modify key (i :: ·)
      key := r.key.setIfInBounds i key }

/-! ## Merging -/

/-- Two variables have the same lists, as sets. -/
def alike (q : Quotient) (i j : Nat) : Bool :=
  let ei := q.elements.getD i []
  let ej := q.elements.getD j []
  let vi := q.pattern.getD i []
  let vj := q.pattern.getD j []
  let a := ei ++ vi
  let b := ej ++ vj
  ei.length == ej.length && vi.length == vj.length &&
    b.all (a.contains ·) && a.all (b.contains ·)

/-- Merges the variable `j` into `i`. -/
def merge (i : Nat) (q : Quotient) (j : Nat) : Quotient :=
  { q with
    parent := q.parent.setIfInBounds j (some i)
    weight := (q.weight.modify i (· + q.weight.getD j 0)).setIfInBounds j 0 }

/-- Merges the variables of a list that are alike, each into the first one like
it. -/
def mergeAlike : Nat → Quotient → List Nat → Quotient
  | 0, q, _ => q
  | _, q, [] => q
  | fuel + 1, q, i :: rest =>
    let (same, other) := rest.partition (q.alike i)
    mergeAlike fuel (same.foldl (merge i) q) other

/-- Merges the variables that share the key of `i`.  Every key is looked at
once. -/
def mergeAt (r : Revision) (i : Nat) : Revision :=
  if r.graph.weight.getD i 0 = 0 then r
  else
    let k := r.key.getD i 0
    let chain := r.byKey.getD k []
    { r with graph := mergeAlike chain.length r.graph chain, byKey := r.byKey.setIfInBounds k [] }

/-! ## One step -/

/-- Enlists a variable of the clique again, with its new degree. -/
def reenlist (clique left : Nat) (s : Quotient × List Nat) (i : Nat) : Quotient × List Nat :=
  let (q, kept) := s
  let w := q.weight.getD i 0
  if w = 0 then s
  else
    let d := min (q.degree.getD i 0 + clique - w) (left - w)
    let q := { q with
      degree := q.degree.setIfInBounds i d
      leastDegree := min q.leastDegree d }
    (q.enlist i, i :: kept)

/-- The least degree, from `d` on, that some variable has. -/
def firstDegree (q : Quotient) : Nat → Nat → Nat
  | 0, d => d
  | fuel + 1, d => if (q.ofDegree.getD d []).isEmpty then q.firstDegree fuel (d + 1) else d

/-- Makes the variable `me` an element. -/
def makeElement (q : Quotient) (me : Nat) : Quotient :=
  let pivot := q.weight.getD me 0
  let (q, c) := { q with eliminated := q.eliminated + pivot }.gather me
  let nodes := c.nodes.reverse
  let q := { q with front := q.front.setIfInBounds me (pivot + c.weight) }
  let ext := q.outside nodes
  let r : Revision :=
    ⟨q, pivot, c.weight, Array.replicate q.size [], Array.replicate q.size 0⟩
  let r := nodes.foldl (revise ext c.isIn me) r
  let r := nodes.foldl mergeAt r
  let left := q.size - r.graph.eliminated
  let (q, kept) := nodes.foldl (reenlist r.clique left) (r.graph, [])
  { q with
    weight := q.weight.setIfInBounds me r.pivot
    pattern := q.pattern.setIfInBounds me kept.reverse
    degree := q.degree.setIfInBounds me r.clique
    elements := q.elements.setIfInBounds me []
    alive := q.alive.setIfInBounds me (!kept.isEmpty) }

/-- Eliminates the first variable of least degree, if there is one. -/
def eliminate (q : Quotient) : Quotient :=
  let d := q.firstDegree q.size q.leastDegree
  match q.ofDegree.getD d [] with
  | [] => q
  | me :: rest =>
    { q with leastDegree := d, ofDegree := q.ofDegree.setIfInBounds d rest }.makeElement me

/-- Eliminates until no node is left. -/
def run : Nat → Quotient → Quotient
  | 0, q => q
  | fuel + 1, q => if q.size ≤ q.eliminated then q else run fuel q.eliminate

end Quotient

end Conic.Ordering
