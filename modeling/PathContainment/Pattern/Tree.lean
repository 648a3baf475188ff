import PathContainment.Path.Basic
import PathContainment.Pattern.Bucket

/-!
# The tree of patterns

Patterns with the same beginning share a way from the root of a tree down to the node where they end. A node that
is `n` steps deep stands for the first `n` elements of the patterns below it. Patterns whose next element is a
recursive descent go no deeper; the node keeps them in a list of their own, and they are compared with a candidate
as a whole.

A pattern is anything that carries a path and has an equality of its own.
-/

namespace PathContainment

/-- A type whose values carry a path. -/
class Pattern (P : Type u) extends BEq P where
  path : P → AnyPath

instance {scope : Scope} : Pattern (Path scope) where
  path := Path.toAny

/-- A node of the tree. Edges are kept in the order in which they came about, and so are the patterns that go on with
a recursive descent. -/
structure Node (P : Type u) where
  exact : List (Element × Node P)
  property : List (Element × Node P)
  index : List (Element × Node P)
  descents : List P
  /-- The pattern that ends here. -/
  terminal : Option P

namespace Node

variable {P : Type u}

def empty : Node P := { exact := [], property := [], index := [], descents := [], terminal := none }

/-- No pattern passes through the node. -/
def isEmpty (node : Node P) : Bool :=
  node.exact.isEmpty && node.property.isEmpty && node.index.isEmpty && node.descents.isEmpty && node.terminal.isNone

/-- The edges of a bucket. -/
def edges (node : Node P) : Bucket → List (Element × Node P)
  | .exact => node.exact
  | .property => node.property
  | .index => node.index

/-- The node with other edges in a bucket. -/
def setEdges (node : Node P) (bucket : Bucket) (edges : List (Element × Node P)) : Node P :=
  match bucket with
  | .exact => { node with exact := edges }
  | .property => { node with property := edges }
  | .index => { node with index := edges }

/-- The child below the edge of an element. -/
def child? (edges : List (Element × Node P)) (e : Element) : Option (Node P) := edges.lookup e

/-- The edges with another child below the edge of an element, which is added at the end if it is new. -/
def putChild : List (Element × Node P) → Element → Node P → List (Element × Node P)
  | [], e, child => [(e, child)]
  | (key, old) :: rest, e, child =>
    if e == key then (key, child) :: rest else (key, old) :: putChild rest e child

/-- The edges without the edge of an element. -/
def dropChild (edges : List (Element × Node P)) (e : Element) : List (Element × Node P) :=
  edges.eraseP fun edge => e == edge.1

section
variable [Pattern P]

/-! ### Storing and removing -/

/-- Stores a pattern below a node, from which the given elements lead on to its end, and tells whether it was stored:
it is not if a pattern ends at the same node already, or if it is itself among those that go on with a recursive
descent. -/
def insert (pattern : P) : List Element → Node P → Node P × Bool
  | [], node => if node.terminal.isSome then (node, false) else ({ node with terminal := some pattern }, true)
  | e :: rest, node =>
    match e.bucket with
    | none =>
      if node.descents.any (· == pattern) then (node, false)
      else ({ node with descents := node.descents ++ [pattern] }, true)
    | some bucket =>
      let (child, stored) := insert pattern rest ((child? (node.edges bucket) e).getD empty)
      (node.setEdges bucket (putChild (node.edges bucket) e child), stored)

/-- Removes a pattern from below a node, together with the nodes that are empty without it, and tells whether it was
there. -/
def remove (pattern : P) : List Element → Node P → Node P × Bool
  | [], node =>
    if node.terminal.any (· == pattern) then ({ node with terminal := none }, true) else (node, false)
  | e :: rest, node =>
    match e.bucket with
    | none =>
      if node.descents.any (· == pattern) then
        ({ node with descents := node.descents.eraseP (· == pattern) }, true)
      else (node, false)
    | some bucket =>
      match child? (node.edges bucket) e with
      | none => (node, false)
      | some old =>
        let (child, removed) := remove pattern rest old
        if !removed then (node, false)
        else if child.isEmpty then (node.setEdges bucket (dropChild (node.edges bucket) e), true)
        else (node.setEdges bucket (putChild (node.edges bucket) e child), true)

/-! ### Asking -/

/-- The children to go on with for an element of a candidate, each with the verdict on the element of its edge. The
edge of the candidate's own normal form is looked up first, and then the buckets are searched in their order. No edge
is contained in a recursive descent. -/
def next (node : Node P) (e : Element) : List (Verdict × Node P) :=
  if e.isDescent then []
  else
    let n := e.normalForm
    let own := if n.bucket = some .exact then (child? node.exact n).toList else []
    own.map (.holds, ·) ++
      n.candidateBuckets.flatMap fun bucket => (node.edges bucket).map fun (key, child) => (key.contains e, child)

/-- The verdict on the containment of a candidate in some pattern below a node, to which its other elements than the
given ones have led. -/
def verdict (candidate : AnyPath) : List Element → Node P → Verdict
  | [], node => .ofBool node.terminal.isSome
  | e :: rest, node =>
    (Verdict.anyOf (fun (v, child) => v.and (verdict candidate rest child)) (node.next e)).or
      (Verdict.anyOf (fun pattern => (Pattern.path pattern).contains candidate) node.descents)

/-- The patterns below a node that are known to contain a candidate. -/
def collect (candidate : AnyPath) : List Element → Node P → List P
  | [], node => node.terminal.toList
  | e :: rest, node =>
    ((node.next e).flatMap fun (v, child) => if v = .holds then collect candidate rest child else []) ++
      node.descents.filter fun pattern => (Pattern.path pattern).contains candidate = .holds

end

end Node

end PathContainment
