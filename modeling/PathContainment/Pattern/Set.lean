import PathContainment.Pattern.Tree

/-!
# Sets of patterns

A set of patterns answers which of its patterns contain a given path. It keeps the patterns in the order in which
they were inserted, and beside them a tree of the same patterns, in which the question is answered without a look
at most of them.
-/

namespace PathContainment

structure PatternSet (P : Type u) where
  /-- The patterns in the order of insertion. -/
  toList : List P
  tree : Node P

namespace PatternSet

variable {P : Type u}

def empty : PatternSet P := { toList := [], tree := .empty }

def size (set : PatternSet P) : Nat := set.toList.length

def isEmpty (set : PatternSet P) : Bool := set.toList.isEmpty

variable [Pattern P]

def mem (set : PatternSet P) (pattern : P) : Bool := set.toList.any (· == pattern)

def steps (pattern : P) : List Element := (Pattern.path pattern).elements

/-- Inserts a pattern and tells whether it was inserted: it is not when an equal pattern is there already, or when the
tree refuses it. -/
def insert (set : PatternSet P) (pattern : P) : PatternSet P × Bool :=
  if set.mem pattern then (set, false)
  else
    let (tree, stored) := set.tree.insert pattern (steps pattern)
    ({ toList := if stored then set.toList ++ [pattern] else set.toList, tree }, stored)

/-- Removes a pattern and tells whether it was there. -/
def remove (set : PatternSet P) (pattern : P) : PatternSet P × Bool :=
  if set.mem pattern then
    ({ toList := set.toList.eraseP (· == pattern), tree := (set.tree.remove pattern (steps pattern)).1 }, true)
  else (set, false)

/-- Inserts patterns one after the other. -/
def extend (set : PatternSet P) (patterns : List P) : PatternSet P :=
  patterns.foldl (fun set pattern => (set.insert pattern).1) set

/-- Takes all patterns out. -/
def clear (_ : PatternSet P) : PatternSet P := empty

def ofList (patterns : List P) : PatternSet P := empty.extend patterns

/-- The verdict on the containment of a path in some pattern of the set. -/
def contains (set : PatternSet P) (path : AnyPath) : Verdict := set.tree.verdict path path.elements

/-- The patterns known to contain a path. -/
def containing (set : PatternSet P) (path : AnyPath) : List P := set.tree.collect path path.elements

end PatternSet

end PathContainment
