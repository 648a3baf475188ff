/-!
# Kinds of path elements and the faults of paths

`Kind` names the eleven kinds of elements a path is made of. `PathError` lists what can be wrong with an element, or
with the sequence of elements of a path, however it was obtained.
-/

namespace PathContainment

/-- The kind of a path element, without its contents. -/
inductive Kind where
  | root
  | descent
  | property
  | anyProperty
  | properties
  | index
  | anyIndex
  | indexes
  | slice
  | expression
  | filter
  deriving DecidableEq, Repr

/-- The kind in words. -/
def Kind.describe : Kind → String
  | root => "root"
  | descent => "recursive descent"
  | property => "property"
  | anyProperty => "any property"
  | properties => "property list"
  | index => "array index"
  | anyIndex => "any array index"
  | indexes => "array index list"
  | slice => "array slice"
  | expression => "expression"
  | filter => "filter expression"

/-- What is wrong with an element or a path. -/
inductive PathError where
  | empty
  | misplacedRoot (position : Nat)
  | notAbsolute
  | notRelative
  /-- Recursive descent applies neither to the root nor to recursive descent. -/
  | invalidDescent (kind : Kind)
  | noNames
  | noIndexes
  | negativeIndex (index : Int64)
  | zeroStep
  | emptyExpression
  | quoteInName (name : String)
  /-- A path under construction ends with a mark of recursive descent. -/
  | danglingDescent
  /-- The root was asked for after something else. -/
  | rootNotFirst
  deriving DecidableEq, Repr

def PathError.message : PathError → String
  | empty => "path must contain at least one element"
  | misplacedRoot position =>
    s!"root element must only appear at the start of the path (found at position {position})"
  | notAbsolute => "absolute path must start with root element"
  | notRelative => "relative path must not start with root element"
  | invalidDescent kind => "recursive descent must not be applied to " ++ kind.describe
  | noNames => "property list must contain at least one name"
  | noIndexes => "array index list must contain at least one index"
  | negativeIndex index => s!"array index must not be negative: {index}"
  | zeroStep => "array slice step must not be zero"
  | emptyExpression => "expression must not be empty"
  | quoteInName name => "single quote in property name is not allowed: " ++ name
  | danglingDescent => "recursive descent must be followed by another element"
  | rootNotFirst => "root element must be the first element of the path"

end PathContainment
