import PathContainment.Path.Basic

/-!
# Building paths step by step

A builder collects elements one by one. A mark of recursive descent applies to the element that is added next. The
first fault is kept, and whatever is asked for after it is ignored; it shows when the path is finished.
-/

namespace PathContainment

/-- One step of building a path. -/
inductive BuildStep where
  | root
  | descent
  | property (name : String)
  | anyProperty
  | properties (names : List String)
  | index (i : Int64)
  | anyIndex
  | indexes (is : List Int64)
  | slice (start stop : Option Int64) (step : Int64)
  | expression (text : String)
  | filter (text : String)
  deriving DecidableEq, Repr

/-- The element a step adds. A list with one entry is that entry. -/
def BuildStep.element : BuildStep → Except PathError Element
  | root => .ok .root
  | descent => .error .danglingDescent
  | property name => Element.mkProperty name
  | anyProperty => .ok .anyProperty
  | properties [name] => Element.mkProperty name
  | properties names => Element.mkProperties names
  | index i => Element.mkIndex i
  | anyIndex => .ok .anyIndex
  | indexes [i] => Element.mkIndex i
  | indexes is => Element.mkIndexes is
  | slice start stop step => Element.mkSlice start stop step
  | expression text => Element.mkExpression text
  | filter text => Element.mkFilter text

/-- A path under construction. -/
structure PathBuilder where
  elements : List Element
  /-- The next element is one of recursive descent. -/
  marked : Bool
  fault : Option PathError
  deriving DecidableEq

namespace PathBuilder

def empty : PathBuilder := { elements := [], marked := false, fault := none }

/-- Adds an element, or keeps the fault of what was to be added. -/
def push (b : PathBuilder) (element : Except PathError Element) : PathBuilder :=
  match if b.marked then element.bind Element.mkDescent else element with
  | .ok e => { b with elements := b.elements ++ [e], marked := false }
  | .error fault => { b with marked := false, fault := some fault }

/-- Takes one step. The root may come only before everything else, and a mark cannot follow a mark. -/
def step (b : PathBuilder) (s : BuildStep) : PathBuilder :=
  if b.fault.isSome then b
  else match s with
    | .root =>
      if b.marked || !b.elements.isEmpty then { b with fault := some .rootNotFirst } else b.push (.ok .root)
    | .descent =>
      if b.marked then { b with fault := some (.invalidDescent .descent) } else { b with marked := true }
    | s => b.push s.element

/-- Takes steps one after the other. -/
def run (b : PathBuilder) (steps : List BuildStep) : PathBuilder := steps.foldl step b

/-- The builder of an absolute path, which holds the root from the start. -/
def absolute : PathBuilder := empty.step .root

/-- The builder of a relative path. -/
def relative : PathBuilder := empty

/-- Finishes the path. -/
def finish (b : PathBuilder) : Except PathError AnyPath :=
  match b.fault with
  | some fault => .error fault
  | none => if b.marked then .error .danglingDescent else Path.ofElements .any b.elements

/-- Finishes the path as one of a given type. -/
def finishAs (b : PathBuilder) (scope : Scope) : Except PathError (Path scope) := do
  (← b.finish).convert scope

end PathBuilder

end PathContainment
