import PathContainment.SortedSet
import PathContainment.Slice

/-!
# Path elements

A path element describes one step from a node of a JSON tree to some of its descendants. The type holds everything
that can be written down, among it elements that no path may contain, such as a list without entries;
`Element.check` tells what is wrong with an element, and the functions `mk…` build an element only from admissible
parts.

Elements are compared by `==`, which identifies what `Slice.same` identifies and nothing else.
-/

namespace PathContainment

inductive Element where
  | root
  | property (name : String)
  | anyProperty
  | properties (names : SortedSet String)
  | index (i : Nat)
  | anyIndex
  | indexes (is : SortedSet Nat)
  | slice (s : Slice)
  /-- An index computed from the array, whose text is not interpreted. -/
  | expression (text : String)
  /-- A condition on the children, whose text is not interpreted. -/
  | filter (text : String)
  /-- Any number of levels, and then the inner element. -/
  | descent (inner : Element)
  deriving DecidableEq

namespace Element

/-! ### Equality -/

/-- Equality up to the default start of ascending slices. -/
def same : Element → Element → Bool
  | slice s, slice t => s == t
  | descent x, descent y => same x y
  | x, y => x = y

instance : BEq Element := ⟨same⟩

/-! ### Kinds -/

def kind : Element → Kind
  | root => .root
  | property _ => .property
  | anyProperty => .anyProperty
  | properties _ => .properties
  | index _ => .index
  | anyIndex => .anyIndex
  | indexes _ => .indexes
  | slice _ => .slice
  | expression _ => .expression
  | filter _ => .filter
  | descent _ => .descent

/-- The element without recursive descent. -/
def underlying : Element → Element
  | descent inner => inner
  | e => e

/-- The element, or the element it descends to, is of the kind. -/
def isOfKind (e : Element) (k : Kind) : Bool := e.kind = k || e.underlying.kind = k

def isDescent (e : Element) : Bool := e.kind = .descent

/-! ### Admissible elements -/

def checkName (name : String) : Except PathError Unit :=
  if '\'' ∈ name.toList then .error (.quoteInName name) else .ok ()

/-- The first fault of the names in a list. -/
def checkEach : List String → Except PathError Unit
  | [] => .ok ()
  | name :: rest => do checkName name; checkEach rest

def checkNames (names : SortedSet String) : Except PathError Unit :=
  if names.isEmpty then .error .noNames else checkEach names.toList

def checkText (text : String) : Except PathError Unit :=
  if text.isEmpty then .error .emptyExpression else .ok ()

/-- Recursive descent cannot be applied to the root, nor twice. -/
def checkDescent (inner : Element) : Except PathError Unit :=
  match inner with
  | root | descent _ => .error (.invalidDescent inner.kind)
  | _ => .ok ()

/-- The fault of an element, if there is one. -/
def check : Element → Except PathError Unit
  | property name => checkName name
  | properties names => checkNames names
  | indexes is => if is.isEmpty then .error .noIndexes else .ok ()
  | expression text => checkText text
  | filter text => checkText text
  | descent inner => do checkDescent inner; check inner
  | _ => .ok ()

/-- The element may stand in a path. -/
def Valid (e : Element) : Prop := e.check = .ok ()

instance (e : Element) : Decidable e.Valid :=
  match h : e.check with
  | .ok () => isTrue h
  | .error _ => isFalse fun hv => by rw [Valid, h] at hv; cases hv

/-- A recursive descent leads to an admissible element that is neither the root nor a recursive descent. -/
theorem valid_descent_iff {e : Element} : (descent e).Valid ↔ e ≠ root ∧ e.isDescent = false ∧ e.Valid := by
  cases e with
  | root => exact iff_of_false (fun h => by cases h) fun h => h.1 rfl
  | descent inner => exact iff_of_false (fun h => by cases h) fun h => by cases h.2.1
  | _ => exact ⟨fun h => ⟨Element.noConfusion, rfl, h⟩, fun h => h.2.2⟩

/-! ### Building elements from admissible parts -/

def mkProperty (name : String) : Except PathError Element := do
  checkName name
  return property name

def mkProperties (names : List String) : Except PathError Element := do
  let names := SortedSet.ofList names
  checkNames names
  return properties names

def checkIndex (i : Int64) : Except PathError Nat :=
  if i < 0 then .error (.negativeIndex i) else .ok i.toInt.toNat

def mkIndex (i : Int64) : Except PathError Element := do
  return index (← checkIndex i)

/-- A negative index is reported before the lack of indexes. -/
def mkIndexes (is : List Int64) : Except PathError Element := do
  let is := SortedSet.ofList (← is.mapM checkIndex)
  if is.isEmpty then .error .noIndexes else .ok (indexes is)

def mkSlice (start stop : Option Int64) (step : Int64) : Except PathError Element := do
  return slice (← Slice.make start stop step)

def mkExpression (text : String) : Except PathError Element := do
  checkText text
  return expression text

def mkFilter (text : String) : Except PathError Element := do
  checkText text
  return filter text

/-- Recursive descent to an element. The inner element itself is taken as it is. -/
def mkDescent (inner : Element) : Except PathError Element := do
  checkDescent inner
  return descent inner

end Element

end PathContainment
