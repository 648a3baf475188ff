import PathContainment.Sequence.Containment
import PathContainment.Sequence.Reader
import PathContainment.Sequence.Text
import PathContainment.Sequence.Validity

/-!
# Paths

A path is a valid sequence of elements. `Path .any` is the type of all paths; `Path .absolute` and `Path .relative`
are the types of those that begin with the root and of those that do not. Every operation is defined once for the
three types: what it returns is valid and of the type again, either because the operation cannot lead out of it, or
because the result is checked.

Paths are equal by `==` when their elements are.
-/

namespace PathContainment

/-- Which paths a type of paths admits. -/
inductive Scope where
  | any
  | absolute
  | relative
  deriving DecidableEq, Repr

namespace Scope

def admits : Scope → List Element → Bool
  | any, _ => true
  | absolute, elements => Sequence.isAbsolute elements
  | relative, elements => !Sequence.isAbsolute elements

/-- The fault of a path that is not admitted. -/
def refusal : Scope → PathError
  | relative => .notRelative
  | _ => .notAbsolute

/-- The name of the type of paths. -/
def title : Scope → String
  | any => "JsonPath"
  | absolute => "AbsolutePath"
  | relative => "RelativePath"

end Scope

/-- A path of a given type. -/
structure Path (scope : Scope) where
  elements : List Element
  valid : Sequence.Valid elements
  admitted : scope.admits elements = true
  deriving DecidableEq

/-- A path of whatever kind. -/
abbrev AnyPath := Path .any

namespace Path

variable {scope : Scope}

instance : BEq (Path scope) := ⟨fun p q => p.elements == q.elements⟩

/-! ### Building paths -/

/-- The path with the given elements. A fault of the elements is reported before their being of the wrong type. -/
def ofElements (scope : Scope) (elements : List Element) : Except PathError (Path scope) :=
  match h : Sequence.check elements with
  | .error fault => .error fault
  | .ok () =>
    if ha : scope.admits elements then
      .ok { elements, valid := .of_check h, admitted := ha }
    else .error scope.refusal

/-- The path a text describes. -/
def read (scope : Scope) (text : String) : Except ParseError (Path scope) := do
  Sequence.admitted (ofElements scope (← Sequence.read text))

/-- The path as a path of another type. -/
def convert (target : Scope) (p : Path scope) : Except PathError (Path target) :=
  if h : target.admits p.elements then .ok { elements := p.elements, valid := p.valid, admitted := h }
  else .error target.refusal

/-- The path without regard to its type. -/
def toAny (p : Path scope) : AnyPath := { elements := p.elements, valid := p.valid, admitted := rfl }

/-! ### Properties of paths -/

/-- The canonical text. -/
def text (p : Path scope) : String := Sequence.text p.elements

/-- The number of elements. -/
def length (p : Path scope) : Nat := p.elements.length

def first (p : Path scope) : Element := p.elements.head p.valid.ne_nil

def last (p : Path scope) : Element := p.elements.getLast p.valid.ne_nil

def isAbsolute (p : Path scope) : Bool := Sequence.isAbsolute p.elements

/-- The path describes exactly one location. -/
def isStrict (p : Path scope) : Bool := Sequence.isStrict p.elements

def isNormal (p : Path scope) : Bool := Sequence.isNormal p.elements

/-- Every location that the other path describes is described by the path. -/
def contains (p : Path scope) (q : Path scope') : Verdict := Sequence.contains p.elements q.elements

/-! ### Normal form -/

/-- The path with all its elements in normal form. -/
def normalForm (p : Path scope) : Path scope :=
  if p.isNormal then p
  else
    { elements := Sequence.normalForm p.elements
      valid := p.valid.normalForm
      admitted := by
        have := p.admitted
        cases scope <;> simp_all [Scope.admits, Sequence.isAbsolute_normalForm p.valid] }

/-! ### Beginnings of paths -/

/-- The path goes on after the other one. -/
def startsWith (p : Path scope) (beginning : Path scope') : Bool :=
  beginning.length < p.length && beginning.elements.isPrefixOf p.elements

private theorem admits_of_isAbsolute_eq {l l' : List Element} (h : Sequence.isAbsolute l = Sequence.isAbsolute l')
    (ha : scope.admits l' = true) : scope.admits l = true := by
  cases scope <;> simp_all [Scope.admits]

private theorem isAbsolute_take (elements : List Element) {n : Nat} (hn : 0 < n) :
    Sequence.isAbsolute (elements.take n) = Sequence.isAbsolute elements := by
  cases n with
  | zero => omega
  | succ n => cases elements <;> rfl

/-- The path of the first `n` elements, of which there is at least one. -/
def take (p : Path scope) (n : Nat) (hn : 0 < n) : Path scope where
  elements := p.elements.take n
  valid := p.valid.take hn
  admitted := admits_of_isAbsolute_eq (isAbsolute_take _ hn) p.admitted

/-- The number of elements that two sequences have in common from their start on. -/
def commonLength : List Element → List Element → Nat
  | e :: rest, e' :: rest' => if e == e' then commonLength rest rest' + 1 else 0
  | _, _ => 0

/-- The longest common beginning of two paths, absent when they differ in their first elements. -/
def parentWith (p q : Path scope) : Option (Path scope) :=
  let n := commonLength p.elements q.elements
  if hn : 0 < n then
    if n = p.length then some p
    else if n = q.length then some q
    else some (p.take n hn)
  else none

private theorem isAbsolute_drop {elements : List Element} (h : Sequence.Valid elements) {n : Nat} (hn : 0 < n) :
    Sequence.isAbsolute (elements.drop n) = false := by
  refine decide_eq_false fun hr => h.root_not_mem_tail ?_
  have hm := List.mem_of_head? hr
  cases n with
  | zero => omega
  | succ n =>
    rw [Nat.add_comm, ← List.drop_drop, List.drop_one] at hm
    exact List.mem_of_mem_drop hm

theorem length_pos (p : Path scope) : 0 < p.length := List.length_pos_iff.2 p.valid.ne_nil

/-- What the child adds to the path, when it goes on after the path. -/
def relativePathTo (p : Path scope) (child : Path scope') : Option (Path .relative) :=
  if h : child.startsWith p then
    some {
      elements := child.elements.drop p.length
      valid := child.valid.drop (by simp only [startsWith, Bool.and_eq_true, decide_eq_true_eq] at h; exact h.1)
      admitted := by simp [Scope.admits, isAbsolute_drop child.valid p.length_pos] }
  else none

/-! ### Extending and shortening paths -/

private theorem isAbsolute_append {elements : List Element} (h : elements ≠ []) (rest : List Element) :
    Sequence.isAbsolute (elements ++ rest) = Sequence.isAbsolute elements := by
  cases elements with
  | nil => exact absurd rfl h
  | cons e l => rfl

/-- The path with elements added at its end, if that is a path. -/
def append (p : Path scope) (rest : List Element) : Except PathError (Path scope) :=
  if rest = [] then .ok p else ofElements scope (p.elements ++ rest)

/-- The path with a relative path added at its end. -/
def appendPath (p : Path scope) (rest : Path .relative) : Path scope where
  elements := p.elements ++ rest.elements
  valid := p.valid.append rest.valid (by simpa [Scope.admits] using rest.admitted)
  admitted := admits_of_isAbsolute_eq (isAbsolute_append p.valid.ne_nil _) p.admitted

/-- The path with another last element, if that is a path. -/
def replaceLast (p : Path scope) (e : Element) : Except PathError (Path scope) :=
  ofElements scope (p.elements.dropLast ++ [e])

/-- The path without its last elements, absent when nothing would be left. -/
def removeLast (p : Path scope) (count : Nat) : Option (Path scope) :=
  if count = 0 then some p
  else if h : count < p.length then some (p.take (p.length - count) (by omega))
  else none

/-- The path anchored at the root. -/
def toAbsolute (p : Path scope) : Path .absolute :=
  if h : p.isAbsolute then { elements := p.elements, valid := p.valid, admitted := h }
  else
    { elements := .root :: p.elements
      valid := p.valid.cons_root (by simpa [isAbsolute] using h)
      admitted := rfl }

end Path

end PathContainment
