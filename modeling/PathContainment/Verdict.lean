/-!
# Verdicts

A question of containment has three answers: it holds, it fails, or it cannot be told from the structure of
the paths alone. The answers are ordered `fails < unknown < holds`; conjunction is the lesser of two verdicts,
disjunction the greater, and the verdict of a list of alternatives is the greatest of them.
-/

namespace PathContainment

/-- The answer to the question whether one thing contains another. -/
inductive Verdict where
  | fails
  | unknown
  | holds
  deriving DecidableEq, Repr

namespace Verdict

/-- The lesser of two verdicts. The second is not evaluated when the first one fails. -/
@[macro_inline] def and (a b : Verdict) : Verdict :=
  match a with
  | fails => fails
  | holds => b
  | unknown =>
    match b with
    | fails => fails
    | _ => unknown

/-- The greater of two verdicts. The second is not evaluated when the first one holds. -/
@[macro_inline] def or (a b : Verdict) : Verdict :=
  match a with
  | holds => holds
  | fails => b
  | unknown =>
    match b with
    | holds => holds
    | _ => unknown

/-- The verdict alone decides a conjunction it is the first part of. -/
def settlesAnd (a : Verdict) : Bool := a = fails

/-- The verdict alone decides a disjunction it is the first part of. -/
def settlesOr (a : Verdict) : Bool := a = holds

/-- The greatest verdict of `f` over a list, `fails` for the empty list. -/
def anyOf {α : Type u} (f : α → Verdict) : List α → Verdict
  | [] => fails
  | a :: rest => (f a).or (anyOf f rest)

/-- The greatest verdict of a list of alternatives. -/
def any (alternatives : List Verdict) : Verdict := anyOf id alternatives

/-- How many alternatives have to be looked at: none is looked at after the first one that holds. -/
def inspected : List Verdict → Nat
  | [] => 0
  | holds :: _ => 1
  | _ :: rest => inspected rest + 1

/-! ### Verdicts and truth values -/

def ofBool : Bool → Verdict
  | true => holds
  | false => fails

/-- An absent truth value is the unknown verdict. -/
def ofOption : Option Bool → Verdict
  | some b => ofBool b
  | none => unknown

def toOption : Verdict → Option Bool
  | holds => some true
  | fails => some false
  | unknown => none

/-- A verdict counts as a match when it holds, and when it is unknown if that is asked for. -/
def counts (unknownCounts : Bool) : Verdict → Bool
  | holds => true
  | unknown => unknownCounts
  | fails => false

/-! ### Verdicts as words -/

def word : Verdict → String
  | holds => "true"
  | fails => "false"
  | unknown => "unknown"

/-- The words in the order in which a message lists them. -/
def words : List String := [word holds, word fails, word unknown]

def ofWord? (text : String) : Option Verdict :=
  [holds, fails, unknown].find? (·.word = text)

end Verdict

end PathContainment
