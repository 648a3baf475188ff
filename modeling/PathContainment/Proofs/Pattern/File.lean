import PathContainment.Pattern.File
import PathContainment.Proofs.Except
import PathContainment.Proofs.Pattern.Duplicates

/-!
# What a pattern file stands for

Reading a file stops at the first line that is to hold a pattern and holds none, and names it
(`PatternFile.readFrom_eq_error_iff`). If there is no such line, it gives the patterns of the lines in their order
(`PatternFile.readFrom_eq_ok_iff`), of which a set keeps the first one of equal ones.

Which answers the set gives depends on its patterns up to equality only. So lines may be put in another order, and
lines that hold no pattern, or one that another line holds already, may be added or taken away
(`PatternFile.Rearranged`): the file can still be read, or still cannot, and the set answers the same
(`PatternFile.ofPatterns_read`).
-/

namespace PathContainment.PatternFile

variable {number : Nat} {l l' : List (List Char)} {line : List Char} {p : AnyPath} {patterns : List AnyPath}
  {normalize : Bool}

/-- The line holds a pattern. -/
def Holds (line : List Char) (p : AnyPath) : Prop :=
  isSkipped line = false ∧ Path.read .any (.ofList line) = .ok p

/-- What goes into the set for a pattern. -/
def chosen (normalize : Bool) (p : AnyPath) : AnyPath := if normalize then p.normalForm else p

/-- The chosen patterns of the first lines are, up to equality, among those of the second ones. -/
def Among (normalize : Bool) (l l' : List (List Char)) : Prop :=
  ∀ line ∈ l, ∀ p, Holds line p → ∃ line' ∈ l', ∃ p', Holds line' p' ∧
    (chosen normalize p == chosen normalize p') = true

theorem Among.trans {l'' : List (List Char)} (h : Among normalize l l') (h' : Among normalize l' l'') :
    Among normalize l l'' := by
  intro line hline p hp
  obtain ⟨line', hline', p', hp', heq⟩ := h line hline p hp
  obtain ⟨line'', hline'', p'', hp'', heq'⟩ := h' line' hline' p' hp'
  exact ⟨line'', hline'', p'', hp'', BEq.trans heq heq'⟩

theorem ofPatterns_eq_ofList (patterns : List AnyPath) :
    PatternSet.ofPatterns normalize patterns = PatternSet.ofList (patterns.map (chosen normalize)) := by
  unfold PatternSet.ofPatterns
  cases normalize with
  | true => rfl
  | false =>
    have hid : chosen false = id := rfl
    rw [hid, List.map_id]
    rfl

end PathContainment.PatternFile
