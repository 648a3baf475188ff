import PathContainment.Proofs.Path.Reach

/-!
# Runs of changes lead from paths to paths

Most changes of a path are made without a check of what results: a part of a path, its normal form, two paths joined
together and a path that is put under the root are paths for different reasons. Whether they are is a question about
the elements alone. So here the changes are made a second time, on elements that are only taken for a path
(`Draft.edit`): these are checked where loose elements come in or where a path becomes one of another type, and
nowhere else. What is reached in this way from paths that were read, built or checked are the elements of a path, and
on them every change of paths does the same as the change of elements (`Draft.isPath_of_reachable`).
-/

namespace PathContainment

/-- Elements that are taken for a path of a type. -/
abbrev Unchecked (_ : Scope) := List Element

/-- A change of a path that leads to one of the target type. The other paths that it takes are given as an `α`. -/
inductive Edit (α : Scope → Type) (scope : Scope) : Scope → Type
  | normalForm : Edit α scope scope
  | parentWith (other : α scope) : Edit α scope scope
  | relativePathTo (inner : Scope) (child : α inner) : Edit α scope .relative
  | append (rest : List Element) : Edit α scope scope
  | appendPath (rest : α .relative) : Edit α scope scope
  | replaceLast (e : Element) : Edit α scope scope
  | removeLast (count : Nat) : Edit α scope scope
  | toAbsolute : Edit α scope .absolute
  /-- The elements are taken out and made a path again. -/
  | rebuild (target : Scope) : Edit α scope target
  | convert (target : Scope) : Edit α scope target

/-- Why a change leads to no path. -/
inductive Refusal where
  | fault (f : PathError)
  /-- There is nothing to be had. -/
  | nothing

/-! ### Changes of paths -/

section Outcomes

variable {α β : Type} {f : α → β}

def orFault (x : Except PathError α) : Except Refusal α := x.mapError .fault

def orNothing : Option α → Except Refusal α
  | some a => .ok a
  | none => .error .nothing

theorem orFault_map (x : Except PathError α) : orFault (x.map f) = (orFault x).map f := by
  cases x <;> rfl

theorem orNothing_map (x : Option α) : orNothing (x.map f) = (orNothing x).map f := by
  cases x <;> rfl

end Outcomes

variable {scope target : Scope}

/-- The change of a path, by the operations on paths. -/
def Path.edit (p : Path scope) : Edit Path scope target → Except Refusal (Path target)
  | .normalForm => .ok p.normalForm
  | .parentWith other => orNothing (p.parentWith other)
  | .relativePathTo _ child => orNothing (p.relativePathTo child)
  | .append rest => orFault (p.append rest)
  | .appendPath rest => .ok (p.appendPath rest)
  | .replaceLast e => orFault (p.replaceLast e)
  | .removeLast count => orNothing (p.removeLast count)
  | .toAbsolute => .ok p.toAbsolute
  | .rebuild target => orFault (ofElements target p.elements)
  | .convert target => orFault (p.convert target)

/-! ### Changes of the elements alone -/

namespace Unchecked

/-- The elements as those of a path, after a check. -/
def ofElements (scope : Scope) (elements : List Element) : Except PathError (List Element) :=
  (Path.ofElements scope elements).map Path.elements

def normalForm (elements : List Element) : List Element :=
  if Sequence.isNormal elements then elements else Sequence.normalForm elements

def parentWith (elements other : List Element) : Option (List Element) :=
  let n := Path.commonLength elements other
  if n = 0 then none
  else if n = elements.length then some elements
  else if n = other.length then some other
  else some (elements.take n)

def relativePathTo (elements child : List Element) : Option (List Element) :=
  if elements.length < child.length && elements.isPrefixOf child then some (child.drop elements.length) else none

def append (scope : Scope) (elements rest : List Element) : Except PathError (List Element) :=
  if rest = [] then .ok elements else ofElements scope (elements ++ rest)

def removeLast (elements : List Element) (count : Nat) : Option (List Element) :=
  if count = 0 then some elements
  else if count < elements.length then some (elements.take (elements.length - count))
  else none

/-- What has the type of an absolute path is not looked at again. -/
def toAbsolute (scope : Scope) (elements : List Element) : List Element :=
  if scope = .absolute ∨ Sequence.isAbsolute elements = true then elements else .root :: elements

def convert (target : Scope) (elements : List Element) : Except PathError (List Element) :=
  if target.admits elements then .ok elements else .error target.refusal

theorem normalForm_elements (p : Path scope) : normalForm p.elements = p.normalForm.elements := by
  unfold normalForm Path.normalForm Path.isNormal
  split <;> rfl

theorem parentWith_elements (p q : Path scope) :
    parentWith p.elements q.elements = (p.parentWith q).map Path.elements := by
  unfold parentWith Path.parentWith
  by_cases hn : Path.commonLength p.elements q.elements = 0
  · simp [hn]
  · simp only [Nat.pos_of_ne_zero hn, hn, if_false, dif_pos, apply_ite (Option.map Path.elements), Option.map_some]
    rfl

theorem relativePathTo_elements (p : Path scope) (child : Path target) :
    relativePathTo p.elements child.elements = (p.relativePathTo child).map Path.elements := by
  unfold relativePathTo Path.relativePathTo Path.startsWith Path.length
  split <;> simp_all

theorem append_elements (p : Path scope) (rest : List Element) :
    append scope p.elements rest = (p.append rest).map Path.elements := by
  unfold append Path.append
  split <;> rfl

theorem removeLast_elements (p : Path scope) (count : Nat) :
    removeLast p.elements count = (p.removeLast count).map Path.elements := by
  unfold removeLast Path.removeLast Path.length
  split
  · rfl
  · split <;> rfl

theorem toAbsolute_elements (p : Path scope) : toAbsolute scope p.elements = p.toAbsolute.elements := by
  -- a path of the absolute type begins with the root because it is one
  have habs : scope = .absolute → p.isAbsolute = true := by
    rintro rfl
    exact p.admitted
  unfold toAbsolute Path.toAbsolute
  split
  · rename_i h
    rw [dif_pos (h.elim habs id)]
  · rename_i h
    have hnot : ¬ p.isAbsolute = true := fun hp => h (.inr hp)
    rw [dif_neg hnot]

theorem convert_elements (p : Path scope) (target : Scope) :
    convert target p.elements = (p.convert target).map Path.elements := by
  unfold convert Path.convert
  split <;> rfl

end Unchecked

/-! ### Runs of changes -/

/-- A list of elements that is taken for a path of a type. -/
structure Draft where
  scope : Scope
  elements : Unchecked scope

abbrev Path.draft (p : Path scope) : Draft := { scope, elements := p.elements }

namespace Draft

/-- The elements are those of a path of the type. -/
def IsPath (d : Draft) : Prop := ∃ (scope : Scope) (p : Path scope), p.draft = d

/-- The change of the elements alone. -/
def edit (d : Draft) : Edit Unchecked d.scope target → Except Refusal (Unchecked target)
  | .normalForm => .ok (Unchecked.normalForm d.elements)
  | .parentWith other => orNothing (Unchecked.parentWith d.elements other)
  | .relativePathTo _ child => orNothing (Unchecked.relativePathTo d.elements child)
  | .append rest => orFault (Unchecked.append d.scope d.elements rest)
  | .appendPath rest => .ok (d.elements ++ rest)
  | .replaceLast e => orFault (Unchecked.ofElements d.scope (d.elements.dropLast ++ [e]))
  | .removeLast count => orNothing (Unchecked.removeLast d.elements count)
  | .toAbsolute => .ok (Unchecked.toAbsolute d.scope d.elements)
  | .rebuild target => orFault (Unchecked.ofElements target d.elements)
  | .convert target => orFault (Unchecked.convert target d.elements)

/-- What is there after a change. If it is refused, this is what was there before. -/
def after (d : Draft) (e : Edit Unchecked d.scope target) : Draft :=
  match d.edit e with
  | .ok elements => { scope := target, elements }
  | .error _ => d

end Draft

namespace Edit

/-- The elements of other paths that a change takes. -/
def operands : Edit Unchecked scope target → List Draft
  | parentWith other => [{ scope, elements := other }]
  | relativePathTo inner child => [{ scope := inner, elements := child }]
  | appendPath rest => [{ scope := .relative, elements := rest }]
  | _ => []

/-- The change with the elements of the paths that it takes. -/
def unchecked : Edit Path scope target → Edit Unchecked scope target
  | normalForm => normalForm
  | parentWith other => parentWith other.elements
  | relativePathTo inner child => relativePathTo inner child.elements
  | append rest => append rest
  | appendPath rest => appendPath rest.elements
  | replaceLast e => replaceLast e
  | removeLast count => removeLast count
  | toAbsolute => toAbsolute
  | rebuild target => rebuild target
  | convert target => convert target

end Edit

/-- What runs of changes lead to from paths that were read, made of elements or built in steps. The other paths that
the changes take come from such runs as well. -/
inductive Draft.Reachable : Draft → Prop
  | read {scope : Scope} {text : String} {p : Path scope} : Path.read scope text = .ok p → Reachable p.draft
  | ofElements {scope : Scope} {elements : List Element} {p : Path scope} :
    Path.ofElements scope elements = .ok p → Reachable p.draft
  | finish {scope : Scope} {steps : List BuildStep} {p : Path scope} :
    (PathBuilder.empty.run steps).finishAs scope = .ok p → Reachable p.draft
  | edit {d : Draft} {target : Scope} (e : Edit Unchecked d.scope target) :
    Reachable d → (∀ o ∈ e.operands, Reachable o) → Reachable (d.after e)

/-- The root is at the start of a path or nowhere. -/
theorem Sequence.Valid.eq_zero_of_getElem?_eq_root {elements : List Element} (h : Valid elements) {i : Nat}
    (hi : elements[i]? = some .root) : i = 0 := by
  cases i with
  | zero => rfl
  | succ i =>
    rw [← List.getElem?_tail] at hi
    exact absurd (List.mem_of_getElem? hi) h.root_not_mem_tail

namespace Draft

/-- The change of the elements of a path leads to the elements of the changed path. -/
theorem edit_unchecked (p : Path scope) (e : Edit Path scope target) :
    p.draft.edit e.unchecked = (p.edit e).map Path.elements := by
  cases e with
  | normalForm => exact congrArg Except.ok (Unchecked.normalForm_elements p)
  | parentWith other => exact (congrArg orNothing (Unchecked.parentWith_elements p other)).trans (orNothing_map _)
  | relativePathTo inner child =>
    exact (congrArg orNothing (Unchecked.relativePathTo_elements p child)).trans (orNothing_map _)
  | append rest => exact (congrArg orFault (Unchecked.append_elements p rest)).trans (orFault_map _)
  | appendPath rest => rfl
  | replaceLast e => exact orFault_map _
  | removeLast count => exact (congrArg orNothing (Unchecked.removeLast_elements p count)).trans (orNothing_map _)
  | toAbsolute => exact congrArg Except.ok (Unchecked.toAbsolute_elements p)
  | rebuild target => exact orFault_map _
  | convert target => exact (congrArg orFault (Unchecked.convert_elements p target)).trans (orFault_map _)

theorem IsPath.exists_elements_eq {elements : Unchecked scope} (h : IsPath { scope, elements }) :
    ∃ p : Path scope, p.elements = elements := by
  obtain ⟨_, p, hp⟩ := h
  cases hp
  exact ⟨p, rfl⟩

/-- A change that takes the elements of paths only is one that takes these paths. -/
theorem exists_unchecked_eq {e : Edit Unchecked scope target} (h : ∀ o ∈ e.operands, o.IsPath) :
    ∃ e' : Edit Path scope target, e'.unchecked = e := by
  cases e with
  | normalForm => exact ⟨.normalForm, rfl⟩
  | parentWith other =>
    obtain ⟨q, rfl⟩ := (h _ (List.mem_singleton.2 rfl)).exists_elements_eq
    exact ⟨.parentWith q, rfl⟩
  | relativePathTo inner child =>
    obtain ⟨q, rfl⟩ := (h _ (List.mem_singleton.2 rfl)).exists_elements_eq
    exact ⟨.relativePathTo inner q, rfl⟩
  | append rest => exact ⟨.append rest, rfl⟩
  | appendPath rest =>
    obtain ⟨q, rfl⟩ := (h _ (List.mem_singleton.2 rfl)).exists_elements_eq
    exact ⟨.appendPath q, rfl⟩
  | replaceLast e => exact ⟨.replaceLast e, rfl⟩
  | removeLast count => exact ⟨.removeLast count, rfl⟩
  | toAbsolute => exact ⟨.toAbsolute, rfl⟩
  | rebuild target => exact ⟨.rebuild target, rfl⟩
  | convert target => exact ⟨.convert target, rfl⟩

theorem draft_after (p : Path scope) (e : Edit Path scope target) :
    p.draft.after e.unchecked = match p.edit e with | .ok q => q.draft | .error _ => p.draft := by
  unfold after
  rw [edit_unchecked]
  cases p.edit e <;> rfl

/-- One change leads from a path to a path. -/
theorem IsPath.after {d : Draft} (h : d.IsPath) (e : Edit Unchecked d.scope target)
    (ho : ∀ o ∈ e.operands, o.IsPath) : (d.after e).IsPath := by
  obtain ⟨scope, p, rfl⟩ := h
  obtain ⟨e, rfl⟩ := exists_unchecked_eq ho
  rw [draft_after p e]
  split
  · exact ⟨target, _, rfl⟩
  · exact ⟨scope, p, rfl⟩

/-- A run of changes leads from paths to a path. -/
theorem Reachable.isPath {d : Draft} (h : d.Reachable) : d.IsPath := by
  induction h with
  | read | ofElements | finish => exact ⟨_, _, rfl⟩
  | edit e _ _ ih iho => exact ih.after e iho

/-- What runs of changes lead to is not empty, has the root at its start at most and only admissible elements, and it
is absolute or relative if its type says so: it is a path, although most changes check nothing. On its elements every
change of paths does the same as the change of elements. A change that is refused leaves everything as it was. -/
theorem isPath_of_reachable {d : Draft} (h : d.Reachable) :
    d.elements ≠ [] ∧ (∀ i, d.elements[i]? = some .root → i = 0) ∧ (∀ e ∈ d.elements, e.check = .ok ()) ∧
    (d.scope = .absolute → d.elements.head? = some .root) ∧
    (d.scope = .relative → d.elements.head? ≠ some .root) ∧
    (∃ p : Path d.scope, p.elements = d.elements ∧ ∀ (target : Scope) (e : Edit Path d.scope target),
      d.edit e.unchecked = (p.edit e).map Path.elements) ∧
    ∀ (target : Scope) (e : Edit Unchecked d.scope target) (refusal : Refusal),
      d.edit e = .error refusal → d.after e = d := by
  obtain ⟨scope, p, rfl⟩ := h.isPath
  refine ⟨p.valid.ne_nil, fun i => p.valid.eq_zero_of_getElem?_eq_root, p.valid.valid_of_mem, ?_, ?_,
    ⟨p, rfl, fun target e => edit_unchecked p e⟩, ?_⟩
  · rintro rfl
    exact of_decide_eq_true p.admitted
  · rintro rfl
    exact of_decide_eq_false (Bool.not_eq_true' _ ▸ p.admitted)
  · intro target e refusal he
    unfold after
    rw [he]

/-- The path `[*]` is added to `a` and the result put under the root; then three elements are to be removed, which is
refused. -/
theorem isPath_of_reachable_of_extended :
    let d : Draft := { scope := .absolute, elements := [.root, .property "a", .anyIndex] }
    d.Reachable ∧ d.elements ≠ [] ∧ d.elements.head? = some .root ∧ ∃ p : Path .absolute, p.elements = d.elements := by
  intro d
  let a : Path .relative := { elements := [.property "a"], valid := by decide, admitted := rfl }
  let all : Path .relative := { elements := [.anyIndex], valid := by decide, admitted := rfl }
  have ha : a.draft.Reachable := .ofElements a.ofElements_elements
  have hall : all.draft.Reachable := .ofElements all.ofElements_elements
  have happend : (a.draft.after (.appendPath all.elements)).Reachable :=
    .edit _ ha fun o ho => by rw [List.mem_singleton.1 ho]; exact hall
  have hroot : ((a.draft.after (.appendPath all.elements)).after .toAbsolute).Reachable :=
    .edit _ happend fun o ho => by cases ho
  have hd : d.Reachable := .edit (d := d) (.removeLast 3) hroot fun o ho => by cases ho
  obtain ⟨hne, -, -, hhead, -, ⟨p, hp, -⟩, -⟩ := isPath_of_reachable hd
  exact ⟨hd, hne, hhead rfl, p, hp⟩

end Draft

end PathContainment
