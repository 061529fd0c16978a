import Index.Delta.Places
import Index.Lib.Outcome

/-! # Additions after a gap

An op that adds an item past the end of an array fails.  Other ops of the same diff do not close the gap: they are
made apart from the array, and what an op does not lead through it leaves as it is. -/

namespace Index.Delta

open Index.Lib Value List

/-! ## What a successful op did -/

section Inversion

variable {full segment : String} {segments : List String} {edit : Value → Except ApplyError Value} {root result value : Value}

theorem navigate_cons_eq_ok (edited : navigate full edit (segment :: segments) root = .ok result) :
    (∃ map child new, root = .object map ∧ IndexMap.get map segment = some child ∧
        navigate full edit segments child = .ok new ∧ result = .object (IndexMap.insert map segment new)) ∨
      ∃ items index child new, root = .array items ∧ parseUsize segment = some index ∧ items[index]? = some child ∧
        navigate full edit segments child = .ok new ∧ result = .array (items.set index new) := by
  cases root with
  | object map =>
    rw [navigate] at edited
    split at edited
    next child found =>
      obtain ⟨new, below, changed⟩ := map_eq_ok.mp edited
      exact Or.inl ⟨map, child, new, rfl, found, below, changed.symm⟩
    next => cases edited
  | array items =>
    rw [navigate] at edited
    split at edited
    next index child found =>
      obtain ⟨_, parsed, listed⟩ := Option.bind_eq_some_iff.mp found
      obtain ⟨_, here, ⟨⟩⟩ := Option.map_eq_some_iff.mp listed
      obtain ⟨new, below, changed⟩ := map_eq_ok.mp edited
      exact Or.inr ⟨items, index, child, new, rfl, parsed, here, below, changed.symm⟩
    next => cases edited
  | _ => simp [navigate] at edited

theorem setChild_eq_ok (edited : setChild full segment value root = .ok result) :
    (∃ map, root = .object map ∧ result = .object (IndexMap.insert map segment value)) ∨
      ∃ items index, root = .array items ∧ parseUsize segment = some index ∧
        (index = items.length ∧ result = .array (items ++ [value]) ∨
          index < items.length ∧ result = .array (items.set index value)) := by
  cases root with
  | object map => exact Or.inl ⟨map, rfl, (Except.ok.inj edited).symm⟩
  | array items =>
    rw [setChild] at edited
    split at edited
    next => cases edited
    next index parsed =>
      split_ifs at edited with last inside
      · exact Or.inr ⟨items, index, rfl, parsed, Or.inl ⟨last, (Except.ok.inj edited).symm⟩⟩
      · exact Or.inr ⟨items, index, rfl, parsed, Or.inr ⟨inside, (Except.ok.inj edited).symm⟩⟩
  | _ => simp [setChild] at edited

/-- A change below a child sets the child. -/
theorem setChild_of_navigate (edited : navigate full edit (segment :: segments) root = .ok result) :
    ∃ new, setChild full segment new root = .ok result := by
  rcases navigate_cons_eq_ok edited with ⟨map, _, new, rfl, -, -, rfl⟩ | ⟨items, index, _, new, rfl, parsed, here, -, rfl⟩
  · exact ⟨new, rfl⟩
  · have inside := (List.getElem?_eq_some_iff.mp here).1
    exact ⟨new, by simp [setChild, parsed, inside, inside.ne]⟩

theorem removeChild_eq_ok (edited : removeChild full segment root = .ok result) :
    (∃ map, root = .object map ∧ result = .object (IndexMap.erase map segment)) ∨
      ∃ items index, root = .array items ∧ result = .array (items.eraseIdx index) := by
  cases root with
  | object map =>
    rw [removeChild, IndexMap.shiftRemove] at edited
    cases found : IndexMap.get map segment with
    | none => simp [found] at edited
    | some old => exact Or.inl ⟨map, rfl, by simpa [found, eq_comm] using edited⟩
  | array items =>
    rw [removeChild] at edited
    split at edited
    next => cases edited
    next index parsed =>
      split_ifs at edited
      exact Or.inr ⟨items, index, rfl, (Except.ok.inj edited).symm⟩
  | _ => simp [removeChild] at edited

theorem navigate_append {more : List String} :
    navigate full edit (segments ++ more) root = navigate full (navigate full edit more) segments root := by
  fun_induction navigate full (navigate full edit more) segments root with
  | case1 => rfl
  | case2 _ _ _ _ found ih | case4 _ _ _ _ _ found ih => simp only [cons_append, navigate, found, ih]
  | case3 _ _ _ found | case5 _ _ _ found => rw [cons_append, navigate, found]
  | case6 => simp_all [navigate]

end Inversion

/-! ## Places that an op does not lead through -/

/-- A change that keeps documents well-formed. -/
def KeepsForm (edit : Value → Except ApplyError Value) : Prop :=
  ∀ root result, root.wellFormed = true → edit root = .ok result → result.wellFormed = true

/-- A change that keeps the head at a place. -/
def Keeps (edit : Value → Except ApplyError Value) (place : List Step) (head : Head) : Prop :=
  ∀ root result, root.wellFormed = true → root.outline place = some head → edit root = .ok result →
    result.wellFormed = true ∧ result.outline place = some head

/-- Both steps go by a key or both by an index. -/
def Step.SameKind : Step → Step → Prop
  | .key _, .key _ => True
  | .index _, .index _ => True
  | _, _ => False

section Frame

variable {full : String} {edit : Value → Except ApplyError Value} {path rest : List Step} {step other : Step} {head : Head}
  {value : Value}

theorem KeepsForm.navigate (keeps : KeepsForm edit) {segments : List String} : KeepsForm (navigate full edit segments) := by
  induction segments with
  | nil => exact keeps
  | cons segment segments ih =>
    intro root result formed edited
    rcases navigate_cons_eq_ok edited with ⟨map, child, new, rfl, found, below, rfl⟩ | ⟨items, index, child, new, rfl, -, found, below, rfl⟩
    · exact wellFormed_insert formed
        (ih child new ((wellFormed_object.mp formed).2 _ (IndexMap.mem_of_get found)) below)
    · exact wellFormed_set formed (ih child new ((wellFormed_array.mp formed).2 _ (mem_of_getElem? found)) below)

variable {segment : String}

theorem keepsForm_setChild (valueFormed : value.wellFormed = true) : KeepsForm (setChild full segment value) := by
  intro root result formed edited
  rcases setChild_eq_ok edited with ⟨map, rfl, rfl⟩ | ⟨items, index, rfl, parsed, ⟨rfl, rfl⟩ | ⟨inside, rfl⟩⟩
  · exact wellFormed_insert formed valueFormed
  · exact wellFormed_push formed valueFormed (lt_of_parseUsize parsed)
  · exact wellFormed_set formed valueFormed

theorem keepsForm_removeChild : KeepsForm (removeChild full segment) := by
  intro root result formed edited
  rcases removeChild_eq_ok edited with ⟨map, rfl, rfl⟩ | ⟨items, index, rfl, rfl⟩
  · exact wellFormed_erase formed
  · exact wellFormed_eraseIdx formed

/-- The child that a path starts with. -/
theorem exists_child {root : Value} (found : root.outline (step :: rest) = some head) :
    ∃ child, root.child step = some child ∧ child.outline rest = some head := by
  rw [outline_cons] at found
  cases here : root.child step with
  | none => simp [here, Value.outlineOf, Outline.absent] at found
  | some child => exact ⟨child, rfl, by simpa [here, Value.outlineOf] using found⟩

/-- A change of what a path leads to is kept away from other places below the path. -/
theorem Keeps.navigate (keeps : Keeps edit rest head) : Keeps (navigate full edit (path.map Step.segment)) (path ++ rest) head := by
  induction path with
  | nil => exact keeps
  | cons step path ih =>
    intro root result formed found edited
    obtain ⟨child, here, below⟩ := exists_child found
    obtain ⟨put, stepped, puts⟩ := navigate_cons formed here
    rw [map_cons, stepped] at edited
    obtain ⟨new, changed, rfl⟩ := map_eq_ok.mp edited
    obtain ⟨newFormed, kept⟩ := ih child new (wellFormed_child formed here) below changed
    obtain ⟨resultFormed, outline⟩ := puts new newFormed
    refine ⟨resultFormed, ?_⟩
    rw [outline]
    exact Outline.graft_below.trans kept

section Siblings

variable (kinds : step.SameKind other) (differ : step ≠ other)

include kinds differ

theorem outline_setChild {root result : Value} (found : root.outline (other :: rest) = some head)
    (edited : setChild full step.segment value root = .ok result) : result.outline (other :: rest) = some head := by
  have outside : ¬ [step] <+: other :: rest := by simpa using differ
  obtain ⟨otherChild, otherHere, -⟩ := exists_child found
  rcases setChild_eq_ok edited with ⟨map, rfl, rfl⟩ | ⟨items, index, rfl, parsed, changed⟩
  · cases step with
    | key key => rw [Step.segment, outline_insert, Outline.graft_of_apart outside, found]
    | index index => cases other <;> simp [Step.SameKind, Value.child] at kinds otherHere
  · cases step with
    | key key => cases other <;> simp [Step.SameKind, Value.child] at kinds otherHere
    | index position =>
      obtain rfl : position = index := eq_of_parseUsize_toString parsed
      rcases changed with ⟨rfl, rfl⟩ | ⟨inside, rfl⟩
      · rw [outline_push, Outline.relabel_of_ne (by simp), Outline.graft_of_apart outside, found]
      · rw [outline_set inside, Outline.graft_of_apart outside, found]

theorem keeps_setChild (valueFormed : value.wellFormed = true) :
    Keeps (setChild full step.segment value) (other :: rest) head := fun _ _ formed found edited =>
  ⟨keepsForm_setChild valueFormed _ _ formed edited, outline_setChild kinds differ found edited⟩

theorem keeps_sibling (keepsForm : KeepsForm edit) {segments : List String} :
    Keeps (navigate full edit (step.segment :: segments)) (other :: rest) head := by
  intro root result formed found edited
  obtain ⟨new, sets⟩ := setChild_of_navigate edited
  exact ⟨keepsForm.navigate _ _ formed edited, outline_setChild kinds differ found sets⟩

end Siblings

theorem keeps_removeChild {key : String} (differ : Step.key key ≠ other) (kinds : (Step.key key).SameKind other) :
    Keeps (removeChild full key) (other :: rest) head := by
  intro root result formed found edited
  have outside : ¬ [Step.key key] <+: other :: rest := by simpa using differ
  obtain ⟨otherChild, otherHere, -⟩ := exists_child found
  refine ⟨keepsForm_removeChild _ _ formed edited, ?_⟩
  rcases removeChild_eq_ok edited with ⟨map, rfl, rfl⟩ | ⟨items, index, rfl, rfl⟩
  · rw [outline_erase (wellFormed_object.mp formed).1, Outline.graft_of_apart outside, found]
  · cases other <;> simp [Step.SameKind, Value.child] at kinds otherHere

end Frame

/-! ## Ops beside a place -/

/-- What the op of an edit does to the container of the last segment of its address. -/
def Edit.change (full segment : String) : Edit → Value → Except ApplyError Value
  | .add _ _ value => setChild full segment value
  | .replace _ _ value => setChild full segment value
  | .remove _ _ _ => removeChild full segment

/-- An edit whose address leaves the path to a place at some container, by a step of the same kind.  It is not a removal
from an array on the path, which would move the items. -/
def Edit.Beside (edit : Edit) (place : List Step) : Prop :=
  ∃ shared step other rest more, edit.address = shared ++ step :: rest ∧ place = shared ++ other :: more ∧ step ≠ other ∧
    step.SameKind other ∧ edit.shortens ≠ some shared

section Ops

variable {format : Format} (pointers : addressing format = .pointer)

include pointers

theorem applyOp_change (edit : Edit) {parent : List Step} {last : Step} (ends : edit.address = parent ++ [last]) (root : Value) :
    ∃ full, applyOp format root (edit.op .pointer) = navigate full (edit.change full last.segment) (parent.map Step.segment) root := by
  cases edit with
  | add path step value =>
    obtain ⟨rfl, same⟩ := append_inj' ends rfl
    obtain rfl : step = last := singleton_inj.mp same
    exact ⟨_, setValue_child pointers value⟩
  | remove path step value =>
    obtain ⟨rfl, same⟩ := append_inj' ends rfl
    obtain rfl : step = last := singleton_inj.mp same
    exact ⟨_, removeValue_child pointers⟩
  | replace path old new =>
    obtain rfl : path = parent ++ [last] := ends
    exact ⟨_, setValue_child pointers new⟩

variable {edit : Edit}

omit pointers in
theorem keepsForm_change (formed : edit.WellFormed) {full segment : String} : KeepsForm (edit.change full segment) := by
  cases edit with
  | add path step value | replace path old new => exact keepsForm_setChild formed
  | remove path step value => exact keepsForm_removeChild

variable {head : Head}

omit pointers in
theorem keeps_change (formed : edit.WellFormed) {shared more : List Step} {step other : Step} {full : String}
    (ends : edit.address = shared ++ [step]) (differ : step ≠ other) (kinds : step.SameKind other)
    (keepsItems : edit.shortens ≠ some shared) : Keeps (edit.change full step.segment) (other :: more) head := by
  cases edit with
  | add path last value | replace path old new => exact keeps_setChild kinds differ formed
  | remove path last value =>
    obtain ⟨rfl, same⟩ := append_inj' ends rfl
    obtain rfl : last = step := singleton_inj.mp same
    cases last with
    | key key => exact keeps_removeChild differ kinds
    | index index => exact absurd rfl keepsItems

variable {place : List Step}

theorem keeps_beside (formed : edit.WellFormed) (beside : edit.Beside place) :
    Keeps (fun root => applyOp format root (edit.op .pointer)) place head := by
  obtain ⟨shared, step, other, rest, more, address, rfl, differ, kinds, keepsItems⟩ := beside
  intro root result rootFormed found edited
  replace edited : applyOp format root (edit.op .pointer) = .ok result := edited
  rcases eq_nil_or_concat rest with rfl | ⟨init, last, rfl⟩
  · obtain ⟨full, applied⟩ := applyOp_change pointers edit address root
    rw [applied] at edited
    exact (keeps_change formed address differ kinds keepsItems).navigate root result rootFormed found edited
  · have ends : edit.address = (shared ++ step :: init) ++ [last] := by simp [address]
    obtain ⟨full, applied⟩ := applyOp_change pointers edit ends root
    rw [applied, map_append, map_cons, navigate_append] at edited
    exact (keeps_sibling kinds differ (keepsForm_change formed)).navigate root result rootFormed found edited

variable {value : Value}

/-- An addition past the end of the array fails. -/
theorem applyOp_gap {root result : Value} {length index : Nat} (formed : root.wellFormed = true)
    (found : root.outline place = some (.array length)) (gap : length < index) :
    applyOp format root (Edit.op .pointer (.add place (.index index) value)) ≠ .ok result := by
  intro edited
  obtain ⟨full, applied⟩ := applyOp_change pointers (.add place (.index index) value) rfl root
  rw [applied] at edited
  obtain ⟨items, here, rfl⟩ := exists_array found
  cases added : setChild full (toString index) value (.array items) with
  | error e => cases (navigate_error formed here added).symm.trans edited
  | ok new =>
    rcases setChild_eq_ok added with ⟨map, isObject, -⟩ | ⟨_, parsed, same, read, ends⟩
    · cases isObject
    · obtain rfl := eq_of_parseUsize_toString read
      obtain rfl := Value.array.inj same
      omega

/-- Ops that add past the end of an array, with others beside it, cannot all be applied. -/
theorem applyStructured_gap {edits : List Edit} {length : Nat} (editsFormed : ∀ edit ∈ edits, edit.WellFormed)
    (each : ∀ edit ∈ edits, edit.Beside place ∨ ∃ index value, edit = .add place (.index index) value ∧ length < index)
    {index : Nat} (added : .add place (.index index) value ∈ edits) (gap : length < index) {root result : Value}
    (formed : root.wellFormed = true) (found : root.outline place = some (.array length)) :
    applyStructured format (edits.map (Edit.op .pointer)) root ≠ .ok result := by
  induction edits generalizing root with
  | nil => cases added
  | cons edit edits ih =>
    intro applied
    obtain ⟨next, first, applied⟩ := bind_eq_ok.mp applied
    obtain ⟨here, editsFormed⟩ := forall_mem_cons.mp editsFormed
    obtain ⟨beside | ⟨index, value, rfl, gap⟩, each⟩ := forall_mem_cons.mp each
    · obtain ⟨nextFormed, kept⟩ := keeps_beside pointers here beside root next formed found first
      rcases mem_cons.mp added with rfl | later
      · exact applyOp_gap pointers formed found gap first
      · exact ih editsFormed each later nextFormed kept applied
    · exact applyOp_gap pointers formed found gap first

end Ops

/-! ## The edits of a diff around an array that it lengthens -/

variable {path : List Step} {edit : Edit}

theorem Emitted.leads {old new : Value} (emitted : Emitted path old new edit) : path <+: edit.address := by
  cases emitted with
  | replaced => exact prefix_rfl
  | _ => exact prefix_append ..

variable {place : List Step}

theorem Emitted.shortens {old new : Value} (emitted : Emitted path old new edit) (shortens : edit.shortens = some place) :
    place = path := by
  cases emitted with
  | itemRemoved => exact (Option.some.inj shortens).symm
  | _ => cases shortens

theorem Emitted.beside {shared rest more : List Step} {step other : Step} {old new : Value}
    (emitted : Emitted (shared ++ step :: rest) old new edit) (differ : step ≠ other) (kinds : step.SameKind other) :
    edit.Beside (shared ++ other :: more) := by
  obtain ⟨last, address⟩ := emitted.leads
  refine ⟨shared, step, other, rest ++ last, more, by simp [← address], rfl, differ, kinds, fun shortens => ?_⟩
  have same := congrArg List.length (emitted.shortens shortens)
  simp at same

/-- An edit beside an array that a diff lengthens, or one of the additions to it. -/
theorem beside_or_added {old new : Value} {olds news : List Value} (reached : Reached old new place (.array olds) (.array news))
    (longer : olds.length < news.length) {oldEnd newEnd : Value} (other : Reached old new path oldEnd newEnd)
    (shared : List Step) (emitted : Emitted (shared ++ path) oldEnd newEnd edit) (outside : ¬ edit.address <+: shared ++ place) :
    edit.Beside (shared ++ place) ∨ ∃ index value, edit = .add (shared ++ place) (.index index) value ∧ olds.length ≤ index := by
  generalize arrayOld : Value.array olds = oldArray at reached
  generalize arrayNew : Value.array news = newArray at reached
  induction reached generalizing path shared with
  | here old new =>
    subst arrayOld arrayNew
    cases other with
    | item lengths => omega
    | here =>
      cases emitted with
      | replaced => exact absurd prefix_rfl outside
      | itemAdded value first inside => exact Or.inr ⟨_, value, rfl, first⟩
      | itemRemoved value first inside => omega
  | @entry olds news key old new oldEnd newEnd rest oldFound newFound below ih =>
    cases other with
    | here =>
      rw [append_nil] at emitted
      have sibling : ∀ name, edit.address = shared ++ [.key name] → edit.shortens = none → edit.Beside (shared ++ .key key :: rest) := by
        intro name address keeps
        refine ⟨shared, .key name, .key key, [], rest, address, rfl, fun same => outside ?_, trivial, by simp [keeps]⟩
        rw [address, same]
        exact ⟨rest, by simp⟩
      cases emitted with
      | replaced => exact absurd (prefix_append ..) outside
      | keyAdded _ _ name value | keyRemoved _ _ name value => exact Or.inl (sibling name rfl rfl)
    | @entry _ _ name otherOld otherNew _ _ otherRest otherOldFound otherNewFound otherBelow =>
      by_cases same : name = key
      · subst same
        obtain rfl : old = otherOld := by simpa using oldFound.symm.trans otherOldFound
        obtain rfl : new = otherNew := by simpa using newFound.symm.trans otherNewFound
        rw [append_cons] at emitted outside ⊢
        exact ih otherBelow _ emitted outside arrayOld arrayNew
      · exact Or.inl (emitted.beside (fun steps => same (Step.key.inj steps)) trivial)
  | @item olds news index old new oldEnd newEnd rest lengths oldFound newFound below ih =>
    cases other with
    | here =>
      rw [append_nil] at emitted
      cases emitted with
      | replaced => exact absurd (prefix_append ..) outside
      | itemAdded value first inside => omega
      | itemRemoved value first inside => omega
    | @item _ _ position otherOld otherNew _ _ otherRest _ otherOldFound otherNewFound otherBelow =>
      by_cases same : position = index
      · subst same
        obtain rfl : old = otherOld := by simpa using oldFound.symm.trans otherOldFound
        obtain rfl : new = otherNew := by simpa using newFound.symm.trans otherNewFound
        rw [append_cons] at emitted outside ⊢
        exact ih otherBelow _ emitted outside arrayOld arrayNew
      · exact Or.inl (emitted.beside (fun steps => same (Step.index.inj steps)) trivial)

/-- A diff that lengthens an array does not apply where the array is shorter than in the base. -/
theorem applyStructured_lengthened {format : Format} (pointers : addressing format = .pointer)
    {base incoming root result : Value} (baseFormed : base.wellFormed = true) (incomingFormed : incoming.wellFormed = true)
    {index length : Nat} {value : Value} (added : .add place (.index index) value ∈ edits [] base incoming)
    (outside : ∀ edit ∈ edits [] base incoming, ¬ edit.address <+: place) {items : List Value}
    (baseFound : base.at? place = some (.array items)) (shorter : length < items.length) (formed : root.wellFormed = true)
    (found : root.outline place = some (.array length)) :
    applyStructured format ((edits [] base incoming).map (Edit.op .pointer)) root ≠ .ok result := by
  obtain ⟨rest, _, _, reached, emitted⟩ := exists_reached baseFormed added
  cases emitted with
  | itemAdded _ first inside =>
    obtain rfl : items = _ := by simpa using baseFound.symm.trans reached.at?.1
    refine applyStructured_gap pointers (edits_wellFormed baseFormed incomingFormed) (fun edit member => ?_) added (by omega) formed found
    obtain ⟨path, _, _, other, emitted⟩ := exists_reached baseFormed member
    rcases beside_or_added reached (by omega) other [] emitted (outside edit member) with beside | ⟨index, value, rfl, after⟩
    · exact Or.inl beside
    · exact Or.inr ⟨index, value, rfl, by omega⟩

end Index.Delta
