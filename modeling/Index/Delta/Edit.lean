import Index.Delta.Apply
import Index.Lib.Commute

/-! # Ops as edits of outlines

An op of the differ is an edit: its address as steps through the document, each known to go by a key or by an index.
An edit acts on the outline of the document, and where it is enabled applying the op does to the document what the
edit does to the outline. -/

namespace Index.Delta

open Index.Lib Value Outline List Option

/-- How a step is written in an address. -/
def Step.segment : Step → String
  | .key name => name
  | .index position => toString position

/-- An op with the steps of its address. -/
inductive Edit where
  | add (parent : List Step) (step : Step) (value : Value)
  | remove (parent : List Step) (step : Step) (value : Value)
  | replace (path : List Step) (old new : Value)

namespace Edit

def address : Edit → List Step
  | add parent step _ => parent ++ [step]
  | remove parent step _ => parent ++ [step]
  | replace path _ _ => path

/-- The op of an edit. -/
def op (addressing : Addressing) (edit : Edit) : Op :=
  let path := render addressing (edit.address.map Step.segment)
  match edit with
  | add _ _ value => .add path value
  | remove _ _ value => .remove path value
  | replace _ old new => .replace path old new

/-- An edit whose op can be applied.  Arrays grow and shrink at their end. -/
def Enabled : Edit → Outline Step Head → Prop
  | add parent (.key _) _, outline => outline parent = some .object
  | add parent (.index index) _, outline => outline parent = some (.array index) ∧ index < 2 ^ 64
  | remove parent (.key key) _, outline => outline parent = some .object ∧ outline (parent ++ [.key key]) ≠ none
  | remove parent (.index index) _, outline => outline parent = some (.array (index + 1))
  | replace path _ _, outline => outline path ≠ none

def act : Edit → Outline Step Head → Outline Step Head
  | add parent (.key key) value, outline => outline.graft (parent ++ [.key key]) value.outline
  | add parent (.index index) value, outline =>
    (outline.graft (parent ++ [.index index]) value.outline).relabel parent (.array (index + 1))
  | remove parent (.key key) _, outline => outline.graft (parent ++ [.key key]) .absent
  | remove parent (.index index) _, outline => (outline.graft (parent ++ [.index index]) .absent).relabel parent (.array index)
  | replace path _ new, outline => outline.graft path new.outline

/-- The value an edit brings into the document is one of a document. -/
def WellFormed : Edit → Prop
  | add _ _ value => value.wellFormed = true
  | remove _ _ _ => True
  | replace _ _ new => new.wellFormed = true

end Edit

/-! ## Children -/

namespace Value

variable {root container child new result : Value} {step : Step} {path : List Step}

/-- What a container is by its children. -/
theorem child_cases (found : root.child step = some child) :
    (∃ map key, root = object map ∧ step = .key key ∧ IndexMap.get map key = some child) ∨
      ∃ items index, root = array items ∧ step = .index index ∧ items[index]? = some child := by
  cases root <;> cases step <;> simp_all [Value.child]

/-- Changing one child of a container grafts its outline, under the new head. -/
theorem outline_relabel_child (place : Option Value) (here : result.child step = place)
    (there : ∀ other, other ≠ step → result.child other = root.child other) :
    result.outline = (root.outline.graft [step] (outlineOf place)).relabel [] result.head := by
  funext path
  cases path with
  | nil => rw [outline_nil, relabel_self]
  | cons other path =>
    rw [relabel_of_ne (by simp), outline_cons]
    by_cases same : other = step
    · rw [same, here]
      exact (@graft_below _ _ _ [step] path _ _).symm
    · rw [there other same, graft_of_apart (by simpa using Ne.symm same), outline_cons]

theorem outline_of_child (place : Option Value) (heads : result.head = root.head) (here : result.child step = place)
    (there : ∀ other, other ≠ step → result.child other = root.child other) :
    result.outline = root.outline.graft [step] (outlineOf place) := by
  have headed : root.outline.graft [step] (outlineOf place) [] = some result.head := by
    rw [graft_of_apart (by simp), outline_nil, heads]
  rw [outline_relabel_child place here there, relabel, ← headed, Function.update_eq_self]

theorem below_child {place : Option Value} (found : root.child step = place) : root.outline.below [step] = outlineOf place := by
  funext rest
  rw [Outline.below, singleton_append, outline_cons, found]

theorem outline_insert (map : List (String × Value)) (key : String) (new : Value) :
    (object (IndexMap.insert map key new)).outline = (object map).outline.graft [.key key] new.outline := by
  refine outline_of_child (some new) rfl (by simp [child, IndexMap.get_insert]) fun other differ => ?_
  cases other with
  | key other => rw [child, child, IndexMap.get_insert, if_neg fun same => differ (by rw [same])]
  | index index => rfl

variable {items : List Value} {index : Nat}

theorem outline_set (inside : index < items.length) :
    (array (items.set index new)).outline = (array items).outline.graft [.index index] new.outline := by
  refine outline_of_child (some new) (by simp [head]) (by simp [child, inside]) fun other differ => ?_
  cases other with
  | key other => rfl
  | index other => rw [child, child, getElem?_set_ne fun same => differ (by rw [same])]

theorem outline_push (items : List Value) (new : Value) :
    (array (items ++ [new])).outline =
      ((array items).outline.graft [.index items.length] new.outline).relabel [] (.array (items.length + 1)) := by
  have heads : (array (items ++ [new])).head = .array (items.length + 1) := by simp [head]
  rw [← heads]
  refine outline_relabel_child (some new) (by simp [child]) fun other differ => ?_
  cases other with
  | key key => rfl
  | index index =>
    have apart : index ≠ items.length := fun same => differ (by rw [same])
    simp only [child]
    rcases Nat.lt_or_gt_of_ne apart with before | after
    · rw [getElem?_append_left before]
    · rw [getElem?_eq_none (by simp; omega), getElem?_eq_none (by omega)]

variable {map : List (String × Value)}

theorem outline_erase (distinct : IndexMap.Distinct map) (key : String) :
    (object (IndexMap.erase map key)).outline = (object map).outline.graft [.key key] .absent := by
  refine outline_of_child none rfl (by simp [child, IndexMap.get_erase distinct]) fun other differ => ?_
  cases other with
  | key other => rw [child, child, IndexMap.get_erase distinct, if_neg fun same => differ (by rw [same])]
  | index index => rfl

theorem outline_pop (last : items.length = index + 1) : (array (items.eraseIdx index)).outline =
      ((array items).outline.graft [.index index] .absent).relabel [] (.array index) := by
  have dropped : items.eraseIdx index = items.take index := by
    rw [eraseIdx_eq_take_drop_succ, ← last, drop_length, append_nil]
  have heads : (array (items.take index)).head = .array index := by simp [head, last]
  rw [dropped, ← heads]
  refine outline_relabel_child none (by simp [child]) fun other differ => ?_
  cases other with
  | key key => rfl
  | index other =>
    have apart : other ≠ index := fun same => differ (by rw [same])
    simp only [child]
    rcases Nat.lt_or_gt_of_ne apart with before | after
    · rw [getElem?_take_of_lt before]
    · rw [getElem?_eq_none (by simp; omega), getElem?_eq_none (by omega)]

/-! ## Well-formedness of children -/

variable {key : String}

theorem wellFormed_insert (formed : (object map).wellFormed = true) (newFormed : new.wellFormed = true) :
    (object (IndexMap.insert map key new)).wellFormed = true := by
  obtain ⟨distinct, each⟩ := wellFormed_object.mp formed
  refine wellFormed_object.mpr ⟨IndexMap.distinct_insert distinct, fun entry member => ?_⟩
  rcases IndexMap.mem_insert member with old | rfl
  · exact each entry old
  · exact newFormed

theorem wellFormed_set (formed : (array items).wellFormed = true) (newFormed : new.wellFormed = true) :
    (array (items.set index new)).wellFormed = true := by
  obtain ⟨fits, each⟩ := wellFormed_array.mp formed
  refine wellFormed_array.mpr ⟨by simpa using fits, fun item member => ?_⟩
  rcases mem_or_eq_of_mem_set member with old | rfl
  · exact each item old
  · exact newFormed

theorem wellFormed_push (formed : (array items).wellFormed = true) (newFormed : new.wellFormed = true)
    (fits : items.length < 2 ^ 64) : (array (items ++ [new])).wellFormed = true := by
  obtain ⟨-, each⟩ := wellFormed_array.mp formed
  exact wellFormed_array.mpr ⟨by simpa using Nat.succ_le_of_lt fits,
    forall_mem_append.mpr ⟨each, forall_mem_singleton.mpr newFormed⟩⟩

theorem wellFormed_erase (formed : (object map).wellFormed = true) : (object (IndexMap.erase map key)).wellFormed = true := by
  obtain ⟨distinct, each⟩ := wellFormed_object.mp formed
  exact wellFormed_object.mpr
    ⟨IndexMap.distinct_erase distinct, fun entry member => each entry (IndexMap.erase_sublist.subset member)⟩

theorem wellFormed_eraseIdx (formed : (array items).wellFormed = true) : (array (items.eraseIdx index)).wellFormed = true := by
  obtain ⟨fits, each⟩ := wellFormed_array.mp formed
  refine wellFormed_array.mpr ⟨(eraseIdx_sublist ..).length_le.trans fits, fun item member => ?_⟩
  exact each item ((eraseIdx_sublist ..).subset member)

theorem wellFormed_child (formed : root.wellFormed = true) (found : root.child step = some child) :
    child.wellFormed = true := by
  obtain ⟨map, key, rfl, rfl, held⟩ | ⟨items, index, rfl, rfl, held⟩ := child_cases found
  · exact (wellFormed_object.mp formed).2 (key, child) (IndexMap.mem_of_get held)
  · exact (wellFormed_array.mp formed).2 child (mem_of_getElem? held)

theorem wellFormed_at? (formed : root.wellFormed = true) (found : root.at? path = some child) : child.wellFormed = true := by
  induction path generalizing root with
  | nil =>
    rw [← Option.some.inj found]
    exact formed
  | cons step path ih =>
    obtain ⟨next, here, later⟩ := bind_eq_some_iff.mp found
    exact ih (wellFormed_child formed here) later

end Value

/-! ## Navigating -/

section Navigate

variable {full : String} {edit : Value → Except ApplyError Value} {root child new : Value} {step : Step} {path : List Step}

/-- A step down is taken by its segment: what the edit makes of the child takes the child's place. -/
theorem navigate_cons (formed : root.wellFormed = true) (found : root.child step = some child) : ∃ put : Value → Value,
    (∀ segments, navigate full edit (step.segment :: segments) root = (navigate full edit segments child).map put) ∧
      ∀ new : Value, new.wellFormed = true →
        (put new).wellFormed = true ∧ (put new).outline = root.outline.graft [step] new.outline := by
  obtain ⟨map, key, rfl, rfl, held⟩ | ⟨items, index, rfl, rfl, held⟩ := child_cases found
  · refine ⟨fun child => .object (IndexMap.insert map key child), fun segments => ?_, fun new newFormed =>
      ⟨wellFormed_insert formed newFormed, outline_insert map key new⟩⟩
    rw [Step.segment, navigate, held]
  · have inside : index < items.length := (List.getElem?_eq_some_iff.mp held).1
    have parsed : parseUsize (toString index) = some index :=
      parseUsize_toString (lt_of_lt_of_le inside (wellFormed_array.mp formed).1)
    refine ⟨fun child => .array (items.set index child), fun segments => ?_, fun new newFormed =>
      ⟨wellFormed_set formed newFormed, outline_set inside⟩⟩
    rw [Step.segment, navigate, parsed, bind_some, held, map_some]

theorem navigate_ok (formed : root.wellFormed = true) (found : root.at? path = some child) (edited : edit child = .ok new)
    (newFormed : new.wellFormed = true) :
    ∃ result, navigate full edit (path.map Step.segment) root = .ok result ∧ result.wellFormed = true ∧
      result.outline = root.outline.graft path new.outline := by
  induction path generalizing root with
  | nil =>
    obtain rfl : root = child := Option.some.inj found
    exact ⟨new, edited, newFormed, by rw [graft_nil]⟩
  | cons step path ih =>
    obtain ⟨next, here, later⟩ := bind_eq_some_iff.mp found
    obtain ⟨changed, navigated, changedFormed, sub⟩ := ih (wellFormed_child formed here) later
    obtain ⟨put, stepped, puts⟩ := navigate_cons formed here
    obtain ⟨resultFormed, outline⟩ := puts changed changedFormed
    refine ⟨put changed, ?_, resultFormed, ?_⟩
    · rw [map_cons, stepped, navigated]
      rfl
    · have longer : root.outline.graft (step :: path) new.outline = _ := graft_cons
      rw [outline, sub, longer, below_child here, Value.outlineOf]

theorem navigate_error (formed : root.wellFormed = true) (found : root.at? path = some child) {e : ApplyError}
    (failed : edit child = .error e) : navigate full edit (path.map Step.segment) root = .error e := by
  induction path generalizing root with
  | nil =>
    obtain rfl : root = child := Option.some.inj found
    exact failed
  | cons step path ih =>
    obtain ⟨next, here, later⟩ := bind_eq_some_iff.mp found
    obtain ⟨put, stepped, -⟩ := navigate_cons formed here
    rw [map_cons, stepped, ih (wellFormed_child formed here) later]
    rfl

end Navigate

/-! ## Applying an edit -/

variable {format : Format}

theorem parseAddress_render (pointers : addressing format = .pointer) (segments : List String) :
    parseAddress format (render .pointer segments) = segments := by
  rw [parseAddress, pointers, render, String.toList_ofList, Pointer.parse_render]

section Applying

variable {format : Format} {root : Value} {parent : List Step} {step : Step}

theorem setValue_child (pointers : addressing format = .pointer) (value : Value) :
    setValue format (render .pointer ((parent ++ [step]).map Step.segment)) value root =
      navigate (render .pointer ((parent ++ [step]).map Step.segment))
        (setChild (render .pointer ((parent ++ [step]).map Step.segment)) step.segment value) (parent.map Step.segment) root := by
  rw [setValue, parseAddress_render pointers]
  simp

theorem removeValue_child (pointers : addressing format = .pointer) :
    removeValue format (render .pointer ((parent ++ [step]).map Step.segment)) root =
      navigate (render .pointer ((parent ++ [step]).map Step.segment))
        (removeChild (render .pointer ((parent ++ [step]).map Step.segment)) step.segment) (parent.map Step.segment) root := by
  rw [removeValue, parseAddress_render pointers]
  simp

theorem setChild_key (path key : String) (value : Value) (map : List (String × Value)) :
    setChild path key value (.object map) = .ok (.object (IndexMap.insert map key value)) := rfl

variable {items : List Value}

theorem setChild_end (path : String) (value : Value) (fits : items.length < 2 ^ 64) :
    setChild path (toString items.length) value (.array items) = .ok (.array (items ++ [value])) := by
  rw [setChild, parseUsize_toString fits]
  exact if_pos rfl

theorem removeChild_key (path : String) {key : String} {map : List (String × Value)} {old : Value}
    (found : IndexMap.get map key = some old) :
    removeChild path key (.object map) = .ok (.object (IndexMap.erase map key)) := by
  rw [removeChild, IndexMap.shiftRemove, found]
  rfl

theorem removeChild_index (path : String) {index : Nat} (inside : index < items.length) (fits : items.length ≤ 2 ^ 64) :
    removeChild path (toString index) (.array items) = .ok (.array (items.eraseIdx index)) := by
  rw [removeChild, parseUsize_toString (lt_of_lt_of_le inside fits)]
  exact if_neg (Nat.not_le_of_lt inside)

/-- An existing child is replaced in place. -/
theorem setChild_existing {path : String} {container old : Value} (formed : container.wellFormed = true)
    (found : container.child step = some old) {value : Value} (valueFormed : value.wellFormed = true) :
    ∃ result, setChild path step.segment value container = .ok result ∧ result.wellFormed = true ∧
      result.outline = container.outline.graft [step] value.outline := by
  obtain ⟨map, key, rfl, rfl, held⟩ | ⟨items, index, rfl, rfl, held⟩ := child_cases found
  · exact ⟨_, rfl, wellFormed_insert formed valueFormed, outline_insert map key value⟩
  · have inside : index < items.length := (List.getElem?_eq_some_iff.mp held).1
    have parsed : parseUsize (toString index) = some index :=
      parseUsize_toString (lt_of_lt_of_le inside (wellFormed_array.mp formed).1)
    refine ⟨_, ?_, wellFormed_set formed valueFormed, outline_set inside⟩
    rw [Step.segment, setChild, parsed]
    simp only [if_neg (Nat.ne_of_lt inside), if_pos inside]

theorem exists_at? {head : Head} (found : root.outline parent = some head) :
    ∃ child, root.at? parent = some child ∧ child.head = head := map_eq_some_iff.mp found

theorem exists_object (found : root.outline parent = some .object) : ∃ map, root.at? parent = some (.object map) := by
  obtain ⟨child, there, heads⟩ := exists_at? found
  cases child <;> simp [Value.head] at heads
  exact ⟨_, there⟩

theorem exists_array {length : Nat} (found : root.outline parent = some (.array length)) :
    ∃ items, root.at? parent = some (.array items) ∧ items.length = length := by
  obtain ⟨child, there, heads⟩ := exists_at? found
  cases child <;> simp [Value.head] at heads
  exact ⟨_, there, heads⟩

end Applying

/-- Where an edit is enabled, its op changes the document as the edit changes the outline. -/
theorem applyOp_edit (pointers : addressing format = .pointer) {root : Value} (formed : root.wellFormed = true) {edit : Edit}
    (editFormed : edit.WellFormed) (enabled : edit.Enabled root.outline) :
    ∃ result, applyOp format root (edit.op .pointer) = .ok result ∧ result.wellFormed = true ∧
      result.outline = edit.act root.outline := by
  -- The edited container, grafted back at its path, is the graft at the longer path.
  have inContainer : ∀ {parent step} {container new : Value} {sub}, root.at? parent = some container →
      new.outline = container.outline.graft [step] sub →
      root.outline.graft parent new.outline = root.outline.graft (parent ++ [step]) sub := by
    intro parent step container new sub there outline
    rw [outline, graft_append, below_outline, there, Value.outlineOf]
  cases edit with
  | add parent step value =>
    cases step with
    | key key =>
      obtain ⟨map, there⟩ := exists_object enabled
      obtain ⟨result, applied, resultFormed, outline⟩ := navigate_ok formed there (setChild_key _ key value map)
        (wellFormed_insert (wellFormed_at? formed there) editFormed)
      exact ⟨result, (setValue_child pointers value).trans applied, resultFormed,
        outline.trans (inContainer there (outline_insert map key value))⟩
    | index index =>
      obtain ⟨items, there, rfl⟩ := exists_array enabled.1
      obtain ⟨result, applied, resultFormed, outline⟩ :=
        navigate_ok formed there (setChild_end _ value enabled.2)
          (wellFormed_push (wellFormed_at? formed there) editFormed enabled.2)
      refine ⟨result, (setValue_child pointers value).trans applied, resultFormed, outline.trans ?_⟩
      rw [outline_push, graft_relabel, Edit.act, graft_append, below_outline, there, Value.outlineOf]
  | remove parent step value =>
    cases step with
    | key key =>
      obtain ⟨map, there⟩ := exists_object enabled.1
      have known : ∃ old, IndexMap.get map key = some old := by
        have present := enabled.2
        rw [Value.outline, at?_append, there] at present
        cases found : IndexMap.get map key with
        | none => simp [at?_cons, Value.child, found] at present
        | some old => exact ⟨old, rfl⟩
      obtain ⟨old, found⟩ := known
      have containerFormed := wellFormed_at? formed there
      obtain ⟨result, applied, resultFormed, outline⟩ :=
        navigate_ok formed there (removeChild_key _ found) (wellFormed_erase containerFormed)
      exact ⟨result, (removeValue_child pointers).trans applied, resultFormed,
        outline.trans (inContainer there (outline_erase (wellFormed_object.mp containerFormed).1 key))⟩
    | index index =>
      obtain ⟨items, there, last⟩ := exists_array enabled
      have containerFormed := wellFormed_at? formed there
      obtain ⟨result, applied, resultFormed, outline⟩ :=
        navigate_ok formed there (removeChild_index _ (show index < items.length by omega) (wellFormed_array.mp containerFormed).1)
          (wellFormed_eraseIdx containerFormed)
      refine ⟨result, (removeValue_child pointers).trans applied, resultFormed, outline.trans ?_⟩
      rw [outline_pop last, graft_relabel, Edit.act, graft_append, below_outline, there,
        Value.outlineOf]
  | replace path old new =>
    cases path using List.reverseRecOn with
    | nil =>
      refine ⟨new, ?_, editFormed, by rw [Edit.act, graft_nil]⟩
      show setValue format (render .pointer []) new root = .ok new
      rw [setValue, parseAddress_render pointers]
      rfl
    | append_singleton parent step =>
      obtain ⟨head, present⟩ := ne_none_iff_exists'.mp enabled
      obtain ⟨current, there, -⟩ := exists_at? present
      rw [at?_append] at there
      obtain ⟨container, thereParent, below⟩ := bind_eq_some_iff.mp there
      have found : container.child step = some current := by
        obtain ⟨child, found, same⟩ := bind_eq_some_iff.mp below
        rw [found, ← same, at?_nil]
      obtain ⟨changed, set, changedFormed, changedOutline⟩ :=
        setChild_existing (wellFormed_at? formed thereParent) found editFormed
      obtain ⟨result, applied, resultFormed, outline⟩ := navigate_ok formed thereParent set changedFormed
      exact ⟨result, (setValue_child pointers new).trans applied, resultFormed,
        outline.trans (inContainer thereParent changedOutline)⟩

end Index.Delta
