import Mathlib
import Index.AstMerge.InPlace
import Index.AstMerge.Verdict

/-! # Changes on one side

A file that only one side changed should merge into that side.  It does when the left side made the change,
but for its comments, which no structural merge keeps.  A change of the right side has to be in place: items
it deleted stay, and new items in a row come out in reverse. -/

namespace Index.AstMerge

open Index.Lib List

variable {hasher : Hasher} {diff : Diff} {base changed : Tree}

/-! ## The left side changed -/

section

variable {base changed : Tree}

theorem reconcileItem_changed_left {items : List Node} (state : ItemState) (item : Node) :
    ∃ next, reconcileItem hasher diff ⟨base, changed, base⟩ (buildNameMap base items) (buildNameMap base items)
        (buildHashMap hasher base items) items state item = some next ∧
      ∃ output, next.mergedItems = state.mergedItems ++ [output] ∧ output.merged.text = changed.nodeText item := by
  unfold reconcileItem
  cases named : getName changed item with
  | none =>
    refine ⟨_, rfl, ?_⟩
    unfold reconcileUnnamed
    simp only
    split
    · exact ⟨_, rfl, rfl⟩
    split
    · exact ⟨_, rfl, rfl⟩
    split
    · exact ⟨_, rfl, rfl⟩
    · -- the candidate is an item of the base
      rename_i candidate index found
      have listed : candidate ∈ items :=
        mem_of_getElem? (mem_zipIdx_iff_getElem?.mp (mem_of_find?_eq_some found))
      obtain ⟨known, ofBase⟩ : ∃ known, buildHashMap hasher base items (base.compute hasher candidate) = some known :=
        exists_buildHashMap listed
      simp only [ofBase, Option.isSome_some, if_true]
      exact ⟨_, rfl, rfl⟩
  | some name =>
    simp only [reconcileNamed]
    cases inBase : buildNameMap base items name with
    | none => exact ⟨_, rfl, _, rfl, rfl⟩
    | some entry =>
      simp only [reconcileSingle_of_right_eq_base, Option.map_some]
      exact ⟨_, rfl, _, rfl, rfl⟩

theorem not_isNew_of_mem {tree : Tree} {items : List Node} {item : Node} (listed : item ∈ items) :
    isNew hasher tree (buildNameMap tree items) (buildHashMap hasher tree items) item = false := by
  unfold isNew
  split
  · obtain ⟨index, found⟩ : ∃ index, buildHashMap hasher tree items (tree.compute hasher item) = some index :=
      exists_buildHashMap listed
    simp [found]
  · rename_i name named
    obtain ⟨entry, found⟩ := exists_buildNameMap listed named
    simp [found]

theorem mergedTexts_changed_left (base changed : Tree) :
    mergedTexts hasher diff ⟨base, changed, base⟩ = some ((getTopLevelItems changed).map changed.nodeText) := by
  let trees : ThreeWayTrees := ⟨base, changed, base⟩
  obtain ⟨state, folded⟩ : ∃ state, reconcileAll hasher diff trees (buildNameMap base (getTopLevelItems base))
      (buildNameMap base (getTopLevelItems base)) (buildHashMap hasher base (getTopLevelItems base))
      (getTopLevelItems changed) (getTopLevelItems base) = some state :=
    exists_foldlM (fun item _ state => (reconcileItem_changed_left state item).imp fun _ => And.left) _
  obtain ⟨pushed, appended, each⟩ : ∃ pushed, state.mergedItems = [] ++ pushed ∧
      List.Forall₂ (fun item output => output.merged.text = changed.nodeText item) (getTopLevelItems changed) pushed := by
    refine foldlM_pushes ItemState.mergedItems (fun item _ state next stepped => ?_) folded
    obtain ⟨other, same, pushed⟩ := reconcileItem_changed_left state item
    obtain rfl := Option.some.inj (same.symm.trans stepped)
    exact pushed
  have nothingNew : newItems hasher trees (topLevel trees) state.handledRight = [] := by
    simp only [newItems, collectNew, map_eq_nil_iff, filter_eq_nil_iff]
    rintro ⟨item, index⟩ member
    have listed : item ∈ getTopLevelItems base := mem_of_getElem? (mem_zipIdx_iff_getElem?.mp member)
    simp [trees, topLevel, not_isNew_of_mem listed]
  have reconciled : reconcileItems hasher diff trees (topLevel trees) = some state.mergedItems := by
    rw [reconcileItems]
    simp only [trees, topLevel] at folded nothingNew ⊢
    rw [folded]
    simp [nothingNew, insertNew]
  have texts : (getTopLevelItems changed).map changed.nodeText = pushed.map fun item => item.merged.text := by
    rw [← forall₂_eq_eq_eq, forall₂_map_left_iff, forall₂_map_right_iff]
    exact each.imp fun _ _ same => same.symm
  rw [mergedTexts, reconciled, Option.map_some, appended, nil_append, ← texts]

end

/-! ## What a one-sided change needs -/

theorem reconcileItem_pushes {trees : ThreeWayTrees} {inBase inRight : String → Option IndexedNode} {hashes : Nat → Option Nat}
    {rightItems : List Node} {state next : ItemState} {item : Node}
    (stepped : reconcileItem hasher diff trees inBase inRight hashes rightItems state item = some next) :
    ∃ output, next.mergedItems = state.mergedItems ++ [output] ∧
      ∀ name, getName trees.left item = some name → inRight name = none → output.merged.text = trees.left.nodeText item := by
  unfold reconcileItem at stepped
  split at stepped
  next name named =>
    unfold reconcileNamed at stepped
    split at stepped
    next baseEntry rightEntry known found =>
      obtain ⟨merged, -, rfl⟩ := Option.map_eq_some_iff.mp stepped
      exact ⟨_, rfl, by simp [named, found]⟩
    all_goals
      cases stepped
      exact ⟨_, rfl, fun _ _ _ => rfl⟩
  next named =>
    simp only [reconcileUnnamed, Option.some.injEq] at stepped
    subst stepped
    -- Only for a named item something is said of the text.
    repeat' split
    all_goals exact ⟨_, rfl, by simp [named]⟩

/-- The merged items of a right-side change: one for each item of the base, a named one that the change
deleted among them, and the new ones. -/
theorem mergedTexts_keeps {texts : List String} (merged : mergedTexts hasher diff ⟨base, base, changed⟩ = some texts) :
    (getTopLevelItems base).length ≤ texts.length ∧
      ∀ old ∈ getTopLevelItems base, ∀ name, getName base old = some name →
        (∀ new ∈ getTopLevelItems changed, getName changed new ≠ some name) → base.nodeText old ∈ texts := by
  obtain ⟨items, reconciled, rfl⟩ := Option.map_eq_some_iff.mp merged
  obtain ⟨state, folded, inserted⟩ := Option.bind_eq_some_iff.mp reconciled
  obtain rfl := Option.some.inj inserted
  obtain ⟨pushed, appended, each⟩ := foldlM_pushes ItemState.mergedItems
    (fun item _ state next stepped => reconcileItem_pushes stepped) folded
  have same := insertNew_perm state.mergedItems
    (newItems hasher ⟨base, base, changed⟩ (topLevel ⟨base, base, changed⟩) state.handledRight)
  have kept : state.mergedItems = pushed := by simpa using appended
  rw [kept] at same ⊢
  constructor
  · rw [length_map, same.length_eq, length_append, ← each.length_eq]
    exact Nat.le_add_right ..
  · intro old listed name named gone
    obtain ⟨output, member, text⟩ := exists_image_of_mem each listed
    rw [← text name named (buildNameMap_eq_none gone)]
    exact mem_map.mpr ⟨output, same.mem_iff.mpr (mem_append_left _ member), rfl⟩

/-- The item `const X: i32 = 1;` at a position. -/
def constItem (start : Nat) : Node :=
  .node start "const_item" start (start + 17) false
    [(none, .node (start + 1) "const" start (start + 5) false []),
      (some "name", .node (start + 2) "identifier" (start + 6) (start + 7) false []),
      (none, .node (start + 3) ":" (start + 7) (start + 8) false []),
      (some "type", .node (start + 4) "primitive_type" (start + 9) (start + 12) false []),
      (none, .node (start + 5) "=" (start + 13) (start + 14) false []),
      (some "value", .node (start + 6) "integer_literal" (start + 15) (start + 16) false []),
      (none, .node (start + 7) ";" (start + 16) (start + 17) false [])]

/-- A file of constants, one behind the other. -/
def constFile (names : List String) : Tree where
  source := String.join (names.map fun name => "const " ++ name ++ ": i32 = 1;")
  rootNode := .node 1000 "source_file" 0 (17 * names.length) false
    ((List.range names.length).map fun index => (none, constItem (17 * index)))

/-- A file with a comment alone. -/
def commentFile : Tree := ⟨"// note", .node 1000 "source_file" 0 7 false [(none, .node 0 "line_comment" 0 7 true [])]⟩

theorem constFile_inPlace :
    InPlace polynomialHash (constFile ["A"]) (constFile ["A", "B"]) none [⟨constItem 0, constItem 0, some (constItem 17)⟩] where
  oldItems := rfl
  newChildren := rfl
  noExtra := by simp [constFile, constItem, Node.children, Node.fields, Node.isExtra, range_succ]
  alike := by
    intro old isOld new isNew same
    obtain rfl : old = constItem 0 := mem_singleton.mp isOld
    rcases mem_pair.mp isNew with rfl | rfl
    · decide +kernel
    · exact absurd same (by decide +kernel)
  fresh := by
    intro item isNew old isOld
    obtain rfl : old = constItem 0 := mem_singleton.mp isOld
    obtain rfl : item = constItem 17 := by simpa [slots, Row.slots] using isNew
    have named : getName (constFile ["A", "B"]) (constItem 17) = some "B" := by decide +kernel
    refine ⟨by decide +kernel, fun name isName => ?_⟩
    obtain rfl : "B" = name := Option.some.inj (named.symm.trans isName)
    decide +kernel
  stands := by
    intro row isRow
    obtain rfl := mem_singleton.mp isRow
    exact .last "A" (by decide +kernel) (by decide +kernel) rfl rfl fun _ => by decide +kernel
  clear := by
    intro before row after split
    have lengths := congrArg List.length split
    obtain rfl : before = [] := eq_nil_of_length_eq_zero (by simp at lengths; omega)
    simp [slots]
  first := by
    intro before row after split
    have lengths := congrArg List.length split
    obtain rfl : before = [] := eq_nil_of_length_eq_zero (by simp at lengths; omega)
    simp
  above := nofun

end Index.AstMerge
