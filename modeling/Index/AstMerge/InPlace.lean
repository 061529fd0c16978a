import Mathlib
import Index.AstMerge.Clash

/-! # Changes of the right side in place

When only the right side changed a file, the merge starts from the unchanged items of the left and works the
change in.  Edited items arrive, and so does a single new item behind an old one. -/

namespace Index.AstMerge

open Index.Lib List

section

variable (hasher : Hasher) (diff : Diff)

/-- The texts of the merged top-level items. -/
def mergedTexts (trees : ThreeWayTrees) : Option (List String) :=
  (reconcileItems hasher diff trees (topLevel trees)).map fun items => items.map fun item => item.merged.text

/-- The texts of all top-level nodes, comments included. -/
def childTexts (tree : Tree) : List String := tree.rootNode.children.map tree.nodeText

/-- Both merges of a change to one side, made on the right and made on the left, are that side. -/
def OneSidedWins (base changed : Tree) : Prop :=
  mergedTexts hasher diff ⟨base, base, changed⟩ = some (childTexts changed) ∧
    mergedTexts hasher diff ⟨base, changed, base⟩ = some (childTexts changed)

end

variable {hasher : Hasher} {diff : Diff}

/-! ## One item -/

variable {trees : ThreeWayTrees} {nodes : ThreeWayNodes}

theorem reconcileSingle_of_right_eq_base (same : trees.right.compute hasher nodes.right = trees.base.compute hasher nodes.base) :
    reconcileSingle hasher diff trees nodes = some (.plain (trees.left.nodeText nodes.left)) := by
  rw [reconcileSingle_eq, reconcileSingleWith]
  simp only [same]
  split_ifs <;> rfl

theorem reconcileSingle_of_left_eq_base (same : trees.left.compute hasher nodes.left = trees.base.compute hasher nodes.base)
    (text : trees.left.compute hasher nodes.left = trees.right.compute hasher nodes.right →
      trees.left.nodeText nodes.left = trees.right.nodeText nodes.right) :
    reconcileSingle hasher diff trees nodes = some (.plain (trees.right.nodeText nodes.right)) := by
  rw [reconcileSingle_eq, reconcileSingleWith]
  by_cases sides : trees.left.compute hasher nodes.left = trees.right.compute hasher nodes.right
  · simp only [if_pos sides, text sides]
  · simp only [if_neg sides, if_pos same]

/-! ## The right side changed -/

/-- An item of the base, the item of the changed side that stands for it, and a new item behind that one. -/
structure Row where
  base : Node
  right : Node
  added : Option Node

/-- The items of a row on the changed side, with whether they stand for one of the base. -/
def Row.slots (row : Row) : List (Node × Bool) := (row.right, true) :: row.added.toList.map fun item => (item, false)

/-- The items of the changed side: perhaps a new one at the top, and those of the rows. -/
def slots (top : Option Node) (rows : List Row) : List (Node × Bool) :=
  (top.toList.map fun item => (item, false)) ++ rows.flatMap Row.slots

section

variable (hasher : Hasher) (base changed : Tree)

/-- The place of an item of the base, by its name or its hash: that of the last item like it. -/
def anchor (item : Node) : Option Nat :=
  match getName base item with
  | none => buildHashMap hasher base (getTopLevelItems base) (base.compute hasher item)
  | some name => (buildNameMap base (getTopLevelItems base) name).map IndexedNode.index

/-- An unnamed item that neither side has any more, replaced by one of its kind that the base does not have. -/
structure Replaced (row : Row) : Prop where
  ofBase : getName base row.base = none
  ofRight : getName changed row.right = none
  kind : row.right.kind = row.base.kind
  gone : ∀ item ∈ getTopLevelItems changed, changed.compute hasher item ≠ base.compute hasher row.base
  fresh : ∀ item ∈ getTopLevelItems base, base.compute hasher item ≠ changed.compute hasher row.right
  alone : row.added = none

/-- How the changed item of a row stands for that of the base. -/
inductive Stands (row : Row) : Prop
  /-- Both are the last items of their name, and a changed text shows in the hash. -/
  | last (name : String) (ofBase : getName base row.base = some name) (ofRight : getName changed row.right = some name)
    (lastOfBase : (buildNameMap base (getTopLevelItems base) name).map IndexedNode.node = some row.base)
    (lastOfRight : (buildNameMap changed (getTopLevelItems changed) name).map IndexedNode.node = some row.right)
    (text : base.compute hasher row.base = changed.compute hasher row.right →
      base.nodeText row.base = changed.nodeText row.right)
  /-- The item is unchanged, and so is the last of its name. -/
  | namesake (name : String) (ofBase : getName base row.base = some name) (ofRight : getName changed row.right = some name)
    (lasts : ∀ b ∈ buildNameMap base (getTopLevelItems base) name,
      ∀ r ∈ buildNameMap changed (getTopLevelItems changed) name,
        changed.compute hasher r.node = base.compute hasher b.node)
    (text : base.nodeText row.base = changed.nodeText row.right)
  /-- The item has no name and is unchanged. -/
  | unnamed (ofBase : getName base row.base = none) (ofRight : getName changed row.right = none)
    (hash : changed.compute hasher row.right = base.compute hasher row.base)
    (text : base.nodeText row.base = changed.nodeText row.right)
  | replaced (replaced : Replaced hasher base changed row)

/-- The changed side has the items of the base in their places, with at most one new item between them. -/
structure InPlace (top : Option Node) (rows : List Row) : Prop where
  oldItems : getTopLevelItems base = rows.map Row.base
  newChildren : changed.rootNode.children = (slots top rows).map Prod.fst
  /-- The changed side has no comments. -/
  noExtra : ∀ child ∈ changed.rootNode.children, child.isExtra = false
  /-- Items that hash alike have the same name. -/
  alike : ∀ old ∈ getTopLevelItems base, ∀ new ∈ getTopLevelItems changed,
    base.compute hasher old = changed.compute hasher new → getName base old = getName changed new
  /-- A new item has neither the name nor the hash of one of the base. -/
  fresh : ∀ item, (item, false) ∈ slots top rows → ∀ old ∈ getTopLevelItems base,
    base.compute hasher old ≠ changed.compute hasher item ∧
      ∀ name, getName changed item = some name → getName base old ≠ some name
  stands : ∀ row ∈ rows, Stands hasher base changed row
  /-- No unnamed new item stands before a replaced one of its kind. -/
  clear : ∀ before row after, rows = before ++ row :: after → Replaced hasher base changed row →
    ∀ item, (item, false) ∈ slots top before → getName changed item = none → item.kind ≠ row.base.kind
  /-- An item with a new one behind it is the first of its name or hash. -/
  first : ∀ before row after, rows = before ++ row :: after → row.added.isSome →
    ∀ other ∈ before, anchor hasher base other.base ≠ anchor hasher base row.base
  /-- A new item at the top is of another kind than the item below, or all are of its kind. -/
  above : ∀ item ∈ top, (∀ row ∈ rows.head?, row.base.kind ≠ item.kind) ∨ ∀ row ∈ rows, row.base.kind = item.kind

end

variable {base changed : Tree} {top : Option Node} {rows : List Row}

theorem getTopLevelItems_eq_children {tree : Tree} (noExtra : ∀ child ∈ tree.rootNode.children, child.isExtra = false) :
    getTopLevelItems tree = tree.rootNode.children := by
  rw [getTopLevelItems, filter_eq_self]
  simpa using noExtra

variable (inPlace : InPlace hasher base changed top rows)

include inPlace in
theorem InPlace.items :
    getTopLevelItems changed = (slots top rows).map Prod.fst :=
  (getTopLevelItems_eq_children inPlace.noExtra).trans inPlace.newChildren

theorem slots_append (before after : List Row) : slots top (before ++ after) = slots top before ++ after.flatMap Row.slots := by
  simp [slots]

/-! ### Accounting for the right items -/

variable {index k : Nat}

theorem IndexSet.insert_eq_true {set : IndexSet} : (set.insert index) k = true ↔ k = index ∨ set k = true := by
  simp [IndexSet.insert, Function.update_apply]

/-- The right items handled so far: none of the new ones, and of the unnamed those before a position. -/
structure Accounted (changed : Tree) (slots : List (Node × Bool)) (position : Nat) (handled : IndexSet) : Prop where
  standing : ∀ k, handled k = true → ∃ item, slots[k]? = some (item, true)
  unnamed : ∀ k item, slots[k]? = some (item, true) → getName changed item = none → (handled k = true ↔ k < position)

variable {row : Row} {item : Node}

theorem slot_of_row {before after : List (Node × Bool)} (found : (before ++ (row.slots ++ after))[k]? = some (item, true))
    (start : before.length ≤ k) (upTo : k < (before ++ row.slots).length) : k = before.length ∧ item = row.right := by
  obtain ⟨offset, rfl⟩ := Nat.exists_eq_add_of_le start
  rw [length_append] at upTo
  rw [getElem?_append_right (by omega), Nat.add_sub_cancel_left, getElem?_append_left (by omega)] at found
  cases offset with
  | zero => simpa [Row.slots, eq_comm] using found
  | succ offset =>
    rw [Row.slots, getElem?_cons_succ] at found
    simpa using mem_of_getElem? found

variable {handled : IndexSet} {name : String}

/-- The item that stands for a row is handled, or another named one if it has a name itself. -/
theorem Accounted.insert {before after : List (Node × Bool)} {node : Node}
    (accounted : Accounted changed (before ++ (row.slots ++ after)) before.length handled)
    (found : (before ++ (row.slots ++ after))[index]? = some (node, true))
    (here : index = before.length ∨ getName changed node ≠ none ∧ getName changed row.right ≠ none) :
    Accounted changed (before ++ (row.slots ++ after)) (before ++ row.slots).length (handled.insert index) := by
  constructor
  · intro k isHandled
    rcases IndexSet.insert_eq_true.mp isHandled with rfl | old
    · exact ⟨node, found⟩
    · exact accounted.standing k old
  · intro k item slot unnamed
    have within : before.length < (before ++ row.slots).length := by simp [Row.slots]
    have inRow := fun start upTo => slot_of_row slot start upTo
    rw [IndexSet.insert_eq_true, accounted.unnamed k item slot unnamed]
    rcases here with rfl | ⟨named, right⟩
    · omega
    · have other : k ≠ index := by
        rintro rfl
        simp_all
      have notHere : k ≠ before.length := by
        rintro rfl
        exact right ((inRow le_rfl within).2 ▸ unnamed)
      omega

/-! ### The items of the left side -/

/-- What the merge makes of a row. -/
def Row.entry (hasher : Hasher) (base changed : Tree) (row : Row) : Resolved :=
  ⟨.plain (changed.nodeText row.right), row.base.kind, anchor hasher base row.base, none⟩

/-- The step of the merge when the right side changed. -/
def stepRight (hasher : Hasher) (diff : Diff) (base changed : Tree) : ItemState → Node → Option ItemState :=
  reconcileItem hasher diff ⟨base, base, changed⟩ (buildNameMap base (getTopLevelItems base))
    (buildNameMap changed (getTopLevelItems changed)) (buildHashMap hasher base (getTopLevelItems base))
    (getTopLevelItems changed)

variable {before after : List Row}

/-- The slots before a row, of the row and behind it. -/
theorem slots_split : slots top (before ++ row :: after) = slots top before ++ (row.slots ++ after.flatMap Row.slots) := by
  simp [slots]

include inPlace in
theorem InPlace.items_split (split : rows = before ++ row :: after) :
    getTopLevelItems changed = (slots top before).map Prod.fst ++
      row.right :: (row.added.toList ++ (after.flatMap Row.slots).map Prod.fst) := by
  rw [inPlace.items, split, slots_split, map_append, map_append, Row.slots]
  simp [Function.comp_def]

include inPlace in
theorem InPlace.base_mem (member : row ∈ rows) :
    row.base ∈ getTopLevelItems base := by
  rw [inPlace.oldItems]
  exact mem_map_of_mem member

include inPlace in
/-- The slot of an item that has a name of the base stands for one of its items. -/
theorem InPlace.named_slot {entry : IndexedNode} {old : Node}
    (found : buildNameMap changed (getTopLevelItems changed) name = some entry) (listed : old ∈ getTopLevelItems base)
    (named : getName base old = some name) :
    (slots top rows)[entry.index]? = some (entry.node, true) ∧ getName changed entry.node = some name := by
  obtain ⟨located, ofRight⟩ := mem_of_buildNameMap found
  rw [inPlace.items, getElem?_map] at located
  obtain ⟨⟨node, standing⟩, slot, rfl⟩ := Option.map_eq_some_iff.mp located
  cases standing with
  | true => exact ⟨slot, ofRight⟩
  | false => exact absurd named ((inPlace.fresh _ (mem_of_getElem? slot) old listed).2 name ofRight)

/-- An unnamed new item before a position and one that stands for an item of the base are told apart. -/
theorem Accounted.skip {before after : List (Node × Bool)}
    (accounted : Accounted changed (before ++ after) before.length handled) {other : Node}
    (found : (before.map Prod.fst)[index]? = some other) (unnamed : getName changed other = none) :
    handled index = true ∨ (other, false) ∈ before := by
  rw [getElem?_map] at found
  obtain ⟨⟨node, standing⟩, slot, rfl⟩ := Option.map_eq_some_iff.mp found
  have within : index < before.length := (List.getElem?_eq_some_iff.mp slot).1
  cases standing with
  | false => exact .inr (mem_of_getElem? slot)
  | true =>
    have whole : (before ++ after)[index]? = some (node, true) := by rw [getElem?_append_left within, slot]
    exact .inl ((accounted.unnamed index node whole unnamed).mpr within)

variable {state : ItemState}

include inPlace in
theorem InPlace.step_named (split : rows = before ++ row :: after)
    (accounted : Accounted changed (slots top rows) (slots top before).length state.handledRight)
    (ofBase : getName base row.base = some name) (ofRight : getName changed row.right = some name)
    (single : ∀ b ∈ buildNameMap base (getTopLevelItems base) name, ∀ r ∈ buildNameMap changed (getTopLevelItems changed) name,
      reconcileSingle hasher diff ⟨base, base, changed⟩ ⟨b.node, row.base, r.node⟩ = some (.plain (changed.nodeText row.right))) :
    ∃ handled, stepRight hasher diff base changed state row.base =
        some ⟨handled, state.mergedItems ++ [row.entry hasher base changed]⟩ ∧
      Accounted changed (slots top rows) (slots top (before ++ [row])).length handled := by
  have listed : row.base ∈ getTopLevelItems base := inPlace.base_mem (by simp [split])
  have rightListed : row.right ∈ getTopLevelItems changed := by simp [inPlace.items_split split]
  obtain ⟨b, inBase⟩ := exists_buildNameMap listed ofBase
  obtain ⟨r, inRight⟩ := exists_buildNameMap rightListed ofRight
  obtain ⟨slot, named⟩ := inPlace.named_slot inRight listed ofBase
  refine ⟨state.handledRight.insert r.index, ?_, ?_⟩
  · simp only [stepRight, reconcileItem, ofBase, reconcileNamed, inBase, inRight, single b inBase r inRight, Option.map_some]
    simp [ItemState.push, ItemState.handle, Row.entry, anchor, ofBase, inBase]
  · rw [split, slots_split] at accounted slot ⊢
    rw [slots_append]
    simpa using accounted.insert slot (.inr (by simp [named, ofRight]))

theorem step_unnamed (split : rows = before ++ row :: after)
    (accounted : Accounted changed (slots top rows) (slots top before).length state.handledRight)
    (ofBase : getName base row.base = none)
    (reconciled : reconcileUnnamed hasher ⟨base, base, changed⟩ (getTopLevelItems changed)
        (buildHashMap hasher base (getTopLevelItems base)) row.base state =
      (state.handle (slots top before).length).push (row.entry hasher base changed)) :
    ∃ handled, stepRight hasher diff base changed state row.base =
        some ⟨handled, state.mergedItems ++ [row.entry hasher base changed]⟩ ∧
      Accounted changed (slots top rows) (slots top (before ++ [row])).length handled := by
  refine ⟨state.handledRight.insert (slots top before).length, ?_, ?_⟩
  · simp only [stepRight, reconcileItem, ofBase, reconciled]
    rfl
  · rw [split, slots_split] at accounted ⊢
    rw [slots_append]
    simpa using accounted.insert (show _ = some (row.right, true) by simp [Row.slots]) (.inl rfl)

section

variable (split : rows = before ++ row :: after)
  (accounted : Accounted changed (slots top rows) (slots top before).length handled)
include inPlace split accounted

theorem InPlace.findRight_row (ofBase : getName base row.base = none) (ofRight : getName changed row.right = none)
    (hash : changed.compute hasher row.right = base.compute hasher row.base) :
    findRight hasher ⟨base, base, changed⟩ (getTopLevelItems changed) handled (base.compute hasher row.base) =
      some (row.right, (slots top before).length) := by
  have listed : row.base ∈ getTopLevelItems base := inPlace.base_mem (by simp [split])
  rw [split, slots_split] at accounted
  have position : (slots top before).length = ((slots top before).map Prod.fst).length := by simp
  have free : handled (slots top before).length = false := by
    have unnamed := accounted.unnamed (slots top before).length row.right (by simp [Row.slots]) ofRight
    simpa using unnamed
  rw [findRight, inPlace.items_split split, position]
  apply find?_zipIdx_append
  · simp [← position, free, hash]
  · intro index other found
    by_cases same : changed.compute hasher other = base.compute hasher row.base
    · -- an item with the hash of an unnamed one is unnamed, and not new
      have otherListed : other ∈ getTopLevelItems changed := by
        rw [inPlace.items_split split]
        exact mem_append_left _ (mem_of_getElem? found)
      have unnamed : getName changed other = none :=
        (inPlace.alike row.base listed other otherListed same.symm).symm.trans ofBase
      rcases accounted.skip found unnamed with done | new
      · simp [done]
      · have fresh := inPlace.fresh other (by rw [split, slots_split]; exact mem_append_left _ new) row.base listed
        exact absurd same.symm fresh.1
    · simp [same]

theorem InPlace.findCandidate_row (replaced : Replaced hasher base changed row) :
    findCandidate ⟨base, base, changed⟩ (getTopLevelItems changed) handled row.base.kind =
      some (row.right, (slots top before).length) := by
  rw [split, slots_split] at accounted
  have position : (slots top before).length = ((slots top before).map Prod.fst).length := by simp
  have free : handled (slots top before).length = false := by
    have unnamed := accounted.unnamed (slots top before).length row.right (by simp [Row.slots]) replaced.ofRight
    simpa using unnamed
  rw [findCandidate, inPlace.items_split split, position]
  apply find?_zipIdx_append
  · simp [← position, free, replaced.kind, replaced.ofRight]
  · intro index other found
    by_cases unnamed : getName changed other = none
    · rcases accounted.skip found unnamed with done | new
      · simp [done]
      · simp [inPlace.clear before row after split replaced other new unnamed]
    · simp [Option.isSome_iff_ne_none, unnamed]

end

include inPlace in
/-- One item of the base becomes what stands for it on the changed side. -/
theorem InPlace.step (diff : Diff) (split : rows = before ++ row :: after)
    (accounted : Accounted changed (slots top rows) (slots top before).length state.handledRight) :
    ∃ handled, stepRight hasher diff base changed state row.base =
        some ⟨handled, state.mergedItems ++ [row.entry hasher base changed]⟩ ∧
      Accounted changed (slots top rows) (slots top (before ++ [row])).length handled := by
  cases inPlace.stands row (by simp [split]) with
  | last name ofBase ofRight lastOfBase lastOfRight text =>
    refine inPlace.step_named split accounted ofBase ofRight fun b inBase r inRight => ?_
    have isBase : b.node = row.base := by simpa [Option.mem_def.mp inBase] using lastOfBase
    have isRight : r.node = row.right := by simpa [Option.mem_def.mp inRight] using lastOfRight
    rw [isBase, isRight]
    exact reconcileSingle_of_left_eq_base rfl text
  | namesake name ofBase ofRight lasts text =>
    refine inPlace.step_named split accounted ofBase ofRight fun b inBase r inRight => ?_
    rw [← text]
    exact reconcileSingle_of_right_eq_base (lasts b inBase r inRight)
  | unnamed ofBase ofRight hash text =>
    refine step_unnamed split accounted ofBase ?_
    simp only [reconcileUnnamed, inPlace.findRight_row split accounted ofBase ofRight hash]
    simp [Row.entry, anchor, ofBase, text]
  | replaced replaced =>
    refine step_unnamed split accounted replaced.ofBase ?_
    have gone : findRight hasher ⟨base, base, changed⟩ (getTopLevelItems changed) state.handledRight
        (base.compute hasher row.base) = none := by
      rw [findRight, find?_eq_none]
      rintro ⟨item, index⟩ member
      have listed : item ∈ getTopLevelItems changed := mem_of_getElem? (mem_zipIdx_iff_getElem?.mp member)
      simp [replaced.gone item listed]
    obtain ⟨index, known⟩ : ∃ index, buildHashMap hasher base (getTopLevelItems base) (base.compute hasher row.base) =
        some index := exists_buildHashMap (inPlace.base_mem (by simp [split]))
    simp only [reconcileUnnamed, gone, known, inPlace.findCandidate_row split accounted replaced, buildHashMap_eq_none replaced.fresh]
    simp [Row.entry, anchor, replaced.ofBase, known]

include inPlace in
theorem InPlace.reconcileAll_eq (diff : Diff) :
    ∃ handled, reconcileAll hasher diff ⟨base, base, changed⟩ (buildNameMap base (getTopLevelItems base))
        (buildNameMap changed (getTopLevelItems changed)) (buildHashMap hasher base (getTopLevelItems base))
        (getTopLevelItems base) (getTopLevelItems changed) =
        some ⟨handled, rows.map (Row.entry hasher base changed)⟩ ∧
      Accounted changed (slots top rows) (slots top rows).length handled := by
  have run : ∀ after before (state : ItemState), rows = before ++ after →
      Accounted changed (slots top rows) (slots top before).length state.handledRight →
      ∃ handled, (after.map Row.base).foldlM (stepRight hasher diff base changed) state =
          some ⟨handled, state.mergedItems ++ after.map (Row.entry hasher base changed)⟩ ∧
        Accounted changed (slots top rows) (slots top rows).length handled := by
    intro after
    induction after with
    | nil =>
      rintro before state split accounted
      obtain rfl : rows = before := by simpa using split
      exact ⟨state.handledRight, by simp, accounted⟩
    | cons row after ih =>
      rintro before state split accounted
      obtain ⟨handled, stepped, further⟩ := inPlace.step diff split accounted
      obtain ⟨final, folded, whole⟩ := ih (before ++ [row])
        ⟨handled, state.mergedItems ++ [row.entry hasher base changed]⟩ (by simp [split]) further
      refine ⟨final, ?_, whole⟩
      rw [map_cons, foldlM_cons, stepped]
      simpa using folded
  have started : Accounted changed (slots top rows) (slots top []).length fun _ => false := by
    refine ⟨by simp, fun k item slot _ => ?_⟩
    cases top with
    | none => simp [slots]
    | some item =>
      cases k with
      | zero => simp [slots] at slot
      | succ k => simp [slots]
  obtain ⟨handled, folded, accounted⟩ := run rows [] ⟨fun _ => false, []⟩ rfl started
  refine ⟨handled, ?_, accounted⟩
  rw [← inPlace.oldItems] at folded
  simpa [reconcileAll, stepRight] using folded

/-! ### The new items -/

/-- A new item with the anchor it is inserted behind. -/
def insertion (changed : Tree) (anchor : Option Nat) (item : Node) : Resolved :=
  ⟨.plain (changed.nodeText item), item.kind, none, anchor⟩

def Row.insertions (hasher : Hasher) (base changed : Tree) (row : Row) : List Resolved :=
  row.added.toList.map (insertion changed (anchor hasher base row.base))

/-- The place in the base of the item before a position. -/
def predecessor (hasher : Hasher) (base changed : Tree) (position : Nat) : Option Nat :=
  (List.range position).reverse.findSome?
    (buildRightToBaseMap hasher changed (getTopLevelItems changed) (buildNameMap base (getTopLevelItems base))
      (buildHashMap hasher base (getTopLevelItems base)))

include inPlace in
theorem InPlace.anchor_isSome (member : row ∈ rows) :
    ∃ index, anchor hasher base row.base = some index := by
  have listed := inPlace.base_mem member
  unfold anchor
  cases named : getName base row.base with
  | none => exact exists_buildHashMap listed
  | some name =>
    obtain ⟨entry, found⟩ := exists_buildNameMap listed named
    exact ⟨entry.index, by simp [found]⟩

include inPlace in
/-- A new item comes behind the anchor of its row. -/
theorem InPlace.predecessor_eq (split : rows = before ++ row :: after)
    (added : row.added.isSome) :
    predecessor hasher base changed ((slots top before).length + 1) = anchor hasher base row.base := by
  have listed : row ∈ rows := by simp [split]
  have here : (getTopLevelItems changed)[(slots top before).length]? = some row.right := by
    rw [inPlace.items_split split]
    simp
  have mapped : buildRightToBaseMap hasher changed (getTopLevelItems changed) (buildNameMap base (getTopLevelItems base))
      (buildHashMap hasher base (getTopLevelItems base)) (slots top before).length = anchor hasher base row.base := by
    rw [buildRightToBaseMap, here, Option.bind_some, anchor]
    cases inPlace.stands row listed with
    | last name ofBase ofRight | namesake name ofBase ofRight => simp [ofBase, ofRight]
    | unnamed ofBase ofRight hash => simp [ofBase, ofRight, hash]
    | replaced replaced => simp [replaced.alone] at added
  obtain ⟨index, isIndex⟩ := inPlace.anchor_isSome listed
  rw [predecessor, range_succ, reverse_append, reverse_singleton, singleton_append, findSome?_cons,
    mapped, isIndex]

theorem row_of_slot (member : (item, true) ∈ slots top rows) : ∃ row ∈ rows, row.right = item := by
  rcases mem_append.mp member with atTop | inRows
  · simp at atTop
  · obtain ⟨row, listed, slot⟩ := mem_flatMap.mp inRows
    rcases mem_cons.mp slot with same | added
    · exact ⟨row, listed, (Prod.mk.inj same).1.symm⟩
    · simp at added

include inPlace in
theorem InPlace.isNew_slot
    (accounted : Accounted changed (slots top rows) (slots top rows).length handled) {standing : Bool}
    (slot : (slots top rows)[k]? = some (item, standing)) :
    (!handled k && isNew hasher changed (buildNameMap base (getTopLevelItems base))
      (buildHashMap hasher base (getTopLevelItems base)) item) = !standing := by
  have within : k < (slots top rows).length := (List.getElem?_eq_some_iff.mp slot).1
  cases standing with
  | true =>
    by_cases unnamed : getName changed item = none
    · simp [(accounted.unnamed k item slot unnamed).mpr within]
    · -- a named item that stands for one of the base has its name
      obtain ⟨row, listed, rfl⟩ := row_of_slot (mem_of_getElem? slot)
      have known : ∃ name, getName base row.base = some name ∧ getName changed row.right = some name := by
        cases inPlace.stands row listed with
        | last name ofBase ofRight | namesake name ofBase ofRight => exact ⟨name, ofBase, ofRight⟩
        | unnamed _ ofRight => exact absurd ofRight unnamed
        | replaced replaced => exact absurd replaced.ofRight unnamed
      obtain ⟨name, ofBase, ofRight⟩ := known
      obtain ⟨entry, found⟩ := exists_buildNameMap (inPlace.base_mem listed) ofBase
      simp [isNew, ofRight, found]
  | false =>
    have free : handled k = false := by
      by_contra isHandled
      obtain ⟨other, standing⟩ := accounted.standing k (by simpa using isHandled)
      simp [slot] at standing
    have fresh := inPlace.fresh item (mem_of_getElem? slot)
    have new : isNew hasher changed (buildNameMap base (getTopLevelItems base))
        (buildHashMap hasher base (getTopLevelItems base)) item = true := by
      unfold isNew
      split
      · rw [buildHashMap_eq_none fun old listed => (fresh old listed).1, Option.isNone_none]
      next name named => rw [buildNameMap_eq_none fun old listed => (fresh old listed).2 name named, Option.isNone_none]
    simp [free, new]

/-- The new items among slots from a position on. -/
def collected (hasher : Hasher) (base changed : Tree) (position : Nat) (slots : List (Node × Bool)) : List Resolved :=
  ((slots.zipIdx position).filter fun slot => !slot.1.2).map fun slot =>
    insertion changed (predecessor hasher base changed slot.2) slot.1.1

theorem collected_append {position : Nat} {before after : List (Node × Bool)} :
    collected hasher base changed position (before ++ after) =
      collected hasher base changed position before ++ collected hasher base changed (position + before.length) after := by
  simp [collected, zipIdx_append]

include inPlace in
theorem InPlace.collected_rows : ∀ before, rows = before ++ after →
      collected hasher base changed (slots top before).length (after.flatMap Row.slots) =
        after.flatMap (Row.insertions hasher base changed) := by
  induction after with
  | nil => exact fun _ _ => rfl
  | cons row after ih =>
    intro before split
    have rest := ih (before ++ [row]) (by simp [split])
    rw [slots_append, length_append] at rest
    rw [flatMap_cons, collected_append, flatMap_cons]
    congr 1
    · cases added : row.added with
      | none => simp [collected, Row.slots, Row.insertions, added]
      | some item =>
        have behind := inPlace.predecessor_eq split (by simp [added])
        simp [collected, Row.slots, Row.insertions, added, behind]
    · simpa using rest

include inPlace in
theorem InPlace.newItems_eq
    (accounted : Accounted changed (slots top rows) (slots top rows).length handled) :
    newItems hasher ⟨base, base, changed⟩ (topLevel ⟨base, base, changed⟩) handled =
      top.toList.map (insertion changed none) ++ rows.flatMap (Row.insertions hasher base changed) := by
  have all : newItems hasher ⟨base, base, changed⟩ (topLevel ⟨base, base, changed⟩) handled =
      collected hasher base changed 0 (slots top rows) := by
    have kept : (slots top rows).zipIdx.filter (fun slot => !handled slot.2 && isNew hasher changed
          (buildNameMap base (getTopLevelItems base)) (buildHashMap hasher base (getTopLevelItems base)) slot.1.1) =
        (slots top rows).zipIdx.filter fun slot => !slot.1.2 :=
      filter_congr fun slot member => inPlace.isNew_slot accounted (mem_zipIdx_iff_getElem?.mp member)
    have indexed : (getTopLevelItems changed).zipIdx = (slots top rows).zipIdx.map (Prod.map Prod.fst id) := by
      rw [inPlace.items, zipIdx_map]
    simp only [newItems, collectNew, topLevel]
    rw [indexed, filter_map, map_map, collected, ← kept]
    rfl
  have ofTop : collected hasher base changed 0 (top.toList.map fun item => (item, false)) =
      top.toList.map (insertion changed none) := by
    cases top <;> simp [collected, predecessor]
  have ofRows := inPlace.collected_rows [] rfl
  rw [all, slots, collected_append, ofTop]
  simpa [slots] using ofRows

/-! ### Inserting the new items -/

theorem insertNew_top {entries : List Resolved} {item : Resolved} (above : item.rightPredecessorBaseIdx = none)
    (kinds : (∀ entry ∈ entries.head?, entry.kind ≠ item.kind) ∨ ∀ entry ∈ entries, entry.kind = item.kind) :
    insertNew entries [item] = item :: entries := by
  have position : insertPos entries item = 0 := by
    rw [insertPos, above]
    rcases kinds with differs | same
    · cases entries with
      | nil => rfl
      | cons entry entries => simp [findIdx?_cons, differs entry rfl]
    · have none : entries.findIdx? (fun entry => entry.kind ≠ item.kind) = none := by simpa using same
      rw [none, Option.getD_none]
  simp [insertNew, position]

theorem insertNew_append (merged first second : List Resolved) :
    insertNew merged (first ++ second) = insertNew (insertNew merged first) second := by
  simp [insertNew]

theorem insertIdx_length_append {α : Type*} (before after : List α) (item : α) :
    (before ++ after).insertIdx before.length item = before ++ item :: after := by
  induction before with
  | nil => rfl
  | cons head before ih => simp [ih]

theorem insertNew_behind {before after : List Resolved} {entry item : Resolved}
    (anchored : item.rightPredecessorBaseIdx = some index) (here : entry.baseIndex = some index)
    (first : ∀ other ∈ before, other.baseIndex ≠ some index) :
    insertNew (before ++ entry :: after) [item] = before ++ entry :: item :: after := by
  have found : (before ++ entry :: after).findIdx? (fun other => other.baseIndex = some index) = some before.length := by
    have skipped : before.findIdx? (fun other => other.baseIndex = some index) = none := by simpa using first
    simp [findIdx?_append, skipped, findIdx?_cons, here]
  have position : insertPos (before ++ entry :: after) item = (before ++ [entry]).length := by
    rw [insertPos, anchored]
    simp only [found, length_append, length_singleton]
  have placed := insertIdx_length_append (before ++ [entry]) after item
  rw [insertNew, foldl_cons, foldl_nil, position]
  simpa using placed

include inPlace in
/-- The new items behind the rows arrive where the changed side has them. -/
theorem InPlace.insertNew_rows :
    ∀ (before : List Row) (done : List Resolved), rows = before ++ after →
      (∀ entry ∈ done, entry.baseIndex = none ∨ ∃ row ∈ before, entry.baseIndex = anchor hasher base row.base) →
      insertNew (done ++ after.map (Row.entry hasher base changed)) (after.flatMap (Row.insertions hasher base changed)) =
        done ++ after.flatMap fun row => row.entry hasher base changed :: row.insertions hasher base changed := by
  induction after with
  | nil => exact fun _ _ _ _ => by simp [insertNew]
  | cons row after ih =>
    intro before done split known
    have extended : ∀ entry ∈ done ++ row.entry hasher base changed :: row.insertions hasher base changed,
        entry.baseIndex = none ∨ ∃ other ∈ before ++ [row], entry.baseIndex = anchor hasher base other.base := by
      intro entry member
      rcases mem_append.mp member with old | new
      · exact (known entry old).imp_right (Exists.imp fun other found => ⟨mem_append_left _ found.1, found.2⟩)
      · rcases mem_cons.mp new with rfl | inserted
        · exact .inr ⟨row, by simp, rfl⟩
        · obtain ⟨item, -, rfl⟩ := mem_map.mp inserted
          exact .inl rfl
    have next := ih (before ++ [row]) (done ++ row.entry hasher base changed :: row.insertions hasher base changed)
      (by simp [split]) extended
    have here : insertNew (done ++ row.entry hasher base changed :: after.map (Row.entry hasher base changed))
        (row.insertions hasher base changed) =
        done ++ row.entry hasher base changed :: row.insertions hasher base changed ++
          after.map (Row.entry hasher base changed) := by
      cases added : row.added with
      | none => simp [Row.insertions, added, insertNew]
      | some item =>
        have listed : row ∈ rows := by simp [split]
        obtain ⟨index, anchored⟩ := inPlace.anchor_isSome listed
        have firstHere : ∀ other ∈ done, other.baseIndex ≠ some index := by
          intro other member same
          rcases known other member with none | ⟨earlier, listed, ofEarlier⟩
          · simp [none] at same
          · exact inPlace.first before row after split (by simp [added]) earlier listed
              (ofEarlier.symm.trans (same.trans anchored.symm))
        have behind : insertNew (done ++ row.entry hasher base changed :: after.map (Row.entry hasher base changed))
            [insertion changed (anchor hasher base row.base) item] = _ :=
          insertNew_behind anchored anchored firstHere
        simpa [Row.insertions, added] using behind
    rw [map_cons, flatMap_cons, insertNew_append, here, flatMap_cons]
    simpa using next

include inPlace in
/-- A change of the right side in place arrives whole. -/
theorem InPlace.mergedTexts_eq :
    mergedTexts hasher diff ⟨base, base, changed⟩ = some (childTexts changed) := by
  obtain ⟨handled, folded, accounted⟩ := inPlace.reconcileAll_eq diff
  have atTop : insertNew (rows.map (Row.entry hasher base changed)) (top.toList.map (insertion changed none)) =
      top.toList.map (insertion changed none) ++ rows.map (Row.entry hasher base changed) := by
    cases isTop : top with
    | none => rfl
    | some item =>
      refine insertNew_top rfl ((inPlace.above item isTop).imp (fun differs entry first => ?_) fun same entry member => ?_)
      · rw [head?_map] at first
        obtain ⟨row, isFirst, rfl⟩ := Option.map_eq_some_iff.mp first
        exact differs row isFirst
      · obtain ⟨row, listed, rfl⟩ := mem_map.mp member
        exact same row listed
  have inRows := inPlace.insertNew_rows [] (top.toList.map (insertion changed none)) rfl (by simp [insertion])
  have reconciled : reconcileItems hasher diff ⟨base, base, changed⟩ (topLevel ⟨base, base, changed⟩) =
      some (top.toList.map (insertion changed none) ++
        rows.flatMap fun row => row.entry hasher base changed :: row.insertions hasher base changed) := by
    have new := inPlace.newItems_eq accounted
    rw [reconcileItems]
    simp only [topLevel] at folded new ⊢
    rw [folded]
    simp only [Option.bind_eq_bind, Option.bind_some, new, insertNew_append, atTop, inRows]
    rfl
  rw [mergedTexts, reconciled, childTexts, inPlace.newChildren]
  simp [slots, insertion, Row.slots, Row.entry, Row.insertions, Merged.plain, map_flatMap, Function.comp_def]

end Index.AstMerge
