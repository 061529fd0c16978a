import Index.AstMerge.Lines
import Index.AstMerge.Tree

/-! # Reconciling items

The text of a structural merge is rebuilt item by item: items of the three revisions are paired by name,
or by hash when they have none, and a pair changed on both sides is merged through its body, or written as a
conflict block.  Every text comes with a mark that tells whether a conflict block was written into it; the
program itself keeps only the text.  `none` stands for a panic. -/

namespace Index.AstMerge

open Index.Lib List

/-- A merged text, and whether it holds the conflict block of some node. -/
structure Merged where
  text : String
  marked : Bool
deriving DecidableEq

def Merged.plain (text : String) : Merged := ⟨text, false⟩

/-- A node with its index in a list of children. -/
structure IndexedNode where
  index : Nat
  node : Node

/-- The kinds whose `name` field names them. -/
def namedKinds : List String :=
  ["function_item", "struct_item", "enum_item", "trait_item", "type_item", "const_item", "static_item", "mod_item",
    "field_declaration", "function_signature_item"]

def getName (tree : Tree) (node : Node) : Option String :=
  if node.kind ∈ namedKinds then (node.childByFieldName "name").map tree.nodeText
  else if node.kind = "impl_item" then (node.childByFieldName "type").map tree.nodeText
  else if node.kind = "use_declaration" then some (tree.nodeText node)
  else none

/-- The items by name; of items with one name the last is found. -/
def buildNameMap (tree : Tree) (items : List Node) : String → Option IndexedNode :=
  collectMap (items.zipIdx.filterMap fun item => (getName tree item.1).map fun name => (name, ⟨item.2, item.1⟩))

/-- The indices of the items by hash; of items with one hash the last is found. -/
def buildHashMap (hasher : Hasher) (tree : Tree) (items : List Node) : Nat → Option Nat :=
  collectMap (items.zipIdx.map fun item => (tree.compute hasher item.1, item.2))

section Maps

variable {hasher : Hasher} {tree : Tree} {items : List Node} {name : String} {entry : IndexedNode} {item : Node}
  {hash index : Nat}

theorem mem_of_buildNameMap (found : buildNameMap tree items name = some entry) :
    items[entry.index]? = some entry.node ∧ getName tree entry.node = some name := by
  obtain ⟨⟨node, index⟩, listed, mapped⟩ := mem_filterMap.mp (mem_of_collectMap found)
  obtain ⟨own, named, same⟩ := Option.map_eq_some_iff.mp mapped
  obtain ⟨rfl, rfl⟩ := Prod.mk.injEq .. ▸ same
  exact ⟨mem_zipIdx_iff_getElem?.mp listed, named⟩

theorem exists_buildNameMap (member : item ∈ items) (named : getName tree item = some name) :
    ∃ entry, buildNameMap tree items name = some entry := by
  obtain ⟨index, found⟩ := mem_iff_getElem?.mp member
  exact exists_collectMap (mem_filterMap.mpr
    ⟨(item, index), mem_zipIdx_iff_getElem?.mpr found, by simp [named]; rfl⟩)

theorem mem_of_buildHashMap (found : buildHashMap hasher tree items hash = some index) :
    ∃ item, items[index]? = some item ∧ tree.compute hasher item = hash := by
  obtain ⟨⟨node, own⟩, listed, same⟩ := mem_map.mp (mem_of_collectMap found)
  obtain ⟨rfl, rfl⟩ := Prod.mk.injEq .. ▸ same
  exact ⟨node, mem_zipIdx_iff_getElem?.mp listed, rfl⟩

theorem exists_buildHashMap (member : item ∈ items) :
    ∃ index, buildHashMap hasher tree items (tree.compute hasher item) = some index := by
  obtain ⟨index, found⟩ := mem_iff_getElem?.mp member
  exact exists_collectMap (mem_map.mpr ⟨(item, index), mem_zipIdx_iff_getElem?.mpr found, rfl⟩)

theorem buildNameMap_eq_none (absent : ∀ item ∈ items, getName tree item ≠ some name) : buildNameMap tree items name = none := by
  refine Option.eq_none_iff_forall_ne_some.mpr fun entry found => ?_
  obtain ⟨listed, named⟩ := mem_of_buildNameMap found
  exact absent entry.node (mem_of_getElem? listed) named

theorem buildHashMap_eq_none (absent : ∀ item ∈ items, tree.compute hasher item ≠ hash) : buildHashMap hasher tree items hash = none := by
  refine Option.eq_none_iff_forall_ne_some.mpr fun index found => ?_
  obtain ⟨item, listed, same⟩ := mem_of_buildHashMap found
  exact absent item (mem_of_getElem? listed) same

end Maps

/-- A set of indices: `FxHashSet<usize>`. -/
abbrev IndexSet := Nat → Bool

def IndexSet.insert (set : IndexSet) (index : Nat) : IndexSet := Function.update set index true

/-- The conflict block of a node. -/
def conflictText (left base right : String) : String :=
  "<<<<<<< LEFT\n" ++ left ++ "\n||||||| BASE\n" ++ base ++ "\n=======\n" ++ right ++ "\n>>>>>>> RIGHT"

/-- Three lists of nodes, one of each revision. -/
structure ThreeWayItems where
  base : List Node
  left : List Node
  right : List Node

/-- Whether an item of the right side is neither named like nor equal to one of the base. -/
def isNew (hasher : Hasher) (tree : Tree) (baseByName : String → Option IndexedNode) (baseHashes : Nat → Option Nat)
    (node : Node) : Bool :=
  match getName tree node with
  | none => (baseHashes (tree.compute hasher node)).isNone
  | some name => (baseByName name).isNone

/-! ## Function bodies -/

def stripBraces (text : String) : String :=
  let text := trim text
  match text.toList with
  | '\x7b' :: rest =>
    if rest.getLast? = some '\x7d' then trimMatches (fun char => char = '\n') (String.ofList rest.dropLast) else text
  | _ => text

/-- The text of a node before and after its body. -/
def aroundBody (tree : Tree) (node body : Node) : Option (String × String) := do
  let text := tree.nodeText node
  let bodyStart ← checkedSub body.startByte node.startByte
  let bodyEnd ← checkedSub body.endByte node.startByte
  let (before, _) ← cut text bodyStart
  let (_, after) ← cut text bodyEnd
  return (before, after)

/-- The `body` fields of three nodes. -/
def ThreeWayNodes.bodies (nodes : ThreeWayNodes) : Option ThreeWayNodes := do
  let base ← nodes.base.childByFieldName "body"
  let left ← nodes.left.childByFieldName "body"
  let right ← nodes.right.childByFieldName "body"
  return ⟨base, left, right⟩

section

variable (hasher : Hasher) (diff : Diff) (trees : ThreeWayTrees)

/-- The line merge of three bodies. -/
def mergeBodies (bodies : ThreeWayNodes) : Outcome :=
  inner diff (stripBraces (trees.base.nodeText bodies.base)) (stripBraces (trees.left.nodeText bodies.left))
    (stripBraces (trees.right.nodeText bodies.right))

/-- Merges the bodies of three functions line by line; `some none` when that is no merge. -/
def tryReconcileFunction (nodes : ThreeWayNodes) : Option (Option String) :=
  match nodes.bodies with
  | none => some none
  | some bodies =>
    let merged := mergeBodies diff trees bodies
    if merged.hasConflict then some none
    else do
      let (before, after) ← aroundBody trees.left nodes.left bodies.left
      -- the merged body ends with a newline
      let ending := if merged.content.toList.getLast? = some '\n' then "" else "\n"
      return some (before ++ "\x7b\n" ++ merged.content ++ ending ++ "\x7d" ++ after)

/-! ## Children of a body -/

def punctuation : List String := ["\x7b", "\x7d", "(", ")", "[", "]", ",", ";", "<", ">"]

def getMeaningful (node : Node) : List Node :=
  node.children.filter fun child => !child.isExtra && !punctuation.contains child.kind

/-- How a nested pair of nodes is reconciled. -/
abbrev Single := ThreeWayNodes → Option Merged

/-- The children merged so far, and the right ones accounted for. -/
structure ChildState where
  handledRight : IndexSet
  mergedChildren : List Merged

def ChildState.push (state : ChildState) (merged : Merged) : ChildState :=
  { state with mergedChildren := state.mergedChildren ++ [merged] }

def reconcileNamedChild (single : Single) (base right : String → Option IndexedNode) (name : String) (leftChild : Node)
    (state : ChildState) : Option ChildState :=
  match base name, right name with
  | some baseEntry, some rightEntry =>
    let state := { state with handledRight := state.handledRight.insert rightEntry.index }
    let leftHash := trees.left.compute hasher leftChild
    let baseHash := trees.base.compute hasher baseEntry.node
    let rightHash := trees.right.compute hasher rightEntry.node
    if leftHash = rightHash then some (state.push (.plain (trees.left.nodeText leftChild)))
    else if leftHash = baseHash then some (state.push (.plain (trees.right.nodeText rightEntry.node)))
    else if rightHash = baseHash then some (state.push (.plain (trees.left.nodeText leftChild)))
    else (single ⟨baseEntry.node, leftChild, rightEntry.node⟩).map state.push
  | _, some rightEntry =>
    some ({ state with handledRight := state.handledRight.insert rightEntry.index }.push
      (.plain (trees.left.nodeText leftChild)))
  | _, none => some (state.push (.plain (trees.left.nodeText leftChild)))

/-- The first right item not accounted for that has the hash of a left one. -/
def findRight (rightItems : List Node) (handledRight : IndexSet) (leftHash : Nat) : Option (Node × Nat) :=
  rightItems.zipIdx.find? fun right => !handledRight right.2 && trees.right.compute hasher right.1 = leftHash

def reconcileUnnamedChild (rightChildren : List Node) (leftChild : Node) (state : ChildState) : ChildState :=
  let handledRight := match findRight hasher trees rightChildren state.handledRight (trees.left.compute hasher leftChild) with
    | some (_, rightIdx) => state.handledRight.insert rightIdx
    | none => state.handledRight
  { state with handledRight }.push (.plain (trees.left.nodeText leftChild))

def reconcileChild (single : Single) (base right : String → Option IndexedNode) (rightChildren : List Node)
    (state : ChildState) (leftChild : Node) : Option ChildState :=
  match getName trees.left leftChild with
  | some name => reconcileNamedChild hasher trees single base right name leftChild state
  | none => some (reconcileUnnamedChild hasher trees rightChildren leftChild state)

def collectNewRight (rightChildren : List Node) (handledRight : IndexSet) (base : String → Option IndexedNode)
    (baseHashes : Nat → Option Nat) : List Merged :=
  (rightChildren.zipIdx.filter fun right =>
    !handledRight right.2 && isNew hasher trees.right base baseHashes right.1).map
      fun right => .plain (trees.right.nodeText right.1)

def reconcileChildren (single : Single) (children : ThreeWayItems) : Option (List Merged) := do
  let baseNames := buildNameMap trees.base children.base
  let rightNames := buildNameMap trees.right children.right
  let baseHashes := buildHashMap hasher trees.base children.base
  let state ← children.left.foldlM (reconcileChild hasher trees single baseNames rightNames children.right)
    ⟨fun _ => false, []⟩
  return state.mergedChildren ++ collectNewRight hasher trees children.right state.handledRight baseNames baseHashes

/-- A child as a line of the rebuilt body. -/
def childLine (commas : Bool) (child : String) : String :=
  "    " ++ trim child ++ (if commas && !((trim child).toList.getLast? = some ',') then "," else "") ++ "\n"

/-- What a body opens and closes with. -/
def delimiters (tree : Tree) (body : Node) : String × String :=
  if (tree.nodeText body).toList.head? = some '\x7b' then ("\x7b", "\x7d") else ("(", ")")

def needsCommas (node : Node) : Bool := node.kind = "struct_item" || node.kind = "enum_item"

def reconstructBody (leftNode leftBody baseNode : Node) (mergedChildren : List Merged) : Option Merged := do
  let (before, after) ← aroundBody trees.left leftNode leftBody
  let (opening, closing) := delimiters trees.left leftBody
  let body := String.join (mergedChildren.map fun child => childLine (needsCommas baseNode) child.text)
  return ⟨before ++ opening ++ "\n" ++ body ++ closing ++ after, mergedChildren.any Merged.marked⟩

def containerKinds : List String := ["struct_item", "impl_item", "enum_item", "trait_item"]

/-- Merges the bodies of three containers child by child; `some none` when one has no body. -/
def tryReconcile (single : Single) (nodes : ThreeWayNodes) : Option (Option Merged) :=
  match nodes.bodies with
  | none => some none
  | some bodies => do
    let merged ← reconcileChildren hasher trees single
      ⟨getMeaningful bodies.base, getMeaningful bodies.left, getMeaningful bodies.right⟩
    let text ← reconstructBody trees nodes.left bodies.left nodes.base merged
    return some text

/-! ## One item -/

/-- The merge through the bodies of the nodes, if their kind has one. -/
def tryBodies (single : Single) (nodes : ThreeWayNodes) : Option (Option Merged) :=
  if nodes.base.kind ∈ containerKinds then tryReconcile hasher trees single nodes
  else if nodes.base.kind = "function_item" then
    (tryReconcileFunction diff trees nodes).map fun merged => merged.map Merged.plain
  else some none

/-- `reconcile_single` with the function it calls for nested nodes. -/
def reconcileSingleWith (single : Single) (nodes : ThreeWayNodes) : Option Merged :=
  let baseHash := trees.base.compute hasher nodes.base
  let leftHash := trees.left.compute hasher nodes.left
  let rightHash := trees.right.compute hasher nodes.right
  if leftHash = rightHash then some (.plain (trees.left.nodeText nodes.left))
  else if leftHash = baseHash then some (.plain (trees.right.nodeText nodes.right))
  else if rightHash = baseHash then some (.plain (trees.left.nodeText nodes.left))
  else
    match tryBodies hasher diff trees single nodes with
    | none => none
    | some (some merged) => some merged
    | some none =>
      some ⟨conflictText (trees.left.nodeText nodes.left) (trees.base.nodeText nodes.base)
        (trees.right.nodeText nodes.right), true⟩

/-- `reconcile_single` down to a depth. -/
def reconcileUpTo : Nat → Single
  | 0, _ => none
  | depth + 1, nodes => reconcileSingleWith hasher diff trees (reconcileUpTo depth) nodes

/-- Each nested call goes down in the base tree, whose height bounds the recursion. -/
def reconcileSingle : Single := fun nodes => reconcileUpTo hasher diff trees nodes.base.height nodes

end

end Index.AstMerge
