import Index.AstMerge.Items

/-! # The structural merge

The items of a file are reconciled in the order of the left side, and the items that only the right side has
are put behind the item they follow there.  Before that, the engine compares the positions of all nodes, as
triples of parent, predecessor and node, and leaves the file to the line merge if the sides disagree there. -/

namespace Index.AstMerge

open Index.Lib Function

/-- An item of the merged file. -/
structure Resolved where
  merged : Merged
  kind : String
  baseIndex : Option Nat
  rightPredecessorBaseIdx : Option Nat
deriving DecidableEq

/-- The items merged so far, and the right ones accounted for. -/
structure ItemState where
  handledRight : IndexSet
  mergedItems : List Resolved

def ItemState.push (state : ItemState) (item : Resolved) : ItemState :=
  { state with mergedItems := state.mergedItems ++ [item] }

def ItemState.handle (state : ItemState) (index : Nat) : ItemState :=
  { state with handledRight := state.handledRight.insert index }

def buildRightToBaseMap (hasher : Hasher) (tree : Tree) (rightItems : List Node) (baseByName : String → Option IndexedNode)
    (baseHashes : Nat → Option Nat) (rightIdx : Nat) : Option Nat :=
  rightItems[rightIdx]?.bind fun rightItem =>
    match getName tree rightItem with
    | none => baseHashes (tree.compute hasher rightItem)
    | some name => (baseByName name).map IndexedNode.index

section

variable (hasher : Hasher) (diff : Diff) (trees : ThreeWayTrees)

/-! ## The items of the left side -/

def reconcileNamed (base right : String → Option IndexedNode) (name : String) (leftItem : Node) (state : ItemState) :
    Option ItemState :=
  let leftText := Merged.plain (trees.left.nodeText leftItem)
  match base name, right name with
  | some baseEntry, some rightEntry =>
    (reconcileSingle hasher diff trees ⟨baseEntry.node, leftItem, rightEntry.node⟩).map fun merged =>
      (state.handle rightEntry.index).push ⟨merged, leftItem.kind, some baseEntry.index, none⟩
  | some baseEntry, none => some (state.push ⟨leftText, leftItem.kind, some baseEntry.index, none⟩)
  | none, some rightEntry => some ((state.handle rightEntry.index).push ⟨leftText, leftItem.kind, none, none⟩)
  | none, none => some (state.push ⟨leftText, leftItem.kind, none, none⟩)

/-- The first unnamed right item of a kind that is not accounted for. -/
def findCandidate (rightItems : List Node) (handledRight : IndexSet) (kind : String) : Option (Node × Nat) :=
  rightItems.zipIdx.find? fun right =>
    !handledRight right.2 && right.1.kind = kind && (getName trees.right right.1).isNone

def reconcileUnnamed (rightItems : List Node) (baseHashes : Nat → Option Nat) (leftItem : Node) (state : ItemState) :
    ItemState :=
  let leftText := Merged.plain (trees.left.nodeText leftItem)
  let leftHash := trees.left.compute hasher leftItem
  match findRight hasher trees rightItems state.handledRight leftHash with
  | some (_, rightIdx) => (state.handle rightIdx).push ⟨leftText, leftItem.kind, baseHashes leftHash, none⟩
  | none =>
    match baseHashes leftHash with
    | none => state.push ⟨leftText, leftItem.kind, none, none⟩
    | some baseIdx =>
      match findCandidate trees rightItems state.handledRight leftItem.kind with
      | none => state.push ⟨leftText, leftItem.kind, some baseIdx, none⟩
      | some (rightItem, rightIdx) =>
        -- a candidate that the base has too is not what became of this item
        if (baseHashes (trees.right.compute hasher rightItem)).isSome then
          state.push ⟨leftText, leftItem.kind, some baseIdx, none⟩
        else
          (state.handle rightIdx).push ⟨.plain (trees.right.nodeText rightItem), leftItem.kind, some baseIdx, none⟩

def reconcileItem (base right : String → Option IndexedNode) (baseHashes : Nat → Option Nat) (rightItems : List Node)
    (state : ItemState) (leftItem : Node) : Option ItemState :=
  match getName trees.left leftItem with
  | some name => reconcileNamed hasher diff trees base right name leftItem state
  | none => some (reconcileUnnamed hasher trees rightItems baseHashes leftItem state)

def reconcileAll (base right : String → Option IndexedNode) (baseHashes : Nat → Option Nat)
    (leftItems rightItems : List Node) : Option ItemState :=
  leftItems.foldlM (reconcileItem hasher diff trees base right baseHashes rightItems) ⟨fun _ => false, []⟩

/-! ## The items only the right side has -/

def collectNew (rightItems : List Node) (handledRight : IndexSet) (base : String → Option IndexedNode)
    (baseHashes : Nat → Option Nat) (rightToBase : Nat → Option Nat) : List Resolved :=
  (rightItems.zipIdx.filter fun right =>
    !handledRight right.2 && isNew hasher trees.right base baseHashes right.1).map fun right =>
      ⟨.plain (trees.right.nodeText right.1), right.1.kind, none, (List.range right.2).reverse.findSome? rightToBase⟩

def insertPos (mergedItems : List Resolved) (newItem : Resolved) : Nat :=
  match newItem.rightPredecessorBaseIdx with
  | none => (mergedItems.findIdx? fun item => item.kind ≠ newItem.kind).getD 0
  | some predecessor =>
    match mergedItems.findIdx? fun item => item.baseIndex = some predecessor with
    | none => mergedItems.length
    | some index => index + 1

def insertNew (mergedItems newRightItems : List Resolved) : List Resolved :=
  newRightItems.foldl (fun merged newItem => merged.insertIdx (insertPos merged newItem) newItem) mergedItems

/-- What `reconcile_lists` collects of the right side. -/
def newItems (items : ThreeWayItems) (handledRight : IndexSet) : List Resolved :=
  let baseByName := buildNameMap trees.base items.base
  let baseHashes := buildHashMap hasher trees.base items.base
  collectNew hasher trees items.right handledRight baseByName baseHashes
    (buildRightToBaseMap hasher trees.right items.right baseByName baseHashes)

/-- The merged items of `reconcile_lists`. -/
def reconcileItems (items : ThreeWayItems) : Option (List Resolved) := do
  let state ← reconcileAll hasher diff trees (buildNameMap trees.base items.base) (buildNameMap trees.right items.right)
    (buildHashMap hasher trees.base items.base) items.left items.right
  return insertNew state.mergedItems (newItems hasher trees items state.handledRight)

def reconcileLists (items : ThreeWayItems) : Option Merged :=
  (reconcileItems hasher diff trees items).map fun merged =>
    ⟨String.join (merged.map fun item => item.merged.text ++ "\n"), merged.any fun item => item.merged.marked⟩

def getTopLevelItems (tree : Tree) : List Node := tree.rootNode.children.filter fun child => !child.isExtra

def topLevel : ThreeWayItems :=
  ⟨getTopLevelItems trees.base, getTopLevelItems trees.left, getTopLevelItems trees.right⟩

def reconstructMerged : Option Merged := reconcileLists hasher diff trees (topLevel trees)

end

/-! ## Classes of matched nodes -/

structure RevisionNode where
  revision : Revision
  nodeId : Nat
deriving DecidableEq

/-- `Class`: the classes of matched nodes, and the node each has in a revision. -/
structure ClassMapping where
  nodeClasses : RevisionNode → Option Nat
  members : Nat → Option (Revision → Option Nat)
  next : Nat

namespace ClassMapping

def new : ClassMapping := ⟨fun _ => none, fun _ => none, 0⟩

def addToClass (mapping : ClassMapping) (classId : Nat) (node : RevisionNode) : ClassMapping :=
  { mapping with
    nodeClasses := update mapping.nodeClasses node (some classId)
    members := update mapping.members classId
      (some (update ((mapping.members classId).getD fun _ => none) node.revision (some node.nodeId))) }

/-- Moves the members of the second class; they have different revisions, so their order is of no account. -/
def unifyClasses (mapping : ClassMapping) (classA classB : Nat) : ClassMapping :=
  match mapping.members classB with
  | none => mapping
  | some membersB =>
    [Revision.base, .left, .right].foldl (fun mapping revision =>
      match membersB revision with
      | none => mapping
      | some nodeId => mapping.addToClass classA ⟨revision, nodeId⟩)
      { mapping with members := update mapping.members classB none }

def createClassWithBoth (mapping : ClassMapping) (a b : RevisionNode) : ClassMapping :=
  { nodeClasses := update (update mapping.nodeClasses a (some mapping.next)) b (some mapping.next)
    members := update mapping.members mapping.next
      (some (update (update (fun _ => none) a.revision (some a.nodeId)) b.revision (some b.nodeId)))
    next := mapping.next + 1 }

def merge (mapping : ClassMapping) (a b : RevisionNode) : ClassMapping :=
  match mapping.nodeClasses a, mapping.nodeClasses b with
  | some classA, some classB => if classA = classB then mapping else mapping.unifyClasses classA classB
  | some classA, none => mapping.addToClass classA b
  | none, some classB => mapping.addToClass classB a
  | none, none => mapping.createClassWithBoth a b

end ClassMapping

/-- A matching of the nodes of two trees, as the pairs come out of its map. -/
abbrev Matching := List (Nat × Nat)

def mergeMatching (mapping : ClassMapping) (matching : Matching) (target : Revision) : ClassMapping :=
  matching.foldl (fun mapping pair => mapping.merge ⟨.base, pair.1⟩ ⟨target, pair.2⟩) mapping

def buildClassMapping (baseLeft baseRight : Matching) : ClassMapping :=
  mergeMatching (mergeMatching .new baseLeft .left) baseRight .right

/-! ## Positions -/

structure PcsTriple where
  parent : Option Nat
  predecessor : Option Nat
  successor : Nat
deriving DecidableEq

mutual

/-- The nodes of a tree in preorder, each with its parent. -/
def collectNodes (parent : Option Node) : Node → List (Node × Option Node)
  | .node id kind startByte endByte isExtra children =>
    let node := Node.node id kind startByte endByte isExtra children
    (node, parent) :: collectAll node children

def collectAll (parent : Node) : List (Option String × Node) → List (Node × Option Node)
  | [] => []
  | (_, child) :: children => collectNodes (some parent) child ++ collectAll parent children

end

/-- The number of a node in preorder. -/
def position (nodes : List (Node × Option Node)) (node : Node) : Option Nat :=
  nodes.findIdx? fun other => other.1.id = node.id

def findPredecessor (nodes : List (Node × Option Node)) (parent node : Node) : Option Nat :=
  match parent.children.findIdx? fun sibling => sibling.id = node.id with
  | none => none
  | some 0 => none
  | some (before + 1) => parent.children[before]?.bind (position nodes)

def pcsTriples (tree : Tree) : List PcsTriple :=
  let nodes := collectNodes none tree.rootNode
  nodes.zipIdx.map fun entry =>
    ⟨entry.1.2.bind (position nodes), entry.1.2.bind fun parent => findPredecessor nodes parent entry.1.1, entry.2⟩

/-- The triples with the revisions that have them, in the order they were added. -/
abbrev ChangeSet := List (PcsTriple × List Revision)

/-- `entry(triple).or_default().insert(revision)` -/
def ChangeSet.add (revision : Revision) (changeset : ChangeSet) (triple : PcsTriple) : ChangeSet :=
  if changeset.any fun entry => entry.1 = triple then
    changeset.map fun entry => if entry.1 = triple then (entry.1, revision :: entry.2) else entry
  else changeset ++ [(triple, [revision])]

def extractPcsTriples (tree : Tree) (revision : Revision) (changeset : ChangeSet) : ChangeSet :=
  (pcsTriples tree).foldl (ChangeSet.add revision) changeset

def buildChangeset (trees : ThreeWayTrees) : ChangeSet :=
  extractPcsTriples trees.right .right (extractPcsTriples trees.left .left (extractPcsTriples trees.base .base []))

/-! ## Structural conflicts -/

/-- A triple of one side that the base does not have. -/
def isOnly (revision : Revision) (entry : PcsTriple × List Revision) : Bool :=
  entry.2.contains revision && !entry.2.contains .base

def isConvergent (classes : ClassMapping) (left right : PcsTriple) : Bool :=
  match classes.nodeClasses ⟨.left, left.successor⟩, classes.nodeClasses ⟨.right, right.successor⟩ with
  | some left, some right => left = right
  | _, _ => false

def isConflict (classes : ClassMapping) (a b : PcsTriple × List Revision) : Bool :=
  a.1.successor ≠ b.1.successor &&
  (isOnly .left a && isOnly .right b || isOnly .right a && isOnly .left b) &&
  !(isConvergent classes a.1 b.1 || isConvergent classes b.1 a.1)

/-- Whether two entries of a list, the one before the other, conflict. -/
def anyConflict (classes : ClassMapping) : ChangeSet → Bool
  | [] => false
  | entry :: entries => entries.any (isConflict classes entry) || anyConflict classes entries

/-- The entries at one parent and predecessor. -/
def byPosition (changeset : ChangeSet) (place : PcsTriple) : ChangeSet :=
  changeset.filter fun entry => entry.1.parent = place.parent && entry.1.predecessor = place.predecessor

def detectConflicts (changeset : ChangeSet) (classes : ClassMapping) : List Conflict :=
  if changeset.any fun entry => anyConflict classes (byPosition changeset entry.1) then
    [⟨none, ⟨0, 0, ""⟩, ⟨0, 0, ""⟩⟩]
  else []

/-! ## The merge -/

/-- The result of a merge, and whether a conflict block of some node went into it. -/
structure MergeOutcome where
  result : Result
  marked : Bool
deriving DecidableEq

/-- `ThreeWay::merge` -/
def merge (hasher : Hasher) (diff : Diff) (trees : ThreeWayTrees) (baseLeft baseRight : Matching) : Option MergeOutcome :=
  if detectConflicts (buildChangeset trees) (buildClassMapping baseLeft baseRight) = [] then
    (reconstructMerged hasher diff trees).map fun merged => ⟨.successful merged.text, merged.marked⟩
  else
    (based diff trees.base.source trees.left.source trees.right.source).map fun result => ⟨result, false⟩

end Index.AstMerge
