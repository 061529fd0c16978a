import Index.Lib.Text

/-! # Parsed revisions

A revision is a source text with its syntax tree.  The parser is not modelled: a node carries what the
merge asks it for, its kind, byte range, whether it is an extra (a comment), and its children with their
field names.  The hasher is a parameter, a function of the texts fed to it. -/

namespace Index.AstMerge

open Index.Lib

/-- A node of a syntax tree. -/
inductive Node where
  | node (id : Nat) (kind : String) (startByte endByte : Nat) (isExtra : Bool) (children : List (Option String × Node))

namespace Node

def id : Node → Nat
  | node id .. => id

def kind : Node → String
  | node _ kind .. => kind

def startByte : Node → Nat
  | node _ _ startByte .. => startByte

def endByte : Node → Nat
  | node _ _ _ endByte .. => endByte

def isExtra : Node → Bool
  | node _ _ _ _ isExtra _ => isExtra

/-- The children with the fields they stand in. -/
def fields : Node → List (Option String × Node)
  | node _ _ _ _ _ children => children

def children (node : Node) : List Node := node.fields.map Prod.snd

def childByFieldName (node : Node) (name : String) : Option Node :=
  (node.fields.find? fun child => child.1 = some name).map Prod.snd

mutual

/-- The number of nodes on the longest path down from a node. -/
def height : Node → Nat
  | node _ _ _ _ _ children => heights children + 1

def heights : List (Option String × Node) → Nat
  | [] => 0
  | (_, child) :: children => max child.height (heights children)

end

theorem height_le_heights {fields : List (Option String × Node)} {child : Option String × Node} (member : child ∈ fields) :
    child.2.height ≤ heights fields := by
  induction fields with
  | nil => simp at member
  | cons first rest ih =>
    rcases List.mem_cons.mp member with rfl | later
    · exact Nat.le_max_left ..
    · exact (ih later).trans (Nat.le_max_right ..)

theorem height_child {parent child : Node} (member : child ∈ parent.children) : child.height < parent.height := by
  obtain ⟨field, listed, rfl⟩ := List.mem_map.mp member
  cases parent
  exact Nat.lt_succ_of_le (height_le_heights listed)

theorem height_childByFieldName {parent child : Node} {name : String} (found : parent.childByFieldName name = some child) :
    child.height < parent.height := by
  obtain ⟨field, listed, rfl⟩ := Option.map_eq_some_iff.mp found
  exact height_child (List.mem_map_of_mem (List.mem_of_find?_eq_some listed))

end Node

/-- A source text and the root of its tree. -/
structure Tree where
  source : String
  rootNode : Node

/-- The text of a node, empty if its range does not cut the source. -/
def Tree.nodeText (tree : Tree) (node : Node) : String := (slice tree.source node.startByte node.endByte).getD ""

/-! ## Hashes -/

/-- `FxHasher`: the hash of the texts written to it in turn. -/
abbrev Hasher := List String → Nat

mutual

/-- What hashing a node writes: the kinds of its nodes, and the texts of the leaves. -/
def Tree.hashed (tree : Tree) : Node → List String
  | .node id kind startByte endByte isExtra children =>
    kind ::
      match children with
      | [] => [tree.nodeText (.node id kind startByte endByte isExtra [])]
      | child :: children => tree.hashedAll (child :: children)

def Tree.hashedAll (tree : Tree) : List (Option String × Node) → List String
  | [] => []
  | (_, child) :: children => tree.hashed child ++ tree.hashedAll children

end

def Tree.compute (hasher : Hasher) (tree : Tree) (node : Node) : Nat := hasher (tree.hashed node)

inductive Revision where
  | base
  | left
  | right
deriving DecidableEq

/-- The trees of the three revisions. -/
structure ThreeWayTrees where
  base : Tree
  left : Tree
  right : Tree

/-- One node of each revision. -/
structure ThreeWayNodes where
  base : Node
  left : Node
  right : Node

end Index.AstMerge
