import Mathlib.Data.List.TakeWhile
import Index.Langs
import Index.Lib.Rust

/-! # The corpus

Parsed source files with a flat node table: the nodes of the syntax tree in preorder, each with the
index of its parent.  Tree-sitter stays outside of the model: a file comes with its syntax tree, whose
byte ranges are slices of the text. -/

namespace Index.Astlog

open Index.Lib Index.Langs List

/-! ## Syntax trees and cursors -/

/-- What the evaluator reads of a tree-sitter node. -/
inductive SyntaxTree where
  | node (id : Nat) (kind : String) (start stop : Nat) (named : Bool) (children : List SyntaxTree)

namespace SyntaxTree

def id : SyntaxTree → Nat
  | .node id .. => id

def kind : SyntaxTree → String
  | .node _ kind .. => kind

def start : SyntaxTree → Nat
  | .node _ _ start .. => start

def stop : SyntaxTree → Nat
  | .node _ _ _ stop .. => stop

def named : SyntaxTree → Bool
  | .node _ _ _ _ named _ => named

def children : SyntaxTree → List SyntaxTree
  | .node _ _ _ _ _ children => children

mutual

/-- The nodes of a tree in preorder. -/
def preorder : SyntaxTree → List SyntaxTree
  | .node id kind start stop named children => .node id kind start stop named children :: preorderAll children

def preorderAll : List SyntaxTree → List SyntaxTree
  | [] => []
  | tree :: trees => preorder tree ++ preorderAll trees

end

end SyntaxTree

/-- A tree-sitter cursor: a node, its later siblings and the same for the nodes around it. -/
structure Cursor where
  focus : SyntaxTree
  siblings : List SyntaxTree
  above : List (SyntaxTree × List SyntaxTree)

def Cursor.gotoFirstChild (cursor : Cursor) : Option Cursor :=
  match cursor.focus.children with
  | [] => none
  | child :: others => some ⟨child, others, (cursor.focus, cursor.siblings) :: cursor.above⟩

/-! ## The node table -/

structure NodeInfo where
  kind : String
  start : Nat
  stop : Nat
  parent : Option Nat
  named : Bool
deriving DecidableEq

/-- The nodes in preorder, with the index of each node id. -/
structure NodeTable where
  nodes : List NodeInfo
  byId : BTreeMap Nat Nat

def NodeTable.push (table : NodeTable) (parent : Option Nat) (node : SyntaxTree) : NodeTable where
  nodes := table.nodes ++ [⟨node.kind, node.start, node.stop, parent, node.named⟩]
  byId := table.byId.insert node.id table.nodes.length

/-- The inner loop: up to the first node with a later sibling, leaving one parent per step.  The
innermost parent stands first. -/
def climb : List SyntaxTree → List (SyntaxTree × List SyntaxTree) → List Nat → Option (Cursor × List Nat)
  | sibling :: siblings, above, parents => some (⟨sibling, siblings, above⟩, parents)
  | [], [], _ => none
  | [], (_, siblings) :: above, parents => climb siblings above parents.tail

/-- The outer loop, which visits one node per iteration. -/
def walk : Nat → Cursor → List Nat → NodeTable → Option NodeTable
  | 0, _, _, _ => none
  | fuel + 1, cursor, parents, table =>
    let visited := table.push parents.head? cursor.focus
    match cursor.gotoFirstChild with
    | some child => walk fuel child (table.nodes.length :: parents) visited
    | none =>
      match climb cursor.siblings cursor.above parents with
      | some (next, outer) => walk fuel next outer visited
      | none => some visited

/-- The loop ends once every node has been visited, so the default is never used. -/
def buildNodeTable (tree : SyntaxTree) : NodeTable :=
  (walk tree.preorder.length ⟨tree, [], []⟩ [] ⟨[], ∅⟩).getD ⟨[], ∅⟩

/-! ## Files -/

def lineStartsFrom (offset : Nat) : List Char → List Nat
  | [] => []
  | char :: chars =>
    let next := offset + char.utf8Size
    if char = '\n' then next :: lineStartsFrom next chars else lineStartsFrom next chars

def buildLineStarts (text : String) : List Nat := 0 :: lineStartsFrom 0 text.toList

/-- A loaded file.  The table and the line starts are those of its tree and text, and every node is
a slice of the text. -/
structure SourceFile where
  path : String
  lang : Lang
  text : String
  tree : SyntaxTree
  cuts : ∀ node ∈ tree.preorder, (slice text node.start node.stop).isSome

namespace SourceFile

def nodes (file : SourceFile) : List NodeInfo := (buildNodeTable file.tree).nodes

def nodeIndex (file : SourceFile) (id : Nat) : Option Nat := (buildNodeTable file.tree).byId[id]?

def lineStarts (file : SourceFile) : List Nat := buildLineStarts file.text

end SourceFile

structure NodeRef where
  file : Nat
  node : Nat
deriving DecidableEq

/-- A value of a relation row: a syntax node or derived text. -/
inductive Value where
  | node (ref : NodeRef)
  | text (text : String)
deriving DecidableEq

structure LineCol where
  line : Nat
  column : Nat
deriving DecidableEq

structure Corpus where
  files : List SourceFile

namespace Corpus

variable (corpus : Corpus)

def nodeInfo (ref : NodeRef) : Option NodeInfo := do
  let file ← corpus.files[ref.file]?
  file.nodes[ref.node]?

def nodeText (ref : NodeRef) : Option String := do
  let file ← corpus.files[ref.file]?
  let info ← file.nodes[ref.node]?
  slice file.text info.start info.stop

def valueText : Value → Option String
  | .node ref => corpus.nodeText ref
  | .text text => some text

/-- The 1-based line and column of a byte; `partition_point` counts the line starts up to it. -/
def position (file byte : Nat) : Option LineCol := do
  let source ← corpus.files[file]?
  let line := (source.lineStarts.takeWhile (· ≤ byte)).length
  let start ← if line = 0 then none else source.lineStarts[line - 1]?
  if byte < start then none else some { line, column := byte - start + 1 }

end Corpus

/-! ## The table of a tree -/

mutual

/-- The entries of a subtree, pushed onto a table. -/
def enter (parent : Option Nat) (table : NodeTable) : SyntaxTree → NodeTable
  | .node id kind start stop named children =>
    enterAll (some table.nodes.length) (table.push parent (.node id kind start stop named children)) children

def enterAll (parent : Option Nat) (table : NodeTable) : List SyntaxTree → NodeTable
  | [] => table
  | tree :: trees => enterAll parent (enter parent table tree) trees

end

/-- What the loop does after the last node of a subtree. -/
def resume (fuel : Nat) (siblings : List SyntaxTree) (above : List (SyntaxTree × List SyntaxTree)) (parents : List Nat)
    (table : NodeTable) : Option NodeTable :=
  match climb siblings above parents with
  | some (next, outer) => walk fuel next outer table
  | none => some table

mutual

/-- The loop enters a whole subtree, one iteration per node, and goes on after it. -/
theorem walk_enter (fuel : Nat) (siblings : List SyntaxTree) (above : List (SyntaxTree × List SyntaxTree))
    (parents : List Nat) (table : NodeTable) : ∀ tree : SyntaxTree,
    walk (tree.preorder.length + fuel) ⟨tree, siblings, above⟩ parents table =
      resume fuel siblings above parents (enter parents.head? table tree)
  | .node id kind start stop named children => by
    rw [enter, ← resume_enterAll fuel siblings above parents table.nodes.length _
      (.node id kind start stop named children) children, SyntaxTree.preorder, length_cons, Nat.add_right_comm, walk]
    cases children with
    | nil => simp [Cursor.gotoFirstChild, SyntaxTree.children, SyntaxTree.preorderAll, resume, climb]
    | cons child children => rfl

theorem resume_enterAll (fuel : Nat) (siblings : List SyntaxTree) (above : List (SyntaxTree × List SyntaxTree))
    (parents : List Nat) (index : Nat) (table : NodeTable) (parent : SyntaxTree) : ∀ trees : List SyntaxTree,
    resume ((SyntaxTree.preorderAll trees).length + fuel) trees ((parent, siblings) :: above) (index :: parents) table =
      resume fuel siblings above parents (enterAll (some index) table trees)
  | [] => by
    rw [SyntaxTree.preorderAll, length_nil, Nat.zero_add]
    rfl
  | tree :: trees => by
    rw [enterAll, ← resume_enterAll fuel siblings above parents index _ parent trees, SyntaxTree.preorderAll,
      length_append, Nat.add_assoc]
    exact walk_enter _ trees _ _ table tree

end

theorem buildNodeTable_eq (tree : SyntaxTree) : buildNodeTable tree = enter none ⟨[], ∅⟩ tree := by
  have walked := walk_enter 0 [] [] [] ⟨[], ∅⟩ tree
  rw [Nat.add_zero] at walked
  rw [buildNodeTable, walked]
  rfl

/-- A table all of whose entries are nodes of one tree, after their parents. -/
structure NodeTable.Sound (table : NodeTable) (origin : List SyntaxTree) : Prop where
  parents : ∀ index (info : NodeInfo) parent, table.nodes[index]? = some info → info.parent = some parent → parent < index
  nodes : ∀ info ∈ table.nodes, ∃ node ∈ origin, info.start = node.start ∧ info.stop = node.stop
  byId : ∀ (id index : Nat), table.byId[id]? = some index → index < table.nodes.length

theorem NodeTable.Sound.push {table : NodeTable} {origin : List SyntaxTree} (sound : table.Sound origin)
    {parent : Option Nat} (known : ∀ index ∈ parent, index < table.nodes.length) {node : SyntaxTree}
    (member : node ∈ origin) : (table.push parent node).Sound origin where
  parents index info outer found isParent := by
    simp only [NodeTable.push, getElem?_append] at found
    split at found
    next => exact sound.parents index info outer found isParent
    next beyond =>
      obtain ⟨atEnd, rfl⟩ : index - table.nodes.length = 0 ∧ _ = info := by
        simpa [getElem?_singleton] using found
      have := known outer isParent
      omega
  nodes := forall_mem_append.mpr ⟨sound.nodes, forall_mem_singleton.mpr ⟨node, member, rfl, rfl⟩⟩
  byId id index found := by
    rw [NodeTable.push, BTreeMap.getElem?_insert] at found
    simp only [NodeTable.push, length_append, length_singleton]
    split at found
    next =>
      cases found
      omega
    next =>
      have := sound.byId id index found
      omega

mutual

variable {origin : List SyntaxTree}

theorem enter_sound {parent : Option Nat} {table : NodeTable} (sound : table.Sound origin)
    (known : ∀ index ∈ parent, index < table.nodes.length) : ∀ tree : SyntaxTree, (∀ node ∈ tree.preorder, node ∈ origin) →
    (enter parent table tree).Sound origin ∧ table.nodes.length ≤ (enter parent table tree).nodes.length
  | .node id kind start stop named children, inside => by
    rw [SyntaxTree.preorder] at inside
    obtain ⟨here, below⟩ := forall_mem_cons.mp inside
    have pushed := sound.push known here
    obtain ⟨entered, longer⟩ := enterAll_sound pushed (some table.nodes.length)
      (by simp [NodeTable.push]) children below
    refine ⟨entered, Nat.le_trans ?_ longer⟩
    simp [NodeTable.push]

theorem enterAll_sound {table : NodeTable} (sound : table.Sound origin) (parent : Option Nat)
    (known : ∀ index ∈ parent, index < table.nodes.length) : ∀ trees : List SyntaxTree,
    (∀ node ∈ SyntaxTree.preorderAll trees, node ∈ origin) →
    (enterAll parent table trees).Sound origin ∧ table.nodes.length ≤ (enterAll parent table trees).nodes.length
  | [], _ => ⟨sound, Nat.le_refl _⟩
  | tree :: trees, inside => by
    rw [SyntaxTree.preorderAll, forall_mem_append] at inside
    obtain ⟨first, longer⟩ := enter_sound sound known tree inside.1
    obtain ⟨rest, longest⟩ := enterAll_sound first parent (fun index member => Nat.lt_of_lt_of_le (known index member) longer)
      trees inside.2
    exact ⟨rest, Nat.le_trans longer longest⟩

end

theorem buildNodeTable_sound (tree : SyntaxTree) : (buildNodeTable tree).Sound tree.preorder := by
  rw [buildNodeTable_eq]
  exact (enter_sound ⟨by simp, by simp, by simp⟩ (by simp) tree fun _ member => member).1

/-! ## References into the corpus -/

namespace Corpus

variable {corpus : Corpus}

/-- A reference to a node that exists. -/
def HasNode (corpus : Corpus) (ref : NodeRef) : Prop :=
  ∃ file, corpus.files[ref.file]? = some file ∧ ref.node < file.nodes.length

def HasValue (corpus : Corpus) : Value → Prop
  | .node ref => corpus.HasNode ref
  | .text _ => True

theorem HasNode.nodeInfo {ref : NodeRef} (present : corpus.HasNode ref) : ∃ info, corpus.nodeInfo ref = some info := by
  obtain ⟨file, found, inside⟩ := present
  exact ⟨file.nodes[ref.node], by simp [Corpus.nodeInfo, found, inside]⟩

end Corpus

variable {file : SourceFile} {info : NodeInfo}

theorem SourceFile.slice_node (member : info ∈ file.nodes) : ∃ text, slice file.text info.start info.stop = some text := by
  obtain ⟨node, inside, start, stop⟩ := (buildNodeTable_sound file.tree).nodes info member
  rw [start, stop]
  exact Option.isSome_iff_exists.mp (file.cuts node inside)

theorem SourceFile.nodeIndex_lt {id index : Nat} (found : file.nodeIndex id = some index) : index < file.nodes.length :=
  (buildNodeTable_sound file.tree).byId id index found

theorem SourceFile.parent_lt {index parent : Nat} (found : file.nodes[index]? = some info)
    (isParent : info.parent = some parent) : parent < index :=
  (buildNodeTable_sound file.tree).parents index info parent found isParent

namespace Corpus

variable {corpus : Corpus}

theorem HasNode.nodeText {ref : NodeRef} (present : corpus.HasNode ref) : ∃ text, corpus.nodeText ref = some text := by
  obtain ⟨file, found, inside⟩ := present
  obtain ⟨text, cut⟩ := file.slice_node (getElem_mem inside)
  exact ⟨text, by simp [Corpus.nodeText, found, inside, cut]⟩

theorem HasValue.valueText {value : Value} (present : corpus.HasValue value) :
    ∃ text, corpus.valueText value = some text := by
  cases value with
  | node ref => exact HasNode.nodeText present
  | text text => exact ⟨text, rfl⟩

/-- Every byte of a file has a position, since the first line starts at 0. -/
theorem position_isSome {file : Nat} {source : SourceFile} (found : corpus.files[file]? = some source) (byte : Nat) :
    ∃ position, corpus.position file byte = some position := by
  have first : source.lineStarts.takeWhile (· ≤ byte) = 0 :: (lineStartsFrom 0 source.text.toList).takeWhile (· ≤ byte) := by
    simp [SourceFile.lineStarts, buildLineStarts]
  have nonempty : (source.lineStarts.takeWhile (· ≤ byte)).length ≠ 0 := by simp [first]
  generalize counted : (source.lineStarts.takeWhile (· ≤ byte)).length = line at nonempty
  have prefixed := takeWhile_prefix (l := source.lineStarts) (· ≤ byte)
  have inTake : line - 1 < (source.lineStarts.takeWhile (· ≤ byte)).length := by omega
  have inside : line - 1 < source.lineStarts.length := Nat.lt_of_lt_of_le inTake prefixed.length_le
  have before := mem_takeWhile_imp (getElem_mem inTake)
  rw [prefixed.getElem inTake, decide_eq_true_eq] at before
  refine ⟨⟨line, byte - source.lineStarts[line - 1] + 1⟩, ?_⟩
  simp only [Corpus.position, found, Option.bind_eq_bind, Option.bind_some, counted, if_neg nonempty,
    getElem?_eq_getElem inside, if_neg (Nat.not_lt.mpr before)]

end Corpus

end Index.Astlog
