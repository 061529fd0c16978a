import Index.AstMerge.Tree
import Index.Lib.OrderedTree
import Mathlib.Logic.Equiv.List

/-! # What a subtree hash identifies

The merger compares items by a hash of the kinds and leaf texts below them.  The hash is fed a bare preorder
listing, so subtrees with equal hashes are equal as trees unless one is a regrouping of the other, the same kinds and
texts under other parents.  That happens in languages that nest by indentation. -/

namespace Index.AstMerge

open Index.Lib

mutual

/-- A subtree without its position: the kinds of its nodes, their nesting and the texts of the leaves. -/
def Tree.subtree (tree : Tree) : Node → OrderedTree String
  | .node id kind startByte endByte isExtra children =>
    match children with
    | [] => .leaf kind (tree.nodeText (.node id kind startByte endByte isExtra []))
    | (_, child) :: children => .branch kind (tree.subtree child) (tree.subtrees children)

def Tree.subtrees (tree : Tree) : List (Option String × Node) → List (OrderedTree String)
  | [] => []
  | (_, child) :: children => tree.subtree child :: tree.subtrees children

end

mutual

theorem Tree.hashed_eq_listing (tree : Tree) : ∀ node, tree.hashed node = (tree.subtree node).listing
  | .node id kind startByte endByte isExtra [] => by
    rw [hashed, subtree, OrderedTree.listing]
  | .node id kind startByte endByte isExtra ((field, child) :: children) => by
    rw [hashed, subtree, OrderedTree.listing, hashedAll, tree.hashed_eq_listing child, tree.hashedAll_eq_listings children]

theorem Tree.hashedAll_eq_listings (tree : Tree) :
    ∀ children, tree.hashedAll children = OrderedTree.listings (tree.subtrees children)
  | [] => by
    rw [hashedAll, subtrees, OrderedTree.listings]
  | (field, child) :: children => by
    rw [hashedAll, subtrees, OrderedTree.listings, tree.hashed_eq_listing child, tree.hashedAll_eq_listings children]

end

/-- Hashes of subtrees agree exactly on equal subtrees, unless the two are regroupings of each other. -/
theorem compute_identifies_subtrees (hasher : Hasher) (injective : Function.Injective hasher) (left right : Tree)
    (leftNode rightNode : Node) :
    (left.compute hasher leftNode = right.compute hasher rightNode ↔ left.subtree leftNode = right.subtree rightNode) ↔
      ¬ OrderedTree.Regrouped (left.subtree leftNode) (right.subtree rightNode) := by
  rw [Tree.compute, Tree.compute, injective.eq_iff, Tree.hashed_eq_listing, Tree.hashed_eq_listing]
  exact OrderedTree.listing_eq_iff_eq

/-! ## A statement leaves its block -/

namespace Indented

def named (id : Nat) (kind : String) (startByte endByte : Nat) (children : List Node) : Node :=
  .node id kind startByte endByte false (children.map (Prod.mk none))

/-- `expression_statement` of a name. -/
def statement (id startByte : Nat) : Node :=
  named id "expression_statement" startByte (startByte + 1) [named (id + 1) "identifier" startByte (startByte + 1) []]

def condition : List Node :=
  [named 2 "if" 0 2 [], named 3 "identifier" 3 4 [], named 4 ":" 4 5 []]

/-- The tree of a Python module whose condition guards two statements. -/
def guarded : Tree where
  source := "if a:\n b\n c\n"
  rootNode := named 0 "module" 0 12
    [named 1 "if_statement" 0 11 (condition ++ [named 5 "block" 7 11 [statement 6 7, statement 8 10]])]

/-- The same module after the second statement was unindented. -/
def unguarded : Tree where
  source := "if a:\n b\nc\n"
  rootNode := named 0 "module" 0 11
    [named 1 "if_statement" 0 8 (condition ++ [named 5 "block" 7 8 [statement 6 7]]), statement 8 9]

end Indented

/-- A hasher that loses nothing: the code of the characters written to it. -/
def encodingHasher : Hasher := fun texts => Encodable.encode (texts.map fun text => text.toList.map Char.toNat)

theorem encodingHasher_injective : Function.Injective encodingHasher := by
  have chars : Function.Injective fun text : String => text.toList.map Char.toNat :=
    (List.map_injective_iff.mpr fun left right same => Char.toNat_inj.mp same).comp fun _ _ => String.toList_inj.mp
  exact Encodable.encode_injective.comp (List.map_injective_iff.mpr chars)

open Indented in
/-- The moved statement itself is recognised at its new place. -/
theorem moved_statement_identified :
    ¬ OrderedTree.Regrouped (guarded.subtree (statement 8 10)) (unguarded.subtree (statement 8 9)) ∧
      (guarded.compute encodingHasher (statement 8 10) = unguarded.compute encodingHasher (statement 8 9) ↔
        guarded.subtree (statement 8 10) = unguarded.subtree (statement 8 9)) := by
  have kept : ¬ OrderedTree.Regrouped (guarded.subtree (statement 8 10)) (unguarded.subtree (statement 8 9)) := by
    decide +kernel
  exact ⟨kept, (compute_identifies_subtrees encodingHasher encodingHasher_injective guarded unguarded _ _).mpr kept⟩

open Indented in
/-- The hash does not see that a statement left the block of a condition. -/
theorem unindented_statement_same_hash :
    (∀ hasher : Hasher, guarded.compute hasher guarded.rootNode = unguarded.compute hasher unguarded.rootNode) ∧
      guarded.subtree guarded.rootNode ≠ unguarded.subtree unguarded.rootNode := by
  have listed : guarded.hashed guarded.rootNode = unguarded.hashed unguarded.rootNode := by decide +kernel
  have counts : (guarded.subtree guarded.rootNode).childCounts ≠ (unguarded.subtree unguarded.rootNode).childCounts := by
    decide +kernel
  exact ⟨fun hasher => congrArg hasher listed, fun same => counts (congrArg OrderedTree.childCounts same)⟩

end Index.AstMerge
