import Mathlib.Data.List.Basic

/-! # Ordered trees and their preorder listings

The preorder listing of a tree writes the label of every node and the text of every leaf.  Without arities it does
not determine the tree: a node can move from the end of its parent's children to the end of its grandparent's.
Together with the numbers of children, listed in the same order, it does. -/

namespace Index.Lib

/-- A tree with a label at every node and a text at every leaf. -/
inductive OrderedTree (α : Type*) where
  | leaf (label text : α)
  | branch (label : α) (first : OrderedTree α) (rest : List (OrderedTree α))

namespace OrderedTree

variable {α : Type*}

mutual

def listing : OrderedTree α → List α
  | leaf label text => [label, text]
  | branch label first rest => label :: (first.listing ++ listings rest)

def listings : List (OrderedTree α) → List α
  | [] => []
  | first :: rest => first.listing ++ listings rest

end

mutual

/-- The number of children of every node, in preorder. -/
def childCounts : OrderedTree α → List Nat
  | leaf _ _ => [0]
  | branch _ first rest => (rest.length + 1) :: (first.childCounts ++ childCountsAll rest)

def childCountsAll : List (OrderedTree α) → List Nat
  | [] => []
  | first :: rest => first.childCounts ++ childCountsAll rest

end

mutual

-- Both listings are read from the left: the first child count says how much of the labels the tree takes.
theorem eq_of_listing : ∀ (left right : OrderedTree α) (leftLabels rightLabels : List α) (leftCounts rightCounts : List Nat),
    left.listing ++ leftLabels = right.listing ++ rightLabels →
    left.childCounts ++ leftCounts = right.childCounts ++ rightCounts →
    left = right ∧ leftLabels = rightLabels ∧ leftCounts = rightCounts
  | leaf leftLabel leftText, leaf rightLabel rightText, leftLabels, rightLabels, leftCounts, rightCounts, labels, counts => by
    simp only [listing, List.cons_append, List.nil_append, List.cons.injEq] at labels
    simp only [childCounts, List.cons_append, List.nil_append, List.cons.injEq, true_and] at counts
    obtain ⟨rfl, rfl, labels⟩ := labels
    exact ⟨rfl, labels, counts⟩
  | branch leftLabel leftFirst leftRest, branch rightLabel rightFirst rightRest, leftLabels, rightLabels, leftCounts,
      rightCounts, labels, counts => by
    simp only [listing, List.cons_append, List.append_assoc, List.cons.injEq] at labels
    simp only [childCounts, List.cons_append, List.append_assoc, List.cons.injEq, Nat.add_right_cancel_iff] at counts
    obtain ⟨rfl, labels⟩ := labels
    obtain ⟨sameLength, counts⟩ := counts
    obtain ⟨rfl, labels, counts⟩ := eq_of_listing leftFirst rightFirst _ _ _ _ labels counts
    obtain ⟨rfl, labels, counts⟩ := eq_of_listings leftRest rightRest _ _ _ _ sameLength labels counts
    exact ⟨rfl, labels, counts⟩
  | leaf _ _, branch _ _ _, _, _, _, _, _, counts => by simp [childCounts] at counts
  | branch _ _ _, leaf _ _, _, _, _, _, _, counts => by simp [childCounts] at counts

theorem eq_of_listings : ∀ (left right : List (OrderedTree α)) (leftLabels rightLabels : List α) (leftCounts rightCounts : List Nat),
    left.length = right.length →
    listings left ++ leftLabels = listings right ++ rightLabels →
    childCountsAll left ++ leftCounts = childCountsAll right ++ rightCounts →
    left = right ∧ leftLabels = rightLabels ∧ leftCounts = rightCounts
  | [], [], _, _, _, _, _, labels, counts => ⟨rfl, labels, counts⟩
  | leftFirst :: leftRest, rightFirst :: rightRest, leftLabels, rightLabels, leftCounts, rightCounts, sameLength, labels,
      counts => by
    simp only [listings, List.append_assoc] at labels
    simp only [childCountsAll, List.append_assoc] at counts
    obtain ⟨rfl, labels, counts⟩ := eq_of_listing leftFirst rightFirst _ _ _ _ labels counts
    obtain ⟨rfl, labels, counts⟩ :=
      eq_of_listings leftRest rightRest _ _ _ _ (by simpa using sameLength) labels counts
    exact ⟨rfl, labels, counts⟩

end

/-- The listing and the child counts together determine the tree. -/
theorem eq_iff_listing {left right : OrderedTree α} :
    left = right ↔ left.listing = right.listing ∧ left.childCounts = right.childCounts := by
  constructor
  · rintro rfl
    exact ⟨rfl, rfl⟩
  · rintro ⟨labels, counts⟩
    exact (eq_of_listing left right [] [] [] [] (by simpa using labels) (by simpa using counts)).1

/-- The same labels and texts in the same order, hung together differently. -/
def Regrouped (left right : OrderedTree α) : Prop :=
  left.listing = right.listing ∧ left.childCounts ≠ right.childCounts

instance [DecidableEq α] (left right : OrderedTree α) : Decidable (Regrouped left right) :=
  inferInstanceAs (Decidable (_ ∧ _))

/-- Comparing listings tells two trees apart exactly when they are not regroupings of each other. -/
theorem listing_eq_iff_eq {left right : OrderedTree α} :
    (left.listing = right.listing ↔ left = right) ↔ ¬ Regrouped left right := by
  rw [eq_iff_listing, Regrouped]
  tauto

end OrderedTree

end Index.Lib
