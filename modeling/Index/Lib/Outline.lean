import Mathlib.Data.List.Infix
import Mathlib.Logic.Function.Basic
import Mathlib.Tactic.Tauto

/-! # Trees by their paths

The outline of a tree maps the path of every node to the head of the node, what it is apart from its children.
Two trees with one outline differ at most in how they are stored.  Edits of a tree are grafts, which replace
all at and below a path, and changes of a single head; edits at paths that lead apart commute. -/

namespace Index.Lib

abbrev Outline (σ η : Type*) := List σ → Option η

namespace Outline

variable {σ η : Type*}

/-- The outline of the subtree at a path. -/
def below (outline : Outline σ η) (path : List σ) : Outline σ η := fun rest => outline (path ++ rest)

/-- The outline of no tree. -/
def absent : Outline σ η := fun _ => none

/-- Two paths neither of which leads through the other. -/
def Apart (left right : List σ) : Prop := ¬ left <+: right ∧ ¬ right <+: left

theorem Apart.symm {left right : List σ} (apart : Apart left right) : Apart right left := ⟨apart.2, apart.1⟩

/-- A path apart from another leads apart from everything below it. -/
theorem Apart.below {left right rest : List σ} (apart : Apart left right) : ¬ left <+: right ++ rest := by
  intro leads
  rcases List.prefix_or_prefix_of_prefix leads (List.prefix_append right rest) with inLeft | inRight
  · exact apart.1 inLeft
  · exact apart.2 inRight

theorem not_prefix_parent {path : List σ} {step : σ} : ¬ path ++ [step] <+: path := by
  intro leads
  have shorter := leads.length_le
  rw [List.length_append, List.length_singleton] at shorter
  omega

/-- Siblings are apart. -/
theorem apart_siblings {path : List σ} {left right : σ} (differ : left ≠ right) : Apart (path ++ [left]) (path ++ [right]) := by
  constructor <;> intro leads <;> have same := leads.eq_of_length (by simp)
  · simp [differ] at same
  · simp [differ.symm] at same

variable [DecidableEq σ]

/-- Replaces everything at and below a path. -/
def graft (outline : Outline σ η) (path : List σ) (sub : Outline σ η) : Outline σ η := fun place =>
  if path <+: place then sub (place.drop path.length) else outline place

/-- Changes the head at a path alone. -/
def relabel (outline : Outline σ η) (path : List σ) (head : η) : Outline σ η := Function.update outline path (some head)

/-- Changes one head, if any. -/
def relabelAt (outline : Outline σ η) : Option (List σ × η) → Outline σ η
  | none => outline
  | some (path, head) => outline.relabel path head

variable {path other place rest : List σ} {sub outline : Outline σ η} {head : η}

@[simp] theorem graft_below : outline.graft path sub (path ++ rest) = sub rest := by
  simp [graft]

theorem graft_of_apart (outside : ¬ path <+: place) : outline.graft path sub place = outline place := if_neg outside

@[simp] theorem relabel_self : outline.relabel path head path = some head := Function.update_self ..

theorem relabel_of_ne (differ : place ≠ path) : outline.relabel path head place = outline place :=
  Function.update_of_ne differ ..

@[simp] theorem graft_nil : outline.graft [] sub = sub := by
  funext place
  simp [graft]

/-- An outline that agrees with another outside a path and with a subtree below it is the graft. -/
theorem eq_graft {result : Outline σ η} (inside : ∀ rest, result (path ++ rest) = sub rest)
    (outside : ∀ place, ¬ path <+: place → result place = outline place) : result = outline.graft path sub := by
  funext place
  by_cases leads : path <+: place
  · obtain ⟨rest, rfl⟩ := leads
    rw [inside, graft_below]
  · rw [outside place leads, graft_of_apart leads]

theorem graft_of_below (same : outline.below path = sub) : outline.graft path sub = outline :=
  (eq_graft (fun rest => congrFun same rest) fun _ _ => rfl).symm

/-- A graft at a longer path is made inside the subtree that the first part of the path leads to. -/
theorem graft_append : outline.graft (path ++ other) sub = outline.graft path ((outline.below path).graft other sub) := by
  symm
  refine eq_graft (fun rest => ?_) fun place outside => ?_
  · rw [List.append_assoc, graft_below, graft_below]
  · by_cases leads : path <+: place
    · obtain ⟨rest, rfl⟩ := leads
      rw [graft_below, graft_of_apart fun leads => outside ((List.prefix_append_right_inj path).mpr leads), below]
    · rw [graft_of_apart leads]

theorem graft_cons {step : σ} :
    outline.graft (step :: path) sub = outline.graft [step] ((outline.below [step]).graft path sub) := by
  rw [← graft_append, List.singleton_append]

theorem graft_relabel : outline.graft path (sub.relabel [] head) = (outline.graft path sub).relabel path head := by
  symm
  refine eq_graft (fun rest => ?_) fun place outside => ?_
  · cases rest with
    | nil => rw [List.append_nil, relabel_self, relabel_self]
    | cons step rest => rw [relabel_of_ne (by simp), graft_below, relabel_of_ne (by simp)]
  · have differ : place ≠ path := by
      rintro rfl
      exact outside List.prefix_rfl
    rw [relabel_of_ne differ, graft_of_apart outside]

theorem graft_comm {otherSub : Outline σ η} (apart : Apart path other) :
    (outline.graft other otherSub).graft path sub = (outline.graft path sub).graft other otherSub := by
  refine eq_graft (fun rest => ?_) fun place outside => ?_
  · rw [graft_of_apart apart.below, graft_below]
  · by_cases leads : path <+: place
    · obtain ⟨rest, rfl⟩ := leads
      rw [graft_below, graft_below]
    · rw [graft_of_apart leads, graft_of_apart leads, graft_of_apart outside]

theorem relabel_graft_comm (outside : ¬ other <+: path) :
    (outline.graft other sub).relabel path head = (outline.relabel path head).graft other sub := by
  funext place
  by_cases here : place = path
  · rw [here, relabel_self, graft_of_apart outside, relabel_self]
  · by_cases leads : other <+: place
    · obtain ⟨rest, rfl⟩ := leads
      rw [relabel_of_ne here, graft_below, graft_below]
    · rw [relabel_of_ne here, graft_of_apart leads, graft_of_apart leads, relabel_of_ne here]

theorem relabel_comm {otherHead : η} (differ : path ≠ other) :
    (outline.relabel other otherHead).relabel path head = (outline.relabel path head).relabel other otherHead :=
  Function.update_comm differ.symm ..

theorem relabelAt_of_ne {label : Option (List σ × η)} (differ : ∀ head, label ≠ some (place, head)) :
    outline.relabelAt label place = outline place := by
  cases label with
  | none => rfl
  | some label => exact relabel_of_ne fun same => differ label.2 (by rw [same])

/-- Grafts at paths apart, each with a change of one other head, commute. -/
theorem graft_relabelAt_comm {otherSub : Outline σ η} {label otherLabel : Option (List σ × η)} (apart : Apart path other)
    (outside : ∀ place head, label = some (place, head) → ¬ other <+: place)
    (otherOutside : ∀ place head, otherLabel = some (place, head) → ¬ path <+: place)
    (differ : ∀ place head otherHead, label = some (place, head) → otherLabel ≠ some (place, otherHead)) :
    (((outline.graft path sub).relabelAt label).graft other otherSub).relabelAt otherLabel =
      (((outline.graft other otherSub).relabelAt otherLabel).graft path sub).relabelAt label := by
  cases label with
  | none =>
    cases otherLabel with
    | none => exact graft_comm apart.symm
    | some otherLabel =>
      simp only [relabelAt]
      rw [graft_comm apart.symm, relabel_graft_comm (otherOutside _ _ rfl)]
  | some label =>
    cases otherLabel with
    | none =>
      simp only [relabelAt]
      rw [graft_comm apart, relabel_graft_comm (outside _ _ rfl)]
    | some otherLabel =>
      have apartLabels : label.1 ≠ otherLabel.1 := fun same => differ _ _ otherLabel.2 rfl (by rw [same])
      simp only [relabelAt]
      rw [← relabel_graft_comm (outside _ _ rfl), ← relabel_graft_comm (otherOutside _ _ rfl), graft_comm apart.symm,
        relabel_comm apartLabels.symm]

end Outline

end Index.Lib
