import Mathlib.Data.List.Basic

/-! # Partial actions that commute

An action is enabled in some states and then leads to one state.  When every action of one list commutes with every
action of another, the lists can be run in either order: what one needs the other does not take away. -/

namespace Index.Lib

section Actions

variable {σ ε : Type*} (enabled : ε → σ → Prop) (act : ε → σ → σ)

/-- The state after a list of actions. -/
def actAll (actions : List ε) (state : σ) : σ := actions.foldl (fun state action => act action state) state

/-- Every action of a list is enabled when its turn comes. -/
def EnabledAll : List ε → σ → Prop
  | [], _ => True
  | action :: actions, state => enabled action state ∧ EnabledAll actions (act action state)

/-- In every state that enables both, either order works and leads to the same state. -/
def Commutes (left right : ε) : Prop :=
  ∀ state, enabled left state → enabled right state →
    enabled right (act left state) ∧ enabled left (act right state) ∧ act right (act left state) = act left (act right state)

variable {enabled act}

@[simp] theorem actAll_nil (state : σ) : actAll act [] state = state := rfl

@[simp] theorem actAll_cons (action : ε) (actions : List ε) (state : σ) :
    actAll act (action :: actions) state = actAll act actions (act action state) := rfl

theorem actAll_append (before after : List ε) (state : σ) :
    actAll act (before ++ after) state = actAll act after (actAll act before state) := List.foldl_append

theorem enabledAll_append {before after : List ε} {state : σ} :
    EnabledAll enabled act (before ++ after) state ↔
      EnabledAll enabled act before state ∧ EnabledAll enabled act after (actAll act before state) := by
  induction before generalizing state with
  | nil => simp [EnabledAll]
  | cons action before ih => simp [EnabledAll, ih, and_assoc]

/-- One action past a list. -/
theorem enabledAll_of_commutes {action : ε} {actions : List ε} (commute : ∀ other ∈ actions, Commutes enabled act action other)
    {state : σ} (first : enabled action state) (all : EnabledAll enabled act actions state) :
    EnabledAll enabled act actions (act action state) ∧ enabled action (actAll act actions state) ∧
      actAll act actions (act action state) = act action (actAll act actions state) := by
  induction actions generalizing state with
  | nil => exact ⟨trivial, first, rfl⟩
  | cons other actions ih =>
    obtain ⟨here, later⟩ := List.forall_mem_cons.mp commute
    obtain ⟨otherAfter, actionAfter, same⟩ := here state first all.1
    obtain ⟨allAfter, enabledAfter, sameAfter⟩ := ih later actionAfter all.2
    simp only [EnabledAll, actAll_cons, same]
    exact ⟨⟨otherAfter, allAfter⟩, enabledAfter, sameAfter⟩

/-- Lists whose actions commute pairwise can be run in either order. -/
theorem actAll_comm {lefts rights : List ε} (commute : ∀ left ∈ lefts, ∀ right ∈ rights, Commutes enabled act left right)
    {state : σ} (leftAll : EnabledAll enabled act lefts state) (rightAll : EnabledAll enabled act rights state) :
    EnabledAll enabled act rights (actAll act lefts state) ∧ EnabledAll enabled act lefts (actAll act rights state) ∧
      actAll act rights (actAll act lefts state) = actAll act lefts (actAll act rights state) := by
  induction lefts generalizing state with
  | nil => exact ⟨rightAll, trivial, rfl⟩
  | cons left lefts ih =>
    obtain ⟨here, later⟩ := List.forall_mem_cons.mp commute
    obtain ⟨rightsAfter, leftAfter, same⟩ := enabledAll_of_commutes here leftAll.1 rightAll
    obtain ⟨rightsLast, leftsLast, sameLast⟩ := ih later leftAll.2 rightsAfter
    simp only [EnabledAll, actAll_cons, ← same]
    exact ⟨rightsLast, ⟨leftAfter, leftsLast⟩, sameLast⟩

end Actions

end Index.Lib
