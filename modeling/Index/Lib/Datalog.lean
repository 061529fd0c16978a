import Mathlib.Data.Set.Lattice
import Mathlib.Logic.Relation
import Mathlib.Order.Bounds.Basic

/-! # Stratified clauses

Clauses derive rows of one relation from an interpretation of all relations: monotone in the relations
they use and antitone in those they negate.  A stratum, a set of clauses that negate no relation they
define, has a least model over the relations below it, which naive iteration reaches; the models of
all strata together are unique. -/

namespace Index.Lib

variable {ν ρ : Type*}

/-- A rule, as what it derives from an interpretation of the relations. -/
structure Clause (ν ρ : Type*) where
  head : ν
  positive : Set ν
  negative : Set ν
  derives : (ν → Set ρ) → Set ρ
  mono : ∀ left right : ν → Set ρ, (∀ name ∈ positive, left name ⊆ right name) →
    (∀ name ∈ negative, right name ⊆ left name) → derives left ⊆ derives right

theorem Clause.derives_congr (clause : Clause ν ρ) {left right : ν → Set ρ}
    (same : ∀ name ∈ clause.positive ∪ clause.negative, left name = right name) :
    clause.derives left = clause.derives right := by
  refine Set.Subset.antisymm (clause.mono left right ?_ ?_) (clause.mono right left ?_ ?_)
  · exact fun name used => (same name (.inl used)).subset
  · exact fun name negated => (same name (.inr negated)).superset
  · exact fun name used => (same name (.inl used)).superset
  · exact fun name negated => (same name (.inr negated)).subset

variable {clauses : Set (Clause ν ρ)} {model other : ν → Set ρ}

/-- The relations a set of clauses defines. -/
def heads (clauses : Set (Clause ν ρ)) : Set ν := {name | ∃ clause ∈ clauses, clause.head = name}

def Closed (clauses : Set (Clause ν ρ)) (model : ν → Set ρ) : Prop :=
  ∀ clause ∈ clauses, clause.derives model ⊆ model clause.head

/-- Among the interpretations that agree with `model` on all relations the clauses do not define and
that are closed under the clauses, `model` is the least one. -/
def LeastModel (clauses : Set (Clause ν ρ)) (model : ν → Set ρ) : Prop :=
  IsLeast {candidate | (∀ name, name ∉ heads clauses → candidate name = model name) ∧ Closed clauses candidate} model

/-- A least model is contained in every closed interpretation that agrees with it on what the clauses read and do not define. -/
theorem LeastModel.subset_of_reads (least : LeastModel clauses model) (closed : Closed clauses other)
    (reads : ∀ clause ∈ clauses, ∀ name ∈ clause.positive ∪ clause.negative, name ∉ heads clauses → model name = other name) {name : ν}
    (defined : name ∈ heads clauses) : model name ⊆ other name := by
  classical
  -- Compare with the other on the defined relations and with `model` elsewhere.
  let patched : ν → Set ρ := fun name => if name ∈ heads clauses then other name else model name
  have patchedClosed : Closed clauses patched := by
    intro clause member
    have heading : clause.head ∈ heads clauses := ⟨clause, member, rfl⟩
    have unchanged : clause.derives patched = clause.derives other := by
      refine clause.derives_congr fun name read => ?_
      by_cases inside : name ∈ heads clauses
      · exact if_pos inside
      · exact (if_neg inside).trans (reads clause member name read inside)
    simp only [unchanged, patched, if_pos heading]
    exact closed clause member
  have contained := least.2 ⟨fun name outside => if_neg outside, patchedClosed⟩ name
  simpa only [patched, if_pos defined] using contained

/-- A least model stays one when only relations change that the clauses neither define nor read. -/
theorem LeastModel.congr (least : LeastModel clauses model)
    (same : ∀ name, name ∈ heads clauses ∨ (∃ clause ∈ clauses, name ∈ clause.positive ∪ clause.negative) →
      model name = other name) : LeastModel clauses other := by
  have reads : ∀ clause ∈ clauses, ∀ name ∈ clause.positive ∪ clause.negative, model name = other name :=
    fun clause member name read => same name (.inr ⟨clause, member, read⟩)
  refine ⟨⟨fun _ _ => rfl, fun clause member => ?_⟩, fun candidate ⟨agrees, closed⟩ name => ?_⟩
  · rw [← clause.derives_congr (reads clause member), ← same clause.head (.inl ⟨clause, member, rfl⟩)]
    exact least.1.2 clause member
  · by_cases inside : name ∈ heads clauses
    · rw [← same name (.inl inside)]
      refine least.subset_of_reads closed (fun clause member name read outside => ?_) inside
      rw [agrees name outside, reads clause member name read]
    · rw [agrees name inside]

/-- Without clauses every interpretation is its own least model. -/
theorem leastModel_of_empty (none : ∀ clause, clause ∉ clauses) : LeastModel clauses model := by
  have undefined : ∀ name, name ∉ heads clauses := fun name ⟨clause, member, _⟩ => none clause member
  refine ⟨⟨fun _ _ => rfl, fun clause member => absurd member (none clause)⟩, fun candidate ⟨agrees, _⟩ name => ?_⟩
  rw [agrees name (undefined name)]

/-! ## Naive iteration -/

/-- One iteration keeps what is there and adds only rows that some clause derives. -/
structure DerivationStep (clauses : Set (Clause ν ρ)) (before after : ν → Set ρ) : Prop where
  keeps : ∀ name, before name ⊆ after name
  derived : ∀ name, ∀ row ∈ after name, row ∈ before name ∨
    ∃ clause ∈ clauses, clause.head = name ∧ row ∈ clause.derives before

theorem DerivationStep.outside {before after : ν → Set ρ} (step : DerivationStep clauses before after) {name : ν}
    (outside : name ∉ heads clauses) : after name = before name := by
  refine Set.Subset.antisymm (fun row inside => ?_) (step.keeps name)
  rcases step.derived name row inside with earlier | ⟨clause, member, rfl, -⟩
  · exact earlier
  · exact absurd ⟨clause, member, rfl⟩ outside

theorem iteration_outside {start : ν → Set ρ} (run : Relation.ReflTransGen (DerivationStep clauses) start model) {name : ν}
    (undefined : name ∉ heads clauses) : model name = start name := by
  induction run with
  | refl => rfl
  | tail _ step ih => exact (step.outside undefined).trans ih

/-- Iterating from empty relations to a closed interpretation reaches the least model. -/
theorem leastModel_of_iteration {start : ν → Set ρ} (run : Relation.ReflTransGen (DerivationStep clauses) start model)
    (empty : ∀ name ∈ heads clauses, start name = ∅) (closed : Closed clauses model)
    (stratified : ∀ clause ∈ clauses, ∀ name ∈ clause.negative, name ∉ heads clauses) :
    LeastModel clauses model := by
  refine ⟨⟨fun _ _ => rfl, closed⟩, fun candidate ⟨agrees, candidateClosed⟩ => ?_⟩
  have below : ∀ {state}, Relation.ReflTransGen (DerivationStep clauses) start state →
      ∀ name, state name ⊆ candidate name := by
    intro state reached
    induction reached with
    | refl =>
      intro name
      by_cases defined : name ∈ heads clauses
      · rw [empty name defined]
        exact Set.empty_subset _
      · rw [agrees name defined, iteration_outside run defined]
    | @tail before after earlier step ih =>
      intro name row inside
      rcases step.derived name row inside with kept | ⟨clause, member, rfl, derived⟩
      · exact ih name kept
      · -- Negated relations are not defined here, so they are final already.
        have negated : ∀ name ∈ clause.negative, candidate name ⊆ before name := by
          intro name negates
          have undefined := stratified clause member name negates
          rw [agrees name undefined, iteration_outside run undefined, iteration_outside earlier undefined]
        exact candidateClosed clause member
          (clause.mono before candidate (fun name _ => ih name) negated derived)
  exact fun name => below run name

/-! ## Uniqueness -/

/-- Levels that put used relations no higher and negated ones lower. -/
def Stratifies (level : ν → Nat) (clauses : Set (Clause ν ρ)) : Prop :=
  ∀ clause ∈ clauses, (∀ name ∈ clause.positive, level name ≤ level clause.head) ∧
    ∀ name ∈ clause.negative, level name < level clause.head

def stratumOf (level : ν → Nat) (clauses : Set (Clause ν ρ)) (height : Nat) : Set (Clause ν ρ) :=
  {clause ∈ clauses | level clause.head = height}

/-- Below a level, one model of the strata is contained in any other. -/
theorem LeastModel.subset_of_below {level : ν → Nat} (stratifies : Stratifies level clauses) {height : Nat}
    (least : LeastModel (stratumOf level clauses height) model)
    (closed : Closed (stratumOf level clauses height) other)
    (undefined : ∀ name, name ∉ heads clauses → model name = other name)
    (below : ∀ name, level name < height → model name = other name) {name : ν}
    (defined : name ∈ heads (stratumOf level clauses height)) : model name ⊆ other name := by
  refine least.subset_of_reads closed (fun clause member name read outside => ?_) defined
  have reached : level name ≤ height := by
    rw [← member.2]
    rcases read with used | negated
    · exact (stratifies clause member.1).1 name used
    · exact Nat.le_of_lt ((stratifies clause member.1).2 name negated)
  rcases Nat.lt_or_eq_of_le reached with lower | same
  · exact below name lower
  · refine undefined name fun ⟨definition, inside, heading⟩ => outside ⟨definition, ⟨inside, ?_⟩, heading⟩
    rw [heading, same]

/-- Stratified clauses have at most one model that is least in every stratum. -/
theorem leastModel_unique {level : ν → Nat} (stratifies : Stratifies level clauses)
    (left : ∀ height, LeastModel (stratumOf level clauses height) model)
    (right : ∀ height, LeastModel (stratumOf level clauses height) other)
    (undefined : ∀ name, name ∉ heads clauses → model name = other name) : model = other := by
  have upTo : ∀ height name, level name = height → model name = other name := by
    intro height
    induction height using Nat.strong_induction_on with
    | _ height ih =>
      intro name leveled
      by_cases defined : name ∈ heads clauses
      · obtain ⟨clause, member, heading⟩ := defined
        have here : name ∈ heads (stratumOf level clauses height) :=
          ⟨clause, ⟨member, by rw [heading, leveled]⟩, heading⟩
        refine Set.Subset.antisymm ?_ ?_
        · exact (left height).subset_of_below stratifies (right height).1.2 undefined
            (fun name lower => ih _ lower name rfl) here
        · exact (right height).subset_of_below stratifies (left height).1.2
            (fun name outside => (undefined name outside).symm)
            (fun name lower => (ih _ lower name rfl).symm) here
      · exact undefined name defined
  exact funext fun name => upTo (level name) name rfl

end Index.Lib
