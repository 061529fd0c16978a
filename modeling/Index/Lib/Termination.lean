import Mathlib.Data.DFinsupp.WellFounded
import Mathlib.Logic.Relation
import Mathlib.Order.WellFounded

/-! # Termination of a system under every scheduling

A system terminates if it takes no infinite number of moves and can always go on until it is final.  The first is shown
with a list of ranks: a move lowers one of them and raises none before it. -/

namespace Index.Lib

variable {σ : Type*} {moves : σ → σ → Prop}

/-- However its moves are scheduled, the system comes to a final state. -/
def Terminates (moves : σ → σ → Prop) (final : σ → Prop) (start : σ) : Prop :=
  (∀ run : Nat → σ, run 0 = start → ¬ ∀ n, moves (run n) (run (n + 1))) ∧
    ∀ state, Relation.ReflTransGen moves start state → (∀ next, ¬ moves state next) → final state

/-- The first rank that a move lowers decides. -/
theorem wellFounded_of_ranks (count : Nat) (rank : Nat → σ → Nat)
    (lowers : ∀ state next, moves state next → ∃ i < count, rank i next < rank i state ∧ ∀ j < i, rank j next ≤ rank j state) :
    WellFounded fun next state => moves state next := by
  let ranks (state : σ) (i : Fin count) : Nat := rank i state
  have lex : WellFounded (@Pi.Lex (Fin count) (fun _ => Nat) (· < ·) fun {_} => (· < ·)) :=
    Pi.Lex.wellFounded (· < ·) fun _ => wellFounded_lt
  refine Subrelation.wf ?_ (InvImage.wf ranks lex)
  intro next state move
  obtain ⟨i, inside, lower, before⟩ := lowers state next move
  -- Among the ranks up to this one, take the first that is lower.
  have some_lower : ∃ i, i < count ∧ rank i next < rank i state := ⟨i, inside, lower⟩
  have least := Nat.find_spec some_lower
  refine ⟨⟨Nat.find some_lower, least.1⟩, fun j earlier => ?_, least.2⟩
  have least_le : Nat.find some_lower ≤ i := Nat.find_min' some_lower ⟨inside, lower⟩
  have equal_or := before j (Nat.lt_of_lt_of_le earlier least_le)
  have not_lower := Nat.find_min some_lower earlier
  have : ¬ rank j next < rank j state := fun less => not_lower ⟨j.2, less⟩
  exact Nat.le_antisymm equal_or (Nat.le_of_not_lt this)

theorem exists_stuck (finite : WellFounded fun next state => moves state next) (start : σ) :
    ∃ state, Relation.ReflTransGen moves start state ∧ ∀ next, ¬ moves state next := by
  induction start using finite.induction with
  | _ start ih =>
    by_cases stuck : ∀ next, ¬ moves start next
    · exact ⟨start, .refl, stuck⟩
    · push Not at stuck
      obtain ⟨next, move⟩ := stuck
      obtain ⟨state, reached, stuck⟩ := ih next move
      exact ⟨state, .head move reached, stuck⟩

theorem terminates_of_wellFounded {final : σ → Prop} (finite : WellFounded fun next state => moves state next) {start : σ}
    (progress : ∀ state, Relation.ReflTransGen moves start state → ¬ final state → ∃ next, moves state next) :
    Terminates moves final start := by
  refine ⟨fun run _ always => ?_, fun state reached stuck => ?_⟩
  · have : IsWellFounded σ fun next state => moves state next := ⟨finite⟩
    obtain ⟨n, ends⟩ := @WellFounded.not_rel_apply_succ σ (fun next state => moves state next) this run
    exact ends (always n)
  · by_contra unfinished
    obtain ⟨next, move⟩ := progress state reached unfinished
    exact stuck next move

end Index.Lib
