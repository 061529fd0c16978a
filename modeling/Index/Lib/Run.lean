import Mathlib.Logic.Basic

/-! # Runs of a machine

A machine takes events one after the other; an event that its state does not admit has no step.  A property of
every state of a run follows from one step, also when only those steps are looked at whose event came in a
state that was good for it. -/

namespace Index.Lib

open List

variable {σ ε : Type*} {step : σ → ε → Option σ}

/-- The state after a list of events. -/
def run (step : σ → ε → Option σ) (start : σ) (events : List ε) : Option σ := events.foldlM step start

/-- Every event of a run comes in a state that is good for it. -/
def Along (step : σ → ε → Option σ) (good : σ → ε → Prop) : σ → List ε → Prop
  | _, [] => True
  | state, event :: events => good state event ∧ ∀ next ∈ step state event, Along step good next events

instance Along.decidable (good : σ → ε → Prop) [∀ state, DecidablePred (good state)] :
    ∀ state events, Decidable (Along step good state events)
  | _, [] => inferInstanceAs (Decidable True)
  | state, event :: events =>
    match h : step state event with
    | none => decidable_of_iff (good state event) (by simp [Along, h])
    | some next =>
      have := Along.decidable good next events
      decidable_of_iff (good state event ∧ Along step good next events) (by simp [Along, h])

variable {start final : σ} {event : ε} {events : List ε}

theorem run_cons :
    run step start (event :: events) = some final ↔ ∃ next, step start event = some next ∧ run step next events = some final := by
  exact Option.bind_eq_some_iff

theorem run_append {before after : List ε} : run step start (before ++ after) = some final ↔
      ∃ middle, run step start before = some middle ∧ run step middle after = some final := by
  rw [run, foldlM_append]
  exact Option.bind_eq_some_iff

/-- A run can be checked by running it. -/
theorem exists_run (step : σ → ε → Option σ) (start : σ) (events : List ε) (holds : σ → Prop) [DecidablePred holds]
    (checked : (run step start events).any (fun final => decide (holds final)) = true) :
    ∃ final, run step start events = some final ∧ holds final := by
  obtain ⟨final, ran, held⟩ := (Option.any_eq_true _ _).mp checked
  exact ⟨final, ran, of_decide_eq_true held⟩

theorem along_true (start : σ) (events : List ε) : Along step (fun _ _ => True) start events := by
  induction events generalizing start with
  | nil => trivial
  | cons event events ih => exact ⟨trivial, fun next _ => ih next⟩

variable {good : σ → ε → Prop}

/-- What holds at the start and is kept by every good step holds at the end of a good run. -/
theorem invariant_of_along {invariant : σ → Prop}
    (kept : ∀ state event next, invariant state → good state event → step state event = some next → invariant next)
    (initially : invariant start) (along : Along step good start events) (ran : run step start events = some final) :
    invariant final := by
  induction events generalizing start with
  | nil =>
    obtain rfl : start = final := Option.some.inj ran
    exact initially
  | cons event events ih =>
    obtain ⟨next, stepped, rest⟩ := run_cons.mp ran
    exact ih (kept start event next initially along.1 stepped) (along.2 next stepped) rest

/-- What holds at the start and is kept by every step holds at the end of a run. -/
theorem invariant_of_run (invariant : σ → Prop)
    (kept : ∀ state event next, invariant state → step state event = some next → invariant next) (initially : invariant start)
    (ran : run step start events = some final) : invariant final :=
  invariant_of_along (fun state event next held _ => kept state event next held) initially (along_true start events) ran

/-- Where every step uses something up, a run is no longer than what there was of it. -/
theorem length_le_of_decreasing (measure : σ → Nat) (decreases : ∀ state event next, step state event = some next →
    measure next < measure state) (ran : run step start events = some final) : events.length ≤ measure start := by
  induction events generalizing start with
  | nil => exact Nat.zero_le _
  | cons event events ih =>
    obtain ⟨next, stepped, rest⟩ := run_cons.mp ran
    have := decreases start event next stepped
    have := ih rest
    rw [length_cons]
    omega

/-! ## The past of a run -/

/-- In the course of a run an event of some kind came in a state of some kind. -/
def Happened (step : σ → ε → Option σ) (start : σ) (events : List ε) (what : σ → ε → Prop) : Prop :=
  ∃ before event after state, events = before ++ event :: after ∧ run step start before = some state ∧ what state event

/-- Where an item of a longer list is: at its end or in the list before. -/
theorem concat_eq_split {items before after : List ε} {item new : ε} (same : items ++ [item] = before ++ new :: after) :
    after = [] ∧ before = items ∧ new = item ∨ ∃ shorter, after = shorter ++ [item] ∧ items = before ++ new :: shorter := by
  rcases eq_nil_or_concat after with rfl | ⟨shorter, last, rfl⟩
  · obtain ⟨rfl, last⟩ := append_inj' same rfl
    exact .inl ⟨rfl, rfl, (List.cons.inj last).1.symm⟩
  · rw [concat_eq_append, ← cons_append, ← append_assoc] at same
    obtain ⟨rfl, last⟩ := append_inj' same rfl
    obtain rfl := (List.cons.inj last).1
    exact .inr ⟨shorter, concat_eq_append, rfl⟩

variable {what : σ → ε → Prop}

theorem not_happened_nil : ¬ Happened step start [] what := by
  rintro ⟨before, event, after, _, split, -⟩
  simp at split

theorem happened_concat {state : σ} {past : List ε} (ran : run step start past = some state) :
    Happened step start (past ++ [event]) what ↔ Happened step start past what ∨ what state event := by
  constructor
  · rintro ⟨before, other, after, middle, split, reached, held⟩
    rcases concat_eq_split split with ⟨-, rfl, rfl⟩ | ⟨shorter, -, isPast⟩
    · cases ran.symm.trans reached
      exact .inr held
    · exact .inl ⟨before, other, shorter, middle, isPast, reached, held⟩
  · rintro (⟨before, other, after, middle, rfl, reached, held⟩ | held)
    · exact ⟨before, other, after ++ [event], middle, by simp, reached, held⟩
    · exact ⟨past, event, [], state, rfl, ran, held⟩

/-- An invariant may speak of the events so far. -/
theorem invariant_of_past (invariant : List ε → σ → Prop)
    (kept : ∀ past state event next, run step start past = some state → invariant past state → good state event →
      step state event = some next → invariant (past ++ [event]) next) (initially : invariant [] start)
    (along : Along step good start events) (ran : run step start events = some final) : invariant events final := by
  suffices general : ∀ events past state, run step start past = some state → invariant past state →
      Along step good state events → run step state events = some final → invariant (past ++ events) final from
    general events [] start rfl initially along ran
  intro events
  induction events with
  | nil =>
    intro past state _ held _ ran
    obtain rfl : state = final := Option.some.inj ran
    simpa using held
  | cons event events ih =>
    intro past state reached held along ran
    obtain ⟨next, stepped, rest⟩ := run_cons.mp ran
    have onward : run step start (past ++ [event]) = some next :=
      run_append.mpr ⟨state, reached, run_cons.mpr ⟨next, stepped, rfl⟩⟩
    simpa using ih (past ++ [event]) next onward (kept past state event next reached held along.1 stepped) (along.2 next stepped) rest

/-- What holds of all events can be asked of each of them. -/
theorem Along.and_forall {other : ε → Prop} (along : Along step good start events) (all : ∀ event ∈ events, other event) :
    Along step (fun state event => good state event ∧ other event) start events := by
  induction events generalizing start with
  | nil => trivial
  | cons event events ih =>
    obtain ⟨first, rest⟩ := forall_mem_cons.mp all
    exact ⟨⟨along.1, first⟩, fun next stepped => ih (along.2 next stepped) rest⟩

/-- A run shows a property in all its states exactly if all its events are good, where a bad event breaks the property
and good ones keep an invariant that gives it. -/
theorem forall_prefix_iff_along (invariant : σ → Prop) {holds : σ → Prop} (gives : ∀ state, invariant state → holds state)
    (kept : ∀ state event next, invariant state → good state event → step state event = some next → invariant next)
    (broken : ∀ state event, invariant state → ¬ good state event → ∃ next, step state event = some next ∧ ¬ holds next)
    (initially : invariant start) : (∀ before, before <+: events → ∀ state, run step start before = some state → holds state) ↔
      Along step good start events := by
  constructor
  · intro always
    induction events generalizing start with
    | nil => trivial
    | cons event events ih =>
      have fine : good start event := by
        refine Classical.byContradiction fun bad => ?_
        obtain ⟨next, stepped, fails⟩ := broken start event initially bad
        exact fails (always [event] (by simp) next (run_cons.mpr ⟨next, stepped, rfl⟩))
      refine ⟨fine, fun next stepped => ih (kept start event next initially fine stepped) fun before leads state ran => ?_⟩
      exact always (event :: before) (cons_prefix_cons.mpr ⟨rfl, leads⟩) state (run_cons.mpr ⟨next, stepped, ran⟩)
  · rintro along before ⟨after, rfl⟩ state ran
    refine gives state (invariant_of_along kept initially ?_ ran)
    induction before generalizing start with
    | nil => trivial
    | cons event before ih =>
      obtain ⟨next, stepped, rest⟩ := run_cons.mp ran
      refine ⟨along.1, fun other otherStepped => ?_⟩
      obtain rfl : next = other := Option.some.inj (stepped.symm.trans otherStepped)
      exact ih (kept start event next initially along.1 stepped) (along.2 next stepped) rest

end Index.Lib
