import Index.DagRunner.Moves

/-! # How a node stands

What a node has published goes with how far it has come: nothing before its process is up or gone, and one verdict
afterwards, which never changes.  A node that has run found all its dependencies ready, and they stay so. -/

namespace Index.DagRunner

open Index.Lib State

variable {spec : Spec} {state next : State} {name : String} {node : NodeSpec} {action : Action} {change : Change}

/-- The outcome of a node and the verdict it goes with. -/
inductive Settled (node : NodeSpec) : Outcome → Option Readiness → Prop
  | skipped : Settled node .skipped (some .unavailable)
  | succeeded (task : node.isService = false) : Settled node .succeeded (some .ready)
  | failed {code : Nat} (task : node.isService = false) (unsuccessful : code ≠ 0) :
    Settled node (.failed code) (some .unavailable)
  | failedService {code : Nat} {verdict : Readiness} (service : node.isService = true) :
    Settled node (.failed code) (some verdict)
  | stopped {verdict : Readiness} (service : node.isService = true) : Settled node .stopped (some verdict)

/-- The verdict and the record of a node, by how far it has come. -/
inductive Stands (node : NodeSpec) : Option Readiness → Option Outcome → Phase → Prop
  | waiting {checked : Nat} : Stands node none none (.waiting checked)
  | starting {child : Child} : Stands node none none (.spawned .starting child)
  | up {child : Child} (service : node.isService = true) : Stands node (some .ready) none (.spawned .up child)
  | stoppingTask {child : Child} {code : Nat} (task : node.isService = false) (unsuccessful : code ≠ 0) :
    Stands node none none (.spawned (.stopping (.failed code)) child)
  | failing {child : Child} {code : Nat} {verdict : Readiness} (service : node.isService = true) :
    Stands node (some verdict) none (.spawned (.stopping (.failed code)) child)
  | stopping {child : Child} {verdict : Readiness} (service : node.isService = true) :
    Stands node (some verdict) none (.spawned (.stopping .stopped) child)
  | returned {outcome : Outcome} {verdict : Option Readiness} (settled : Settled node outcome verdict) :
    Stands node verdict none (.returned outcome)
  | done {outcome : Outcome} {verdict : Option Readiness} (settled : Settled node outcome verdict) :
    Stands node verdict (some outcome) .done

def State.Stands (state : State) (name : String) (node : NodeSpec) : Prop :=
  DagRunner.Stands node (state.verdict name) state.records[name]? (state.phase name)

theorem terminatedExitCode_ne_zero (reason : Reason) : reason.terminatedExitCode ≠ 0 := by
  cases reason <;> decide

section Step

variable {verdict : Option Readiness} {record : Option Outcome}

theorem Stands.withChild {stage : Stage} {child : Child} (stands : Stands node verdict record (.spawned stage child))
    (child' : Child) : Stands node verdict record (.spawned stage child') := by
  cases stands with
  | starting => exact .starting
  | up service => exact .up service
  | stoppingTask task unsuccessful => exact .stoppingTask task unsuccessful
  | failing service => exact .failing service
  | stopping service => exact .stopping service

theorem Stands.up_service {child : Child} (stands : Stands node verdict record (.spawned .up child)) : node.isService = true := by
  cases stands with
  | up service => exact service

theorem Stands.settled (stands : Stands node verdict record .done) : ∃ outcome, record = some outcome ∧ Settled node outcome verdict := by
  cases stands with
  | done settled => exact ⟨_, rfl, settled⟩

/-- A step publishes a verdict only if the node has published none, and leaves the node standing. -/
theorem Acts.stands (acts : Acts state name node action change) (stands : state.Stands name node) :
    (state.apply name change).Stands name node ∧ (change.verdict ≠ none → state.verdict name = none) := by
  rw [State.Stands] at stands ⊢
  rw [phase_apply_self, verdict_apply_self, records_apply]
  generalize recorded : state.records[name]? = record at stands ⊢
  generalize said : state.verdict name = verdict at stands ⊢
  cases acts with (rw [‹state.phase name = _›] at stands)
  | exits | closes =>
    exact ⟨stands.withChild _, fun spoke => absurd rfl spoke⟩
  | passes =>
    cases stands
    exact ⟨.waiting, fun _ => rfl⟩
  | refused | late =>
    cases stands
    exact ⟨.returned .skipped, fun _ => rfl⟩
  | spawns =>
    cases stands
    exact ⟨.starting, fun _ => rfl⟩
  | spawnFails =>
    cases stands
    refine ⟨.returned ?_, fun _ => rfl⟩
    cases service : node.isService with
    | true => exact .failedService service
    | false => exact .failed service (by decide)
  | @shutTask _ reason phase task =>
    cases stands
    exact ⟨.stoppingTask task (terminatedExitCode_ne_zero reason), fun _ => rfl⟩
  | shutStarting phase service =>
    cases stands
    exact ⟨.stopping service, fun _ => rfl⟩
  | shutUp =>
    cases stands with
    | up service => exact ⟨.stopping service, fun spoke => absurd rfl spoke⟩
  | timeoutTask phase task | loses phase task =>
    cases stands
    exact ⟨.stoppingTask task (by decide), fun _ => rfl⟩
  | timeoutService phase service =>
    cases stands
    exact ⟨.failing service, fun _ => rfl⟩
  | succeeds phase task =>
    cases stands
    exact ⟨.returned (.succeeded task), fun _ => rfl⟩
  | fails phase task _ _ _ unsuccessful =>
    cases stands
    exact ⟨.returned (.failed task unsuccessful), fun _ => rfl⟩
  | dies phase service =>
    cases stands
    exact ⟨.returned (.failedService service), fun _ => rfl⟩
  | leaves =>
    cases stands with
    | up service => exact ⟨.returned (.failedService service), fun spoke => absurd rfl spoke⟩
  | death =>
    cases stands with
    | up service => exact ⟨.failing service, fun spoke => absurd rfl spoke⟩
  | probe phase service =>
    cases stands
    exact ⟨.up service, fun _ => rfl⟩
  | stopped =>
    cases stands with
    | stoppingTask task unsuccessful =>
      simp only [returns, task]
      exact ⟨.returned (.failed task unsuccessful), fun _ => trivial⟩
    | failing service =>
      simp only [returns, service, if_true]
      exact ⟨.returned (.failedService service), fun spoke => absurd rfl spoke⟩
    | stopping service =>
      simp only [returns, service, if_true]
      exact ⟨.returned (.stopped service), fun spoke => absurd rfl spoke⟩

theorem stands_insertRecord {outcome : Outcome} (phase : state.phase name = .returned outcome)
    (stands : state.Stands name node) : (state.insertRecord name node outcome).Stands name node := by
  rw [State.Stands, phase] at stands
  rw [State.Stands, phase_insertRecord_self, verdict_insertRecord, records_insertRecord_self]
  generalize state.records[name]? = record at stands
  generalize state.verdict name = verdict at stands ⊢
  cases stands with
  | returned settled => exact .done settled

end Step

/-! ## Outcomes -/

/-- The outcome of a node, from the moment it is decided. -/
def State.outcome (state : State) (name : String) : Option Outcome :=
  match state.phase name with
  | .spawned (.stopping outcome) _ => some outcome
  | .returned outcome => some outcome
  | .done => state.records[name]?
  | _ => none

/-- A node that has spawned its process, or has come to the point. -/
def State.Ran (state : State) (name : String) : Prop :=
  (∃ stage child, state.phase name = .spawned stage child) ∨ ∃ outcome, state.outcome name = some outcome ∧ outcome ≠ .skipped

theorem Acts.outcome (acts : Acts state name node action change) {outcome : Outcome} (decided : state.outcome name = some outcome) :
    (state.apply name change).outcome name = some outcome := by
  rw [State.outcome] at decided ⊢
  rw [phase_apply_self]
  cases acts with
  | @exits stage _ _ phase | @closes stage _ phase =>
    rw [phase] at decided
    cases stage <;> exact decided
  | stopped phase => simpa only [phase, returns] using decided
  | passes phase | refused phase | late phase | spawns phase | spawnFails phase | shutTask phase | shutStarting phase
  | shutUp phase | timeoutTask phase | timeoutService phase | succeeds phase | fails phase | loses phase | dies phase
  | leaves phase | death phase | probe phase => simp [phase] at decided

/-- A node in the middle of its way is not done, and no step of its own makes it so. -/
theorem Acts.not_done (acts : Acts state name node action change) : state.phase name ≠ .done ∧ change.phase ≠ .done := by
  cases acts <;> simp_all [neverRan, returns]

/-- Every node of the spec stands as it should. -/
def Standing (spec : Spec) (state : State) : Prop :=
  ∀ (name : String) (node : NodeSpec), spec[name]? = some node → state.Stands name node

theorem standing_step {event : Event} (standing : Standing spec state) (steps : Steps spec state event next) :
    Standing spec next := by
  intro other otherNode otherKnown
  have stands := standing other otherNode otherKnown
  cases steps.atNode other with
  | away phase verdict records =>
    rw [State.Stands, phase, verdict, records]
    exact stands
  | acts known acts =>
    cases known.symm.trans otherKnown
    exact (acts.stands stands).1
  | record known phase =>
    cases known.symm.trans otherKnown
    exact stands_insertRecord phase stands

/-- A verdict once published stays. -/
theorem verdict_step {event : Event} (standing : Standing spec state) (steps : Steps spec state event next) {dep : String}
    {verdict : Readiness} (said : state.verdict dep = some verdict) : next.verdict dep = some verdict := by
  cases steps.atNode dep with
  | away _ verdict => rwa [verdict]
  | @acts node action change known acts =>
    have once := (acts.stands (standing dep node known)).2
    have silent : change.verdict = none := by
      by_contra spoke
      exact absurd (said.symm.trans (once spoke)) nofun
    rw [verdict_apply_self, silent, Option.none_or]
    exact said
  | record => exact said

/-- An outcome once decided stays. -/
theorem outcome_step {event : Event} (steps : Steps spec state event next) {other : String} {outcome : Outcome}
    (decided : state.outcome other = some outcome) : next.outcome other = some outcome := by
  cases steps.atNode other with
  | away phase _ records => rwa [State.outcome, phase, records]
  | acts _ acts => exact acts.outcome decided
  | record _ phase =>
    rw [State.outcome, phase] at decided
    rw [State.outcome, phase_insertRecord_self, records_insertRecord_self]
    exact decided

/-- A reason once given stays. -/
theorem reason_step {event : Event} (steps : Steps spec state event next) {reason : Reason}
    (given : state.reason = some reason) : next.reason = some reason := by
  cases steps with
  | cancel => simp [given]
  | node => simp [given]
  | record => exact reason_insertRecord.elim (fun same => same.trans given) fun drained => by simp [given] at drained

end Index.DagRunner
