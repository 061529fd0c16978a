import Mathlib
import Index.DagRunner.Ending

/-! # Why a node does not run to its end

A node that is skipped or terminated has a cause: the operator, a service that failed, a node it depends on that
failed, or, for a service, that no task is left.  A task that fails is no cause for a task that does not depend on it;
but it may be the one whose failure settles the last tasks, and then the services go down with the run. -/

namespace Index.DagRunner

open Index.Lib State Option

variable {spec : Spec} {start state next final : State} {name : String} {node : NodeSpec} {event : Event} {past : List Event}

/-! ## Deciding an outcome -/

/-- How the outcome of a node can be decided. -/
inductive Decides (state : State) (name : String) (node : NodeSpec) (change : Change) : Action → Outcome → Prop
  | refused {checked : Nat} {dep : String} (phase : state.phase name = .waiting checked)
    (reads : node.dependsOn[checked]? = some dep)
    (verdict : state.verdict dep = some .unavailable ∨ state.verdict dep = none ∧ state.phase dep = .done) :
    Decides state name node change .awaits .skipped
  | late {checked : Nat} {spawns : Bool} (phase : state.phase name = .waiting checked) (down : state.reason ≠ none) :
    Decides state name node change (.turn spawns) .skipped
  | shut (down : state.reason ≠ none) : Decides state name node change .shut .stopped
  | shutTask {code : Nat} (task : node.isService = false) (down : state.reason ≠ none) :
    Decides state name node change .shut (.failed code)
  | succeeded {action : Action} : Decides state name node change action .succeeded
  | failed {action : Action} {code : Nat} (running : state.reason = none)
    (aborts : node.isService = true → change.reason = some .aborted) : Decides state name node change action (.failed code)

variable {action : Action} {change : Change} {outcome : Outcome}

theorem Acts.decides (acts : Acts state name node action change) (undecided : state.outcome name = none)
    (decided : (state.apply name change).outcome name = some outcome) :
    Decides state name node change action outcome := by
  rw [State.outcome, phase_apply_self] at decided
  cases acts with
  | @exits stage _ _ phase | @closes stage _ phase =>
    rw [State.outcome, phase] at undecided
    cases stage <;> simp_all
  | passes => simp at decided
  | refused phase reads verdict =>
    obtain rfl : .skipped = outcome := by simpa [neverRan] using decided
    exact .refused phase reads verdict
  | late phase turn down =>
    obtain rfl : .skipped = outcome := by simpa [neverRan] using decided
    exact .late phase down
  | spawns => simp at decided
  | shutTask phase task down =>
    obtain rfl := Option.some.inj decided
    exact .shutTask task (by simp [down])
  | shutStarting phase service down | shutUp phase down =>
    obtain rfl := Option.some.inj decided
    exact .shut down
  | spawnFails phase turn running =>
    obtain rfl := Option.some.inj decided
    exact .failed running fun service => if_pos service
  | timeoutTask phase task running | fails phase task running | loses phase task running =>
    obtain rfl := Option.some.inj decided
    exact .failed running fun service => absurd service (by simp [task])
  | timeoutService phase _ running | dies phase _ running | leaves phase running | death phase running =>
    obtain rfl := Option.some.inj decided
    exact .failed running fun _ => rfl
  | succeeds =>
    obtain rfl := Option.some.inj decided
    exact .succeeded
  | probe => simp at decided
  | stopped phase => simp [State.outcome, phase] at undecided

/-- Whoever asks for a shutdown is a service that fails. -/
theorem Acts.aborts (acts : Acts state name node action change) (stands : state.Stands name node) (asks : change.reason ≠ none) :
    node.isService = true ∧ state.reason = none ∧ state.outcome name = none ∧
      ∃ code, (state.apply name change).outcome name = some (.failed code) := by
  simp only [State.outcome, phase_apply_self]
  cases acts with
  | spawnFails phase turn running =>
    have service : node.isService = true := by
      by_contra task
      simp [task] at asks
    exact ⟨service, running, by simp [phase], 127, rfl⟩
  | timeoutService phase service running | dies phase service running => exact ⟨service, running, by simp [phase], _, rfl⟩
  | leaves phase running | death phase running =>
    rw [State.Stands, phase] at stands
    exact ⟨stands.up_service, running, by simp [phase], _, rfl⟩
  | _ => exact absurd rfl asks

/-! ## The past -/

/-- It is the turn of a node, and the group is already on its way down. -/
def Late (name : String) (state : State) (event : Event) : Prop :=
  (∃ spawns, event = .node name (.turn spawns)) ∧ state.reason ≠ none

/-- The outcome of a node is decided as a failure, while nobody has asked for a shutdown. -/
def Fails (spec : Spec) (name : String) (state : State) (event : Event) : Prop :=
  state.reason = none ∧ state.outcome name = none ∧
    ∃ next code, step spec state event = some next ∧ next.outcome name = some (.failed code)

/-- A node has failed in the course of a run. -/
def HasFailed (spec : Spec) (start : State) (past : List Event) (name : String) : Prop :=
  Happened (step spec) start past (Fails spec name)

structure Caused (spec : Spec) (start : State) (past : List Event) (state : State) : Prop where
  scheduled : Scheduled spec state
  late : ∀ name, Happened (step spec) start past (Late name) → state.outcome name = some .skipped
  skipped : ∀ (name : String) (node : NodeSpec), spec[name]? = some node → state.outcome name = some .skipped →
    (∃ dep ∈ node.dependsOn, state.verdict dep = some .unavailable) ∨ Happened (step spec) start past (Late name)
  blamed : ∀ (name : String) (node : NodeSpec) (outcome : Outcome), spec[name]? = some node →
    state.outcome name = some outcome → outcome ≠ .succeeded →
    state.reason ≠ none ∨ ∃ culprit, (culprit = name ∨ spec.DependsOn name culprit) ∧ HasFailed spec start past culprit
  aborted : state.reason = some .aborted → ∃ (culprit : String) (node : NodeSpec), spec[culprit]? = some node ∧
    node.isService = true ∧ HasFailed spec start past culprit
  counted : ∀ name, past.count (.record name) = if state.phase name = .done then 1 else 0

/-- A refusal comes from a dependency that has published its verdict. -/
theorem Standing.unavailable (standing : Standing spec state) (valid : Valid spec) (known : spec[name]? = some node)
    {checked : Nat} {dep : String} (reads : node.dependsOn[checked]? = some dep)
    (refuses : state.verdict dep = some .unavailable ∨ state.verdict dep = none ∧ state.phase dep = .done) :
    spec.Needs name dep ∧ state.verdict dep = some .unavailable ∧
      ∃ node outcome, spec[dep]? = some node ∧ state.outcome dep = some outcome ∧ outcome ≠ .succeeded := by
  have needed := Spec.needs_of_getElem? known reads
  obtain ⟨depNode, found⟩ := BTreeMap.mem_iff.mp (valid.known name dep needed)
  have stands := standing dep depNode found
  refine ⟨needed, ?_⟩
  simp only [found, Option.some.injEq, exists_and_left, exists_eq_left']
  rw [State.Stands] at stands
  rw [State.outcome]
  generalize state.verdict dep = verdict at stands refuses ⊢
  generalize state.records[dep]? = record at stands ⊢
  generalize state.phase dep = phase at stands refuses ⊢
  cases phase with
  | waiting =>
    cases stands
    simp at refuses
  | spawned stage child => cases stands <;> simp_all
  | returned outcome =>
    cases stands with
    | returned settled => cases settled <;> simp_all
  | done =>
    cases stands with
    | done settled => cases settled <;> simp_all

variable {other : String}

/-- An outcome is decided by a step of the node itself. -/
theorem Steps.decides (steps : Steps spec state event next) (decided : next.outcome name = some outcome) :
    state.outcome name = some outcome ∨ state.outcome name = none ∧ ∃ node action change, spec[name]? = some node ∧
      event = .node name action ∧ next = state.apply name change ∧ Decides state name node change action outcome := by
  cases before : state.outcome name with
  | some earlier => exact .inl ((outcome_step steps before).symm.trans decided)
  | none =>
    refine .inr ⟨rfl, ?_⟩
    cases steps.atNode name with
    | away phase _ records =>
      rw [State.outcome, phase, records, ← State.outcome, before] at decided
      cases decided
    | acts known acts => exact ⟨_, _, _, known, rfl, rfl, acts.decides before decided⟩
    | record _ phase => simp [State.outcome, phase] at before

theorem Acts.reason (acts : Acts state name node action change) : change.reason = none ∨ change.reason = some .aborted := by
  cases acts with
  | spawnFails =>
    cases service : node.isService
    · exact .inl rfl
    · exact .inr rfl
  | timeoutService | dies | leaves | death => exact .inr rfl
  | _ => exact .inl rfl

/-- Who asks for a shutdown first. -/
inductive Asks (spec : Spec) (state : State) : Event → State → Reason → Prop
  | cancels {next : State} : Asks spec state .cancel next .cancelled
  | aborts {name : String} {node : NodeSpec} {action : Action} {change : Change} (known : spec[name]? = some node)
    (acts : Acts state name node action change) (asks : change.reason ≠ none) :
    Asks spec state (.node name action) (state.apply name change) .aborted
  | drains {task : String} {node : NodeSpec} {outcome : Outcome} (known : spec[task]? = some node)
    (isTask : node.isService = false) (last : state.remaining = 1) :
    Asks spec state (.record task) (state.insertRecord task node outcome) .drained

theorem Steps.asks (steps : Steps spec state event next) {reason : Reason} (given : next.reason = some reason) :
    state.reason = some reason ∨ state.reason = none ∧ Asks spec state event next reason := by
  cases before : state.reason with
  | some earlier => exact .inl ((reason_step steps before).symm.trans given)
  | none =>
    refine .inr ⟨rfl, ?_⟩
    cases steps with
    | cancel =>
      simp only [before, none_or, some.injEq] at given
      exact given ▸ .cancels
    | node known acts =>
      rw [reason_apply, before, none_or] at given
      rcases acts.reason with silent | aborts
      · cases silent.symm.trans given
      · cases aborts.symm.trans given
        exact .aborts known acts (by simp [given])
    | @record task node outcome known =>
      rcases @reason_insertRecord state task node outcome with same | ⟨isTask, last, -, drained⟩
      · simp [same, before] at given
      · cases drained.symm.trans given
        exact .drains known isTask last

theorem reason_ne_none_step (steps : Steps spec state event next) (given : state.reason ≠ none) : next.reason ≠ none := by
  obtain ⟨reason, given⟩ := ne_none_iff_exists'.mp given
  simp [reason_step steps given]

/-- A turn that comes late skips the node. -/
theorem outcome_of_late (steps : Steps spec state event next) (late : Late name state event) :
    next.outcome name = some .skipped := by
  obtain ⟨⟨spawns, rfl⟩, down⟩ := late
  cases steps with
  | node known acts =>
    cases acts with
    | late => simp [State.outcome, neverRan]
    | spawns _ _ running => exact absurd running down
    | spawnFails _ _ running => exact absurd running down

/-- Whoever is to blame for a dependency is to blame for the node. -/
theorem Caused.refused (caused : Caused spec start past state) (valid : Valid spec) (known : spec[name]? = some node)
    {checked : Nat} {dep : String} (reads : node.dependsOn[checked]? = some dep)
    (refuses : state.verdict dep = some .unavailable ∨ state.verdict dep = none ∧ state.phase dep = .done) :
    state.reason ≠ none ∨ ∃ culprit, spec.DependsOn name culprit ∧ HasFailed spec start past culprit := by
  obtain ⟨needed, -, depNode, outcome, found, settled, unsuccessful⟩ :=
    caused.scheduled.standing.unavailable valid known reads refuses
  refine (caused.blamed dep depNode outcome found settled unsuccessful).imp_right ?_
  rintro ⟨culprit, rfl | blamed, failed⟩
  · exact ⟨culprit, .single needed, failed⟩
  · exact ⟨culprit, blamed.head needed, failed⟩

theorem Caused.step (valid : Valid spec) (caused : Caused spec start past state)
    (reached : run (step spec) start past = some state) (stepped : step spec state event = some next) :
    Caused spec start (past ++ [event]) next := by
  have steps := steps_of_step stepped
  have failedBefore : ∀ {culprit}, HasFailed spec start past culprit → HasFailed spec start (past ++ [event]) culprit :=
    fun failed => (happened_concat reached).mpr (.inl failed)
  refine ⟨caused.scheduled.step steps, fun name late => ?_, fun name node known skipped => ?_,
    fun name node outcome known decided unsuccessful => ?_, fun aborted => ?_, fun name => ?_⟩
  · rcases (happened_concat reached).mp late with before | now
    · exact outcome_step steps (caused.late name before)
    · exact outcome_of_late steps now
  · rcases steps.decides skipped with before | ⟨-, _, _, _, known', rfl, -, decides⟩
    · rcases caused.skipped name node known before with ⟨dep, member, unavailable⟩ | late
      · exact .inl ⟨dep, member, verdict_step caused.scheduled.standing steps unavailable⟩
      · exact .inr ((happened_concat reached).mpr (.inl late))
    · cases known.symm.trans known'
      cases decides with
      | refused _ reads verdict =>
        obtain ⟨-, unavailable, -⟩ := caused.scheduled.standing.unavailable valid known reads verdict
        exact .inl ⟨_, List.mem_of_getElem? reads, verdict_step caused.scheduled.standing steps unavailable⟩
      | late _ down => exact .inr ((happened_concat reached).mpr (.inr ⟨⟨_, rfl⟩, down⟩))
  · rcases steps.decides decided with before | ⟨undecided, _, _, _, known', rfl, -, decides⟩
    · rcases caused.blamed name node _ known before unsuccessful with down | ⟨culprit, blamed, failed⟩
      · exact .inl (reason_ne_none_step steps down)
      · exact .inr ⟨culprit, blamed, failedBefore failed⟩
    · cases known.symm.trans known'
      cases decides with
      | refused _ reads verdict =>
        rcases caused.refused valid known reads verdict with down | ⟨culprit, depends, failed⟩
        · exact .inl (reason_ne_none_step steps down)
        · exact .inr ⟨culprit, .inr depends, failedBefore failed⟩
      | late _ down | shut down | shutTask _ down => exact .inl (reason_ne_none_step steps down)
      | succeeded => exact absurd rfl unsuccessful
      | failed running =>
        exact .inr ⟨name, .inl rfl, (happened_concat reached).mpr (.inr ⟨running, undecided, _, _, stepped, decided⟩)⟩
  · rcases steps.asks aborted with given | ⟨running, asks⟩
    · obtain ⟨culprit, node, known, service, failed⟩ := caused.aborted given
      exact ⟨culprit, node, known, service, failedBefore failed⟩
    · cases asks with
      | @aborts name node _ _ known acts asks =>
        obtain ⟨service, -, undecided, code, decided⟩ := acts.aborts (caused.scheduled.standing name node known) asks
        exact ⟨name, node, known, service,
          (happened_concat reached).mpr (.inr ⟨running, undecided, _, code, stepped, decided⟩)⟩
  · rw [List.count_append, List.count_singleton, caused.counted name]
    cases steps with
    | cancel => simp
    | @node other node action change known acts =>
      by_cases same : name = other
      · subst same
        simp [acts.not_done]
      · rw [phase_apply_of_ne same]
        simp
    | @record other node outcome known phase =>
      by_cases same : name = other
      · subst same
        simp [phase]
      · rw [phase_insertRecord_of_ne same]
        simp [Ne.symm same]

theorem caused_of_run (valid : Valid spec) (launched : launch spec = some start)
    (ran : run (step spec) start past = some state) : Caused spec start past state := by
  refine invariant_of_past (Caused spec start)
    (fun past state event next reached caused _ stepped => caused.step valid reached stepped) ?_ (along_true start past) ran
  have scheduled := scheduled_launch launched
  obtain rfl := eq_of_launch launched
  refine ⟨scheduled, fun _ late => absurd late not_happened_nil, ?_, ?_, nofun, by simp⟩
  · simp [State.outcome]
  · simp [State.outcome]

/-! ## What every run keeps to -/

/-- The step spawns the process of a node. -/
def Spawns (name : String) (state next : State) : Prop :=
  (∃ checked, state.phase name = .waiting checked) ∧ ∃ stage child, next.phase name = .spawned stage child

/-- The step skips a node, or begins to terminate it because of a shutdown. -/
def Cuts (name : String) (state : State) (event : Event) (next : State) : Prop :=
  (∃ checked, state.phase name = .waiting checked) ∧ next.phase name = .returned .skipped ∨ event = .node name .shut

/-- Why a node may be cut. -/
inductive Cause (spec : Spec) (start : State) (past : List Event) (state : State) (name : String) : Prop
  | cancelled (reason : state.reason = some .cancelled)
  | aborted (reason : state.reason = some .aborted) (culprit : String) (node : NodeSpec) (known : spec[culprit]? = some node)
    (service : node.isService = true) (failed : HasFailed spec start past culprit)
  | dependency (culprit : String) (depends : spec.DependsOn name culprit) (failed : HasFailed spec start past culprit)
  | drained (reason : state.reason = some .drained) (node : NodeSpec) (known : spec[name]? = some node)
    (service : node.isService = true)
    (settled : ∀ (task : String) (node : NodeSpec), spec[task]? = some node → node.isService = false → state.phase task = .done)

/-- What holds of a run from its start to a state. -/
structure Orderly (spec : Spec) (start : State) (past : List Event) (state : State) : Prop where
  /-- A node is spawned only when all its dependencies are ready and nobody has asked for a shutdown. -/
  spawned : ∀ event next name, step spec state event = some next → Spawns name state next →
    state.reason = none ∧ ∀ dep ∈ spec.dependsOn name, state.verdict dep = some .ready
  /-- No run goes on for ever. -/
  bounded : past.length ≤ bound spec
  /-- Where no process is left running, nobody holds a stream open and the runner can do nothing more, the run is over. -/
  finished : Exited state → (∀ event, event.Inside → step spec state event = none) → Finished spec state
  /-- When the run is over, every node has left one record. -/
  recorded : Finished spec state → ∀ name : String,
    (name ∈ spec → past.count (.record name) = 1 ∧ name ∈ state.records) ∧ (name ∉ spec → name ∉ state.records)
  /-- A node is skipped for a dependency that is not ready or for a shutdown, and for nothing else. -/
  skipped : Finished spec state → ∀ name : String, name ∈ spec → (state.records[name]? = some .skipped ↔
    (∃ dep ∈ spec.dependsOn name, state.verdict dep ≠ some .ready) ∨ Happened (step spec) start past (Late name))
  /-- The first reason for a shutdown is the one that stays. -/
  reason : ∀ after later reason, state.reason = some reason → run (step spec) state after = some later →
    later.reason = some reason
  /-- No node is cut without a cause. -/
  caused : ∀ event next name, step spec state event = some next → Cuts name state event next → Cause spec start past state name

theorem Caused.cause (caused : Caused spec start past state) (known : spec[name]? = some node)
    (unsettled : state.phase name ≠ .done)
    (why : state.reason ≠ none ∨ ∃ culprit, spec.DependsOn name culprit ∧ HasFailed spec start past culprit) :
    Cause spec start past state name := by
  rcases why with down | ⟨culprit, depends, failed⟩
  · obtain ⟨reason, given⟩ := ne_none_iff_exists'.mp down
    cases reason with
    | cancelled => exact .cancelled given
    | aborted =>
      obtain ⟨culprit, node, known, service, failed⟩ := caused.aborted given
      exact .aborted given culprit node known service failed
    | drained =>
      have settled := caused.scheduled.drained given
      have all : ∀ (task : String) (node : NodeSpec), spec[task]? = some node → node.isService = false → state.phase task = .done := by
        intro task node found isTask
        by_contra open_
        have member : (task, node) ∈ pending spec state := mem_pending.mpr ⟨found, isTask, open_⟩
        simp [settled] at member
      have service : node.isService = true := by
        by_contra task
        exact unsettled (all name node known (Bool.eq_false_iff.mpr task))
      exact .drained given node known service all
  · exact .dependency culprit depends failed

theorem Caused.cuts (valid : Valid spec) (caused : Caused spec start past state) (steps : Steps spec state event next)
    (cuts : Cuts name state event next) : Cause spec start past state name := by
  rcases cuts with ⟨⟨checked, waits⟩, returned⟩ | rfl
  · have undecided : state.outcome name = none := by simp [State.outcome, waits]
    have decided : next.outcome name = some .skipped := by simp [State.outcome, returned]
    obtain ⟨-, node, _, _, known, rfl, -, decides⟩ := (steps.decides decided).resolve_left (by simp [undecided])
    refine caused.cause known (by simp [waits]) ?_
    cases decides with
    | late _ down => exact .inl down
    | refused _ reads verdict => exact caused.refused valid known reads verdict
  · cases steps with
    | node known acts =>
      refine caused.cause known acts.not_done.1 (.inl ?_)
      cases acts with
      | shutTask _ _ down => simp [down]
      | shutStarting _ _ down => exact down
      | shutUp _ down => exact down

theorem Scheduled.spawns (scheduled : Scheduled spec state) (steps : Steps spec state event next)
    (spawns : Spawns name state next) : state.reason = none ∧ ∀ dep ∈ spec.dependsOn name, state.verdict dep = some .ready := by
  obtain ⟨⟨checked, waits⟩, stage, child, phase⟩ := spawns
  cases steps.atNode name with
  | away kept =>
    rw [kept, waits] at phase
    cases phase
  | @acts node _ _ known acts =>
    cases acts with
    | spawns waits turn running =>
      refine ⟨running, fun dep member => ?_⟩
      rw [Spec.dependsOn_eq known] at member
      exact (scheduled.checked name node _ known waits).2 dep (by rwa [turn, List.take_length])
    | _ => simp_all [neverRan]
  | record => simp at phase

theorem Finished.done (finished : Finished spec state) (known : spec[name]? = some node) : state.phase name = .done :=
  finished name (Std.ExtTreeMap.mem_keys.mpr (BTreeMap.mem_iff.mpr ⟨_, known⟩))

/-- A finished run has a record of every node. -/
theorem Standing.recorded (standing : Standing spec state) (finished : Finished spec state) (known : spec[name]? = some node) :
    ∃ outcome, state.records[name]? = some outcome ∧ state.outcome name = some outcome ∧
      Settled node outcome (state.verdict name) := by
  have stands := standing name node known
  rw [State.Stands, finished.done known] at stands
  obtain ⟨outcome, recorded, settled⟩ := stands.settled
  exact ⟨outcome, recorded, by rw [State.outcome, finished.done known, recorded], settled⟩

/-- Every run of a valid spec is orderly. -/
theorem orderly_of_validate (validated : validate spec = .ok ()) : ∃ start, launch spec = some start ∧
    ∀ past state, run (step spec) start past = some state → Orderly spec start past state := by
  have valid := valid_of_validate validated
  refine ⟨_, launch_eq valid, fun past state ran => ?_⟩
  have caused := caused_of_run valid (launch_eq valid) ran
  constructor
  · exact fun event next name stepped spawns => caused.scheduled.spawns (steps_of_step stepped) spawns
  · exact length_le_bound (launch_eq valid) ran
  · intro exited stuck name member
    by_contra unfinished
    obtain ⟨event, inside, enabled⟩ := exists_step valid caused.scheduled exited (Std.ExtTreeMap.mem_keys.mp member) unfinished
    exact enabled (stuck event inside)
  · refine fun finished name => ⟨fun known => ⟨?_, ?_⟩, fun unknown recorded => ?_⟩
    · rw [caused.counted name, if_pos (finished name (Std.ExtTreeMap.mem_keys.mpr known))]
    · obtain ⟨node, found⟩ := BTreeMap.mem_iff.mp known
      obtain ⟨outcome, recorded, -⟩ := caused.scheduled.standing.recorded finished found
      exact BTreeMap.mem_iff.mpr ⟨_, recorded⟩
    · obtain ⟨outcome, found⟩ := BTreeMap.mem_iff.mp recorded
      cases (caused.scheduled.recorded name unknown).symm.trans found
  · intro finished name member
    obtain ⟨node, known⟩ := BTreeMap.mem_iff.mp member
    obtain ⟨outcome, recorded, decided, -⟩ := caused.scheduled.standing.recorded finished known
    rw [Spec.dependsOn_eq known, recorded, ← decided]
    constructor
    · intro skipped
      refine (caused.skipped name node known skipped).imp_left ?_
      rintro ⟨dep, needed, unavailable⟩
      exact ⟨dep, needed, by simp [unavailable]⟩
    · rintro (⟨dep, needed, unready⟩ | late)
      · by_contra ran
        exact unready (caused.scheduled.ran name node known (.inr ⟨outcome, decided, fun skipped => ran (skipped ▸ decided)⟩) dep needed)
      · exact caused.late name late
  · intro after later reason given rest
    exact invariant_of_run (fun state => state.reason = some reason)
      (fun _ _ _ given stepped => reason_step (steps_of_step stepped) given) given rest
  · exact fun event next name stepped cuts => caused.cuts valid (steps_of_step stepped) cuts

/-! ## A failure that takes services down -/

def plainTask (dependsOn : List String) : NodeSpec := { command := ["run"], dependsOn }

def plainService (dependsOn : List String) : NodeSpec :=
  { command := ["serve"], dependsOn, kind := .service, readyWhen := some .tcp }

/-- Two tasks, one after the other, beside two services, one after the other. -/
def stack : Spec := Std.ExtTreeMap.ofList
  [("build", plainTask []), ("db", plainService []), ("test", plainTask ["build"]), ("web", plainService ["db"])]

theorem stack_orderly : validate stack = .ok () ∧ ∃ start, launch stack = some start ∧
    ∀ past state, run (step stack) start past = some state → Orderly stack start past state :=
  ⟨by decide +kernel, orderly_of_validate (by decide +kernel)⟩

/-- The first service is starting when the first task exits. -/
def untilExit (code : Nat) : List Event :=
  [.node "db" (.turn true), .node "build" (.turn true), .node "build" (.exits (.code code)), .node "build" .closes,
    .node "build" (.reap (.code code)), .node "test" .awaits]

/-- What a process exits with that the runner has stopped. -/
def terminated : ExitStatus := .signal 15

/-- The second task is skipped, so that all tasks have settled. -/
def afterFailure : List Event :=
  [.record "build", .record "test", .node "db" .shut, .node "web" .awaits, .record "web", .node "db" (.exits terminated),
    .node "db" .closes, .node "db" (.stopped true), .record "db"]

def afterSuccess : List Event := [.node "test" (.turn true), .node "db" .probe, .node "web" .awaits, .node "web" (.turn true)]

theorem not_dependsOn_build : ¬ stack.DependsOn "db" "build" ∧ ¬ stack.DependsOn "web" "build" := by
  have db : ∀ dep, ¬ stack.DependsOn "db" dep := by
    intro dep depends
    obtain ⟨first, needs, -⟩ := Relation.TransGen.head'_iff.mp depends
    have none : stack.dependsOn "db" = [] := by decide +kernel
    rw [Spec.Needs, none] at needs
    cases needs
  refine ⟨db "build", fun depends => ?_⟩
  obtain ⟨first, needs, rest⟩ := Relation.TransGen.head'_iff.mp depends
  have one : stack.dependsOn "web" = ["db"] := by decide +kernel
  rw [Spec.Needs, one] at needs
  obtain rfl := List.mem_singleton.mp needs
  rcases Relation.reflTransGen_iff_eq_or_transGen.mp rest with same | onward
  · exact absurd same (by decide)
  · exact db "build" onward

/-- A task whose process has exited while something it started still holds its output. -/
def held : Spec := Std.ExtTreeMap.ofList [("build", plainTask [])]

theorem held_stuck {state : State} (phase : state.phase "build" = .spawned .starting { exited := some (.code 0), closed := false })
    (running : state.reason = none) (event : Event) (inside : event.Inside) : step held state event = none := by
  have known : held["build"]? = some (plainTask []) := by decide +kernel
  have other : ∀ {name : String}, name ≠ "build" → held[name]? = none := by
    intro name apart
    rw [held, Std.ExtTreeMap.ofList_singleton, BTreeMap.getElem?_insert, if_neg (Ne.symm apart)]
    rfl
  cases event with
  | cancel => cases inside
  | record name =>
    by_cases same : name = "build"
    · subst same
      simp [step, known, phase]
    · simp [step, other same]
  | node name action =>
    by_cases same : name = "build"
    · subst same
      cases action with
      | exits | closes => cases inside
      | awaits | turn | shut | timeout | reap | death | probe | stopped =>
        simp [step, known, act, phase, running, timeOut, plainTask, NodeSpec.isService]
    · simp [step, other same]

theorem held_hangs (start : State) (launched : launch held = some start) : ∃ state,
    run (step held) start [.node "build" (.turn true), .node "build" (.exits (.code 0))] = some state ∧
      (∀ name stage child, state.phase name = .spawned stage child → child.exited.isSome = true) ∧
      (∀ event, event.Inside → step held state event = none) ∧ ¬ Finished held state := by
  have known : held["build"]? = some (plainTask []) := by decide +kernel
  obtain rfl := eq_of_launch launched
  have spawned : ∀ remaining, act { remaining } "build" (plainTask []) (.turn true) =
      some { phase := .spawned .starting { closed := false } } := fun _ => rfl
  have exited : ∀ remaining, act (State.apply { remaining } "build" { phase := .spawned .starting { closed := false } }) "build"
      (plainTask []) (.exits (.code 0)) =
      some { phase := .spawned .starting { exited := some (.code 0), closed := false } } := fun _ => rfl
  refine ⟨_, run_cons.mpr ⟨_, step_node known (spawned _), run_cons.mpr ⟨_, step_node known (exited _), rfl⟩⟩,
    fun name stage child phase => ?_,
    held_stuck phase_apply_self rfl, fun finished => ?_⟩
  · by_cases same : name = "build"
    · subst same
      rw [phase_apply_self] at phase
      cases phase
      rfl
    · rw [phase_apply_of_ne same, phase_apply_of_ne same] at phase
      cases phase
  · have done := finished "build" (Std.ExtTreeMap.mem_keys.mpr (by decide +kernel))
    rw [phase_apply_self] at done
    cases done

/-- A run can hang although every process it spawned has exited; and a task that fails can be the reason why services
that do not depend on it are skipped or terminated. -/
theorem failure_reaches_services :
    (validate held = .ok () ∧ ∃ start state, launch held = some start ∧
      run (step held) start [.node "build" (.turn true), .node "build" (.exits (.code 0))] = some state ∧
      (∀ name stage child, state.phase name = .spawned stage child → child.exited.isSome = true) ∧
      (∀ event, event.Inside → step held state event = none) ∧ ¬ Finished held state) ∧
    validate stack = .ok () ∧ ¬ stack.DependsOn "db" "build" ∧ ¬ stack.DependsOn "web" "build" ∧
    ∃ start, launch stack = some start ∧
      (∃ state, run (step stack) start (untilExit 1 ++ afterFailure) = some state ∧ Finished stack state ∧
        state.records["build"]? = some (.failed 1) ∧ state.records["db"]? = some .stopped ∧
        state.records["web"]? = some .skipped) ∧
      ∃ state, run (step stack) start (untilExit 0 ++ afterSuccess) = some state ∧
        state.phase "db" = .spawned .up { closed := false } ∧ state.phase "web" = .spawned .starting { closed := false } := by
  have heldValid : validate held = .ok () := by decide +kernel
  have stackValid : validate stack = .ok () := by decide +kernel
  have launched := launch_eq (valid_of_validate heldValid)
  obtain ⟨state, hangs⟩ := held_hangs _ launched
  exact ⟨⟨heldValid, _, state, launched, hangs⟩, stackValid, not_dependsOn_build.1, not_dependsOn_build.2, _,
    launch_eq (valid_of_validate stackValid), exists_run _ _ _ _ (by decide +kernel), exists_run _ _ _ _ (by decide +kernel)⟩

end Index.DagRunner
