import Index.DagRunner.Causes

/-! # What the exit status means

The exit status is the worst contribution of any node.  It says that every task succeeded and no service failed, as
long as no service goes away by itself with status 0, none is left waiting for its turn when the last task settles, and
none has died unnoticed by then. -/

namespace Index.DagRunner

open Index.Lib State Option

variable {spec : Spec} {start state next : State} {name : String} {node : NodeSpec} {event : Event} {past : List Event}

/-- Before anyone has asked for a shutdown, a service exits, is not up in time or cannot be spawned. -/
def ServiceFails (name : String) (state : State) (event : Event) : Prop :=
  state.reason = none ∧
    ((∃ status, event = .node name (.exits status)) ∨ event = .node name .timeout ∨ event = .node name (.turn false))

/-- Nothing happens that the exit status cannot tell. -/
def Telling (spec : Spec) (state : State) : Event → Prop
  | .node name (.exits status) =>
    state.reason = none → (spec[name]?.any NodeSpec.isService) = true → status ≠ .code 0
  | .record name =>
    -- The last task settles, and the run drains.
    state.reason = none → (spec[name]?.any NodeSpec.isService) = false → state.remaining = 1 →
      ∀ entry ∈ spec.toList, entry.2.isService = true →
        match state.phase entry.1 with
        | .waiting _ => False
        | .spawned _ child => child.exited = none
        | _ => True
  | _ => True

instance (spec : Spec) (state : State) : DecidablePred (Telling spec state)
  | .cancel => inferInstanceAs (Decidable True)
  | .node name (.exits status) => inferInstanceAs (Decidable (_ → _ → status ≠ .code 0))
  | .node _ .closes | .node _ .awaits | .node _ (.turn _) | .node _ .shut | .node _ .timeout | .node _ (.reap _)
  | .node _ (.death _) | .node _ .probe | .node _ (.stopped _) => inferInstanceAs (Decidable True)
  | .record name =>
    have (entry : String × NodeSpec) : Decidable (match state.phase entry.1 with
        | .waiting _ => False
        | .spawned _ child => child.exited = none
        | _ => True) := by split <;> infer_instance
    inferInstanceAs (Decidable (_ → _ → _ → ∀ entry ∈ spec.toList, _ → _))

/-! ## The code of a run -/

theorem exitCode_eq_zero {records : BTreeMap String Outcome} :
    exitCode records = 0 ↔ ∀ (name : String) (outcome : Outcome), records[name]? = some outcome → outcome.exitContribution = 0 := by
  have worst : ∀ contributions : List Nat, contributions.max?.getD 0 = 0 ↔ ∀ code ∈ contributions, code = 0 := by
    intro contributions
    cases largest : contributions.max? with
    | none => simp [List.max?_eq_none_iff.mp largest]
    | some code =>
      obtain ⟨member, above⟩ := List.max?_eq_some_iff.mp largest
      constructor
      · rintro rfl other otherMember
        exact Nat.le_zero.mp (above other otherMember)
      · exact fun zero => zero code member
  rw [exitCode, worst]
  constructor
  · exact fun zero name outcome found => zero _ (List.mem_map_of_mem (BTreeMap.mem_values.mpr ⟨name, found⟩))
  · intro zero code member
    obtain ⟨outcome, value, rfl⟩ := List.mem_map.mp member
    obtain ⟨name, found⟩ := BTreeMap.mem_values.mp value
    exact zero name outcome found

/-! ## The invariant -/

/-- A task has settled and not succeeded. -/
def TaskMissed (spec : Spec) (state : State) : Prop :=
  ∃ (task : String) (node : NodeSpec) (outcome : Outcome), spec[task]? = some node ∧ node.isService = false ∧
    state.outcome task = some outcome ∧ outcome ≠ .succeeded

structure Told (spec : Spec) (start : State) (past : List Event) (state : State) : Prop where
  caused : Caused spec start past state
  uncancelled : state.reason ≠ some .cancelled
  failed : ∀ (name : String) (node : NodeSpec) (code : Nat), spec[name]? = some node → node.isService = true →
    state.outcome name = some (.failed code) → state.reason = some .aborted
  stopped : ∀ name : String, state.outcome name = some .stopped → state.reason ≠ none
  /-- While the run goes on, the services that have failed are those whose process has exited, not with status 0. -/
  exited : state.reason = none → ∀ (name : String) (node : NodeSpec) (stage : Stage) (child : Child) (status : ExitStatus),
    spec[name]? = some node → node.isService = true → state.phase name = .spawned stage child → child.exited = some status →
    status ≠ .code 0 ∧ Happened (step spec) start past (ServiceFails name)
  failing : state.reason = none → ∀ (name : String) (node : NodeSpec), spec[name]? = some node → node.isService = true →
    Happened (step spec) start past (ServiceFails name) →
    ∃ stage child, state.phase name = .spawned stage child ∧ child.exited ≠ none
  drained : state.reason = some .drained → ∀ (name : String) (node : NodeSpec), spec[name]? = some node →
    node.isService = true → ¬ Happened (step spec) start past (ServiceFails name) ∧ ∀ checked, state.phase name ≠ .waiting checked
  aborted : state.reason = some .aborted → ∃ (name : String) (node : NodeSpec) (code : Nat), spec[name]? = some node ∧
    node.isService = true ∧ state.outcome name = some (.failed code) ∧ code ≠ 0 ∧
    Happened (step spec) start past (ServiceFails name)
  skipped : ∀ (name : String) (node : NodeSpec), spec[name]? = some node → state.outcome name = some .skipped →
    state.reason = some .aborted ∨ TaskMissed spec state

variable {status : ExitStatus}

theorem ExitStatus.siStatus_ne_zero (unsuccessful : status ≠ .code 0) : status.siStatus ≠ 0 := by
  cases status with
  | code number => exact fun zero => unsuccessful (by rw [← show number = 0 from zero])
  | signal number => exact number.ne_zero
  | lost => exact Nat.one_ne_zero

theorem TaskMissed.step (missed : TaskMissed spec state) (steps : Steps spec state event next) : TaskMissed spec next := by
  obtain ⟨task, node, outcome, known, isTask, decided, unsuccessful⟩ := missed
  exact ⟨task, node, outcome, known, isTask, outcome_step steps decided, unsuccessful⟩

/-- A node that waits for its turn while the run is draining would be a service. -/
theorem Told.not_waiting (told : Told spec start past state) (known : spec[name]? = some node)
    (drained : state.reason = some .drained) (checked : Nat) : state.phase name ≠ .waiting checked := by
  cases service : node.isService with
  | true => exact (told.drained drained name node known service).2 checked
  | false =>
    intro waits
    have member : (name, node) ∈ pending spec state := mem_pending.mpr ⟨known, service, by simp [waits]⟩
    simp [told.caused.scheduled.drained drained] at member

theorem Told.reason_cases (told : Told spec start past state) (given : state.reason ≠ none) :
    state.reason = some .drained ∨ state.reason = some .aborted := by
  obtain ⟨reason, given⟩ := ne_none_iff_exists'.mp given
  cases reason with
  | cancelled => exact absurd given told.uncancelled
  | drained => exact .inl given
  | aborted => exact .inr given

/-! ## Steps -/

section Step

variable {action : Action} {change : Change}

theorem running_of_step (steps : Steps spec state event next) (running : next.reason = none) : state.reason = none := by
  by_contra given
  exact reason_ne_none_step steps given running

variable {stage : Stage} {child : Child}

section

variable (acts : Acts state name node action change) (service : node.isService = true) (running : state.reason = none)
  (silent : change.reason = none)
include acts service running silent

/-- The process of a service that is running after a step that asks for no shutdown was running before, or is new. -/
theorem Acts.service_running (phase : change.phase = .spawned stage child) :
    child.exited = none ∨ (∃ status, action = .exits status ∧ child.exited = some status) ∨
      ∃ stage' child', state.phase name = .spawned stage' child' ∧ child'.exited = child.exited := by
  cases acts with
  | @exits _ _ status =>
    cases phase
    exact .inr (.inl ⟨status, rfl, rfl⟩)
  | closes before | probe before =>
    cases phase
    exact .inr (.inr ⟨_, _, before, rfl⟩)
  | spawns =>
    cases phase
    exact .inl rfl
  | shutTask _ _ down => simp [running] at down
  | shutStarting _ _ down | shutUp _ down => exact absurd running down
  | timeoutTask _ task | loses _ task => simp [service] at task
  | timeoutService | death => cases silent
  | passes | refused | late | spawnFails | succeeds | fails | dies | leaves | stopped => simp [neverRan, returns] at phase

/-- A process of a service that has exited is still looked at after a step that asks for no shutdown. -/
theorem Acts.service_exited (phase : state.phase name = .spawned stage child) (undecided : state.outcome name = none)
    (exited : child.exited ≠ none) : ∃ stage' child', change.phase = .spawned stage' child' ∧ child'.exited ≠ none := by
  rw [State.outcome] at undecided
  cases acts with
  | exits before alive =>
    cases before.symm.trans phase
    exact absurd alive exited
  | closes before | probe before =>
    cases before.symm.trans phase
    exact ⟨_, _, rfl, exited⟩
  | shutTask _ _ down => simp [running] at down
  | shutStarting _ _ down | shutUp _ down => exact absurd running down
  | timeoutTask _ task | loses _ task | succeeds _ task | fails _ task => simp [service] at task
  | timeoutService | death | dies | leaves => cases silent
  | stopped before => simp [before] at undecided
  | passes before | refused before | late before | spawns before | spawnFails before => simp [before] at phase

end

end Step

section Told

variable (valid : Valid spec) (told : Told spec start past state) (reached : run (step spec) start past = some state)
  (stepped : step spec state event = some next)

include told reached in
theorem Told.exited_before (running : state.reason = none) {stage : Stage} {child : Child} (known : spec[name]? = some node)
    (service : node.isService = true) (phase : state.phase name = .spawned stage child) (exited : child.exited = some status) :
    status ≠ .code 0 ∧ Happened (step spec) start (past ++ [event]) (ServiceFails name) := by
  obtain ⟨unsuccessful, failed⟩ := told.exited running name node stage child status known service phase exited
  exact ⟨unsuccessful, (happened_concat reached).mpr (.inl failed)⟩

include told stepped in
theorem Told.uncancelled_step (uncancelled : event ≠ .cancel) : next.reason ≠ some .cancelled := by
  intro cancelled
  rcases (steps_of_step stepped).asks cancelled with given | ⟨-, asks⟩
  · exact told.uncancelled given
  · cases asks
    exact uncancelled rfl

include told stepped in
theorem Told.failed_step {code : Nat} (known : spec[name]? = some node) (service : node.isService = true)
    (decided : next.outcome name = some (.failed code)) : next.reason = some .aborted := by
  have steps := steps_of_step stepped
  rcases steps.decides decided with before | ⟨undecided, _, _, _, known', rfl, rfl, decides⟩
  · exact reason_step steps (told.failed name node code known service before)
  · cases known.symm.trans known'
    cases decides with
    | shutTask task => simp [service] at task
    | failed running aborts => simp [running, aborts service]

include told stepped in
theorem Told.stopped_step (decided : next.outcome name = some .stopped) : next.reason ≠ none := by
  have steps := steps_of_step stepped
  refine reason_ne_none_step steps ?_
  rcases steps.decides decided with before | ⟨-, _, _, _, -, rfl, -, decides⟩
  · exact told.stopped name before
  · cases decides with
    | shut down => exact down

include told reached stepped in
theorem Told.exited_step (telling : Telling spec state event) (running : next.reason = none) {stage : Stage} {child : Child}
    (known : spec[name]? = some node) (service : node.isService = true)
    (phase : next.phase name = .spawned stage child) (exited : child.exited = some status) :
    status ≠ .code 0 ∧ Happened (step spec) start (past ++ [event]) (ServiceFails name) := by
  have steps := steps_of_step stepped
  have before := running_of_step steps running
  cases steps.atNode name with
  | away kept => exact told.exited_before reached before known service (kept ▸ phase) exited
  | @acts _ _ change known' acts =>
    cases known.symm.trans known'
    have silent : change.reason = none := by simpa [before] using running
    rw [phase_apply_self] at phase
    rcases acts.service_running service before silent phase with alive | ⟨status', rfl, now⟩ | ⟨stage', child', phase', same⟩
    · simp [alive] at exited
    · cases now.symm.trans exited
      refine ⟨telling before (by simp [known, service]), (happened_concat reached).mpr (.inr ⟨before, .inl ⟨status, rfl⟩⟩)⟩
    · exact told.exited_before reached before known service phase' (same.trans exited)
  | record => simp at phase

include told reached stepped in
theorem Told.failing_step (running : next.reason = none) (known : spec[name]? = some node) (service : node.isService = true)
    (failed : Happened (step spec) start (past ++ [event]) (ServiceFails name)) :
    ∃ stage child, next.phase name = .spawned stage child ∧ child.exited ≠ none := by
  have steps := steps_of_step stepped
  have before := running_of_step steps running
  rcases (happened_concat reached).mp failed with earlier | ⟨-, ⟨status, rfl⟩ | rfl | rfl⟩
  · obtain ⟨stage, child, phase, exited⟩ := told.failing before name node known service earlier
    have undecided : state.outcome name = none := by
      -- A service with an outcome has failed or was stopped, and either goes with a reason.
      have stands := told.caused.scheduled.standing name node known
      cases decided : state.outcome name with
      | none => rfl
      | some outcome =>
        rw [State.Stands, phase] at stands
        generalize state.verdict name = verdict at stands
        generalize state.records[name]? = record at stands
        cases stands with
        | starting | up => simp [State.outcome, phase] at decided
        | stoppingTask task => simp [service] at task
        | failing =>
          have := told.failed name node _ known service (by rw [State.outcome, phase])
          simp [before] at this
        | stopping =>
          exact absurd before (told.stopped name (by rw [State.outcome, phase]))
    cases steps.atNode name with
    | away kept => exact ⟨stage, child, kept.trans phase, exited⟩
    | @acts _ _ change known' acts =>
      cases known.symm.trans known'
      have silent : change.reason = none := by simpa [before] using running
      rw [phase_apply_self]
      exact acts.service_exited service before silent phase undecided exited
    | record _ returned => simp [phase] at returned
  all_goals
    obtain - | ⟨known', acts⟩ := steps
    cases known.symm.trans known'
    cases acts
  case exits => exact ⟨_, _, phase_apply_self, by simp⟩
  case timeoutTask task _ _ => simp [service] at task
  case late down => exact absurd before down
  all_goals simp [before, service] at running

/-- After somebody has asked for a shutdown no service fails any more. -/
theorem not_serviceFails (given : state.reason ≠ none) : ¬ ServiceFails name state event := fun fails => given fails.1

theorem not_waiting_step (steps : Steps spec state event next) (moved : ∀ checked, state.phase name ≠ .waiting checked)
    (checked : Nat) : next.phase name ≠ .waiting checked := by
  cases steps.atNode name with
  | away kept => exact kept ▸ moved checked
  | acts _ acts =>
    cases acts with
    | passes phase => exact absurd phase (moved _)
    | _ => simp [neverRan, returns]
  | record => simp

include told reached stepped in
theorem Told.drained_step (telling : Telling spec state event) (drained : next.reason = some .drained)
    (known : spec[name]? = some node) (service : node.isService = true) :
    ¬ Happened (step spec) start (past ++ [event]) (ServiceFails name) ∧ ∀ checked, next.phase name ≠ .waiting checked := by
  have steps := steps_of_step stepped
  rcases steps.asks drained with given | ⟨running, asks⟩
  · obtain ⟨unfailed, moved⟩ := told.drained given name node known service
    refine ⟨fun failed => ?_, not_waiting_step steps moved⟩
    rcases (happened_concat reached).mp failed with earlier | now
    · exact unfailed earlier
    · exact not_serviceFails (by simp [given]) now
  · cases asks with
    | @drains task _ _ taskKnown isTask last =>
      have quiet := telling running (by simp [taskKnown, isTask]) last (name, node)
        (Std.ExtTreeMap.mem_toList_iff_getElem?_eq_some.mpr known) service
      have apart : name ≠ task := by
        rintro rfl
        cases known.symm.trans taskKnown
        simp [service] at isTask
      refine ⟨fun failed => ?_, fun checked waits => ?_⟩
      · rcases (happened_concat reached).mp failed with earlier | ⟨-, ⟨status, now⟩ | now | now⟩
        · obtain ⟨stage, child, phase, exited⟩ := told.failing running name node known service earlier
          simp only [phase] at quiet
          exact exited quiet
        all_goals cases now
      · rw [phase_insertRecord_of_ne apart] at waits
        simp only [waits] at quiet

include told reached stepped in
theorem Told.aborted_step (aborted : next.reason = some .aborted) : ∃ (name : String) (node : NodeSpec) (code : Nat),
    spec[name]? = some node ∧ node.isService = true ∧ next.outcome name = some (.failed code) ∧ code ≠ 0 ∧
      Happened (step spec) start (past ++ [event]) (ServiceFails name) := by
  have steps := steps_of_step stepped
  rcases steps.asks aborted with given | ⟨running, asks⟩
  · obtain ⟨name, node, code, known, service, decided, unsuccessful, failed⟩ := told.aborted given
    exact ⟨name, node, code, known, service, outcome_step steps decided, unsuccessful, (happened_concat reached).mpr (.inl failed)⟩
  · cases asks with
    | @aborts name node action _ known acts asks =>
      obtain ⟨service, -, -, -⟩ := acts.aborts (told.caused.scheduled.standing name node known) asks
      refine ⟨name, node, ?_⟩
      simp only [State.outcome, phase_apply_self]
      cases acts with
      | spawnFails =>
        exact ⟨127, known, service, rfl, by decide, (happened_concat reached).mpr (.inr ⟨running, .inr (.inr rfl)⟩)⟩
      | timeoutService =>
        exact ⟨124, known, service, rfl, by decide, (happened_concat reached).mpr (.inr ⟨running, .inr (.inl rfl)⟩)⟩
      | dies phase _ _ exited | leaves phase _ exited =>
        obtain ⟨unsuccessful, failed⟩ := told.exited_before reached running known service phase exited
        exact ⟨_, known, service, rfl, ExitStatus.codeOrOne_ne_zero unsuccessful, failed⟩
      | death phase _ exited =>
        obtain ⟨unsuccessful, failed⟩ := told.exited_before reached running known service phase exited
        exact ⟨_, known, service, rfl, ExitStatus.siStatus_ne_zero unsuccessful, failed⟩
      | _ => exact absurd rfl asks

include valid told stepped in
theorem Told.skipped_step (known : spec[name]? = some node) (decided : next.outcome name = some .skipped) :
    next.reason = some .aborted ∨ TaskMissed spec next := by
  have steps := steps_of_step stepped
  suffices before : state.reason = some .aborted ∨ TaskMissed spec state from
    before.imp (fun given => reason_step steps given) fun missed => missed.step steps
  rcases steps.decides decided with before | ⟨-, _, _, _, known', rfl, -, decides⟩
  · exact told.skipped name node known before
  · cases known.symm.trans known'
    -- A node that is skipped was waiting, so the run is not draining.
    have down : ∀ {checked}, state.phase name = .waiting checked → state.reason ≠ none → state.reason = some .aborted :=
      fun waits given => (told.reason_cases given).resolve_left fun drained => told.not_waiting known drained _ waits
    cases decides with
    | late waits given => exact .inl (down waits given)
    | @refused _ dep waits reads verdict =>
      obtain ⟨-, -, depNode, outcome, found, settled, unsuccessful⟩ :=
        told.caused.scheduled.standing.unavailable valid known reads verdict
      cases outcome with
      | succeeded => exact absurd rfl unsuccessful
      | skipped => exact told.skipped dep depNode found settled
      | stopped => exact .inl (down waits (told.stopped dep settled))
      | failed code =>
        cases service : depNode.isService with
        | true => exact .inl (told.failed dep depNode code found service settled)
        | false => exact .inr ⟨dep, depNode, _, found, service, settled, by simp⟩

include valid told reached stepped in
theorem Told.step (uncancelled : event ≠ .cancel) (telling : Telling spec state event) :
    Told spec start (past ++ [event]) next where
  caused := told.caused.step valid reached stepped
  uncancelled := told.uncancelled_step stepped uncancelled
  failed _ _ _ known service decided := told.failed_step stepped known service decided
  stopped _ decided := told.stopped_step stepped decided
  exited running _ _ _ _ _ known service phase exited := told.exited_step reached stepped telling running known service phase exited
  failing running _ _ known service failed := told.failing_step reached stepped running known service failed
  drained drained _ _ known service := told.drained_step reached stepped telling drained known service
  aborted aborted := told.aborted_step reached stepped aborted
  skipped _ _ known decided := told.skipped_step valid stepped known decided

end Told

theorem told_launch (valid : Valid spec) (launched : launch spec = some start) : Told spec start [] start := by
  have caused : Caused spec start [] start := caused_of_run valid launched rfl
  obtain rfl := eq_of_launch launched
  constructor
  · exact caused
  · simp
  · simp [State.outcome]
  · simp [State.outcome]
  · simp
  · exact fun _ _ _ _ _ failed => absurd failed not_happened_nil
  · intro drained
    cases drained
  · intro aborted
    cases aborted
  · simp [State.outcome]

/-! ## The meaning of the status -/

/-- A task that did not succeed shows in the status. -/
theorem Settled.contribution {outcome : Outcome} {verdict : Option Readiness} (settled : Settled node outcome verdict)
    (task : node.isService = false) : outcome.exitContribution = 0 ↔ outcome = .succeeded := by
  cases settled with
  | skipped | succeeded => simp [Outcome.exitContribution]
  | failed _ unsuccessful => simpa [Outcome.exitContribution] using unsuccessful
  | failedService service | stopped service => simp [task] at service

/-- A run that the operator does not cancel and in which nothing happens that the exit status cannot tell exits with
status 0 if and only if every task succeeded and no service failed. -/
theorem exitStatus_eq_zero_iff (validated : validate spec = .ok ()) (launched : launch spec = some start)
    (ran : run (step spec) start past = some state) (finished : Finished spec state) (uncancelled : .cancel ∉ past)
    (telling : Along (step spec) (Telling spec) start past) :
    exitStatus state = 0 ↔
      (∀ (name : String) (node : NodeSpec), spec[name]? = some node → node.isService = false →
        state.records[name]? = some .succeeded) ∧
      ∀ (name : String) (node : NodeSpec), spec[name]? = some node → node.isService = true →
        ¬ Happened (step spec) start past (ServiceFails name) := by
  have valid := valid_of_validate validated
  have clean : Along (step spec) (fun state event => Telling spec state event ∧ event ≠ .cancel) start past :=
    telling.and_forall fun event member same => uncancelled (same ▸ member)
  have told : Told spec start past state := invariant_of_past (Told spec start)
    (fun _ _ _ _ reached told good stepped => told.step valid reached stepped good.2 good.1) (told_launch valid launched) clean ran
  have standing := told.caused.scheduled.standing
  rw [exitStatus, if_neg told.uncancelled, exitCode_eq_zero]
  constructor
  · intro zero
    refine ⟨fun name node known task => ?_, fun name node known service failed => ?_⟩
    · obtain ⟨outcome, recorded, -, settled⟩ := standing.recorded finished known
      rw [recorded, (settled.contribution task).mp (zero name outcome recorded)]
    · rcases eq_none_or_eq_some state.reason with running | ⟨reason, given⟩
      · obtain ⟨stage, child, phase, -⟩ := told.failing running name node known service failed
        exact absurd (phase.symm.trans (finished.done known)) nofun
      · rcases told.reason_cases (by simp [given]) with drained | aborted
        · exact (told.drained drained name node known service).1 failed
        · obtain ⟨other, otherNode, code, otherKnown, -, decided, unsuccessful, -⟩ := told.aborted aborted
          obtain ⟨outcome, recorded, decided', -⟩ := standing.recorded finished otherKnown
          cases decided.symm.trans decided'
          exact unsuccessful (zero other _ recorded)
  · rintro ⟨succeeded, unfailed⟩ name outcome recorded
    have known : name ∈ spec := by
      by_contra unknown
      rw [told.caused.scheduled.recorded name unknown] at recorded
      cases recorded
    obtain ⟨node, known⟩ := BTreeMap.mem_iff.mp known
    have decided : state.outcome name = some outcome := by rw [State.outcome, finished.done known, recorded]
    have notAborted : state.reason ≠ some .aborted := by
      intro aborted
      obtain ⟨other, otherNode, -, otherKnown, service, -, -, failed⟩ := told.aborted aborted
      exact unfailed other otherNode otherKnown service failed
    cases service : node.isService with
    | false =>
      cases recorded.symm.trans (succeeded name node known service)
      rfl
    | true =>
      cases outcome with
      | succeeded | stopped => rfl
      | failed code => exact absurd (told.failed name node code known service decided) notAborted
      | skipped =>
        obtain ⟨task, taskNode, other, taskKnown, isTask, missed, unsuccessful⟩ :=
          (told.skipped name node known decided).resolve_left notAborted
        rw [State.outcome, finished.done taskKnown, succeeded task taskNode taskKnown isTask] at missed
        exact absurd (Option.some.inj missed).symm unsuccessful

/-! ## Runs -/

theorem exists_launched (spec : Spec) (events : List Event) (holds : State → Prop) [DecidablePred holds]
    (checked : ((launch spec).bind fun start => run (step spec) start events).any (fun state => decide (holds state)) = true) :
    ∃ start state, launch spec = some start ∧ run (step spec) start events = some state ∧ holds state := by
  obtain ⟨state, found, held⟩ := (Option.any_eq_true _ _).mp checked
  obtain ⟨start, launched, ran⟩ := Option.bind_eq_some_iff.mp found
  exact ⟨start, state, launched, ran, of_decide_eq_true held⟩

/-- What the runner does with a node that it stops, up to its record. -/
def stopsAndRecords (name : String) : List Event :=
  [.node name .shut, .node name (.exits terminated), .node name .closes, .node name (.stopped true), .record name]

/-- A task or a service exits, and the runner reaps it. -/
def exitsAndIsReaped (name : String) (code : Nat) : List Event :=
  [.node name (.exits (.code code)), .node name .closes, .node name (.reap (.code code))]

/-- The tasks of the stack succeed while its services are up. -/
def wholeRun : List Event :=
  [.node "db" (.turn true), .node "build" (.turn true), .node "db" .probe, .node "web" .awaits, .node "web" (.turn true),
    .node "web" .probe] ++ exitsAndIsReaped "build" 0 ++ [.node "test" .awaits, .node "test" (.turn true)] ++
  exitsAndIsReaped "test" 0 ++ [.record "build", .record "test"] ++ stopsAndRecords "web" ++ stopsAndRecords "db"

theorem wholeRun_succeeds : ∃ start state, launch stack = some start ∧ run (step stack) start wholeRun = some state ∧
    exitStatus state = 0 ∧
    (∀ (name : String) (node : NodeSpec), stack[name]? = some node → node.isService = false →
      state.records[name]? = some .succeeded) ∧
    ∀ (name : String) (node : NodeSpec), stack[name]? = some node → node.isService = true →
      ¬ Happened (step stack) start wholeRun (ServiceFails name) := by
  obtain ⟨start, state, launched, ran, finished, zero⟩ := exists_launched stack wholeRun
    (fun state => Finished stack state ∧ exitStatus state = 0) (by decide +kernel)
  refine ⟨start, state, launched, ran, zero, ?_⟩
  obtain rfl := eq_of_launch launched
  exact (exitStatus_eq_zero_iff (by decide +kernel) launched ran finished (by decide +kernel) (by decide +kernel)).mp zero

/-- A group of one service. -/
def lone : Spec := Std.ExtTreeMap.ofList [("db", plainService [])]

/-- A service that waits for a task. -/
def trailing : Spec := Std.ExtTreeMap.ofList [("build", plainTask []), ("web", plainService ["build"])]

/-- A service beside a task. -/
def beside : Spec := Std.ExtTreeMap.ofList [("build", plainTask []), ("db", plainService [])]

def quietLeave : List Event := [.node "db" (.turn true)] ++ exitsAndIsReaped "db" 0 ++ [.record "db"]

def lateService : List Event :=
  [.node "build" (.turn true)] ++ exitsAndIsReaped "build" 0 ++
  [.record "build", .node "web" .awaits, .node "web" (.turn true), .record "web"]

def deathAtTheEnd : List Event :=
  [.node "db" (.turn true), .node "build" (.turn true), .node "db" .probe, .node "db" (.exits (.code 5))] ++
  exitsAndIsReaped "build" 0 ++ [.record "build", .node "db" .shut, .node "db" .closes, .node "db" (.stopped true), .record "db"]

theorem happened_exits {before after : List Event}
    (reached : ∃ state, run (step spec) start before = some state ∧ state.reason = none)
    (split : past = before ++ .node name (.exits status) :: after) : Happened (step spec) start past (ServiceFails name) := by
  obtain ⟨state, ran, running⟩ := reached
  exact ⟨before, _, after, state, split, ran, running, .inl ⟨status, rfl⟩⟩

/-- The status is 0 after a service has left with status 0, it is 1 though all went well because a service was not
needed any more, and it is 0 after a service has died just before the last task settled. -/
theorem status_misleads :
    (validate lone = .ok () ∧ ∃ start state, launch lone = some start ∧ run (step lone) start quietLeave = some state ∧
      Finished lone state ∧ exitStatus state = 0 ∧ Happened (step lone) start quietLeave (ServiceFails "db")) ∧
    (validate trailing = .ok () ∧ ∃ start state, launch trailing = some start ∧
      run (step trailing) start lateService = some state ∧ Finished trailing state ∧ exitStatus state = 1 ∧
      state.records["build"]? = some .succeeded ∧ ¬ Happened (step trailing) start lateService (ServiceFails "web")) ∧
    validate beside = .ok () ∧ ∃ start state, launch beside = some start ∧
      run (step beside) start deathAtTheEnd = some state ∧ Finished beside state ∧ exitStatus state = 0 ∧
      Happened (step beside) start deathAtTheEnd (ServiceFails "db") := by
  refine ⟨⟨by decide +kernel, ?_⟩, ⟨by decide +kernel, ?_⟩, by decide +kernel, ?_⟩
  · obtain ⟨start, state, launched, ran, finished, zero⟩ := exists_launched lone quietLeave
      (fun state => Finished lone state ∧ exitStatus state = 0) (by decide +kernel)
    refine ⟨start, state, launched, ran, finished, zero, ?_⟩
    obtain rfl := eq_of_launch launched
    exact happened_exits (exists_run _ _ [.node "db" (.turn true)] _ (by decide +kernel)) rfl
  · obtain ⟨start, state, launched, ran, finished, one, succeeded⟩ := exists_launched trailing lateService
      (fun state => Finished trailing state ∧ exitStatus state = 1 ∧ state.records["build"]? = some .succeeded) (by decide +kernel)
    refine ⟨start, state, launched, ran, finished, one, succeeded, ?_⟩
    rintro ⟨before, event, after, _, split, -, -, fails⟩
    have member : event ∈ lateService := by simp [split]
    simp only [lateService, exitsAndIsReaped, List.cons_append, List.nil_append, List.mem_cons, List.not_mem_nil, or_false] at member
    rcases fails with ⟨status, rfl⟩ | rfl | rfl <;> simp at member
  · obtain ⟨start, state, launched, ran, finished, zero⟩ := exists_launched beside deathAtTheEnd
      (fun state => Finished beside state ∧ exitStatus state = 0) (by decide +kernel)
    refine ⟨start, state, launched, ran, finished, zero, ?_⟩
    obtain rfl := eq_of_launch launched
    exact happened_exits (exists_run _ _ [.node "db" (.turn true), .node "build" (.turn true), .node "db" .probe] _
      (by decide +kernel)) rfl

end Index.DagRunner
