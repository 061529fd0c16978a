import Index.DagRunner.Runner

/-! # What a step can do

`Acts` lists the steps of a node's future, each with the state it needs and the change it makes.  Every invariant of a
run is shown by going through the list. -/

namespace Index.DagRunner

open Index.Lib

variable {spec : Spec} {state next : State} {name : String} {node : NodeSpec} {action : Action} {change : Change}

namespace State

variable {other : String}

@[simp] theorem phase_apply_self : (state.apply name change).phase name = change.phase := Function.update_self ..

@[simp] theorem phase_apply_of_ne (apart : other ≠ name) :
    (state.apply name change).phase other = state.phase other := Function.update_of_ne apart ..

@[simp] theorem verdict_apply_self : (state.apply name change).verdict name = change.verdict.or (state.verdict name) := by
  rw [apply]
  cases change.verdict <;> simp

@[simp] theorem verdict_apply_of_ne (apart : other ≠ name) : (state.apply name change).verdict other = state.verdict other := by
  rw [apply]
  cases change.verdict <;> simp [apart]

@[simp] theorem reason_apply : (state.apply name change).reason = state.reason.or change.reason := rfl

@[simp] theorem records_apply : (state.apply name change).records = state.records := rfl

section InsertRecord

variable {outcome : Outcome} {other : String}

@[simp] theorem phase_insertRecord_self : (state.insertRecord name node outcome).phase name = .done := Function.update_self ..

@[simp] theorem phase_insertRecord_of_ne (apart : other ≠ name) :
    (state.insertRecord name node outcome).phase other = state.phase other := Function.update_of_ne apart ..

@[simp] theorem verdict_insertRecord : (state.insertRecord name node outcome).verdict = state.verdict := rfl

@[simp] theorem records_insertRecord_self : (state.insertRecord name node outcome).records[name]? = some outcome := by
  simp [insertRecord]

@[simp] theorem records_insertRecord_of_ne (apart : other ≠ name) :
    (state.insertRecord name node outcome).records[other]? = state.records[other]? := by
  rw [insertRecord, BTreeMap.getElem?_insert, if_neg (Ne.symm apart)]

/-- A record asks for no shutdown, or says that the run has drained. -/
theorem reason_insertRecord : (state.insertRecord name node outcome).reason = state.reason ∨
    node.isService = false ∧ state.remaining = 1 ∧ state.reason = none ∧
      (state.insertRecord name node outcome).reason = some .drained := by
  rw [insertRecord]
  cases service : node.isService with
  | true => simp
  | false =>
    by_cases last : state.remaining = 1
    · cases reason : state.reason <;> simp [last]
    · simp [last]

end InsertRecord

end State

inductive Acts (state : State) (name : String) (node : NodeSpec) : Action → Change → Prop
  | exits {stage child status} (phase : state.phase name = .spawned stage child) (alive : child.exited = none) :
    Acts state name node (.exits status) { phase := .spawned stage { child with exited := some status } }
  | closes {stage child} (phase : state.phase name = .spawned stage child) (opened : child.closed = false) :
    Acts state name node .closes { phase := .spawned stage { child with closed := true } }
  | passes {checked dep} (phase : state.phase name = .waiting checked) (reads : node.dependsOn[checked]? = some dep)
    (verdict : state.verdict dep = some .ready) : Acts state name node .awaits { phase := .waiting (checked + 1) }
  | refused {checked dep} (phase : state.phase name = .waiting checked) (reads : node.dependsOn[checked]? = some dep)
    (verdict : state.verdict dep = some .unavailable ∨ state.verdict dep = none ∧ state.phase dep = .done) :
    Acts state name node .awaits neverRan
  | late {checked spawns} (phase : state.phase name = .waiting checked) (turn : checked = node.dependsOn.length)
    (down : state.reason ≠ none) : Acts state name node (.turn spawns) neverRan
  | spawns {checked} (phase : state.phase name = .waiting checked) (turn : checked = node.dependsOn.length)
    (running : state.reason = none) :
    Acts state name node (.turn true) { phase := .spawned .starting { closed := node.stdio = .inherit } }
  | spawnFails {checked} (phase : state.phase name = .waiting checked) (turn : checked = node.dependsOn.length)
    (running : state.reason = none) : Acts state name node (.turn false)
      { phase := .returned (.failed 127), verdict := some .unavailable,
        reason := if node.isService then some .aborted else none }
  | shutTask {child reason} (phase : state.phase name = .spawned .starting child) (task : node.isService = false)
    (down : state.reason = some reason) :
    Acts state name node .shut { phase := .spawned (.stopping (.failed reason.terminatedExitCode)) child }
  | shutStarting {child} (phase : state.phase name = .spawned .starting child) (service : node.isService = true)
    (down : state.reason ≠ none) :
    Acts state name node .shut { phase := .spawned (.stopping .stopped) child, verdict := some .unavailable }
  | shutUp {child} (phase : state.phase name = .spawned .up child) (down : state.reason ≠ none) :
    Acts state name node .shut { phase := .spawned (.stopping .stopped) child }
  | timeoutTask {child} (phase : state.phase name = .spawned .starting child) (task : node.isService = false)
    (running : state.reason = none) (timed : node.timeoutSecs.isSome = true) :
    Acts state name node .timeout { phase := .spawned (.stopping (.failed 124)) child }
  | timeoutService {child} (phase : state.phase name = .spawned .starting child) (service : node.isService = true)
    (running : state.reason = none) : Acts state name node .timeout
      { phase := .spawned (.stopping (.failed 124)) child, verdict := some .unavailable, reason := some .aborted }
  | succeeds {child} (phase : state.phase name = .spawned .starting child) (task : node.isService = false)
    (running : state.reason = none) (exited : child.exited = some (.code 0)) (closed : child.closed = true) :
    Acts state name node (.reap (.code 0)) { phase := .returned .succeeded, verdict := some .ready }
  | fails {child status} (phase : state.phase name = .spawned .starting child) (task : node.isService = false)
    (running : state.reason = none) (exited : child.exited = some status) (closed : child.closed = true)
    (unsuccessful : status.codeOrOne ≠ 0) : Acts state name node (.reap status)
      { phase := .returned (.failed status.codeOrOne), verdict := some .unavailable }
  | loses {child} (phase : state.phase name = .spawned .starting child) (task : node.isService = false)
    (running : state.reason = none) (exited : child.exited = some .lost) (closed : child.closed = true) :
    Acts state name node (.reap .lost) { phase := .spawned (.stopping (.failed 1)) child }
  | dies {child status} (phase : state.phase name = .spawned .starting child) (service : node.isService = true)
    (running : state.reason = none) (exited : child.exited = some status) (closed : child.closed = true) :
    Acts state name node (.reap status)
      { phase := .returned (.failed status.codeOrOne), verdict := some .unavailable, reason := some .aborted }
  | leaves {child status} (phase : state.phase name = .spawned .up child) (running : state.reason = none)
    (exited : child.exited = some status) (closed : child.closed = true) :
    Acts state name node (.reap status) { phase := .returned (.failed status.codeOrOne), reason := some .aborted }
  | death {child status} (phase : state.phase name = .spawned .up child) (running : state.reason = none)
    (exited : child.exited = some status) : Acts state name node (.death status)
      { phase := .spawned (.stopping (.failed status.siStatus)) child, reason := some .aborted }
  | probe {child} (phase : state.phase name = .spawned .starting child) (service : node.isService = true)
    (running : state.reason = none) :
    Acts state name node .probe { phase := .spawned .up child, verdict := some .ready }
  | stopped {child outcome kills} (phase : state.phase name = .spawned (.stopping outcome) child)
    (gone : kills = true → child.exited.isSome = true ∧ child.closed = true) :
    Acts state name node (.stopped kills) (returns node outcome)

/-! ## Every step is one of the list -/

variable {checked : Nat}

theorem acts_awaits (phase : state.phase name = .waiting checked)
    (acted : node.dependsOn[checked]?.bind (awaitDep state checked) = some change) : Acts state name node .awaits change := by
  obtain ⟨dep, reads, acted⟩ := Option.bind_eq_some_iff.mp acted
  rw [awaitDep] at acted
  split at acted
  next verdict =>
    cases acted
    exact .passes phase reads verdict
  next verdict =>
    cases acted
    exact .refused phase reads (.inl verdict)
  next verdict =>
    split at acted
    next gone =>
      cases acted
      exact .refused phase reads (.inr ⟨verdict, gone⟩)
    next => cases acted

theorem acts_turn {spawns : Bool} (phase : state.phase name = .waiting checked) (turn : checked = node.dependsOn.length) :
    Acts state name node (.turn spawns) (takeTurn state node spawns) := by
  rw [takeTurn]
  split
  next reason down => exact .late phase turn (by simp [down])
  next running =>
    cases spawns with
    | true => exact .spawns phase turn running
    | false =>
      have fails := Acts.spawnFails phase turn running
      cases service : node.isService <;> simpa [spawnFailed, returns, service] using fails

variable {stage : Stage} {child : Child}

theorem acts_shut (phase : state.phase name = .spawned stage child)
    (acted : state.reason.bind (fun reason => shutDown node reason child stage) = some change) :
    Acts state name node .shut change := by
  obtain ⟨reason, down, acted⟩ := Option.bind_eq_some_iff.mp acted
  cases stage with
  | starting =>
    rw [shutDown] at acted
    split at acted
    next service =>
      cases acted
      exact .shutStarting phase service (by simp [down])
    next task =>
      cases acted
      exact .shutTask phase (Bool.eq_false_iff.mpr task) down
  | up =>
    cases acted
    exact .shutUp phase (by simp [down])
  | stopping => cases acted

theorem acts_timeout (phase : state.phase name = .spawned stage child) (running : state.reason = none)
    (acted : timeOut node child stage = some change) : Acts state name node .timeout change := by
  cases stage with
  | starting =>
    rw [timeOut] at acted
    split_ifs at acted with service timed
    · cases acted
      exact .timeoutService phase service running
    · cases acted
      exact .timeoutTask phase (Bool.eq_false_iff.mpr service) running timed
  | up | stopping => cases acted

variable {status : ExitStatus}

theorem ExitStatus.codeOrOne_ne_zero (unsuccessful : status ≠ .code 0) : status.codeOrOne ≠ 0 := by
  cases status with
  | code number => exact fun zero => unsuccessful (by rw [← show number = 0 from zero])
  | signal | lost => exact Nat.one_ne_zero

theorem acts_reap (phase : state.phase name = .spawned stage child) (running : state.reason = none)
    (exited : child.exited = some status) (closed : child.closed = true)
    (acted : captureExit node status child stage = some change) : Acts state name node (.reap status) change := by
  cases stage with
  | starting =>
    unfold captureExit at acted
    dsimp only at acted
    split_ifs at acted with service
    · cases acted
      exact .dies phase service running exited closed
    · have task : node.isService = false := Bool.eq_false_iff.mpr service
      split at acted
      next =>
        cases acted
        simpa [returns, task] using Acts.succeeds phase task running exited closed
      next =>
        cases acted
        exact .loses phase task running exited closed
      next unlike _ =>
        cases acted
        simpa [returns, task] using Acts.fails phase task running exited closed (ExitStatus.codeOrOne_ne_zero unlike)
  | up =>
    cases acted
    exact .leaves phase running exited closed
  | stopping => cases acted

theorem acts_of_act (acted : act state name node action = some change) : Acts state name node action change := by
  unfold act at acted
  split at acted
  next status stage child phase =>
    split_ifs at acted with alive
    cases acted
    exact .exits phase alive
  next stage child phase =>
    split_ifs at acted with closed
    cases acted
    exact .closes phase (Bool.eq_false_iff.mpr closed)
  next checked phase => exact acts_awaits phase acted
  next spawns checked phase =>
    split_ifs at acted with turn
    cases acted
    exact acts_turn phase turn
  next stage child phase => exact acts_shut phase acted
  next stage child phase =>
    split_ifs at acted with running
    exact acts_timeout phase running acted
  next status stage child phase =>
    split_ifs at acted with met
    exact acts_reap phase met.1 met.2.1 met.2.2 acted
  next status child phase =>
    split_ifs at acted with met
    cases acted
    exact .death phase met.1 met.2
  next child phase =>
    split_ifs at acted with met
    cases acted
    exact .probe phase met.2 met.1
  next kills outcome child phase =>
    split_ifs at acted with gone
    cases acted
    exact .stopped phase gone
  next => cases acted

/-- What an event does to the state. -/
inductive Steps (spec : Spec) (state : State) : Event → State → Prop
  | cancel (first : state.interrupted = false) :
    Steps spec state .cancel { state with interrupted := true, reason := state.reason.or (some .cancelled) }
  | node {name : String} {node : NodeSpec} {action : Action} {change : Change} (known : spec[name]? = some node) (acts : Acts state name node action change) :
    Steps spec state (.node name action) (state.apply name change)
  | record {name : String} {node : NodeSpec} {outcome : Outcome} (known : spec[name]? = some node) (phase : state.phase name = .returned outcome) :
    Steps spec state (.record name) (state.insertRecord name node outcome)

/-- What a step is to one node: nothing, an act of its own, or its record. -/
inductive StepsAt (spec : Spec) (state : State) (name : String) : Event → State → Prop
  | away {event : Event} {next : State} (phase : next.phase name = state.phase name) (verdict : next.verdict name = state.verdict name)
    (records : next.records[name]? = state.records[name]?) : StepsAt spec state name event next
  | acts {node : NodeSpec} {action : Action} {change : Change} (known : spec[name]? = some node) (acts : Acts state name node action change) :
    StepsAt spec state name (.node name action) (state.apply name change)
  | record {node : NodeSpec} {outcome : Outcome} (known : spec[name]? = some node) (phase : state.phase name = .returned outcome) :
    StepsAt spec state name (.record name) (state.insertRecord name node outcome)

theorem Steps.atNode {event : Event} (steps : Steps spec state event next) (name : String) : StepsAt spec state name event next := by
  cases steps with
  | cancel => exact .away rfl rfl rfl
  | @node other node action change known acts =>
    by_cases same : name = other
    · subst same
      exact .acts known acts
    · exact .away (State.phase_apply_of_ne same) (State.verdict_apply_of_ne same) rfl
  | @record other node outcome known phase =>
    by_cases same : name = other
    · subst same
      exact .record known phase
    · exact .away (State.phase_insertRecord_of_ne same) rfl (State.records_insertRecord_of_ne same)

theorem steps_of_step {event : Event} (stepped : step spec state event = some next) : Steps spec state event next := by
  cases event with
  | cancel =>
    rw [step] at stepped
    split_ifs at stepped with interrupted
    cases stepped
    exact .cancel (Bool.eq_false_iff.mpr interrupted)
  | node name action =>
    obtain ⟨node, known, stepped⟩ := Option.bind_eq_some_iff.mp stepped
    obtain ⟨change, acted, stepped⟩ := Option.bind_eq_some_iff.mp stepped
    cases stepped
    exact .node known (acts_of_act acted)
  | record name =>
    obtain ⟨node, known, stepped⟩ := Option.bind_eq_some_iff.mp stepped
    split at stepped
    next outcome phase =>
      cases stepped
      exact .record known phase
    next => cases stepped

end Index.DagRunner
