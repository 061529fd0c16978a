import Index.DagRunner.Scheduling

/-! # Runs end

Every event uses something up, so no run goes on for ever; and as long as a node is not done and no process is left
to wait for, some future can go on. -/

namespace Index.DagRunner

open Index.Lib

variable {spec : Spec} {start state next final : State} {name : String} {node : NodeSpec} {event : Event}

/-! ## The length of a run -/

def Stage.weight : Stage → Nat
  | .starting => 5
  | .up => 4
  | .stopping _ => 3

/-- What can still happen to a process: it exits, and its streams are closed. -/
def Child.weight (child : Child) : Nat := (if child.exited = none then 1 else 0) + if child.closed then 0 else 1

/-- A bound on the events that a node in this phase still takes part in. -/
def Phase.weight (node : NodeSpec) : Phase → Nat
  | .waiting checked => node.dependsOn.length - checked + 8
  | .spawned stage child => stage.weight + child.weight
  | .returned _ => 1
  | .done => 0

def State.weight (spec : Spec) (state : State) : Nat :=
  (spec.toList.map fun entry => (state.phase entry.1).weight entry.2).sum + if state.interrupted then 0 else 1

/-- A bound on the events of a run. -/
def bound (spec : Spec) : Nat := (spec.values.map fun node => node.dependsOn.length + 8).sum + 1

theorem Child.weight_le (child : Child) : child.weight ≤ 2 := by
  rw [Child.weight]
  split_ifs <;> omega

theorem Acts.weight_lt {action : Action} {change : Change} (acts : Acts state name node action change) :
    change.phase.weight node < (state.phase name).weight node := by
  cases acts with (rw [‹state.phase name = _›])
  | exits _ alive | closes _ alive => simp [Phase.weight, Child.weight, alive]
  | passes _ reads =>
    have := (List.getElem?_eq_some_iff.mp reads).1
    simp only [Phase.weight]
    omega
  | spawns =>
    have := Child.weight_le { closed := node.stdio = .inherit }
    simp only [Phase.weight, Stage.weight]
    omega
  | refused | late | spawnFails => simp [Phase.weight, neverRan]
  | shutTask | shutStarting | shutUp | timeoutTask | timeoutService | loses | death | probe =>
    simp [Phase.weight, Stage.weight]
  | succeeds | fails | dies | leaves | stopped =>
    simp only [Phase.weight, Stage.weight, returns]
    omega

/-- An event of one node leaves the other nodes what they have. -/
theorem weight_lt_of_phase (known : spec[name]? = some node) (interrupted : next.interrupted = state.interrupted)
    (others : ∀ other, other ≠ name → next.phase other = state.phase other)
    (less : (next.phase name).weight node < (state.phase name).weight node) : next.weight spec < state.weight spec := by
  rw [State.weight, State.weight, interrupted]
  refine Nat.add_lt_add_right (List.sum_lt_sum _ _ (fun entry member => ?_) ?_) _
  · by_cases same : entry.1 = name
    · have found : spec[entry.1]? = some entry.2 := Std.ExtTreeMap.mem_toList_iff_getElem?_eq_some.mp member
      rw [same] at found ⊢
      cases known.symm.trans found
      exact less.le
    · rw [others entry.1 same]
  · exact ⟨(name, node), Std.ExtTreeMap.mem_toList_iff_getElem?_eq_some.mpr known, less⟩

theorem weight_lt (steps : Steps spec state event next) : next.weight spec < state.weight spec := by
  cases steps with
  | cancel first => simp [State.weight, first]
  | node known acts =>
    refine weight_lt_of_phase known rfl (fun other apart => State.phase_apply_of_ne apart) ?_
    rw [State.phase_apply_self]
    exact acts.weight_lt
  | record known phase =>
    refine weight_lt_of_phase known rfl (fun other apart => State.phase_insertRecord_of_ne apart) ?_
    rw [State.phase_insertRecord_self, phase]
    simp [Phase.weight]

theorem length_le_bound {events : List Event} (launched : launch spec = some start)
    (ran : run (step spec) start events = some final) : events.length ≤ bound spec := by
  have bounded := length_le_of_decreasing (State.weight spec) (fun _ _ _ stepped => weight_lt (steps_of_step stepped)) ran
  obtain rfl := eq_of_launch launched
  simpa [State.weight, Phase.weight, bound, BTreeMap.values, Function.comp_def] using bounded

/-! ## Progress -/

/-- The event is a step of the runner, not something that happens outside it. -/
def Event.Inside : Event → Prop
  | .cancel => False
  | .node _ (.exits _) => False
  | .node _ .closes => False
  | _ => True

/-- No process that was spawned is left running, and nobody holds a stream of one open. -/
def Exited (state : State) : Prop :=
  ∀ name stage child, state.phase name = .spawned stage child → child.exited.isSome = true ∧ child.closed = true

theorem step_node {action : Action} {change : Change} (known : spec[name]? = some node)
    (acted : act state name node action = some change) :
    step spec state (.node name action) = some (state.apply name change) := by
  simp [step, known, acted]

/-- A process that has ended is noticed. -/
theorem exists_step_spawned {stage : Stage} {child : Child} (known : spec[name]? = some node)
    (phase : state.phase name = .spawned stage child) (exited : child.exited.isSome = true) (closed : child.closed = true) :
    ∃ event, event.Inside ∧ step spec state event ≠ none := by
  obtain ⟨status, exit⟩ := Option.isSome_iff_exists.mp exited
  cases stage with
  | stopping outcome =>
    refine ⟨.node name (.stopped true), trivial, ?_⟩
    simp [step, known, act, phase, exited, closed]
  | starting =>
    cases given : state.reason with
    | some reason =>
      refine ⟨.node name .shut, trivial, ?_⟩
      cases service : node.isService <;> simp [step, known, act, phase, given, shutDown, service]
    | none =>
      refine ⟨.node name (.reap status), trivial, ?_⟩
      obtain ⟨change, captured⟩ : ∃ change, captureExit node status child .starting = some change := by
        unfold captureExit
        dsimp only
        split_ifs
        · exact ⟨_, rfl⟩
        · split <;> exact ⟨_, rfl⟩
      simp [step, known, act, phase, given, exit, closed, captured]
  | up =>
    cases given : state.reason with
    | some reason =>
      refine ⟨.node name .shut, trivial, ?_⟩
      simp [step, known, act, phase, given, shutDown]
    | none =>
      refine ⟨.node name (.reap status), trivial, ?_⟩
      simp [step, known, act, phase, given, exit, closed, captureExit]

/-- A node waits for nodes that come before it, so one that is not done leads to one that can go on. -/
theorem exists_step (valid : Valid spec) (scheduled : Scheduled spec state) (exited : Exited state) (member : name ∈ spec)
    (unfinished : state.phase name ≠ .done) : ∃ event, event.Inside ∧ step spec state event ≠ none := by
  induction valid.grounded name with
  | intro name _ ih =>
    obtain ⟨node, known⟩ := BTreeMap.mem_iff.mp member
    cases phase : state.phase name with
    | done => exact absurd phase unfinished
    | returned outcome =>
      refine ⟨.record name, trivial, ?_⟩
      simp [step, known, phase]
    | spawned stage child =>
      obtain ⟨gone, closed⟩ := exited name stage child phase
      exact exists_step_spawned known phase gone closed
    | waiting count =>
      obtain ⟨inside, -⟩ := scheduled.checked name node count known phase
      rcases Nat.lt_or_eq_of_le inside with more | turn
      · have reads : node.dependsOn[count]? = some node.dependsOn[count] := List.getElem?_eq_getElem more
        have needed : spec.Needs name node.dependsOn[count] := by simp [Spec.Needs, Spec.dependsOn_eq known]
        by_cases silent : state.verdict node.dependsOn[count] = none ∧ state.phase node.dependsOn[count] ≠ .done
        · exact ih _ needed (valid.known name _ needed) silent.2
        · refine ⟨.node name .awaits, trivial, ?_⟩
          obtain ⟨change, read⟩ : ∃ change, awaitDep state count node.dependsOn[count] = some change := by
            rw [awaitDep]
            split
            · exact ⟨_, rfl⟩
            · exact ⟨_, rfl⟩
            next none =>
              have gone : state.phase node.dependsOn[count] = .done := by simpa [none] using silent
              exact ⟨_, by rw [if_pos gone]⟩
          simp [step, known, act, phase, reads, read]
      · refine ⟨.node name (.turn true), trivial, ?_⟩
        simp [step, known, act, phase, turn]

end Index.DagRunner
