import Index.DagRunner.Standing
import Mathlib.Algebra.Order.BigOperators.Group.List

/-! # Scheduling

What holds of a run whatever its interleaving: which nodes are spawned and which are skipped, that a run ends when the
processes do, and who can be the cause of a node not running to its end. -/

namespace Index.DagRunner

open Index.Lib State List

variable {spec : Spec} {start state next final : State} {name : String} {node : NodeSpec} {event : Event}

/-! ## The invariant -/

/-- The tasks that have not settled. -/
def pending (spec : Spec) (state : State) : List (String × NodeSpec) :=
  spec.toList.filter fun entry => !entry.2.isService && state.phase entry.1 != .done

structure Scheduled (spec : Spec) (state : State) : Prop where
  standing : Standing spec state
  /-- The verdicts read so far were good, and so they are still. -/
  checked : ∀ (name : String) (node : NodeSpec) (count : Nat), spec[name]? = some node → state.phase name = .waiting count →
    count ≤ node.dependsOn.length ∧ ∀ dep ∈ node.dependsOn.take count, state.verdict dep = some .ready
  ran : ∀ (name : String) (node : NodeSpec), spec[name]? = some node → state.Ran name →
    ∀ dep ∈ node.dependsOn, state.verdict dep = some .ready
  remaining : state.remaining = (pending spec state).length
  drained : state.reason = some .drained → pending spec state = []
  recorded : ∀ name : String, name ∉ spec → state.records[name]? = none

theorem mem_pending : (name, node) ∈ pending spec state ↔
    spec[name]? = some node ∧ node.isService = false ∧ state.phase name ≠ .done := by
  simp [pending, Std.ExtTreeMap.mem_toList_iff_getElem?_eq_some]

theorem pending_congr (same : ∀ name, state.phase name = .done ↔ next.phase name = .done) :
    pending spec next = pending spec state := by
  refine filter_congr fun entry _ => ?_
  rw [Bool.eq_iff_iff]
  simp [same]

theorem pending_apply {action : Action} {change : Change} (acts : Acts state name node action change) :
    pending spec (state.apply name change) = pending spec state := by
  refine pending_congr fun other => ?_
  by_cases same : other = name
  · subst same
    simp [acts.not_done]
  · rw [phase_apply_of_ne same]

/-- A task that settles is struck off. -/
theorem pending_insertRecord {outcome : Outcome} (known : spec[name]? = some node) :
    pending spec (state.insertRecord name node outcome) = (pending spec state).erase (name, node) := by
  have unique : (pending spec state).Nodup :=
    (List.Nodup.of_map _ (BTreeMap.keys_nodup spec)).filter _
  rw [unique.erase_eq_filter, pending, pending, filter_filter]
  refine filter_congr fun ⟨other, otherNode⟩ member => ?_
  have found : spec[other]? = some otherNode := Std.ExtTreeMap.mem_toList_iff_getElem?_eq_some.mp member
  by_cases same : other = name
  · subst same
    cases known.symm.trans found
    simp
  · rw [phase_insertRecord_of_ne same]
    simp [same]

theorem launch_of_ordered (ordered : OrderedAfter (fun name => name) spec.dependsOn [] (topologicalOrder spec)) :
    launch spec = some { remaining := (spec.values.filter fun node => !node.isService).length } := by
  have loop : ∀ (names channels : List String), OrderedAfter (fun name => name) spec.dependsOn channels names →
      ∃ all, names.foldlM (fun channels name => if spec.dependsOn name ⊆ channels then some (name :: channels) else none)
        channels = some all := by
    intro names
    induction names with
    | nil => exact fun channels _ => ⟨channels, rfl⟩
    | cons name names ih =>
      intro channels ordered
      obtain ⟨all, looped⟩ := ih (name :: channels) ordered.2
      have ready : spec.dependsOn name ⊆ channels := fun dep member => ordered.1 dep member
      exact ⟨all, by rw [foldlM_cons, if_pos ready]; exact looped⟩
  obtain ⟨all, looped⟩ := loop _ [] ordered
  simp [launch, looped]

theorem launch_eq (valid : Valid spec) :
    launch spec = some { remaining := (spec.values.filter fun node => !node.isService).length } :=
  launch_of_ordered (topologicalOrder_ordered valid.known (acyclic_of_grounded valid.grounded)).1

/-- The graph checks of a closed spec: a cycle is reported if and only if there is one, and the order that is then taken is
one in which every receiver exists when it is cloned. -/
theorem detectCycle_topologicalOrder (closed : ∀ name dep, spec.Needs name dep → dep ∈ spec) :
    (detectCycle spec = .ok () ↔ ∀ name, ¬ spec.DependsOn name name) ∧
      (∀ error, detectCycle spec = .error error → ∃ path, error = .cycle path ∧ EndsInCycle spec path) ∧
      (detectCycle spec = .ok () → (topologicalOrder spec).Perm spec.keys ∧
        (∀ before name after, topologicalOrder spec = before ++ name :: after → ∀ dep, spec.Needs name dep → dep ∈ before) ∧
        (∀ fuel, spec.size < fuel →
          (spec.keys.foldl (fun walk name => visitTopo spec fuel name walk) {}).order = topologicalOrder spec) ∧
        (launch spec).isSome = true) := by
  refine ⟨detectCycle_eq_ok closed, fun error failed => (detectCycle_ends closed).of_error failed, fun detected => ?_⟩
  obtain ⟨ordered, all, bounded⟩ := topologicalOrder_ordered closed ((detectCycle_eq_ok closed).mp detected)
  refine ⟨all, fun before name after split dep needed => ?_, bounded, by simp [launch_of_ordered ordered]⟩
  rw [split] at ordered
  simpa using ordered.needs_before needed

/-- A node that waits twice for another. -/
def twice : Spec :=
  Std.ExtTreeMap.ofList [("a", ({ command := ["run"], dependsOn := ["b", "b"] } : NodeSpec)), ("b", { command := ["run"] })]

theorem twice_topologicalOrder : (∀ name dep, twice.Needs name dep → dep ∈ twice) ∧ detectCycle twice = .ok () ∧
    (topologicalOrder twice).Perm twice.keys ∧ (launch twice).isSome = true := by
  have validated : validate twice = .ok () := by decide +kernel
  have closed := (valid_of_validate validated).known
  have detected : detectCycle twice = .ok () := by decide +kernel
  obtain ⟨all, -, -, launched⟩ := (detectCycle_topologicalOrder closed).2.2 detected
  exact ⟨closed, detected, all, launched⟩

theorem eq_of_launch (launched : launch spec = some start) :
    start = { remaining := (spec.values.filter fun node => !node.isService).length } := by
  obtain ⟨_, -, returned⟩ := Option.bind_eq_some_iff.mp launched
  exact (Option.some.inj returned).symm

theorem scheduled_launch (launched : launch spec = some start) : Scheduled spec start := by
  obtain rfl := eq_of_launch launched
  refine ⟨fun name node _ => ?_, fun name node count _ phase => ?_, fun name node _ ran => ?_, ?_, nofun, by simp⟩
  · simpa [State.Stands] using Stands.waiting
  · obtain rfl : 0 = count := by simpa using phase
    simp
  · simp [State.Ran, State.outcome] at ran
  · have waits : (Phase.waiting 0 != Phase.done) = true := by decide
    simp [pending, BTreeMap.values, filter_map, Function.comp_def, waits]

/-- What a step of a node finds when it runs the node. -/
theorem Acts.ran {action : Action} {change : Change} (acts : Acts state name node action change)
    (ran : (state.apply name change).Ran name) :
    state.Ran name ∨ state.phase name = .waiting node.dependsOn.length := by
  cases acts with
  | refused | late => simp [State.Ran, State.outcome, neverRan] at ran
  | passes => simp [State.Ran, State.outcome] at ran
  | spawns phase turn | spawnFails phase turn => exact .inr (turn ▸ phase)
  | exits phase | closes phase | shutTask phase | shutStarting phase | shutUp phase | timeoutTask phase | timeoutService phase
  | succeeds phase | fails phase | loses phase | dies phase | leaves phase | death phase | probe phase | stopped phase =>
    exact .inl (.inl ⟨_, _, phase⟩)

theorem ran_of_insertRecord {outcome : Outcome} (phase : state.phase name = .returned outcome)
    (ran : (state.insertRecord name node outcome).Ran name) : state.Ran name := by
  simp only [State.Ran, State.outcome, phase, phase_insertRecord_self, records_insertRecord_self] at ran ⊢
  simpa using ran

theorem ran_congr {other : String} (phase : next.phase other = state.phase other)
    (record : next.records[other]? = state.records[other]?) : next.Ran other ↔ state.Ran other := by
  simp only [State.Ran, State.outcome, phase, record]

theorem Scheduled.step (scheduled : Scheduled spec state) (steps : Steps spec state event next) : Scheduled spec next where
  standing := standing_step scheduled.standing steps
  checked other otherNode count otherKnown otherPhase := by
    suffices before : count ≤ otherNode.dependsOn.length ∧
        ∀ dep ∈ otherNode.dependsOn.take count, state.verdict dep = some .ready from
      ⟨before.1, fun dep member => verdict_step scheduled.standing steps (before.2 dep member)⟩
    cases steps.atNode other with
    | away phase =>
      rw [phase] at otherPhase
      exact scheduled.checked other otherNode count otherKnown otherPhase
    | acts known acts =>
      cases known.symm.trans otherKnown
      rw [phase_apply_self] at otherPhase
      cases acts with
      | @passes checked dep phase reads verdict =>
        cases otherPhase
        obtain ⟨_, good⟩ := scheduled.checked other otherNode checked otherKnown phase
        obtain ⟨inside, rfl⟩ := List.getElem?_eq_some_iff.mp reads
        refine ⟨inside, ?_⟩
        rw [take_succ_eq_append_getElem inside]
        exact forall_mem_append.mpr ⟨good, forall_mem_singleton.mpr verdict⟩
      | _ => simp_all [neverRan, returns]
    | record => simp at otherPhase
  ran other otherNode otherKnown ran dep member := by
    refine verdict_step scheduled.standing steps ?_
    suffices before : state.Ran other ∨ state.phase other = .waiting otherNode.dependsOn.length by
      rcases before with before | turn
      · exact scheduled.ran other otherNode otherKnown before dep member
      · exact (scheduled.checked other otherNode _ otherKnown turn).2 dep (by rwa [take_length])
    cases steps.atNode other with
    | away phase _ records => exact .inl ((ran_congr phase records).mp ran)
    | acts known acts =>
      cases known.symm.trans otherKnown
      exact acts.ran ran
    | record _ phase => exact .inl (ran_of_insertRecord phase ran)
  remaining := by
    cases steps with
    | cancel => exact scheduled.remaining
    | node known acts =>
      rw [pending_apply acts]
      exact scheduled.remaining
    | @record name node outcome known phase =>
      rw [pending_insertRecord known]
      cases service : node.isService with
      | true =>
        have absent : (name, node) ∉ pending spec state := fun member => by simp [mem_pending, service] at member
        rw [erase_of_not_mem absent]
        simpa [State.insertRecord, service] using scheduled.remaining
      | false =>
        have member : (name, node) ∈ pending spec state := mem_pending.mpr ⟨known, service, by simp [phase]⟩
        rw [length_erase_of_mem member]
        simpa [State.insertRecord, service] using congrArg (· - 1) scheduled.remaining
  drained isDrained := by
    cases steps with
    | cancel first =>
      cases given : state.reason with
      | none => simp [given] at isDrained
      | some reason => exact scheduled.drained (by simpa [given] using isDrained)
    | node known acts =>
      rw [pending_apply acts]
      cases given : state.reason with
      | none => cases acts <;> simp_all [neverRan, returns]
      | some reason => exact scheduled.drained (by simpa [given] using isDrained)
    | @record name node outcome known phase =>
      rw [pending_insertRecord known]
      rcases @reason_insertRecord state name node outcome with same | last
      · rw [scheduled.drained (same ▸ isDrained), erase_nil]
      · obtain ⟨task, one, -, -⟩ := last
        have member : (name, node) ∈ pending spec state := mem_pending.mpr ⟨known, task, by simp [phase]⟩
        refine length_eq_zero_iff.mp ?_
        rw [length_erase_of_mem member, ← scheduled.remaining, one]
  recorded other unknown := by
    cases steps with
    | cancel | node => exact scheduled.recorded other unknown
    | @record name node outcome known phase =>
      have apart : other ≠ name := by
        rintro rfl
        exact unknown (BTreeMap.mem_iff.mpr ⟨_, known⟩)
      rw [records_insertRecord_of_ne apart]
      exact scheduled.recorded other unknown

end Index.DagRunner
