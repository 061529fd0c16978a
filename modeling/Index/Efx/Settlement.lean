import Index.Efx.Engine
import Index.Efx.Merkle

/-! # What a run makes of one effect

`settlement` is the specification of a run: what becomes of an effect, given the outputs and the
halted effects so far.  It reads the run state at the referenced effects only.  The staging and
settling loops of a level are shown to give every effect of the level its settlement. -/

namespace Index.Efx

open Index.Lib Function

/-- What a run makes of one effect: its record, the outputs handed on, whether it halts its
dependents, the request its executor got and the journal entry written. -/
structure Settlement where
  record : RunEffect
  outputs : Option Outputs := none
  halts : Bool := true
  request : Option ExecuteRequest := none
  entry : Option JournalEntry := none

/-- The settlement of an effect whose executor ran. -/
def executedSettlement (host : Host) (decision : Decision) (effect : Effect) (request : ExecuteRequest)
    (execution : Execution) : Settlement :=
  match execution.result with
  | .ok produced =>
    { record := { decision.record effect with
        reason := some decision.reason, durationMs := execution.durationMs, action := .executed }
      outputs := some produced, halts := false, request := some request
      entry := some (journalEntry host effect .succeeded produced) }
  | .error error =>
    { record := { decision.record effect with
        reason := some error.message, durationMs := execution.durationMs, action := .failed }
      request := some request, entry := some (journalEntry host effect .failed ∅) }

def requestOf (effect : Effect) (inputs : BTreeMap String Literal) : ExecuteRequest :=
  { name := effect.name, kind := effect.kind, inputs }

section Settling

variable (host : Host) (journal : Journal) (registry : Registry) (decision : Decision) (state : RunState)
  (effect : Effect)

def settlement : Settlement :=
  match firstHaltedDependency effect state.halted with
  | some blocker => { record := { decision.record effect with reason := some (blockedReason blocker) } }
  | none =>
    match decision.verdict with
    | .cached =>
      { record := { decision.record effect with action := .cached }
        outputs := (journal.entry decision.id).map JournalEntry.outputs, halts := false }
    | .execute =>
      match resolveInputs effect state.outputs, registry.get effect.executor with
      | .error message, _ =>
        { record := { decision.record effect with action := .failed, reason := some message } }
      | .ok inputs, some executor =>
        executedSettlement host decision effect (requestOf effect inputs)
          (runJob host { effect, executor, request := requestOf effect inputs }).execution
      -- The executor check of `apply` leaves no such effect.
      | .ok _, none => { record := decision.record effect }

def Settlement.write (settled : Settlement) (journal : Journal) : Journal :=
  match settled.entry with
  | some entry => journal.write settled.record.id entry
  | none => journal

def Settlement.calls (settled : Settlement) (effect : Effect) : List (String × ExecuteRequest) :=
  (settled.request.map (Prod.mk effect.executor)).toList

end Settling

/-- A settlement's entry shadows what the journal holds under its identity. -/
theorem Settlement.lookup_write (settled : Settlement) (journal : Journal) (key : String) :
    (settled.write journal).state.entries[key]? =
      (if settled.record.id.toHex = key then settled.entry else none).or journal.state.entries[key]? := by
  unfold Settlement.write
  cases settled.entry with
  | none => simp
  | some entry =>
    simp only [Journal.write, BTreeMap.getElem?_insert]
    split <;> rfl

/-! ## The run state, name by name -/

/-- What the run state says about one name. -/
@[ext]
structure Cell where
  outputs : Option Outputs := none
  halted : Bool := false
  result : Option RunEffect := none

def RunState.cell (state : RunState) (name : String) : Cell :=
  { outputs := state.outputs[name]?, halted := state.halted.contains name, result := state.results[name]? }

def Settlement.cell (settled : Settlement) : Cell :=
  { outputs := settled.outputs, halted := settled.halts, result := some settled.record }

/-- The cell of an effect between staging and settling. -/
def Settlement.stagedCell (settled : Settlement) (decision : Decision) (effect : Effect) : Cell :=
  match settled.request with
  | none => settled.cell
  | some _ => { result := some { decision.record effect with reason := some decision.reason } }

variable {effect : Effect} {halted : BTreeSet String}

theorem firstHaltedDependency_eq_some {blocker : String} (blocked : firstHaltedDependency effect halted = some blocker) :
    blocker ∈ effect.references ∧ halted.contains blocker = true := by
  obtain ⟨value, member, found⟩ := List.exists_of_findSome?_eq_some blocked
  cases value with
  | literal literal => cases found
  | ref r =>
    simp only [Option.ite_none_right_eq_some, Option.some.injEq] at found
    obtain ⟨inside, rfl⟩ := found
    exact ⟨List.mem_filterMap.mpr ⟨_, member, rfl⟩, inside⟩

theorem firstHaltedDependency_eq_none :
    firstHaltedDependency effect halted = none ↔ ∀ target ∈ effect.references, halted.contains target = false := by
  simp only [firstHaltedDependency, List.findSome?_eq_none_iff, Effect.references, List.mem_filterMap]
  constructor
  · rintro free target ⟨value, member, refers⟩
    have here := free value member
    cases value with
    | literal literal => cases refers
    | ref r =>
      cases refers
      rw [Bool.eq_false_iff]
      simpa using here
  · intro free value member
    cases value with
    | literal literal => rfl
    | ref r => simpa [Bool.eq_false_iff] using free r.effect ⟨_, member, rfl⟩

section Congruence

variable {state other : RunState}

theorem firstHaltedDependency_congr
    (agree : ∀ target ∈ effect.references, state.halted.contains target = other.halted.contains target) :
    firstHaltedDependency effect state.halted = firstHaltedDependency effect other.halted := by
  refine findSome?_congr fun value member => ?_
  cases value with
  | literal literal => rfl
  | ref r => simp only [agree r.effect (List.mem_filterMap.mpr ⟨_, member, rfl⟩)]

theorem resolveInputs_congr
    (agree : ∀ target ∈ effect.references, state.outputs[target]? = other.outputs[target]?) :
    resolveInputs effect state.outputs = resolveInputs effect other.outputs := by
  refine BTreeMap.tryMap_congr fun key value present => ?_
  cases value with
  | literal literal => rfl
  | ref r => rw [resolveInput, resolveInput, agree r.effect (Effect.mem_references.mpr ⟨key, r, present, rfl⟩)]

variable {host : Host} {registry : Registry} {decision : Decision}

/-- A settlement reads the halted effects and the outputs of the references only. -/
theorem settlement_congr {journal : Journal}
    (halted : ∀ target ∈ effect.references, (state.cell target).halted = (other.cell target).halted)
    (outputs : ∀ target ∈ effect.references, (state.cell target).outputs = (other.cell target).outputs) :
    settlement host journal registry decision state effect =
      settlement host journal registry decision other effect := by
  unfold settlement
  rw [firstHaltedDependency_congr halted, resolveInputs_congr outputs]

/-- A settlement reads the journal for cached effects only. -/
theorem settlement_journal_congr {journal current : Journal}
    (unchanged : decision.verdict = .cached → current.entry decision.id = journal.entry decision.id) :
    settlement host current registry decision state effect =
      settlement host journal registry decision state effect := by
  unfold settlement
  cases verdict : decision.verdict with
  | cached => rw [unchanged verdict]
  | execute => rfl

end Congruence

/-! ## One step of the loops -/

section Cells

variable (state : RunState) (name : String) (record : RunEffect)

theorem RunState.cell_halt :
    RunState.cell { state with
      halted := state.halted.insert name, results := state.results.insert name record } =
    update state.cell name { state.cell name with halted := true, result := some record } := by
  rw [eq_update_iff]
  exact ⟨by simp [RunState.cell], fun other differ => by simp [RunState.cell, BTreeMap.getElem?_insert, Ne.symm differ]⟩

theorem RunState.cell_hand_on (outputs : Outputs) :
    RunState.cell { state with
      outputs := state.outputs.insert name outputs, results := state.results.insert name record } =
    update state.cell name { state.cell name with outputs := some outputs, result := some record } := by
  rw [eq_update_iff]
  exact ⟨by simp [RunState.cell], fun other differ => by simp [RunState.cell, BTreeMap.getElem?_insert, Ne.symm differ]⟩

theorem RunState.cell_record :
    RunState.cell { state with results := state.results.insert name record } =
    update state.cell name { state.cell name with result := some record } := by
  rw [eq_update_iff]
  exact ⟨by simp [RunState.cell], fun other differ => by simp [RunState.cell, BTreeMap.getElem?_insert, Ne.symm differ]⟩

end Cells

def Settlement.job (settled : Settlement) (registry : Registry) (effect : Effect) : Option Job :=
  match settled.request, registry.get effect.executor with
  | some request, some executor => some { effect, executor, request }
  | _, _ => none

section Steps

variable {host : Host} {journal current : Journal} {registry : Registry} {decision : Decision} {state : RunState}
  {effect : Effect}

theorem executedSettlement_request (execution : Execution) (request : ExecuteRequest) :
    (executedSettlement host decision effect request execution).request = some request := by
  unfold executedSettlement
  split <;> rfl

/-- Staging leaves an effect in its staged cell and makes it a job exactly when its executor is due. -/
theorem stageEffect_spec (host : Host) {decisions : BTreeMap String Decision} (jobs : List Job)
    (found : decisions[effect.name]? = some decision)
    (unchanged : decision.verdict = .cached →
      ∃ entry, current.entry decision.id = some entry ∧ journal.entry decision.id = some entry)
    (registered : decision.verdict = .execute → ∃ executor, registry.get effect.executor = some executor)
    (blank : state.cell effect.name = {}) :
    ∃ next,
      stageEffect decisions current registry (state, jobs) effect =
        .ok (next, jobs ++ ((settlement host journal registry decision state effect).job registry effect).toList) ∧
      next.cell = update state.cell effect.name
        ((settlement host journal registry decision state effect).stagedCell decision effect) := by
  unfold stageEffect settlement
  simp only [found]
  cases blocked : firstHaltedDependency effect state.halted with
  | some blocker =>
    simp only [Settlement.job, Option.toList_none, List.append_nil]
    refine ⟨_, rfl, ?_⟩
    rw [RunState.cell_halt, blank]
    rfl
  | none =>
    cases verdict : decision.verdict with
    | cached =>
      obtain ⟨entry, now, before⟩ := unchanged verdict
      simp only [Settlement.job, Option.toList_none, List.append_nil, now]
      refine ⟨_, rfl, ?_⟩
      rw [RunState.cell_hand_on, blank]
      simp [Settlement.stagedCell, Settlement.cell, before]
    | execute =>
      obtain ⟨executor, known⟩ := registered verdict
      cases resolved : resolveInputs effect state.outputs with
      | error message =>
        simp only [Settlement.job, Option.toList_none, List.append_nil]
        refine ⟨_, rfl, ?_⟩
        rw [RunState.cell_halt, blank]
        rfl
      | ok inputs =>
        simp only [Settlement.job, executedSettlement_request, known, Option.toList_some]
        refine ⟨_, rfl, ?_⟩
        rw [RunState.cell_record, blank]
        simp [Settlement.stagedCell, executedSettlement_request]

theorem settlement_record_id : (settlement host journal registry decision state effect).record.id = decision.id := by
  unfold settlement executedSettlement
  repeat' split
  all_goals rfl

end Steps

/-! ## What can become of an effect -/

/-- The ways an effect settles, each with what decides for it. -/
inductive Settles (host : Host) (journal : Journal) (registry : Registry) (decision : Decision) (state : RunState)
    (effect : Effect) : Settlement → Prop
  | blocked {blocker : String} (halted : firstHaltedDependency effect state.halted = some blocker) :
      Settles host journal registry decision state effect
        { record := { decision.record effect with reason := some (blockedReason blocker) } }
  | cached (free : firstHaltedDependency effect state.halted = none) (verdict : decision.verdict = .cached) :
      Settles host journal registry decision state effect
        { record := { decision.record effect with action := .cached }
          outputs := (journal.entry decision.id).map JournalEntry.outputs, halts := false }
  | unresolved {message : String} (free : firstHaltedDependency effect state.halted = none)
      (verdict : decision.verdict = .execute) (unresolved : resolveInputs effect state.outputs = .error message) :
      Settles host journal registry decision state effect
        { record := { decision.record effect with action := .failed, reason := some message } }
  | succeeded {inputs : BTreeMap String Literal} {executor : Executor} {produced : Outputs}
      (free : firstHaltedDependency effect state.halted = none) (verdict : decision.verdict = .execute)
      (resolved : resolveInputs effect state.outputs = .ok inputs)
      (known : registry.get effect.executor = some executor)
      (answer : executor (requestOf effect inputs) = some (.ok produced)) :
      Settles host journal registry decision state effect
        { record := { decision.record effect with
            reason := some decision.reason, durationMs := host.durationMs effect.name, action := .executed }
          outputs := some produced, halts := false, request := some (requestOf effect inputs)
          entry := some (journalEntry host effect .succeeded produced) }
  | failed {inputs : BTreeMap String Literal} {executor : Executor} {error : ExecuteError} {durationMs : Nat}
      (free : firstHaltedDependency effect state.halted = none) (verdict : decision.verdict = .execute)
      (resolved : resolveInputs effect state.outputs = .ok inputs)
      (known : registry.get effect.executor = some executor)
      (answer : ∀ produced, executor (requestOf effect inputs) ≠ some (.ok produced))
      (ran : (runJob host { effect, executor, request := requestOf effect inputs }).execution = ⟨.error error, durationMs⟩) :
      Settles host journal registry decision state effect
        { record := { decision.record effect with reason := some error.message, durationMs, action := .failed }
          request := some (requestOf effect inputs), entry := some (journalEntry host effect .failed ∅) }

theorem settlement_settles {host : Host} {journal : Journal} {registry : Registry} {decision : Decision} {state : RunState}
    (registered : decision.verdict = .execute → ∃ executor, registry.get effect.executor = some executor) :
    Settles host journal registry decision state effect
      (settlement host journal registry decision state effect) := by
  unfold settlement
  cases blocked : firstHaltedDependency effect state.halted with
  | some blocker => exact .blocked blocked
  | none =>
    cases verdict : decision.verdict with
    | cached => exact .cached blocked verdict
    | execute =>
      obtain ⟨executor, known⟩ := registered verdict
      cases resolved : resolveInputs effect state.outputs with
      | error message => exact .unresolved blocked verdict resolved
      | ok inputs =>
        simp only [known, runJob]
        cases answer : executor (requestOf effect inputs) with
        | none => exact .failed blocked verdict resolved known (by simp [answer]) (by simp [runJob, answer])
        | some result =>
          cases result with
          | ok produced => exact .succeeded blocked verdict resolved known answer
          | error error => exact .failed blocked verdict resolved known (by simp [answer]) (by simp [runJob, answer])

section Settles

variable {host : Host} {journal : Journal} {registry : Registry} {decision : Decision} {state : RunState} {settled : Settlement}
  (settles : Settles host journal registry decision state effect settled)
include settles

/-- Only effects due for execution are written to the journal. -/
theorem Settles.entry_execute {entry : JournalEntry} (written : settled.entry = some entry) : decision.verdict = .execute := by
  cases settles with
  | blocked | cached | unresolved => cases written
  | succeeded _ verdict | failed _ verdict => exact verdict

/-- Every request becomes a job, and without one nothing is written. -/
theorem Settles.of_no_job (idle : settled.job registry effect = none) : settled.request = none ∧ settled.entry = none := by
  cases settles with
  | blocked | cached | unresolved => exact ⟨rfl, rfl⟩
  | succeeded _ _ _ known | failed _ _ _ known => simp [Settlement.job, known] at idle

omit settles in
theorem runJob_effect (job : Job) : (runJob host job).effect = job.effect := rfl

/-- Settling a job writes its entry and leaves its effect in the settled cell. -/
theorem Settles.settleOutcome (current : Journal) {job : Job} (due : settled.job registry effect = some job)
    {later : RunState} (staged : later.cell effect.name = settled.stagedCell decision effect) :
    ∃ next, settleOutcome host (current, later) (runJob host job) = .ok (settled.write current, next) ∧
      next.cell = update later.cell effect.name settled.cell := by
  have present := congrArg Cell.result staged
  cases settles with
  | blocked | cached | unresolved => cases due
  | succeeded _ _ _ known answer =>
    simp only [Settlement.job, known, Option.some.injEq] at due
    subst due
    simp only [RunState.cell, Settlement.stagedCell] at present
    simp only [Efx.settleOutcome, runJob, present, answer]
    refine ⟨_, rfl, ?_⟩
    rw [RunState.cell_hand_on, staged]
    rfl
  | failed _ _ _ known _ ran =>
    simp only [Settlement.job, known, Option.some.injEq] at due
    subst due
    simp only [RunState.cell, Settlement.stagedCell] at present
    simp only [Efx.settleOutcome, runJob_effect, ran, present]
    refine ⟨_, rfl, ?_⟩
    rw [RunState.cell_halt, staged]
    rfl

end Settles

end Index.Efx
