import Index.Efx.Identity

/-! # The effect engine

`diff::plan` compares a plan with the journal, `apply` runs what is missing level by level.  Executors
are functions of the request for the length of one run; a name occurs once in a plan, so each is asked
about it at most once and any behaviour, over any interleaving of the threads of a level, is such a
function.  A run returns the journal it leaves behind and the calls it made next to its result. -/

namespace Index.Efx

open Index.Lib

/-! ## Executors and the journal -/

/-- Named output values produced by one effect execution. -/
abbrev Outputs := BTreeMap String Literal

structure ExecuteError where
  message : String
deriving DecidableEq

structure ExecuteRequest where
  name : String
  kind : String
  inputs : BTreeMap String Literal
deriving DecidableEq

/-- `none` is a panic of the executor's thread. -/
abbrev Executor := ExecuteRequest → Option (Except ExecuteError Outputs)

structure Registry where
  executors : BTreeMap String Executor

def Registry.get (registry : Registry) (id : String) : Option Executor := registry.executors[id]?

inductive EngineError where
  | plan (source : PlanError)
  | journalWrite (path source : String)
  | unknownExecutor (effect executor : String)
deriving DecidableEq

inductive Status where
  | succeeded
  | failed
deriving DecidableEq

structure JournalEntry where
  name : String
  kind : String
  outputs : Outputs
  status : Status
  recordedAt : Nat
deriving DecidableEq

inductive Action where
  | executed
  | cached
  | failed
  | skipped
deriving DecidableEq

/-- What happened to one effect during one run. -/
structure RunEffect where
  name : String
  kind : String
  id : EffectId
  action : Action
  reason : Option String
  durationMs : Nat
  inputSignatures : BTreeMap String String
deriving DecidableEq

structure RunRecord where
  recordedAt : Nat
  effects : List RunEffect
  edges : List Edge
deriving DecidableEq

structure JournalState where
  /-- The effect cache, keyed by hexadecimal identity. -/
  entries : BTreeMap String JournalEntry := ∅
  runs : List RunRecord := []
deriving DecidableEq

structure Journal where
  path : String
  state : JournalState := {}
deriving DecidableEq

namespace Journal

def entry (journal : Journal) (id : EffectId) : Option JournalEntry := journal.state.entries[id.toHex]?

/-- Whether `id` has a successful record. -/
def isCached (journal : Journal) (id : EffectId) : Bool :=
  (journal.entry id).any fun entry => entry.status == .succeeded

def write (journal : Journal) (id : EffectId) (entry : JournalEntry) : Journal :=
  { journal with state := { journal.state with entries := journal.state.entries.insert id.toHex entry } }

def pushRun (journal : Journal) (run : RunRecord) : Journal :=
  { journal with state := { journal.state with runs := journal.state.runs ++ [run] } }

end Journal

/-- What the machine adds to one run: durations and settling times by effect name, the time of the run
record, and the error the final save meets, if any. -/
structure Host where
  durationMs : String → Nat := fun _ => 0
  settledAt : String → Nat := fun _ => 0
  recordedAt : Nat := 0
  writeError : Option String := none

def Journal.save (journal : Journal) (host : Host) : Except (Fault EngineError) Unit :=
  match host.writeError with
  | some source => .error (.raised (.journalWrite journal.path source))
  | none => .ok ()

/-! ## `diff::plan` -/

inductive Verdict where
  | cached
  | execute
deriving DecidableEq

structure Decision where
  name : String
  kind : String
  id : EffectId
  verdict : Verdict
  reason : String
  inputSignatures : BTreeMap String String
deriving DecidableEq

/-- A journal entry whose id no longer appears in the plan. -/
structure Orphan where
  id : String
  name : String
  kind : String
  recordedAt : Nat
deriving DecidableEq

structure PlanReport where
  decisions : List Decision
  orphans : List Orphan

/-- The effects of the last recorded run by name; a later effect of one name replaces an earlier one. -/
def Journal.previous (journal : Journal) : BTreeMap String RunEffect :=
  match journal.state.runs.getLast? with
  | some run => .ofList (run.effects.map fun effect => (effect.name, effect))
  | none => ∅

def explainSignature (effect : Effect) (previous : RunEffect) (causes : List String) (entry : String × String) :
    List String :=
  match previous.inputSignatures[entry.1]? with
  | none => causes ++ ["input `" ++ entry.1 ++ "` added"]
  | some old =>
    if old ≠ entry.2 then
      let cause := match effect.inputs[entry.1]? with
        | some (.ref r) => "upstream `" ++ r.effect ++ "` changed"
        | _ => "input `" ++ entry.1 ++ "` changed"
      if cause ∈ causes then causes else causes ++ [cause]
    else causes

/-- Why an effect needs to execute, against its namesake in the previous run. -/
def explain (effect : Effect) (id : EffectId) (signatures : BTreeMap String String) :
    Option RunEffect → String
  | none => "new effect"
  | some previous =>
    let changed := signatures.toList.foldl (explainSignature effect previous) []
    let removed := previous.inputSignatures.keys.filter fun key => !signatures.contains key
    let causes := changed ++ removed.map fun key => "input `" ++ key ++ "` removed"
    if causes.isEmpty then
      if previous.id = id then "previous run did not succeed" else "effect definition changed"
    else ", ".intercalate causes

section Hashing

variable (sha256 : List UInt8 → Digest)

def inputSignatures (effect : Effect) (ids : BTreeMap String EffectId) : BTreeMap String String :=
  effect.inputs.map fun _ value =>
    match value with
    | .literal literal => "lit:" ++ literal.contentHash sha256
    | .ref r => "ref:" ++ (ids[r.effect]?.map EffectId.toHex).getD "" ++ ":" ++ r.field

def decisionFor (journal : Journal) (ids : BTreeMap String EffectId) (effect : Effect) (id : EffectId) : Decision :=
  let signatures := inputSignatures sha256 effect ids
  let (verdict, reason) :=
    if journal.isCached id then (Verdict.cached, "unchanged")
    else (.execute, explain effect id signatures journal.previous[effect.name]?)
  { name := effect.name, kind := effect.kind, id, verdict, reason, inputSignatures := signatures }

def decideEffect (journal : Journal) (ids : BTreeMap String EffectId) (effect : Effect) :
    Except (Fault EngineError) Decision :=
  match ids[effect.name]? with
  | none => .error .panicked
  | some id => .ok (decisionFor sha256 journal ids effect id)

/-- The entries of the journal that no decision is about. -/
def Journal.orphans (journal : Journal) (decisions : List Decision) : List Orphan :=
  let current := decisions.map fun decision => decision.id.toHex
  (journal.state.entries.toList.filter fun entry => !current.contains entry.1).map fun entry =>
    { id := entry.1, name := entry.2.name, kind := entry.2.kind, recordedAt := entry.2.recordedAt }

/-- `diff::plan`. -/
def diffPlan (plan : Plan) (journal : Journal) : Except (Fault EngineError) PlanReport :=
  match plan.effectIds sha256 with
  | .error (.raised error) => .error (.raised (.plan error))
  | .error .panicked => .error .panicked
  | .ok ids =>
    match plan.topoOrder with
    | .error error => .error (.raised (.plan error))
    | .ok order =>
      match tryCollect (decideEffect sha256 journal ids) order with
      | .error fault => .error fault
      | .ok decisions => .ok { decisions, orphans := journal.orphans decisions }

end Hashing

/-! ## `levels` -/

structure LevelState where
  depth : BTreeMap String Nat := ∅
  groups : List (List Effect) := []

def Effect.levelCandidates (depth : BTreeMap String Nat) (effect : Effect) : List Nat :=
  (BTreeMap.values effect.inputs).filterMap fun value =>
    match value with
    | .ref r => depth[r.effect]?.map (· + 1)
    | .literal _ => none

def Effect.level (depth : BTreeMap String Nat) (effect : Effect) : Nat :=
  (effect.levelCandidates depth).max?.getD 0

def levelStep (state : LevelState) (effect : Effect) : LevelState :=
  let level := effect.level state.depth
  -- `resize_with` pads with empty groups and never shortens here.
  let groups := state.groups ++ List.replicate (level + 1 - state.groups.length) []
  { depth := state.depth.insert effect.name level, groups := groups.modify level (· ++ [effect]) }

/-- Groups effects by longest-path depth. -/
def levels (order : List Effect) : List (List Effect) := (order.foldl levelStep {}).groups

/-! ## `apply` -/

structure Job where
  effect : Effect
  executor : Executor
  request : ExecuteRequest

structure Execution where
  result : Except ExecuteError Outputs
  durationMs : Nat

structure JobOutcome where
  effect : Effect
  execution : Execution

structure RunState where
  outputs : BTreeMap String Outputs := ∅
  halted : BTreeSet String := ∅
  results : BTreeMap String RunEffect := ∅

def firstHaltedDependency (effect : Effect) (halted : BTreeSet String) : Option String :=
  (BTreeMap.values effect.inputs).findSome? fun value =>
    match value with
    | .ref r => if halted.contains r.effect then some r.effect else none
    | .literal _ => none

def resolveInput (outputs : BTreeMap String Outputs) : Value → Except String Literal
  | .literal literal => .ok literal
  | .ref r =>
    match outputs[r.effect]?.bind fun fields => fields[r.field]? with
    | some literal => .ok literal
    | none => .error ("effect `" ++ r.effect ++ "` has no output field `" ++ r.field ++ "`")

/-- The inputs of a request; the error of the first key that does not resolve. -/
def resolveInputs (effect : Effect) (outputs : BTreeMap String Outputs) : Except String (BTreeMap String Literal) :=
  BTreeMap.tryMap (fun _ value => resolveInput outputs value) effect.inputs

/-- The record an effect starts with. -/
def Decision.record (decision : Decision) (effect : Effect) : RunEffect :=
  { name := effect.name, kind := effect.kind, id := decision.id, action := .skipped, reason := none,
    durationMs := 0, inputSignatures := decision.inputSignatures }

def blockedReason (blocker : String) : String := "dependency `" ++ blocker ++ "` did not succeed"

section Staging

variable (decisions : BTreeMap String Decision) (journal : Journal) (registry : Registry)

/-- The loop body of `stage_level`. -/
def stageEffect (staged : RunState × List Job) (effect : Effect) :
    Except (Fault EngineError) (RunState × List Job) :=
  let (state, jobs) := staged
  match decisions[effect.name]? with
  | none => .error .panicked
  | some decision =>
    let record := decision.record effect
    match firstHaltedDependency effect state.halted with
    | some blocker =>
      .ok ({ state with
              halted := state.halted.insert effect.name
              results := state.results.insert effect.name { record with reason := some (blockedReason blocker) } },
        jobs)
    | none =>
      match decision.verdict with
      | .cached =>
        match journal.entry decision.id with
        | none => .error .panicked
        | some entry =>
          .ok ({ state with
                  outputs := state.outputs.insert effect.name entry.outputs
                  results := state.results.insert effect.name { record with action := .cached } },
            jobs)
      | .execute =>
        match resolveInputs effect state.outputs with
        | .ok inputs =>
          match registry.get effect.executor with
          | none => .error .panicked
          | some executor =>
            .ok ({ state with
                    results := state.results.insert effect.name { record with reason := some decision.reason } },
              jobs ++ [{ effect, executor, request := { name := effect.name, kind := effect.kind, inputs } }])
        | .error message =>
          .ok ({ state with
                  halted := state.halted.insert effect.name
                  results := state.results.insert effect.name
                    { record with action := .failed, reason := some message } },
            jobs)

def stageLevel (effects : List Effect) (state : RunState) : Except (Fault EngineError) (RunState × List Job) :=
  effects.foldlM (stageEffect decisions journal registry) (state, [])

end Staging

section Running

variable (host : Host)

/-- One thread of `run_level`, joined: a panic is the effect's failure. -/
def runJob (job : Job) : JobOutcome :=
  { effect := job.effect,
    execution := match job.executor job.request with
      | some result => { result, durationMs := host.durationMs job.effect.name }
      | none => { result := .error ⟨"executor panicked"⟩, durationMs := 0 } }

def runLevel (jobs : List Job) : List JobOutcome := jobs.map (runJob host)

def journalEntry (effect : Effect) (status : Status) (outputs : Outputs) : JournalEntry :=
  { name := effect.name, kind := effect.kind, outputs, status, recordedAt := host.settledAt effect.name }

/-- The loop body of `settle_level`. -/
def settleOutcome (settled : Journal × RunState) (outcome : JobOutcome) :
    Except (Fault EngineError) (Journal × RunState) :=
  let (journal, state) := settled
  let name := outcome.effect.name
  match state.results[name]? with
  | none => .error .panicked
  | some record =>
    let durationMs := outcome.execution.durationMs
    match outcome.execution.result with
    | .ok produced =>
      .ok (journal.write record.id (journalEntry host outcome.effect .succeeded produced),
        { state with
            outputs := state.outputs.insert name produced
            results := state.results.insert name { record with durationMs, action := .executed } })
    | .error error =>
      .ok (journal.write record.id (journalEntry host outcome.effect .failed ∅),
        { state with
            halted := state.halted.insert name
            results := state.results.insert name
              { record with durationMs, action := .failed, reason := some error.message } })

def settleLevel (outcomes : List JobOutcome) (journal : Journal) (state : RunState) :
    Except (Fault EngineError) (Journal × RunState) :=
  outcomes.foldlM (settleOutcome host) (journal, state)

/-- A run under way: the journal, the run state and the executor calls made so far. -/
structure Progress where
  journal : Journal
  state : RunState := {}
  calls : List (String × ExecuteRequest) := []

variable (decisions : BTreeMap String Decision) (registry : Registry)

/-- The body of `apply`'s loop over the levels. -/
def applyLevel (progress : Progress) (effects : List Effect) : Except (Fault EngineError) Progress :=
  match stageLevel decisions progress.journal registry effects progress.state with
  | .error fault => .error fault
  | .ok (state, jobs) =>
    match settleLevel host (runLevel host jobs) progress.journal state with
    | .error fault => .error fault
    | .ok (journal, state) =>
      .ok { journal, state, calls := progress.calls ++ jobs.map fun job => (job.effect.executor, job.request) }

end Running

structure RunReport where
  effects : List RunEffect
  orphans : List Orphan
deriving DecidableEq

/-- What a call of `apply` leaves behind. -/
structure Applied where
  journal : Journal
  calls : List (String × ExecuteRequest)
  outcome : Except (Fault EngineError) RunReport

/-- The check that every effect to execute has an executor. -/
def missingExecutor (decisions : BTreeMap String Decision) (registry : Registry) (effect : Effect) :
    Option (Fault EngineError) :=
  match decisions[effect.name]? with
  | none => some .panicked
  | some decision =>
    if decision.verdict = .execute ∧ (registry.get effect.executor).isNone then
      some (.raised (.unknownExecutor effect.name effect.executor))
    else none

/-- Moves the records out of the run state in the given order. -/
def takeResults : List Effect → BTreeMap String RunEffect → Except (Fault EngineError) (List RunEffect)
  | [], _ => .ok []
  | effect :: effects, results =>
    match results[effect.name]? with
    | none => .error .panicked
    | some record =>
      match takeResults effects (results.erase effect.name) with
      | .error fault => .error fault
      | .ok records => .ok (record :: records)

/-- `apply` after the diff and the executor check, over any way of processing the ordered effects. -/
def finishRun (plan : Plan) (journal : Journal) (host : Host) (order : List Effect) (orphans : List Orphan)
    (run : Except (Fault EngineError) Progress) : Applied :=
  match run with
  | .error fault => { journal, calls := [], outcome := .error fault }
  | .ok progress =>
    match takeResults order progress.state.results with
    | .error fault => { journal := progress.journal, calls := progress.calls, outcome := .error fault }
    | .ok effects =>
      let journal := progress.journal.pushRun { recordedAt := host.recordedAt, effects, edges := plan.edges }
      { journal, calls := progress.calls,
        outcome := match journal.save host with
          | .error fault => .error fault
          | .ok _ => .ok { effects, orphans } }

/-- `apply` with its loop over the effects as a parameter. -/
def applyWith (sha256 : List UInt8 → Digest) (plan : Plan) (journal : Journal) (registry : Registry) (host : Host)
    (process : BTreeMap String Decision → List Effect → Except (Fault EngineError) Progress) : Applied :=
  match diffPlan sha256 plan journal with
  | .error fault => { journal, calls := [], outcome := .error fault }
  | .ok report =>
    let decisions := Std.ExtTreeMap.ofList (report.decisions.map fun decision => (decision.name, decision))
    match plan.topoOrder with
    | .error error => { journal, calls := [], outcome := .error (.raised (.plan error)) }
    | .ok order =>
      -- Executors are config, not data: all of them are looked up before anything runs.
      match order.findSome? (missingExecutor decisions registry) with
      | some fault => { journal, calls := [], outcome := .error fault }
      | none => finishRun plan journal host order report.orphans (process decisions order)

/-- `apply`: level by level. -/
def apply (sha256 : List UInt8 → Digest) (plan : Plan) (journal : Journal) (registry : Registry) (host : Host) :
    Applied :=
  applyWith sha256 plan journal registry host fun decisions order =>
    (levels order).foldlM (applyLevel host decisions registry) { journal }

end Index.Efx
