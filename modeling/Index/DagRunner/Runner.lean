import Index.Lib.Run
import Index.DagRunner.Spec
import Mathlib.Data.PNat.Basic

/-! # The DAG runner

Every node has a future of its own.  It waits for the verdicts of the nodes it depends on, looks whether the group is
on its way down, runs its process and leaves a record.  The futures share the channel of verdicts, the reason for a
shutdown, which the first to ask for one sets, and the number of tasks that have not settled.  The runtime has one
thread, so between two awaits a future is alone; an event is what one of them does from one await to the next, or
something that happens outside: a process exits, the last holder of its streams closes them, the operator interrupts. -/

namespace Index.DagRunner

open Index.Lib

inductive Outcome
  | succeeded
  | failed (code : Nat)
  | skipped
  | stopped
  deriving DecidableEq, Repr

/-- What an outcome contributes to the exit code of the runner. -/
def Outcome.exitContribution : Outcome → Nat
  | .succeeded | .stopped => 0
  | .failed code => code
  | .skipped => 1

/-- Why the runner is taking the group down. -/
inductive Reason
  | cancelled
  | drained
  | aborted
  deriving DecidableEq, Repr

def Reason.terminatedExitCode : Reason → Nat
  | .cancelled => 130
  | .drained | .aborted => 143

/-- What a node publishes to the nodes that wait for it. -/
inductive Readiness
  | ready
  | unavailable
  deriving DecidableEq, Repr

/-- How a process ended, as far as the runner can tell: `lost` stands for a failed wait. -/
inductive ExitStatus
  | code (number : Nat)
  | signal (number : ℕ+)
  | lost
  deriving DecidableEq

/-- The exit code of a reaped process. -/
def ExitStatus.codeOrOne : ExitStatus → Nat
  | .code number => number
  | .signal _ | .lost => 1

/-- The status field that a wait without reaping fills in. -/
def ExitStatus.siStatus : ExitStatus → Nat
  | .code number => number
  | .signal number => number
  | .lost => 1

/-- A process: how it exited, and whether its streams are at their end. -/
structure Child where
  exited : Option ExitStatus := none
  closed : Bool
  deriving DecidableEq

/-- What the future of a node that has a process is waiting for. -/
inductive Stage
  /-- A task to exit, or a service to come up. -/
  | starting
  /-- A service that has come up to go away. -/
  | up
  /-- The process group to be gone, after which the outcome is this one. -/
  | stopping (outcome : Outcome)
  deriving DecidableEq

inductive Phase
  /-- The verdicts of so many dependencies have been read and were good. -/
  | waiting (checked : Nat)
  | spawned (stage : Stage) (child : Child)
  /-- The node has run, and its record is not inserted yet. -/
  | returned (outcome : Outcome)
  | done
  deriving DecidableEq

structure State where
  interrupted : Bool := false
  reason : Option Reason := none
  remaining : Nat
  verdict : String → Option Readiness := fun _ => none
  phase : String → Phase := fun _ => .waiting 0
  records : BTreeMap String Outcome := ∅

/-- What one step of a node's future does: the phase it ends in, and what it publishes and requests on the way. -/
structure Change where
  phase : Phase
  verdict : Option Readiness := none
  reason : Option Reason := none
  deriving DecidableEq

def State.apply (state : State) (name : String) (change : Change) : State where
  interrupted := state.interrupted
  reason := state.reason.or change.reason
  remaining := state.remaining
  verdict :=
    match change.verdict with
    | some verdict => Function.update state.verdict name (some verdict)
    | none => state.verdict
  phase := Function.update state.phase name change.phase
  records := state.records

/-! ## Steps of a node -/

inductive Action
  /-- The process exits. -/
  | exits (status : ExitStatus)
  /-- Nobody holds the streams of the process open any longer. -/
  | closes
  /-- `await_deps` reads the next verdict. -/
  | awaits
  /-- All verdicts are good, and it is the node's turn; its command can be spawned or not. -/
  | turn (spawns : Bool)
  /-- The `select` takes the arm of the shutdown. -/
  | shut
  /-- The `select` takes the arm of the timeout. -/
  | timeout
  /-- The `select` takes the arm of `capture_exit`. -/
  | reap (status : ExitStatus)
  /-- The `select` takes the arm of `wait_for_death`. -/
  | death (status : ExitStatus)
  /-- The `select` takes the arm of the readiness probe. -/
  | probe
  /-- `stop` returns, after the group is gone or because it cannot be killed. -/
  | stopped (kills : Bool)
  deriving DecidableEq

def neverRan : Change where
  phase := .returned .skipped
  verdict := some .unavailable

/-- The end of `run_node`, where a task publishes its verdict. -/
def returns (node : NodeSpec) (outcome : Outcome) : Change where
  phase := .returned outcome
  verdict := if node.isService then none else some (if outcome = .succeeded then .ready else .unavailable)

def spawnFailed (node : NodeSpec) : Change :=
  if node.isService then { phase := .returned (.failed 127), verdict := some .unavailable, reason := some .aborted }
  else returns node (.failed 127)

/-- The future reads the verdict of one dependency.  A sender that is gone without a verdict counts as unavailable. -/
def awaitDep (state : State) (checked : Nat) (dep : String) : Option Change :=
  match state.verdict dep with
  | some .ready => some { phase := .waiting (checked + 1) }
  | some .unavailable => some neverRan
  | none => if state.phase dep = .done then some neverRan else none

/-- The rest of `run_node` up to the first await after the process is spawned. -/
def takeTurn (state : State) (node : NodeSpec) (spawns : Bool) : Change :=
  match state.reason with
  | some _ => neverRan
  | none =>
    if spawns then { phase := .spawned .starting { closed := node.stdio = .inherit } } else spawnFailed node

/-- A `select` whose shutdown arm is ready takes it, before all others. -/
def shutDown (node : NodeSpec) (reason : Reason) (child : Child) : Stage → Option Change
  | .starting =>
    if node.isService then some { phase := .spawned (.stopping .stopped) child, verdict := some .unavailable }
    else some { phase := .spawned (.stopping (.failed reason.terminatedExitCode)) child }
  | .up => some { phase := .spawned (.stopping .stopped) child }
  | .stopping _ => none

def timeOut (node : NodeSpec) (child : Child) : Stage → Option Change
  | .starting =>
    if node.isService then
      some { phase := .spawned (.stopping (.failed 124)) child, verdict := some .unavailable, reason := some .aborted }
    else if node.timeoutSecs.isSome then some { phase := .spawned (.stopping (.failed 124)) child }
    else none
  | _ => none

def captureExit (node : NodeSpec) (status : ExitStatus) (child : Child) : Stage → Option Change
  | .starting =>
    if node.isService then
      some { phase := .returned (.failed status.codeOrOne), verdict := some .unavailable, reason := some .aborted }
    else match status with
      | .code 0 => some (returns node .succeeded)
      | .lost => some { phase := .spawned (.stopping (.failed 1)) child }
      | status => some (returns node (.failed status.codeOrOne))
  | .up => some { phase := .returned (.failed status.codeOrOne), reason := some .aborted }
  | .stopping _ => none

def act (state : State) (name : String) (node : NodeSpec) (action : Action) : Option Change :=
  match action, state.phase name with
  | .exits status, .spawned stage child =>
    if child.exited = none then some { phase := .spawned stage { child with exited := some status } } else none
  | .closes, .spawned stage child =>
    if child.closed then none else some { phase := .spawned stage { child with closed := true } }
  | .awaits, .waiting checked => node.dependsOn[checked]?.bind (awaitDep state checked)
  | .turn spawns, .waiting checked => if checked = node.dependsOn.length then some (takeTurn state node spawns) else none
  | .shut, .spawned stage child => state.reason.bind fun reason => shutDown node reason child stage
  | .timeout, .spawned stage child => if state.reason = none then timeOut node child stage else none
  | .reap status, .spawned stage child =>
    if state.reason = none ∧ child.exited = some status ∧ child.closed then captureExit node status child stage else none
  | .death status, .spawned .up child =>
    if state.reason = none ∧ child.exited = some status then
      some { phase := .spawned (.stopping (.failed status.siStatus)) child, reason := some .aborted }
    else none
  | .probe, .spawned .starting child =>
    if state.reason = none ∧ node.isService then some { phase := .spawned .up child, verdict := some .ready } else none
  | .stopped kills, .spawned (.stopping outcome) child =>
    if kills = true → child.exited.isSome ∧ child.closed then some (returns node outcome) else none
  | _, _ => none

/-! ## Runs -/

inductive Event
  /-- The first interrupt of the operator. -/
  | cancel
  | node (name : String) (action : Action)
  /-- The record of a node is inserted, and its future ends. -/
  | record (name : String)
  deriving DecidableEq

/-- The last task to settle ends the run. -/
def State.insertRecord (state : State) (name : String) (node : NodeSpec) (outcome : Outcome) : State where
  interrupted := state.interrupted
  reason := if !node.isService && state.remaining == 1 then state.reason.or (some .drained) else state.reason
  remaining := if node.isService then state.remaining else state.remaining - 1
  verdict := state.verdict
  phase := Function.update state.phase name .done
  records := state.records.insert name outcome

def step (spec : Spec) (state : State) : Event → Option State
  | .cancel =>
    if state.interrupted then none
    else some { state with interrupted := true, reason := state.reason.or (some .cancelled) }
  | .node name action => do
    let node ← spec[name]?
    let change ← act state name node action
    return state.apply name change
  | .record name => do
    let node ← spec[name]?
    match state.phase name with
    | .returned outcome => return state.insertRecord name node outcome
    | _ => none

/-- `run` up to its first await: each node in turn gets receivers on the channels of its dependencies, which must exist. -/
def launch (spec : Spec) : Option State := do
  let _ ← (topologicalOrder spec).foldlM
    (fun channels name => if spec.dependsOn name ⊆ channels then some (name :: channels) else none) []
  return { remaining := (spec.values.filter fun node => !node.isService).length }

/-- Every future has ended, so `run` returns the records. -/
def Finished (spec : Spec) (state : State) : Prop := ∀ name ∈ spec.keys, state.phase name = .done

instance (spec : Spec) (state : State) : Decidable (Finished spec state) := inferInstanceAs (Decidable (∀ name ∈ spec.keys, _))

def exitCode (records : BTreeMap String Outcome) : Nat := ((records.values.map Outcome.exitContribution).max?).getD 0

/-- The status that `main` exits with once `run` has returned. -/
def exitStatus (state : State) : Nat := if state.reason = some .cancelled then 130 else exitCode state.records

end Index.DagRunner
