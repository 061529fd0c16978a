import Mathlib.Logic.Function.Basic

/-! # The pipeline engine

`run_pipeline` starts the stages of a pipeline one after the other.  A builtin runs on the thread of the caller; an
external stage gets a process and two threads that tee what it writes, its standard output on to the next stage.  All of
them go on side by side, connected by pipes that hold a bounded number of bytes.  When all stages are started, the
caller waits for the processes and joins the threads.

What the stages report (captures, statuses, times) has no part in when they block, and is left out. -/

namespace Index.Plumb

abbrev Bytes := List UInt8

/-- A pipe: what is in it, and whether anyone holds its ends open. -/
structure Pipe where
  buffer : Bytes := []
  reader : Bool := false
  writer : Bool := false

inductive Stream
  | out
  | err
  deriving DecidableEq

/-- An external command that reads its standard input to the end and then exits: what it writes after each read, given
what the reads have returned so far.  A read of nothing is the end of the input. -/
structure Program where
  writes : List Bytes → List (Stream × UInt8)

/-- How the start of an external stage goes: it runs, its command is not found, or an error is returned. -/
inductive Spawn
  | started
  | notFound
  | failed
  deriving DecidableEq

structure ExternalSpec where
  program : Program
  /-- What the first stage of a pipeline reads, nothing if it is `/dev/null`. -/
  stdin : Bytes := []
  /-- Standard output is redirected to a file. -/
  stdoutFile : Bool := false
  /-- `2>&1` -/
  stderrToStdout : Bool := false
  /-- `>&2` -/
  stdoutToStderr : Bool := false
  spawn : Spawn := .started

inductive StageSpec
  | echo (text : Bytes)
  | quiet
  | external (spec : ExternalSpec)

/-- A running process: what its reads have returned, and what it is about to write before it reads again. -/
structure Process where
  history : List Bytes
  pending : List (Stream × UInt8)

/-- The thread of a `StageStream`: over, about to read, or writing what it has read to where it is forwarded. -/
inductive Tee
  | off
  | reading
  | writing (rest : Bytes)

/-- What there is of a stage: its process, the pipes and threads of its streams, and the edge to the next stage. -/
structure Cell where
  process : Option Process := none
  input : Bytes := []
  out : Pipe := {}
  err : Pipe := {}
  teeOut : Tee := .off
  teeErr : Tee := .off
  edge : Pipe := {}

/-- Where the caller is. -/
inductive Main
  /-- About to start a stage. -/
  | building (stage : Nat)
  /-- In the middle of the text of an `echo`. -/
  | echoing (stage : Nat) (rest : Bytes)
  /-- Waiting for a stage to end. -/
  | waiting (stage : Nat)
  | returned

structure State where
  main : Main := .building 0
  cells : Nat → Cell := fun _ => {}

namespace State

variable (state : State)

def modify (stage : Nat) (change : Cell → Cell) : State :=
  { state with cells := Function.update state.cells stage (change (state.cells stage)) }

def goTo (main : Main) : State := { state with main }

/-- What a stage reads: the first its file, any other the edge from the stage before. -/
def stdin : Nat → Pipe
  | 0 => { buffer := (state.cells 0).input, reader := true }
  | stage + 1 => (state.cells stage).edge

def closeStdin : Nat → State
  | 0 => state
  | stage + 1 => state.modify stage fun cell => { cell with edge := { cell.edge with reader := false } }

/-- So many bytes are read from the input of a stage. -/
def consume (count : Nat) : Nat → State
  | 0 => state.modify 0 fun cell => { cell with input := cell.input.drop count }
  | stage + 1 => state.modify stage fun cell => { cell with edge := { cell.edge with buffer := cell.edge.buffer.drop count } }

end State

section Engine

variable (stages : List StageSpec) (capacity : Nat)

def isLast (stage : Nat) : Bool := stage + 1 == stages.length

/-! ## The caller -/

/-- The edge that a stage other than the last leaves behind when it does not write to it. -/
def closedEdge (stage : Nat) : Pipe := { reader := !isLast stages stage }

/-- The stages that end where they start. -/
def skipStage (state : State) (stage : Nat) : State :=
  ((state.closeStdin stage).modify stage fun cell => { cell with edge := closedEdge stages stage }).goTo (.building (stage + 1))

/-- The text of an `echo` is written: the caller drops its end of the edge, and what the stage before writes to. -/
def finishEcho (state : State) (stage : Nat) : State :=
  ((state.closeStdin stage).modify stage fun cell => { cell with edge := { cell.edge with writer := false } }).goTo
    (.building (stage + 1))

/-- The standard output of a stage is forwarded to the next stage. -/
def forwardsEdge (stage : Nat) (spec : ExternalSpec) : Bool := !spec.stdoutFile && !isLast stages stage

/-- The pipe that a stream of a process is connected to. -/
def target (spec : ExternalSpec) : Stream → Stream
  | .out => if spec.stdoutToStderr then .err else .out
  | .err => if spec.stderrToStdout then .out else .err

def spawned (stage : Nat) (spec : ExternalSpec) : Cell where
  process := some { history := [], pending := spec.program.writes [] }
  input := spec.stdin
  out := { reader := true, writer := !spec.stdoutToStderr || spec.stderrToStdout }
  err := { reader := true, writer := spec.stdoutToStderr || !spec.stderrToStdout }
  teeOut := .reading
  teeErr := .reading
  edge := { reader := !isLast stages stage, writer := forwardsEdge stages stage spec }

/-- One turn of the loop over the stages, up to the first write of an `echo`. -/
def startStage (state : State) (stage : Nat) : StageSpec → State
  | .echo text =>
    -- The edge is there, with both its ends in the hands of the caller.
    (state.modify stage fun cell => { cell with edge := { reader := !isLast stages stage, writer := !isLast stages stage } }).goTo
      (.echoing stage (if isLast stages stage then [] else text))
  | .quiet => skipStage stages state stage
  | .external spec =>
    match spec.spawn with
    | .started => (state.modify stage fun _ => spawned stages stage spec).goTo (.building (stage + 1))
    | .notFound => skipStage stages state stage
    | .failed => (state.closeStdin stage).goTo .returned

/-- The next step of the caller, if it is not blocked. -/
def mainStep (state : State) : Option State :=
  match state.main with
  | .building stage =>
    match stages[stage]? with
    | some spec => some (startStage stages state stage spec)
    | none => some (state.goTo (.waiting 0))
  | .echoing stage [] => some (finishEcho state stage)
  | .echoing stage (byte :: rest) =>
    let edge := (state.cells stage).edge
    if edge.buffer.length < capacity then
      some ((state.modify stage fun cell => { cell with edge := { edge with buffer := edge.buffer ++ [byte] } }).goTo
        (.echoing stage rest))
    else none
  | .waiting stage =>
    if stage < stages.length then
      -- `wait4`, then the two joins; none of the three comes undone.
      match (state.cells stage).process, (state.cells stage).teeOut, (state.cells stage).teeErr with
      | none, .off, .off => some (state.goTo (.waiting (stage + 1)))
      | _, _, _ => none
    else some (state.goTo .returned)
  | .returned => none

/-! ## The processes -/

def externalAt (stage : Nat) : Option ExternalSpec :=
  match stages[stage]? with
  | some (.external spec) => some spec
  | _ => none

def Process.atEnd (process : Process) : Bool := process.history.getLast? == some []

def Process.reads (process : Process) (program : Program) (chunk : Bytes) : Process where
  history := process.history ++ [chunk]
  pending := program.writes (process.history ++ [chunk])

def readStep (state : State) (stage count : Nat) (process : Process) (program : Program) : Option State :=
  let pipe := state.stdin stage
  let takes (chunk : Bytes) := (state.consume chunk.length stage).modify stage fun cell =>
    { cell with process := some (process.reads program chunk) }
  if process.pending.isEmpty && !process.atEnd then
    if pipe.buffer.isEmpty then if pipe.writer then none else some (takes [])
    else if 0 < count then some (takes (pipe.buffer.take count))
    else none
  else none

/-- The process is gone, and with it the ends of the pipes that it held. -/
def gone (cell : Cell) : Cell :=
  { cell with process := none, out := { cell.out with writer := false }, err := { cell.err with writer := false } }

def writeStep (state : State) (stage : Nat) (process : Process) (spec : ExternalSpec) : Option State :=
  match process.pending with
  | [] => none
  | (stream, byte) :: rest =>
    let cell := state.cells stage
    let process := { process with pending := rest }
    match target spec stream with
    | .out =>
      -- Nobody reads the pipe any more: `SIGPIPE`.
      if !cell.out.reader then some ((state.closeStdin stage).modify stage gone)
      else if cell.out.buffer.length < capacity then
        some (state.modify stage fun cell =>
          { cell with process := some process, out := { cell.out with buffer := cell.out.buffer ++ [byte] } })
      else none
    | .err =>
      if !cell.err.reader then some ((state.closeStdin stage).modify stage gone)
      else if cell.err.buffer.length < capacity then
        some (state.modify stage fun cell =>
          { cell with process := some process, err := { cell.err with buffer := cell.err.buffer ++ [byte] } })
      else none

def exitStep (state : State) (stage : Nat) (process : Process) : Option State :=
  if process.pending.isEmpty && process.atEnd then some ((state.closeStdin stage).modify stage gone) else none

/-! ## The threads -/

/-- The thread of standard output ends, and drops the pipe it reads and the edge. -/
def teeOutEnds (stage : Nat) (spec : ExternalSpec) (cell : Cell) : Cell :=
  { cell with
    teeOut := .off
    out := { cell.out with reader := false }
    edge := if forwardsEdge stages stage spec then { cell.edge with writer := false } else cell.edge }

def teeErrEnds (cell : Cell) : Cell := { cell with teeErr := .off, err := { cell.err with reader := false } }

/-- One step of the thread of standard output; `count` is what a read returns, `accepts` whether a file takes it. -/
def teeOutStep (stage count : Nat) (accepts : Bool) (spec : ExternalSpec) (cell : Cell) : Option Cell :=
  match cell.teeOut with
  | .off => none
  | .reading =>
    if cell.out.buffer.isEmpty then if cell.out.writer then none else some (teeOutEnds stages stage spec cell)
    else if 0 < count ∧ count ≤ 8192 then
      some { cell with teeOut := .writing (cell.out.buffer.take count), out := { cell.out with buffer := cell.out.buffer.drop count } }
    else none
  | .writing rest =>
    if forwardsEdge stages stage spec then
      match rest with
      | [] => some { cell with teeOut := .reading }
      | byte :: rest =>
        if !cell.edge.reader then some (teeOutEnds stages stage spec cell)
        else if cell.edge.buffer.length < capacity then
          some { cell with teeOut := .writing rest, edge := { cell.edge with buffer := cell.edge.buffer ++ [byte] } }
        else none
    else if accepts then some { cell with teeOut := .reading }
    else some (teeOutEnds stages stage spec cell)

/-- Standard error is forwarded to a file or to the caller's own, or nowhere. -/
def teeErrStep (count : Nat) (accepts : Bool) (cell : Cell) : Option Cell :=
  match cell.teeErr with
  | .off => none
  | .reading =>
    if cell.err.buffer.isEmpty then if cell.err.writer then none else some (teeErrEnds cell)
    else if 0 < count ∧ count ≤ 8192 then
      some { cell with teeErr := .writing (cell.err.buffer.take count), err := { cell.err with buffer := cell.err.buffer.drop count } }
    else none
  | .writing _ => if accepts then some { cell with teeErr := .reading } else some (teeErrEnds cell)

/-! ## All together -/

inductive Event
  | main
  | read (stage count : Nat)
  | write (stage : Nat)
  | exit (stage : Nat)
  | tee (stream : Stream) (stage count : Nat) (accepts : Bool)

def Event.stage : Event → Nat
  | .main => 0
  | .read stage _ | .write stage | .exit stage | .tee _ stage _ _ => stage

/-- A step of a process or a thread of an external stage. -/
def stageStep (state : State) (spec : ExternalSpec) : Event → Option State
  | .main => none
  | .read stage count => (state.cells stage).process.bind fun process => readStep state stage count process spec.program
  | .write stage => (state.cells stage).process.bind fun process => writeStep capacity state stage process spec
  | .exit stage => (state.cells stage).process.bind fun process => exitStep state stage process
  | .tee .out stage count accepts =>
    (teeOutStep stages capacity stage count accepts spec (state.cells stage)).map fun cell => state.modify stage fun _ => cell
  | .tee .err stage count accepts =>
    (teeErrStep count accepts (state.cells stage)).map fun cell => state.modify stage fun _ => cell

def step (state : State) : Event → Option State
  | .main => mainStep stages capacity state
  | event => (externalAt stages event.stage).bind fun spec => stageStep stages capacity state spec event

/-- One of the threads or processes goes on. -/
def Moves (state next : State) : Prop := ∃ event, step stages capacity state event = some next

def Returned (state : State) : Prop := state.main = .returned

end Engine

end Index.Plumb
