import Index.Plumb.Engine
import Mathlib.Tactic.SplitIfs

/-! # What the threads and processes of a pipeline can do

One list for the caller, one for the process of a stage and one for its two threads.  What a move leaves alone is said
once for each of the operations on the state. -/

namespace Index.Plumb

variable {stages : List StageSpec} {capacity : Nat} {state next : State} {stage other : Nat} {spec : ExternalSpec}

/-! ## Frames -/

section Frames

variable {change : Cell → Cell} {main : Main} {count : Nat}

@[simp] theorem cells_goTo : (state.goTo main).cells = state.cells := rfl

@[simp] theorem main_goTo : (state.goTo main).main = main := rfl

@[simp] theorem main_modify : (state.modify stage change).main = state.main := rfl

@[simp] theorem cells_modify_self : (state.modify stage change).cells stage = change (state.cells stage) :=
  Function.update_self ..

theorem cells_modify_of_ne (apart : other ≠ stage) : (state.modify stage change).cells other = state.cells other :=
  Function.update_of_ne apart ..

@[simp] theorem main_closeStdin : (state.closeStdin stage).main = state.main := by cases stage <;> rfl

@[simp] theorem main_consume : (state.consume count stage).main = state.main := by cases stage <;> rfl

/-- Closing the input of a stage closes one end of one edge. -/
theorem cells_closeStdin : (state.closeStdin stage).cells other =
    if other + 1 = stage then { state.cells other with edge := { (state.cells other).edge with reader := false } }
    else state.cells other := by
  cases stage with
  | zero => simp [State.closeStdin]
  | succ stage =>
    rw [State.closeStdin]
    by_cases same : other = stage
    · subst same
      simp
    · rw [cells_modify_of_ne same, if_neg (by omega)]

@[simp] theorem cells_closeStdin_self : (state.closeStdin stage).cells stage = state.cells stage := by
  rw [cells_closeStdin, if_neg (by omega)]

/-- A read takes bytes from the edge before the stage, or from the file of the first. -/
theorem cells_consume : (state.consume count stage).cells other =
    if other + 1 = stage then
      { state.cells other with edge := { (state.cells other).edge with buffer := (state.cells other).edge.buffer.drop count } }
    else if stage = 0 ∧ other = 0 then { state.cells other with input := (state.cells other).input.drop count }
    else state.cells other := by
  cases stage with
  | zero =>
    rw [State.consume, if_neg (by omega)]
    by_cases same : other = 0
    · subst same
      simp
    · rw [cells_modify_of_ne same, if_neg (by omega)]
  | succ stage =>
    rw [State.consume]
    by_cases same : other = stage
    · subst same
      simp
    · rw [cells_modify_of_ne same, if_neg (by omega), if_neg (by omega)]

end Frames

/-! ## Threads -/

/-- A move of one of the threads of a stage. -/
inductive CellMoves (stages : List StageSpec) (capacity stage : Nat) (spec : ExternalSpec) (cell : Cell) : Cell → Prop
  | outEnds (on : cell.teeOut ≠ .off) : CellMoves stages capacity stage spec cell (teeOutEnds stages stage spec cell)
  | outTakes {chunk rest : Bytes} (reading : cell.teeOut = .reading) (holds : cell.out.buffer = chunk ++ rest) (some : chunk ≠ []) :
    CellMoves stages capacity stage spec cell
      { cell with teeOut := .writing chunk, out := { cell.out with buffer := rest } }
  | outPushes {byte : UInt8} {rest : Bytes} (writing : cell.teeOut = .writing (byte :: rest))
    (forwards : forwardsEdge stages stage spec = true) (opened : cell.edge.reader = true)
    (room : cell.edge.buffer.length < capacity) : CellMoves stages capacity stage spec cell
      { cell with teeOut := .writing rest, edge := { cell.edge with buffer := cell.edge.buffer ++ [byte] } }
  | outTurns {rest : Bytes} (writing : cell.teeOut = .writing rest) :
    CellMoves stages capacity stage spec cell { cell with teeOut := .reading }
  | errEnds (on : cell.teeErr ≠ .off) : CellMoves stages capacity stage spec cell (teeErrEnds cell)
  | errTakes {chunk rest : Bytes} (reading : cell.teeErr = .reading) (holds : cell.err.buffer = chunk ++ rest) (some : chunk ≠ []) :
    CellMoves stages capacity stage spec cell
      { cell with teeErr := .writing chunk, err := { cell.err with buffer := rest } }
  | errTurns {rest : Bytes} (writing : cell.teeErr = .writing rest) :
    CellMoves stages capacity stage spec cell { cell with teeErr := .reading }

theorem take_ne_nil {buffer : Bytes} {count : Nat} (some : ¬ buffer.isEmpty = true) (positive : 0 < count) :
    buffer.take count ≠ [] := by
  cases buffer with
  | nil => simp at some
  | cons => cases count <;> simp at positive ⊢

theorem cellMoves_of_teeOutStep {count : Nat} {accepts : Bool} {cell cell' : Cell}
    (stepped : teeOutStep stages capacity stage count accepts spec cell = some cell') :
    CellMoves stages capacity stage spec cell cell' := by
  rw [teeOutStep] at stepped
  split at stepped
  next => cases stepped
  next reading =>
    split_ifs at stepped with empty opened counted
    · cases stepped
      exact .outEnds (by simp [reading])
    · cases stepped
      exact .outTakes reading (List.take_append_drop count _).symm (take_ne_nil empty counted.1)
  next rest writing =>
    by_cases forwards : forwardsEdge stages stage spec = true
    · rw [if_pos forwards] at stepped
      cases rest with
      | nil =>
        cases stepped
        exact .outTurns writing
      | cons byte rest =>
        split_ifs at stepped with closed room
        · cases stepped
          exact .outEnds (by simp [writing])
        · cases stepped
          exact .outPushes writing forwards (by simpa using closed) room
    · rw [if_neg forwards] at stepped
      split_ifs at stepped
      · cases stepped
        exact .outTurns writing
      · cases stepped
        exact .outEnds (by simp [writing])

theorem cellMoves_of_teeErrStep {count : Nat} {accepts : Bool} {cell cell' : Cell}
    (stepped : teeErrStep count accepts cell = some cell') : CellMoves stages capacity stage spec cell cell' := by
  rw [teeErrStep] at stepped
  split at stepped
  next => cases stepped
  next reading =>
    split_ifs at stepped with empty opened counted
    · cases stepped
      exact .errEnds (by simp [reading])
    · cases stepped
      exact .errTakes reading (List.take_append_drop count _).symm (take_ne_nil empty counted.1)
  next rest writing =>
    split_ifs at stepped with accepted
    · cases stepped
      exact .errTurns writing
    · cases stepped
      exact .errEnds (by simp [writing])

/-! ## Stages -/

/-- A move of the process of a stage or of one of its threads. -/
inductive StageMoves (stages : List StageSpec) (capacity : Nat) (state : State) (stage : Nat) (spec : ExternalSpec) : State → Prop
  | reads {process : Process} {chunk rest : Bytes} (running : (state.cells stage).process = some process)
    (idle : process.pending = []) (before : process.atEnd = false) (holds : (state.stdin stage).buffer = chunk ++ rest)
    (end_ : chunk = [] → (state.stdin stage).buffer = [] ∧ (state.stdin stage).writer = false) :
    StageMoves stages capacity state stage spec ((state.consume chunk.length stage).modify stage fun cell =>
      { cell with process := some (process.reads spec.program chunk) })
  | ends {process : Process} (running : (state.cells stage).process = some process) :
    StageMoves stages capacity state stage spec ((state.closeStdin stage).modify stage gone)
  | writesOut {process : Process} {stream : Stream} {byte : UInt8} {rest : List (Stream × UInt8)}
    (running : (state.cells stage).process = some process) (pending : process.pending = (stream, byte) :: rest)
    (opened : (state.cells stage).out.reader = true) (room : (state.cells stage).out.buffer.length < capacity) :
    StageMoves stages capacity state stage spec (state.modify stage fun cell => { cell with
      process := some { process with pending := rest }, out := { cell.out with buffer := cell.out.buffer ++ [byte] } })
  | writesErr {process : Process} {stream : Stream} {byte : UInt8} {rest : List (Stream × UInt8)}
    (running : (state.cells stage).process = some process) (pending : process.pending = (stream, byte) :: rest)
    (opened : (state.cells stage).err.reader = true) (room : (state.cells stage).err.buffer.length < capacity) :
    StageMoves stages capacity state stage spec (state.modify stage fun cell => { cell with
      process := some { process with pending := rest }, err := { cell.err with buffer := cell.err.buffer ++ [byte] } })
  | cell {cell' : Cell} (moves : CellMoves stages capacity stage spec (state.cells stage) cell') :
    StageMoves stages capacity state stage spec (state.modify stage fun _ => cell')

theorem stageMoves_of_readStep {count : Nat} {process : Process} (running : (state.cells stage).process = some process)
    (stepped : readStep state stage count process spec.program = some next) : StageMoves stages capacity state stage spec next := by
  rw [readStep] at stepped
  split_ifs at stepped with ready empty opened positive
  · cases stepped
    have nothing : (state.stdin stage).buffer = [] := List.isEmpty_iff.mp empty
    simp only [Bool.and_eq_true, List.isEmpty_iff, Bool.not_eq_true'] at ready
    exact .reads running ready.1 ready.2 nothing fun _ => ⟨nothing, Bool.eq_false_iff.mpr opened⟩
  · cases stepped
    simp only [Bool.and_eq_true, List.isEmpty_iff, Bool.not_eq_true'] at ready
    exact .reads running ready.1 ready.2 (List.take_append_drop count _).symm fun none =>
      absurd none (take_ne_nil empty positive)

theorem stageMoves_of_writeStep {process : Process} (running : (state.cells stage).process = some process)
    (stepped : writeStep capacity state stage process spec = some next) : StageMoves stages capacity state stage spec next := by
  rw [writeStep] at stepped
  split at stepped
  next => cases stepped
  next stream byte rest pending =>
    dsimp only at stepped
    split at stepped
    next =>
      split_ifs at stepped with closed room
      · cases stepped
        exact .ends running
      · cases stepped
        exact .writesOut running pending (by simpa using closed) room
    next =>
      split_ifs at stepped with closed room
      · cases stepped
        exact .ends running
      · cases stepped
        exact .writesErr running pending (by simpa using closed) room

theorem stageMoves_of_stageStep {event : Event} (stepped : stageStep stages capacity state spec event = some next) :
    StageMoves stages capacity state event.stage spec next := by
  cases event with
  | main => cases stepped
  | read stage count =>
    obtain ⟨process, running, stepped⟩ := Option.bind_eq_some_iff.mp stepped
    exact stageMoves_of_readStep running stepped
  | write stage =>
    obtain ⟨process, running, stepped⟩ := Option.bind_eq_some_iff.mp stepped
    exact stageMoves_of_writeStep running stepped
  | exit stage =>
    obtain ⟨process, running, stepped⟩ := Option.bind_eq_some_iff.mp stepped
    rw [exitStep] at stepped
    split_ifs at stepped
    cases stepped
    exact .ends running
  | tee stream stage count accepts =>
    cases stream with
    | out =>
      obtain ⟨cell, moved, rfl⟩ := Option.map_eq_some_iff.mp stepped
      exact .cell (cellMoves_of_teeOutStep moved)
    | err =>
      obtain ⟨cell, moved, rfl⟩ := Option.map_eq_some_iff.mp stepped
      exact .cell (cellMoves_of_teeErrStep moved)

/-- What a move of a stage does to the others: it reads from the edge before it, or closes it. -/
structure Beside (stage : Nat) (state next : State) : Prop where
  main : next.main = state.main
  far : ∀ other, other ≠ stage → other + 1 ≠ stage → next.cells other = state.cells other
  near : ∀ other, other + 1 = stage → ∃ edge, next.cells other = { state.cells other with edge } ∧
    edge.writer = (state.cells other).edge.writer ∧ (edge.reader = true → (state.cells other).edge.reader = true) ∧
    edge.buffer.length ≤ (state.cells other).edge.buffer.length

section

variable {change : Cell → Cell}

theorem beside_modify : Beside stage state (state.modify stage change) where
  main := rfl
  far other apart _ := cells_modify_of_ne apart
  near other upstream := ⟨(state.cells other).edge, by rw [cells_modify_of_ne (by omega)], rfl, id, Nat.le_refl _⟩

theorem beside_closeStdin : Beside stage state ((state.closeStdin stage).modify stage change) where
  main := main_closeStdin
  far other apart away := by rw [cells_modify_of_ne apart, cells_closeStdin, if_neg away]
  near other upstream := ⟨{ (state.cells other).edge with reader := false },
    by rw [cells_modify_of_ne (by omega), cells_closeStdin, if_pos upstream], rfl, nofun, Nat.le_refl _⟩

theorem beside_consume {count : Nat} :
    Beside stage state ((state.consume count stage).modify stage change) where
  main := main_consume
  far other apart away := by rw [cells_modify_of_ne apart, cells_consume, if_neg away, if_neg (by omega)]
  near other upstream := ⟨{ (state.cells other).edge with buffer := (state.cells other).edge.buffer.drop count },
    by rw [cells_modify_of_ne (by omega), cells_consume, if_pos upstream], rfl, id, by simp⟩

end

theorem StageMoves.beside (moves : StageMoves stages capacity state stage spec next) : Beside stage state next := by
  cases moves with
  | reads => exact beside_consume
  | ends => exact beside_closeStdin
  | writesOut | writesErr | cell => exact beside_modify

theorem Beside.exists_edge (beside : Beside stage state next) (apart : other ≠ stage) :
    ∃ edge, next.cells other = { state.cells other with edge } := by
  by_cases upstream : other + 1 = stage
  · obtain ⟨edge, cells, -⟩ := beside.near other upstream
    exact ⟨edge, cells⟩
  · exact ⟨_, beside.far other apart upstream⟩

/-! ## The caller -/

/-- The process of a stage is gone and its threads are over. -/
def Cell.Idle (cell : Cell) : Prop := cell.process = none ∧ cell.teeOut = .off ∧ cell.teeErr = .off

inductive MainMoves (stages : List StageSpec) (capacity : Nat) (state : State) : State → Prop
  | starts {stage : Nat} {spec : StageSpec} (building : state.main = .building stage) (found : stages[stage]? = some spec) :
    MainMoves stages capacity state (startStage stages state stage spec)
  | started {stage : Nat} (building : state.main = .building stage) (past : stages[stage]? = none) :
    MainMoves stages capacity state (state.goTo (.waiting 0))
  | echoes {stage : Nat} {byte : UInt8} {rest : Bytes} (echoing : state.main = .echoing stage (byte :: rest))
    (room : (state.cells stage).edge.buffer.length < capacity) : MainMoves stages capacity state
      ((state.modify stage fun cell => { cell with edge :=
        { (state.cells stage).edge with buffer := (state.cells stage).edge.buffer ++ [byte] } }).goTo (.echoing stage rest))
  | echoed {stage : Nat} (echoing : state.main = .echoing stage []) : MainMoves stages capacity state (finishEcho state stage)
  | waits {stage : Nat} (waiting : state.main = .waiting stage) (inside : stage < stages.length)
    (idle : (state.cells stage).Idle) : MainMoves stages capacity state (state.goTo (.waiting (stage + 1)))
  | returns {stage : Nat} (waiting : state.main = .waiting stage) (past : stages.length ≤ stage) :
    MainMoves stages capacity state (state.goTo .returned)

theorem mainMoves_of_mainStep (stepped : mainStep stages capacity state = some next) : MainMoves stages capacity state next := by
  rw [mainStep] at stepped
  split at stepped
  next stage building =>
    split at stepped
    next spec found =>
      cases stepped
      exact .starts building found
    next past =>
      cases stepped
      exact .started building past
  next stage echoing =>
    cases stepped
    exact .echoed echoing
  next stage byte rest echoing =>
    dsimp only at stepped
    split_ifs at stepped with room
    cases stepped
    exact .echoes echoing room
  next stage waiting =>
    split_ifs at stepped with inside
    · split at stepped
      next process teeOut teeErr =>
        cases stepped
        exact .waits waiting inside ⟨process, teeOut, teeErr⟩
      next => cases stepped
    · cases stepped
      exact .returns waiting (Nat.le_of_not_lt inside)
  next => cases stepped

/-- Every move is one of the caller or of an external stage. -/
theorem moves_cases (moves : Moves stages capacity state next) : MainMoves stages capacity state next ∨
    ∃ stage spec, externalAt stages stage = some spec ∧ StageMoves stages capacity state stage spec next := by
  obtain ⟨event, stepped⟩ := moves
  cases event with
  | main => exact .inl (mainMoves_of_mainStep stepped)
  | read | write | exit | tee =>
    obtain ⟨spec, found, stepped⟩ := Option.bind_eq_some_iff.mp stepped
    exact .inr ⟨_, spec, found, stageMoves_of_stageStep stepped⟩

end Index.Plumb
