import Index.Lib.Termination
import Index.Plumb.Moves

/-! # A pipeline takes finitely many steps

The caller goes through its stages once.  A process has as many reads left as there are bytes for it to read, which
only the stages before it can make more; between two reads it writes what it has to write, and what it has written its
threads take away. -/

namespace Index.Plumb

open Index.Lib List

variable {stages : List StageSpec} {capacity : Nat} {state next : State} {stage : Nat} {spec : ExternalSpec}

def StageSpec.cost : StageSpec → Nat
  | .echo text => text.length + 2
  | _ => 1

/-- The steps that the caller has left. -/
def mainRank (stages : List StageSpec) : Main → Nat
  | .building stage => ((stages.drop stage).map StageSpec.cost).sum + stages.length + 2
  | .echoing stage rest => rest.length + 1 + ((stages.drop (stage + 1)).map StageSpec.cost).sum + stages.length + 2
  | .waiting stage => stages.length - stage + 1
  | .returned => 0

/-- The reads that a process has left, and its exit. -/
def readsLeft (state : State) (stage : Nat) : Nat :=
  match (state.cells stage).process.map Process.atEnd with
  | none => 0
  | some true => 1
  | some false => (state.stdin stage).buffer.length + 2

def Tee.rank : Tee → Nat
  | .off => 0
  | .reading => 1
  | .writing rest => rest.length + 2

theorem Tee.rank_off : Tee.off.rank = 0 := rfl

/-- The writes before the next read, and the steps of the threads with them and with what is in their pipes. -/
def Cell.workLeft (cell : Cell) : Nat :=
  4 * (cell.process.elim 0 fun process => process.pending.length) + 3 * cell.out.buffer.length + cell.teeOut.rank +
    3 * cell.err.buffer.length + cell.teeErr.rank

/-- First the caller, then the stages in order, each with its reads and with the work between them. -/
def rank (stages : List StageSpec) : Nat → State → Nat
  | 0, state => mainRank stages state.main
  | index + 1, state => if index % 2 = 0 then readsLeft state (index / 2) else (state.cells (index / 2)).workLeft

theorem rank_reads : rank stages (2 * stage + 1) state = readsLeft state stage := by simp [rank]

theorem rank_work : rank stages (2 * stage + 2) state = (state.cells stage).workLeft := by
  have quotient : (2 * stage + 1) / 2 = stage := by omega
  simp [rank, quotient]

/-! ## The caller -/

theorem main_startStage {stage : Nat} {spec : StageSpec} :
    (startStage stages state stage spec).main = .building (stage + 1) ∨ (startStage stages state stage spec).main = .returned ∨
      ∃ text, spec = .echo text ∧
        (startStage stages state stage spec).main = .echoing stage (if isLast stages stage then [] else text) := by
  cases spec with
  | echo text => exact .inr (.inr ⟨text, rfl, rfl⟩)
  | quiet => exact .inl rfl
  | external spec =>
    cases spawn : spec.spawn with
    | started => exact .inl (by simp [startStage, spawn])
    | notFound => exact .inl (by simp [startStage, spawn, skipStage])
    | failed => exact .inr (.inl (by simp [startStage, spawn]))

theorem mainRank_lt (moves : MainMoves stages capacity state next) : mainRank stages next.main < mainRank stages state.main := by
  cases moves with
  | @starts stage spec building found =>
    have costs : ((stages.drop stage).map StageSpec.cost).sum = spec.cost + ((stages.drop (stage + 1)).map StageSpec.cost).sum := by
      obtain ⟨inside, rfl⟩ := List.getElem?_eq_some_iff.mp found
      rw [drop_eq_getElem_cons inside, map_cons, sum_cons]
    have positive : 0 < spec.cost := by cases spec <;> simp [StageSpec.cost]
    rw [building]
    rcases @main_startStage stages state stage spec with onward | returned | ⟨text, rfl, echoing⟩
    · rw [onward, mainRank, mainRank, costs]
      omega
    · rw [returned, mainRank, mainRank]
      omega
    · rw [echoing, mainRank, mainRank, costs, StageSpec.cost]
      split_ifs
      · simp only [length_nil]
        omega
      · omega
  | started building past =>
    rw [building, main_goTo, mainRank, mainRank]
    omega
  | echoes echoing room =>
    rw [echoing, main_goTo, mainRank, mainRank, length_cons]
    omega
  | echoed echoing =>
    rw [echoing, finishEcho, main_goTo, mainRank, mainRank]
    simp
  | waits waiting inside | returns waiting past =>
    rw [waiting, main_goTo, mainRank, mainRank]
    omega

/-! ## The stages -/

theorem Beside.rank (beside : Beside stage state next) {index : Nat} (before : index < 2 * stage + 1) :
    rank stages index next = rank stages index state := by
  cases index with
  | zero => rw [Plumb.rank, Plumb.rank, beside.main]
  | succ index =>
    have earlier : index / 2 < stage := by omega
    obtain ⟨edge, cells⟩ := beside.exists_edge earlier.ne
    have input : (next.stdin (index / 2)).buffer = (state.stdin (index / 2)).buffer := by
      generalize index / 2 = other at *
      cases other with
      | zero => rw [State.stdin, State.stdin, cells]
      | succ other => rw [State.stdin, State.stdin, beside.far other (by omega) (by omega)]
    rw [Plumb.rank, Plumb.rank, readsLeft, readsLeft, input, cells]
    rfl

variable {change : Cell → Cell} {count : Nat}

theorem stdin_modify_self (input : (change (state.cells stage)).input = (state.cells stage).input) :
    (state.modify stage change).stdin stage = state.stdin stage := by
  cases stage with
  | zero => simp [State.stdin, input]
  | succ stage => simp only [State.stdin, cells_modify_of_ne (Nat.ne_of_lt (Nat.lt_succ_self stage))]

theorem buffer_consume : ((state.consume count stage).stdin stage).buffer = (state.stdin stage).buffer.drop count := by
  cases stage with
  | zero | succ stage => simp [State.stdin, cells_consume]

variable {process : Process}

theorem readsLeft_reads {chunk rest : Bytes} (running : (state.cells stage).process = some process)
    (before : process.atEnd = false) (holds : (state.stdin stage).buffer = chunk ++ rest) :
    readsLeft ((state.consume chunk.length stage).modify stage fun cell =>
      { cell with process := some (process.reads spec.program chunk) }) stage < readsLeft state stage := by
  have input := @stdin_modify_self (state.consume chunk.length stage) stage
    (fun cell => { cell with process := some (process.reads spec.program chunk) }) rfl
  simp only [readsLeft, cells_modify_self, running, before, input, buffer_consume, holds, drop_left, length_append, Option.map_some]
  cases chunk with
  | nil =>
    have ended : (process.reads spec.program []).atEnd = true := by simp [Process.atEnd, Process.reads]
    rw [ended]
    dsimp only
    omega
  | cons byte chunk =>
    have onward : (process.reads spec.program (byte :: chunk)).atEnd = false := by simp [Process.atEnd, Process.reads]
    rw [onward, length_cons]
    dsimp only
    omega

theorem readsLeft_ends (running : (state.cells stage).process = some process) :
    readsLeft ((state.closeStdin stage).modify stage gone) stage < readsLeft state stage := by
  simp only [readsLeft, cells_modify_self, gone, running, Option.map_some, Option.map_none]
  cases process.atEnd <;> simp

theorem readsLeft_modify (ends : (change (state.cells stage)).process.map Process.atEnd = (state.cells stage).process.map Process.atEnd)
    (input : (change (state.cells stage)).input = (state.cells stage).input) :
    readsLeft (state.modify stage change) stage = readsLeft state stage := by
  rw [readsLeft, readsLeft, cells_modify_self, ends, stdin_modify_self input]

/-- A thread uses up what it has to do, and leaves the process alone. -/
theorem workLeft_lt {cell cell' : Cell} (moves : CellMoves stages capacity stage spec cell cell') :
    cell'.workLeft < cell.workLeft ∧ cell'.process = cell.process ∧ cell'.input = cell.input := by
  have on : ∀ {tee : Tee}, tee ≠ .off → 0 < tee.rank := by
    intro tee alive
    cases tee <;> simp [Tee.rank] at alive ⊢
  cases moves with
  | outEnds alive =>
    have := on alive
    exact ⟨by simp only [Cell.workLeft, teeOutEnds, Tee.rank_off]; omega, rfl, rfl⟩
  | @outTakes chunk rest reading holds some | @errTakes chunk rest reading holds some =>
    have := length_pos_of_ne_nil some
    refine ⟨?_, rfl, rfl⟩
    simp only [Cell.workLeft, reading, holds, Tee.rank, length_append]
    omega
  | outPushes writing =>
    refine ⟨?_, rfl, rfl⟩
    simp only [Cell.workLeft, writing, Tee.rank, length_cons]
    omega
  | outTurns writing | errTurns writing =>
    refine ⟨?_, rfl, rfl⟩
    simp only [Cell.workLeft, writing, Tee.rank]
    omega
  | errEnds alive =>
    have := on alive
    exact ⟨by simp only [Cell.workLeft, teeErrEnds, Tee.rank_off]; omega, rfl, rfl⟩

/-- A move of a stage uses up one of its reads, or some of the work before the next. -/
theorem stage_lower (moves : StageMoves stages capacity state stage spec next) :
    readsLeft next stage < readsLeft state stage ∨
      readsLeft next stage = readsLeft state stage ∧ (next.cells stage).workLeft < (state.cells stage).workLeft := by
  cases moves with
  | reads running idle before holds => exact .inl (readsLeft_reads running before holds)
  | ends running => exact .inl (readsLeft_ends running)
  | writesOut running pending | writesErr running pending =>
    refine .inr ⟨readsLeft_modify (by rw [running]; rfl) rfl, ?_⟩
    simp only [cells_modify_self, Cell.workLeft, running, pending, Option.elim_some, length_append, length_cons, length_nil]
    omega
  | cell cellMoves =>
    obtain ⟨work, process, input⟩ := workLeft_lt cellMoves
    refine .inr ⟨readsLeft_modify (by rw [process]) input, ?_⟩
    rwa [cells_modify_self]

theorem ranks_lower (moves : Moves stages capacity state next) : ∃ i < 2 * stages.length + 1,
    rank stages i next < rank stages i state ∧ ∀ j < i, rank stages j next ≤ rank stages j state := by
  rcases moves_cases moves with main | ⟨stage, spec, external, moves⟩
  · exact ⟨0, by omega, mainRank_lt main, by simp⟩
  have inside : stage < stages.length := by
    by_contra outside
    simp [externalAt, getElem?_eq_none (Nat.le_of_not_lt outside)] at external
  rcases stage_lower moves with reads | ⟨reads, work⟩
  · refine ⟨2 * stage + 1, by omega, ?_, fun j earlier => (moves.beside.rank earlier).le⟩
    rwa [rank_reads, rank_reads]
  · refine ⟨2 * stage + 2, by omega, ?_, fun j earlier => ?_⟩
    · rwa [rank_work, rank_work]
    · rcases Nat.lt_or_eq_of_le (Nat.le_of_lt_succ earlier) with lower | rfl
      · exact (moves.beside.rank lower).le
      · rw [rank_reads, rank_reads, reads]

/-- No pipeline runs for ever. -/
theorem moves_wellFounded (stages : List StageSpec) (capacity : Nat) :
    WellFounded fun next state => Moves stages capacity state next :=
  wellFounded_of_ranks (2 * stages.length + 1) (rank stages) fun _ _ => ranks_lower

end Index.Plumb
