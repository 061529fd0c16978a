import Mathlib
import Index.Plumb.Ranks

/-! # A pipeline does not block for ever, unless an echo does

The caller holds both ends of the pipe that it writes the text of an `echo` to, and starts the stage that reads it only
afterwards.  So a text that does not fit the pipe is never written, and a pipeline whose texts fit never blocks: where
a stage waits for input, look at the stage before it, and where it waits for room, at the stage after it. -/

namespace Index.Plumb

open Index.Lib

variable {stages : List StageSpec} {capacity : Nat} {state next : State} {stage : Nat} {spec : ExternalSpec} {main : Main}

/-! ## The invariant -/

def Tee.on : Tee → Bool
  | .off => false
  | _ => true

/-- Who holds the ends of the pipes of a stage. -/
structure CellSound (stages : List StageSpec) (main : Main) (stage : Nat) (cell : Cell) : Prop where
  out : cell.out.reader = cell.teeOut.on
  err : cell.err.reader = cell.teeErr.on
  outWriter : cell.out.writer = true → cell.process ≠ none
  errWriter : cell.err.writer = true → cell.process ≠ none
  edgeWriter : cell.edge.writer = true →
    (∃ spec, externalAt stages stage = some spec ∧ forwardsEdge stages stage spec = true ∧ cell.teeOut.on = true) ∨
      ∃ rest, main = .echoing stage rest
  external : cell.process ≠ none ∨ cell.teeOut.on = true ∨ cell.teeErr.on = true → ∃ spec, externalAt stages stage = some spec

/-- The caller holds the reading end of the edge after a stage. -/
def Main.Holds (main : Main) (stage : Nat) : Prop :=
  main = .building (stage + 1) ∨ (∃ rest, main = .echoing stage rest) ∨ ∃ rest, main = .echoing (stage + 1) rest

theorem Main.holds_building {position : Nat} : (Main.building position).Holds stage ↔ position = stage + 1 := by simp [Main.Holds]

theorem Main.holds_echoing {position : Nat} {rest : Bytes} :
    (Main.echoing position rest).Holds stage ↔ position = stage ∨ position = stage + 1 := by simp [Main.Holds]

/-- The caller has not come to a stage. -/
def Main.Before : Main → Nat → Prop
  | .building position, stage => position ≤ stage
  | .echoing position _, stage => position < stage
  | _, _ => False

theorem Main.Before.succ (before : main.Before stage) : main.Before (stage + 1) := by
  cases main with
  | building => exact Nat.le_succ_of_le before
  | echoing => exact Nat.lt_succ_of_lt before
  | waiting | returned => exact before

/-- The caller is past the start of a stage, and still among the stages. -/
def Main.After : Main → Nat → Prop
  | .building position, stage => stage < position
  | .echoing position _, stage => stage < position
  | _, _ => False

/-- The start of a stage makes the caller return an error. -/
def Fails (stages : List StageSpec) (stage : Nat) : Prop :=
  ∃ spec, stages[stage]? = some (.external spec) ∧ spec.spawn = .failed

structure Sound (stages : List StageSpec) (capacity : Nat) (state : State) : Prop where
  cells : ∀ stage, CellSound stages state.main stage (state.cells stage)
  reader : ∀ stage, (state.cells stage).edge.reader = true →
    (state.cells (stage + 1)).process ≠ none ∨ state.main.Holds stage
  last : ∀ stage, (state.cells stage).edge.reader = true → stage + 1 < stages.length
  fresh : ∀ stage, state.main.Before stage → state.cells stage = {}
  passed : ∀ stage, state.main.After stage → ¬ Fails stages stage
  echo : ∀ stage rest, state.main = .echoing stage rest → ∃ text, stages[stage]? = some (.echo text) ∧
    if isLast stages stage then rest = [] else (state.cells stage).edge.buffer ++ rest = text
  room : ∀ stage, (state.cells stage).edge.buffer.length ≤ capacity

/-- What the invariant is for one stage, `after` being the process that its edge leads to. -/
structure SoundAt (stages : List StageSpec) (capacity : Nat) (main : Main) (stage : Nat) (cell : Cell) (after : Option Process) :
    Prop where
  own : CellSound stages main stage cell
  reader : cell.edge.reader = true → after ≠ none ∨ main.Holds stage
  last : cell.edge.reader = true → stage + 1 < stages.length
  fresh : main.Before stage → cell = {}
  passed : main.After stage → ¬ Fails stages stage
  echo : ∀ rest, main = .echoing stage rest → ∃ text, stages[stage]? = some (.echo text) ∧
    if isLast stages stage then rest = [] else cell.edge.buffer ++ rest = text
  room : cell.edge.buffer.length ≤ capacity

theorem sound_iff : Sound stages capacity state ↔
    ∀ stage, SoundAt stages capacity state.main stage (state.cells stage) (state.cells (stage + 1)).process :=
  ⟨fun sound stage => ⟨sound.cells stage, sound.reader stage, sound.last stage, sound.fresh stage, sound.passed stage,
      sound.echo stage, sound.room stage⟩,
    fun sound => ⟨fun stage => (sound stage).own, fun stage => (sound stage).reader, fun stage => (sound stage).last,
      fun stage => (sound stage).fresh, fun stage => (sound stage).passed, fun stage => (sound stage).echo,
      fun stage => (sound stage).room⟩⟩

theorem soundAt_empty {after : Option Process} (unpassed : ¬ main.After stage) (silent : ∀ rest, main ≠ .echoing stage rest) :
    SoundAt stages capacity main stage {} after := by
  refine ⟨?_, nofun, nofun, fun _ => rfl, fun passed => absurd passed unpassed, fun rest echoing => absurd echoing (silent rest),
    Nat.zero_le _⟩
  constructor <;> simp [Tee.on]

theorem sound_start : Sound stages capacity {} :=
  sound_iff.mpr fun _ => soundAt_empty (Nat.not_lt_zero _) nofun

theorem isLast_eq_false : isLast stages stage = false ↔ stage + 1 ≠ stages.length := by simp [isLast]

/-! ## Moves of the caller -/

section Main

/-- The caller moves on, and no end of an edge was in its hands as the text of an `echo`. -/
theorem CellSound.goTo {other : Main} {cell : Cell} (sound : CellSound stages main stage cell)
    (silent : ∀ rest, main ≠ .echoing stage rest) : CellSound stages other stage cell :=
  { sound with edgeWriter := fun writes => (sound.edgeWriter writes).imp_right fun ⟨rest, echoing⟩ => absurd echoing (silent rest) }

theorem CellSound.withReader {cell : Cell} {reader : Bool} (sound : CellSound stages main stage cell) :
    CellSound stages main stage { cell with edge := { cell.edge with reader } } :=
  ⟨sound.out, sound.err, sound.outWriter, sound.errWriter, sound.edgeWriter, sound.external⟩

/-- At most the reading end of the edge of a cell is closed. -/
def Closes (cell cell' : Cell) : Prop := ∃ reader, cell' = { cell with edge := { cell.edge with reader } } ∧
  (reader = true → cell.edge.reader = true)

theorem closes_refl (cell : Cell) : Closes cell cell := ⟨_, rfl, id⟩

theorem closes_closeStdin (state : State) (stage other : Nat) : Closes (state.cells other) ((state.closeStdin stage).cells other) := by
  rw [cells_closeStdin]
  split_ifs
  · exact ⟨false, rfl, nofun⟩
  · exact closes_refl _

theorem cells_modify_of_eq {change : Cell → Cell} {cell : Cell} (was : state.cells stage = cell) :
    (state.modify stage change).cells stage = change cell := by
  rw [cells_modify_self, was]

section

variable (sound : Sound stages capacity state) (at_ : state.main = .building stage ∨ ∃ rest, state.main = .echoing stage rest)
include sound at_

/-- The caller works on one stage: it sets up the cell of the stage, may close the edge before it, and either keeps writing
the text of the stage or goes on to the next. -/
theorem Sound.onward (goes : main = .building (stage + 1) ∨ ∃ rest, main = .echoing stage rest)
    (others : ∀ other, other ≠ stage → Closes (state.cells other) (next.cells other))
    {cell : Cell} (self : next.cells stage = cell) (own : CellSound stages main stage cell)
    (input : ∀ other, other + 1 = stage → (next.cells other).edge.reader = true → main = .building (stage + 1) →
      cell.process ≠ none) (last : cell.edge.reader = true → stage + 1 < stages.length)
    (passed : main = .building (stage + 1) → ¬ Fails stages stage)
    (echo : ∀ rest, main = .echoing stage rest → ∃ text, stages[stage]? = some (.echo text) ∧
      if isLast stages stage then rest = [] else cell.edge.buffer ++ rest = text)
    (room : cell.edge.buffer.length ≤ capacity) : Sound stages capacity (next.goTo main) := by
  subst self
  have away : ∀ other, other ≠ stage → ∀ rest, state.main ≠ .echoing other rest := by
    rintro other apart rest echoing
    rcases at_ with building | ⟨_, echoing'⟩
    · simp [building] at echoing
    · rw [echoing'] at echoing
      cases echoing
      exact apart rfl
  have silent : ∀ other, other ≠ stage → ∀ rest, main ≠ .echoing other rest := by
    rintro other apart rest rfl
    rcases goes with building | ⟨_, echoing⟩
    · cases building
    · cases echoing
      exact apart rfl
  refine sound_iff.mpr fun other => ?_
  have old := sound_iff.mp sound other
  rcases Nat.lt_trichotomy other stage with earlier | rfl | later
  · obtain ⟨reader, cells, opens⟩ := others other earlier.ne
    rw [cells_goTo, cells]
    refine ⟨(old.own.goTo (away other earlier.ne)).withReader, fun open_ => ?_, fun open_ => old.last (opens open_), fun before => ?_,
      fun _ => old.passed ?_, fun rest echoing => absurd echoing (silent other earlier.ne rest), old.room⟩
    · by_cases upstream : other + 1 = stage
      · subst upstream
        exact goes.imp (input other rfl (by rwa [cells])) fun echoing => .inr (.inr echoing)
      · obtain ⟨_, process, -⟩ := others _ upstream
        rw [process]
        refine .inl ((old.reader (opens open_)).resolve_right fun holds => ?_)
        rcases at_ with here | ⟨_, here⟩ <;> (simp only [here, Main.holds_building, Main.holds_echoing] at holds; omega)
    · exfalso
      rcases goes with rfl | ⟨_, rfl⟩ <;> (simp only [main_goTo, Main.Before] at before; omega)
    · rcases at_ with main | ⟨_, main⟩ <;> (rw [main]; exact earlier)
  · refine ⟨own, fun _ => .inr (goes.imp_right .inl), last, fun before => ?_, fun after => ?_, echo, room⟩
    · exfalso
      rcases goes with rfl | ⟨_, rfl⟩ <;> (simp only [main_goTo, Main.Before] at before; omega)
    · refine passed (goes.resolve_right ?_)
      rintro ⟨_, rfl⟩
      exact Nat.lt_irrefl _ after
  · have empty : state.cells other = {} := old.fresh (by rcases at_ with main | ⟨_, main⟩ <;> simp only [main, Main.Before] <;> omega)
    obtain ⟨reader, cells, opens⟩ := others other later.ne'
    rw [empty] at cells opens
    obtain rfl : reader = false := Bool.eq_false_iff.mpr fun open_ => by cases opens open_
    rw [cells_goTo, cells]
    refine soundAt_empty (fun after => ?_) (silent other later.ne')
    rcases goes with rfl | ⟨_, rfl⟩ <;> (simp only [main_goTo, Main.After] at after; omega)

/-- The caller is through with a stage that leaves no process: its input is closed, and its edge has no writer. -/
theorem sound_leave {edge : Pipe} (unfailing : ¬ Fails stages stage) (writer : edge.writer = false)
    (reader : edge.reader = true → stage + 1 < stages.length) (room : edge.buffer.length ≤ capacity) : Sound stages capacity
      (((state.closeStdin stage).modify stage fun cell => { cell with edge }).goTo (.building (stage + 1))) := by
  have old := sound.cells stage
  refine sound.onward at_ (.inl rfl) (fun other apart => ?_) (cells_modify_of_eq cells_closeStdin_self)
    ⟨old.out, old.err, old.outWriter, old.errWriter, by simp [writer], old.external⟩ (fun other upstream open_ _ => ?_)
    reader (fun _ => unfailing) nofun room
  · rw [cells_modify_of_ne apart]
    exact closes_closeStdin state stage other
  · rw [cells_modify_of_ne (by omega), cells_closeStdin, if_pos upstream] at open_
    cases open_

end

theorem modify_congr {change change' : Cell → Cell} (same : change (state.cells stage) = change' (state.cells stage)) :
    state.modify stage change = state.modify stage change' := by
  rw [State.modify, State.modify, same]

theorem isLast_of_not {stage : Nat} (found : stage < stages.length) (more : (!isLast stages stage) = true) :
    stage + 1 < stages.length := by
  have := isLast_eq_false.mp (by simpa using more)
  omega

theorem sound_skip (sound : Sound stages capacity state) (building : state.main = .building stage)
    (inside : stage < stages.length) (unfailing : ¬ Fails stages stage) : Sound stages capacity (skipStage stages state stage) :=
  sound_leave sound (.inl building) unfailing rfl (fun more => isLast_of_not inside more) (Nat.zero_le _)

theorem sound_finishEcho (sound : Sound stages capacity state) (echoing : state.main = .echoing stage []) :
    Sound stages capacity (finishEcho state stage) := by
  obtain ⟨text, found, -⟩ := sound.echo stage [] echoing
  have unfailing : ¬ Fails stages stage := by
    rintro ⟨spec, external, -⟩
    simp [found] at external
  have same : ((state.closeStdin stage).modify stage fun cell => { cell with edge := { cell.edge with writer := false } }) =
      (state.closeStdin stage).modify stage fun cell =>
        { cell with edge := { (state.cells stage).edge with writer := false } } := modify_congr (by simp)
  rw [finishEcho, same]
  exact sound_leave sound (.inr ⟨[], echoing⟩) unfailing rfl (sound.last stage) (sound.room stage)

theorem sound_startEcho {text : Bytes} (sound : Sound stages capacity state) (building : state.main = .building stage)
    (found : stages[stage]? = some (.echo text)) : Sound stages capacity (startStage stages state stage (.echo text)) := by
  have inside : stage < stages.length := (List.getElem?_eq_some_iff.mp found).1
  have empty : state.cells stage = {} := sound.fresh stage (by rw [building]; exact le_rfl)
  rw [startStage]
  refine sound.onward (.inl building) (.inr ⟨_, rfl⟩) (fun other apart => cells_modify_of_ne apart ▸ closes_refl _)
    (cells_modify_of_eq empty) ?_ (fun _ _ _ onward => by cases onward) (isLast_of_not inside)
    (fun onward => by cases onward) (fun rest echoing => ?_) (Nat.zero_le _)
  · refine ⟨rfl, rfl, fun writes => (by cases writes), fun writes => (by cases writes), fun _ => .inr ⟨_, rfl⟩, ?_⟩
    simp [Tee.on]
  · cases echoing
    refine ⟨text, found, ?_⟩
    split_ifs <;> rfl

theorem externalAt_eq (found : stages[stage]? = some (.external spec)) : externalAt stages stage = some spec := by
  simp [externalAt, found]

section

variable (sound : Sound stages capacity state)
include sound

theorem sound_spawn (building : state.main = .building stage) (found : stages[stage]? = some (.external spec))
    (started : spec.spawn = .started) :
    Sound stages capacity ((state.modify stage fun _ => spawned stages stage spec).goTo (.building (stage + 1))) := by
  have inside : stage < stages.length := (List.getElem?_eq_some_iff.mp found).1
  refine sound.onward (.inl building) (.inl rfl) (fun other apart => cells_modify_of_ne apart ▸ closes_refl _) cells_modify_self ?_
    (fun _ _ _ _ => nofun) (isLast_of_not inside) (fun _ => ?_) nofun (Nat.zero_le _)
  · exact ⟨rfl, rfl, fun _ => nofun, fun _ => nofun, fun forwards => .inl ⟨spec, externalAt_eq found, forwards, rfl⟩,
      fun _ => ⟨spec, externalAt_eq found⟩⟩
  · rintro ⟨spec', found', failed⟩
    cases found.symm.trans found'
    simp [started] at failed

/-- The caller is past the stages, or gives up. -/
theorem sound_over (silent : ∀ other rest, state.main ≠ .echoing other rest)
    (others : ∀ other, Closes (state.cells other) (next.cells other))
    (past : ∀ other, state.main.Holds other → (next.cells other).edge.reader = false) {main : Main}
    (waiting : (∃ other, main = .waiting other) ∨ main = .returned) : Sound stages capacity (next.goTo main) := by
  refine sound_iff.mpr fun other => ?_
  have old := sound_iff.mp sound other
  obtain ⟨reader, cells, opens⟩ := others other
  obtain ⟨_, process, -⟩ := others (other + 1)
  have closed := past other
  rw [cells] at closed
  rw [cells_goTo, cells, process]
  refine ⟨(old.own.goTo (silent other)).withReader, fun open_ => ?_, fun open_ => old.last (opens open_), fun before => ?_,
    fun after => ?_, fun rest echoing => ?_, old.room⟩
  · exact .inl ((old.reader (opens open_)).resolve_right fun holds => Bool.eq_false_iff.mp (closed holds) open_)
  all_goals rcases waiting with ⟨_, rfl⟩ | rfl
  all_goals first | cases before | cases after | cases echoing

theorem Sound.mainMoves (moves : MainMoves stages capacity state next) : Sound stages capacity next := by
  cases moves with
  | @starts stage spec building found =>
    have inside : stage < stages.length := (List.getElem?_eq_some_iff.mp found).1
    cases spec with
    | echo text => exact sound_startEcho sound building found
    | quiet =>
      refine sound_skip sound building inside ?_
      rintro ⟨spec, external, -⟩
      simp [found] at external
    | external spec =>
      cases spawn : spec.spawn with
      | started =>
        simp only [startStage, spawn]
        exact sound_spawn sound building found spawn
      | notFound =>
        simp only [startStage, spawn]
        refine sound_skip sound building inside ?_
        rintro ⟨spec', external, failed⟩
        cases found.symm.trans external
        simp [spawn] at failed
      | failed =>
        simp only [startStage, spawn]
        refine sound_over sound (by simp [building]) (closes_closeStdin state stage) (fun other holds => ?_) (.inr rfl)
        rw [building, Main.holds_building] at holds
        rw [cells_closeStdin, if_pos holds.symm]
  | @started stage building past =>
    refine sound_over sound (by simp [building]) (fun _ => closes_refl _) (fun other holds => ?_) (.inl ⟨0, rfl⟩)
    rw [building, Main.holds_building] at holds
    refine Bool.eq_false_iff.mpr fun open_ => ?_
    have := sound.last other open_
    simp at past
    omega
  | @echoes stage byte rest echoing room =>
    obtain ⟨text, found, written⟩ := sound.echo stage _ echoing
    split_ifs at written with last
    have old := sound.cells stage
    refine sound.onward (.inr ⟨_, echoing⟩) (.inr ⟨rest, rfl⟩) (fun other apart => cells_modify_of_ne apart ▸ closes_refl _)
      cells_modify_self ⟨old.out, old.err, old.outWriter, old.errWriter, fun _ => .inr ⟨rest, rfl⟩, old.external⟩
      (fun _ _ _ onward => by cases onward) (sound.last stage) (fun onward => by cases onward) (fun rest' echoing' => ?_) ?_
    · cases echoing'
      refine ⟨text, found, ?_⟩
      rw [if_neg last]
      simpa using written
    · simpa using Nat.succ_le_of_lt room
  | echoed echoing => exact sound_finishEcho sound echoing
  | waits waiting => exact sound_over sound (by simp [waiting]) (fun _ => closes_refl _) (by simp [waiting, Main.Holds]) (.inl ⟨_, rfl⟩)
  | returns waiting => exact sound_over sound (by simp [waiting]) (fun _ => closes_refl _) (by simp [waiting, Main.Holds]) (.inr rfl)

end

end Main

/-! ## Moves of the stages -/

section Stages

/-- A move of a stage keeps the invariant if it keeps its own part of it. -/
theorem Sound.beside (sound : Sound stages capacity state) (external : externalAt stages stage = some spec)
    (beside : Beside stage state next) (active : ¬ (state.cells stage).Idle)
    {cell : Cell} (self : next.cells stage = cell) (own : CellSound stages state.main stage cell)
    (reader : cell.edge.reader = (state.cells stage).edge.reader) (room : cell.edge.buffer.length ≤ capacity)
    (input : ∀ other, other + 1 = stage → (next.cells other).edge.reader = true → (state.cells stage).process ≠ none →
      cell.process ≠ none) : Sound stages capacity next := by
  subst self
  have notEcho : ∀ rest, state.main ≠ .echoing stage rest := by
    intro rest echoing
    obtain ⟨text, found, -⟩ := sound.echo stage rest echoing
    simp [externalAt, found] at external
  have come : ¬ state.main.Before stage := fun before => active (by rw [sound.fresh stage before]; exact ⟨rfl, rfl, rfl⟩)
  refine sound_iff.mpr fun other => ?_
  have old := sound_iff.mp sound other
  rw [beside.main]
  by_cases same : other = stage
  · subst same
    obtain ⟨_, after⟩ := beside.exists_edge (Nat.succ_ne_self other)
    rw [after]
    exact ⟨own, fun open_ => old.reader (reader ▸ open_), fun open_ => old.last (reader ▸ open_), fun before => absurd before come,
      old.passed, fun rest echoing => absurd echoing (notEcho rest), room⟩
  by_cases upstream : other + 1 = stage
  · subst upstream
    obtain ⟨edge, cells, writer, onlyOpen, shorter⟩ := beside.near other rfl
    have opened := input other rfl
    rw [cells] at opened ⊢
    refine ⟨⟨old.own.out, old.own.err, old.own.outWriter, old.own.errWriter, fun writes => old.own.edgeWriter (writer ▸ writes),
      old.own.external⟩, fun open_ => (old.reader (onlyOpen open_)).imp_left (opened open_), fun open_ => old.last (onlyOpen open_),
      fun before => absurd before.succ come, old.passed, fun rest echoing => absurd ?_ come, shorter.trans old.room⟩
    rw [echoing]
    exact Nat.lt_succ_self other
  · obtain ⟨_, after⟩ := beside.exists_edge upstream
    rw [beside.far other same upstream, after]
    exact old

theorem Tee.on_eq_false {tee : Tee} : tee.on = false ↔ tee = .off := by
  cases tee <;> simp [Tee.on]

theorem CellSound.moves {cell cell' : Cell} (sound : CellSound stages main stage cell)
    (external : externalAt stages stage = some spec) (moves : CellMoves stages capacity stage spec cell cell') :
    CellSound stages main stage cell' ∧ cell'.edge.reader = cell.edge.reader ∧ cell'.process = cell.process ∧
      (cell.edge.buffer.length ≤ capacity → cell'.edge.buffer.length ≤ capacity) := by
  have known : ∀ {holds : Prop}, holds → ∃ spec, externalAt stages stage = some spec := fun _ => ⟨spec, external⟩
  have forwarding : (∃ spec, externalAt stages stage = some spec ∧ forwardsEdge stages stage spec = true ∧ cell.teeOut.on = true) →
      ∃ spec, externalAt stages stage = some spec ∧ forwardsEdge stages stage spec = true ∧ true = true := by
    rintro ⟨spec', found, forwards, -⟩
    exact ⟨spec', found, forwards, rfl⟩
  cases moves with
  | outEnds =>
    have writer : (teeOutEnds stages stage spec cell).edge.writer = true → ∃ rest, main = .echoing stage rest := by
      simp only [teeOutEnds]
      split_ifs with forwards
      · exact fun writes => by cases writes
      · intro writes
        rcases sound.edgeWriter writes with ⟨spec', external', forwards', -⟩ | echoing
        · cases external.symm.trans external'
          exact absurd forwards' forwards
        · exact echoing
    have edge : (teeOutEnds stages stage spec cell).edge.reader = cell.edge.reader ∧
        (teeOutEnds stages stage spec cell).edge.buffer = cell.edge.buffer := by
      simp only [teeOutEnds]
      split_ifs <;> exact ⟨rfl, rfl⟩
    exact ⟨⟨rfl, sound.err, sound.outWriter, sound.errWriter, fun writes => .inr (writer writes), known⟩, edge.1, rfl,
      fun room => by rwa [edge.2]⟩
  | outTakes works | outTurns works =>
    refine ⟨⟨?_, sound.err, sound.outWriter, sound.errWriter, fun writes => ?_, known⟩, rfl, rfl, id⟩
    · exact sound.out.trans (by rw [works]; rfl)
    · exact (sound.edgeWriter writes).imp_left forwarding
  | outPushes writing forwards opened room =>
    refine ⟨⟨?_, sound.err, sound.outWriter, sound.errWriter, fun writes => ?_, known⟩, rfl, rfl, fun _ => ?_⟩
    · exact sound.out.trans (by rw [writing]; rfl)
    · exact (sound.edgeWriter writes).imp_left forwarding
    · simpa using Nat.succ_le_of_lt room
  | errEnds => exact ⟨⟨sound.out, rfl, sound.outWriter, sound.errWriter, sound.edgeWriter, known⟩, rfl, rfl, id⟩
  | errTakes works | errTurns works =>
    refine ⟨⟨sound.out, ?_, sound.outWriter, sound.errWriter, sound.edgeWriter, known⟩, rfl, rfl, id⟩
    exact sound.err.trans (by rw [works]; rfl)

theorem active_of_cellMoves {cell cell' : Cell} (moves : CellMoves stages capacity stage spec cell cell') : ¬ cell.Idle := by
  rintro ⟨-, teeOut, teeErr⟩
  cases moves <;> simp_all

theorem Sound.stageMoves (sound : Sound stages capacity state) (external : externalAt stages stage = some spec)
    (moves : StageMoves stages capacity state stage spec next) : Sound stages capacity next := by
  have old := sound.cells stage
  have busy : ∀ {process}, (state.cells stage).process = some process → ¬ (state.cells stage).Idle := by
    rintro process running ⟨none, -⟩
    simp [running] at none
  cases moves with
  | @reads process chunk rest running =>
    have self : ((state.consume chunk.length stage).cells stage) =
        { state.cells stage with input := ((state.consume chunk.length stage).cells stage).input } := by
      rw [cells_consume, if_neg (by omega)]
      split_ifs <;> rfl
    refine sound.beside external beside_consume (busy running) (cells_modify_of_eq self) ?_ rfl
      (sound.room stage) fun _ _ _ _ => nofun
    exact ⟨old.out, old.err, fun _ => nofun, fun _ => nofun, old.edgeWriter, fun _ => ⟨spec, external⟩⟩
  | ends running =>
    refine sound.beside external beside_closeStdin (busy running) (cells_modify_of_eq cells_closeStdin_self)
      ?_ rfl (sound.room stage) fun other upstream open_ => ?_
    · exact ⟨old.out, old.err, nofun, nofun, old.edgeWriter, fun _ => ⟨spec, external⟩⟩
    · rw [cells_modify_of_ne (by omega), cells_closeStdin, if_pos upstream] at open_
      cases open_
  | writesOut running | writesErr running =>
    refine sound.beside external beside_modify (busy running) cells_modify_self ?_ rfl (sound.room stage) fun _ _ _ _ => nofun
    exact ⟨old.out, old.err, fun _ => nofun, fun _ => nofun, old.edgeWriter, fun _ => ⟨spec, external⟩⟩
  | cell cellMoves =>
    obtain ⟨cellSound, reader, process, room⟩ := old.moves external cellMoves
    refine sound.beside external beside_modify (active_of_cellMoves cellMoves) cells_modify_self cellSound reader
      (room (sound.room stage)) fun _ _ _ running => ?_
    rwa [process]

end Stages

theorem Sound.moves (sound : Sound stages capacity state) (moves : Moves stages capacity state next) :
    Sound stages capacity next := by
  rcases moves_cases moves with main | ⟨stage, spec, external, moves⟩
  · exact sound.mainMoves main
  · exact sound.stageMoves external moves

theorem sound_of_reached (reached : Relation.ReflTransGen (Moves stages capacity) {} state) : Sound stages capacity state := by
  induction reached with
  | refl => exact sound_start
  | tail _ moves ih => exact ih.moves moves

/-! ## Progress -/

section Progress

theorem moves_stage (event : Event) (external : externalAt stages event.stage = some spec) (inner : event ≠ .main)
    (enabled : stageStep stages capacity state spec event ≠ none) : ∃ next, Moves stages capacity state next := by
  obtain ⟨next, stepped⟩ := Option.ne_none_iff_exists'.mp enabled
  refine ⟨next, event, ?_⟩
  cases event with
  | main => exact absurd rfl inner
  | read | write | exit | tee => exact Option.bind_eq_some_iff.mpr ⟨spec, external, stepped⟩

/-- A thread that has nothing to do: it is over, or its pipe is empty and may still be written to. -/
def Quiet (tee : Tee) (pipe : Pipe) : Prop := tee = .off ∨ pipe.buffer = [] ∧ pipe.writer = true

theorem writer_of_busy {tee : Tee} {pipe : Pipe} (busy : ¬ Quiet tee pipe) (empty : pipe.buffer = []) : pipe.writer = false :=
  Bool.eq_false_iff.mpr fun open_ => busy (.inr ⟨empty, open_⟩)

theorem empty_of_quiet {tee : Tee} {pipe : Pipe} (quiet : Quiet tee pipe) (held : pipe.reader = tee.on)
    (open_ : pipe.reader = true) : pipe.buffer = [] := by
  rcases quiet with off | ⟨empty, -⟩
  · rw [held, off] at open_
    cases open_
  · exact empty

/-- The thread of standard output goes on unless the edge is full. -/
theorem moves_teeOut (external : externalAt stages stage = some spec)
    (free : (state.cells stage).edge.reader = true → (state.cells stage).edge.buffer.length < capacity) :
    (∃ next, Moves stages capacity state next) ∨ Quiet (state.cells stage).teeOut (state.cells stage).out := by
  rw [or_iff_not_imp_right]
  intro busy
  have enabled : teeOutStep stages capacity stage 1 true spec (state.cells stage) ≠ none := by
    rw [teeOutStep]
    split
    next off => exact absurd (.inl off) busy
    next reading =>
      cases holds : (state.cells stage).out.buffer with
      | nil => simp [writer_of_busy busy holds]
      | cons => simp
    next rest writing =>
      by_cases forwards : forwardsEdge stages stage spec = true
      · rw [if_pos forwards]
        cases rest with
        | nil => simp
        | cons byte rest =>
          cases open_ : (state.cells stage).edge.reader with
          | false => simp
          | true => simp [free open_]
      · simp [forwards]
  exact moves_stage (.tee .out stage 1 true) external (by simp) (by simpa [stageStep] using enabled)

theorem moves_teeErr (external : externalAt stages stage = some spec) :
    (∃ next, Moves stages capacity state next) ∨ Quiet (state.cells stage).teeErr (state.cells stage).err := by
  rw [or_iff_not_imp_right]
  intro busy
  have enabled : teeErrStep 1 true (state.cells stage) ≠ none := by
    rw [teeErrStep]
    split
    next off => exact absurd (.inl off) busy
    next reading =>
      cases holds : (state.cells stage).err.buffer with
      | nil => simp [writer_of_busy busy holds]
      | cons => simp
    next => simp
  exact moves_stage (.tee .err stage 1 true) external (by simp) (by simpa [stageStep] using enabled)

/-- A process between two quiet threads goes on unless it waits for input. -/
theorem moves_process {process : Process} (positive : 0 < capacity) (cell : CellSound stages state.main stage (state.cells stage))
    (external : externalAt stages stage = some spec) (running : (state.cells stage).process = some process)
    (out : Quiet (state.cells stage).teeOut (state.cells stage).out)
    (err : Quiet (state.cells stage).teeErr (state.cells stage).err) :
    (∃ next, Moves stages capacity state next) ∨ (state.stdin stage).buffer = [] ∧ (state.stdin stage).writer = true := by
  cases pending : process.pending with
  | cons first rest =>
    obtain ⟨stream, byte⟩ := first
    have enabled : writeStep capacity state stage process spec ≠ none := by
      simp only [writeStep, pending]
      cases target spec stream with
      | out =>
        cases open_ : (state.cells stage).out.reader with
        | false => simp
        | true => simp [empty_of_quiet out cell.out open_, positive]
      | err =>
        cases open_ : (state.cells stage).err.reader with
        | false => simp
        | true => simp [empty_of_quiet err cell.err open_, positive]
    exact .inl (moves_stage (.write stage) external (by simp) (by simpa [stageStep, running] using enabled))
  | nil =>
    cases ended : process.atEnd with
    | true =>
      exact .inl (moves_stage (.exit stage) external (by simp) (by simp [stageStep, running, exitStep, pending, ended]))
    | false =>
      rw [or_iff_not_imp_right]
      intro input
      have enabled : readStep state stage 1 process spec.program ≠ none := by
        cases holds : (state.stdin stage).buffer with
        | nil =>
          have closed : (state.stdin stage).writer = false := by
            by_contra open_
            exact input ⟨holds, by simpa using open_⟩
          simp [readStep, pending, ended, holds, closed]
        | cons => simp [readStep, pending, ended, holds]
      exact moves_stage (.read stage 1) external (by simp) (by simpa [stageStep, running] using enabled)

section

variable (positive : 0 < capacity) (sound : Sound stages capacity state)
include positive sound

/-- A stage that is not idle and whose edge is not full goes on, or its process waits for input. -/
theorem moves_or_waits (active : ¬ (state.cells stage).Idle)
    (free : (state.cells stage).edge.reader = true → (state.cells stage).edge.buffer.length < capacity) :
    (∃ next, Moves stages capacity state next) ∨ (state.stdin stage).buffer = [] ∧ (state.stdin stage).writer = true := by
  have cell := sound.cells stage
  obtain ⟨spec, external⟩ : ∃ spec, externalAt stages stage = some spec := by
    refine cell.external ?_
    by_contra idle
    simp only [not_or, not_not, Bool.not_eq_true, Tee.on_eq_false] at idle
    exact active idle
  rcases moves_teeOut external free with moves | out
  · exact .inl moves
  rcases moves_teeErr external with moves | err
  · exact .inl moves
  cases running : (state.cells stage).process with
  | some process => exact moves_process positive cell external running out err
  | none =>
    -- Without a process nobody writes to the threads, so they are over.
    have outOff : (state.cells stage).teeOut = .off := out.resolve_right fun quiet => cell.outWriter quiet.2 running
    have errOff : (state.cells stage).teeErr = .off := err.resolve_right fun quiet => cell.errWriter quiet.2 running
    exact absurd ⟨running, outOff, errOff⟩ active

/-- While the caller waits, a stage that is not idle and whose edge is not full can go on, or one before it can. -/
theorem moves_upstream (silent : ∀ stage rest, state.main ≠ .echoing stage rest) (active : ¬ (state.cells stage).Idle)
    (free : (state.cells stage).edge.reader = true → (state.cells stage).edge.buffer.length < capacity) :
    ∃ next, Moves stages capacity state next := by
  induction stage with
  | zero => exact (moves_or_waits positive sound active free).resolve_right fun waits => by simp [State.stdin] at waits
  | succ stage ih =>
    rcases moves_or_waits positive sound active free with moves | ⟨empty, writer⟩
    · exact moves
    · -- The stage before has not closed the edge, which is empty.
      rcases (sound.cells stage).edgeWriter writer with ⟨spec, -, -, on⟩ | ⟨rest, echoing⟩
      · refine ih (fun idle => ?_) fun _ => ?_
        · rw [idle.2.1] at on
          cases on
        · have nothing : (state.cells stage).edge.buffer = [] := empty
          rwa [nothing]
      · exact absurd echoing (silent stage rest)

/-- While the caller waits, a stage that is not idle can go on, or one before or after it can. -/
theorem moves_of_active {position : Nat} (waiting : state.main = .waiting position) (active : ¬ (state.cells stage).Idle) :
    ∃ next, Moves stages capacity state next := by
  induction remaining : stages.length - stage generalizing stage with
  | zero =>
    refine moves_upstream positive sound (by simp [waiting]) active fun open_ => ?_
    have := sound.last stage open_
    omega
  | succ count ih =>
    by_cases free : (state.cells stage).edge.reader = true → (state.cells stage).edge.buffer.length < capacity
    · exact moves_upstream positive sound (by simp [waiting]) active free
    · -- The edge is full, and the process after it has it open.
      push Not at free
      have running := (sound.reader stage free.1).resolve_right (by simp [waiting, Main.Holds])
      exact ih (fun idle => running idle.1) (by omega)

end

/-- The texts that are written to a pipe before anyone reads from it fit the pipe. -/
def EchoesFit (stages : List StageSpec) (capacity : Nat) : Prop :=
  ∀ (stage : Nat) (text : Bytes), stages[stage]? = some (.echo text) → stage + 1 < stages.length →
    (∀ earlier < stage, ¬ Fails stages earlier) → text.length ≤ capacity

theorem moves_of_unreturned (positive : 0 < capacity) (fit : EchoesFit stages capacity) (sound : Sound stages capacity state)
    (unreturned : ¬ Returned state) : ∃ next, Moves stages capacity state next := by
  have byMain : mainStep stages capacity state ≠ none → ∃ next, Moves stages capacity state next := by
    intro enabled
    obtain ⟨next, stepped⟩ := Option.ne_none_iff_exists'.mp enabled
    exact ⟨next, .main, stepped⟩
  cases main : state.main with
  | returned => exact absurd main unreturned
  | building stage =>
    refine byMain ?_
    simp only [mainStep, main]
    split <;> simp
  | echoing stage rest =>
    refine byMain ?_
    cases rest with
    | nil => simp [mainStep, main]
    | cons byte rest =>
      obtain ⟨text, found, written⟩ := sound.echo stage _ main
      have inside : stage < stages.length := (List.getElem?_eq_some_iff.mp found).1
      split_ifs at written with last
      have notLast := isLast_eq_false.mp (Bool.eq_false_iff.mpr last)
      have fits := fit stage text found (by omega) fun earlier before => sound.passed earlier (by rw [main]; exact before)
      rw [← written, List.length_append, List.length_cons] at fits
      have room : (state.cells stage).edge.buffer.length < capacity := by omega
      simp [mainStep, main, room]
  | waiting position =>
    by_cases inside : position < stages.length
    · by_cases idle : (state.cells position).Idle
      · refine byMain ?_
        simp [mainStep, main, inside, idle.1, idle.2.1, idle.2.2]
      · exact moves_of_active positive sound main idle
    · refine byMain ?_
      simp [mainStep, main, inside]

end Progress

/-! ## An echo that does not fit -/

section Stuck

variable {text : Bytes} (found : stages[stage]? = some (.echo text)) (notLast : stage + 1 < stages.length)
  (reached : ∀ earlier < stage, ¬ Fails stages earlier) (long : capacity < text.length)

/-- The caller has not got past the text of a stage. -/
def Main.UpTo (main : Main) (stage : Nat) : Prop :=
  (∃ position, main = .building position ∧ position ≤ stage) ∨ (∃ position rest, main = .echoing position rest ∧ position < stage) ∨
    ∃ rest, main = .echoing stage rest ∧ rest ≠ []

theorem Main.upTo_building {position : Nat} : (Main.building position).UpTo stage ↔ position ≤ stage := by simp [Main.UpTo]

theorem Main.upTo_echoing {position : Nat} {rest : Bytes} :
    (Main.echoing position rest).UpTo stage ↔ position < stage ∨ position = stage ∧ rest ≠ [] := by simp [Main.UpTo]

theorem Main.not_upTo_waiting {position : Nat} : ¬ (Main.waiting position).UpTo stage := by simp [Main.UpTo]

theorem Main.not_upTo_returned : ¬ Main.returned.UpTo stage := by simp [Main.UpTo]

include found notLast reached long in
theorem upTo_step (sound : Sound stages capacity next) (upTo : state.main.UpTo stage)
    (moves : MainMoves stages capacity state next) : next.main.UpTo stage := by
  have last : isLast stages stage = false := isLast_eq_false.mpr (by omega)
  cases moves with
  | @starts position spec building foundHere =>
    rw [building, Main.upTo_building] at upTo
    rcases Nat.lt_or_eq_of_le upTo with earlier | rfl
    · rcases @main_startStage stages state position spec with onward | returned | ⟨text', rfl, echoing⟩
      · rw [onward]
        exact Main.upTo_building.mpr earlier
      · exfalso
        -- Only a failing start returns.
        cases spec with
        | echo | quiet => cases returned
        | external external =>
          cases spawn : external.spawn with
          | started | notFound => simp [startStage, spawn, skipStage] at returned
          | failed => exact reached position earlier ⟨external, foundHere, spawn⟩
      · rw [echoing]
        exact Main.upTo_echoing.mpr (.inl earlier)
    · cases found.symm.trans foundHere
      refine Main.upTo_echoing.mpr (.inr ⟨rfl, ?_⟩)
      rw [last]
      rintro rfl
      simp at long
  | @started position building past =>
    rw [building, Main.upTo_building] at upTo
    have := List.getElem?_eq_none_iff.mp past
    omega
  | @echoes position byte rest echoing room =>
    rw [echoing, Main.upTo_echoing] at upTo
    refine Main.upTo_echoing.mpr (upTo.imp_right ?_)
    rintro ⟨rfl, -⟩
    refine ⟨rfl, ?_⟩
    rintro rfl
    -- The whole text would be in the pipe.
    obtain ⟨text', found', written⟩ := sound.echo position [] rfl
    cases found.symm.trans found'
    rw [last] at written
    simp only [Bool.false_eq_true, if_false, List.append_nil] at written
    have := sound.room position
    rw [written] at this
    omega
  | @echoed position echoing =>
    rw [echoing, Main.upTo_echoing] at upTo
    exact Main.upTo_building.mpr (upTo.resolve_right fun done => done.2 rfl)
  | waits waiting | returns waiting => exact absurd (waiting ▸ upTo) Main.not_upTo_waiting

include found notLast reached long in
theorem upTo_of_reached (ran : Relation.ReflTransGen (Moves stages capacity) {} state) : state.main.UpTo stage := by
  induction ran with
  | refl => exact .inl ⟨0, rfl, Nat.zero_le _⟩
  | tail before moves ih =>
    rcases moves_cases moves with main | ⟨_, _, _, stageMoves⟩
    · exact upTo_step found notLast reached long (sound_of_reached (before.tail moves)) ih main
    · rwa [stageMoves.beside.main]

end Stuck

/-! ## The theorem -/

/-- A pipeline of builtins and of commands that read their input to the end returns under every scheduling if and only
if the text of every `echo` before the last stage fits the pipe. -/
theorem terminates_iff (stages : List StageSpec) (capacity : Nat) (positive : 0 < capacity) :
    Terminates (Moves stages capacity) Returned {} ↔ EchoesFit stages capacity := by
  constructor
  · intro terminates stage text found notLast reached
    by_contra long
    obtain ⟨state, ran, stuck⟩ := exists_stuck (moves_wellFounded stages capacity) {}
    have returned : state.main = .returned := terminates.2 state ran stuck
    exact Main.not_upTo_returned (returned ▸ upTo_of_reached found notLast reached (Nat.lt_of_not_le long) ran)
  · intro fit
    exact terminates_of_wellFounded (moves_wellFounded stages capacity) fun state ran unreturned =>
      moves_of_unreturned positive fit (sound_of_reached ran) unreturned

/-- A command that copies its input. -/
def cat : Program where
  writes history := (history.getLast?.getD []).map fun byte => (.out, byte)

/-- `echo hi | cat`, with a pipe that takes the text. -/
theorem echo_cat_terminates : 0 < 3 ∧ Terminates (Moves [.echo [104, 105, 10], .external { program := cat }] 3) Returned {} := by
  refine ⟨by decide, (terminates_iff _ 3 (by decide)).mpr fun stage text found notLast _ => ?_⟩
  obtain rfl : stage = 0 := by
    simp only [List.length_cons, List.length_nil] at notLast
    omega
  cases found
  decide

/-- `echo hi | cat`, with a pipe that takes two bytes: the newline is never written. -/
theorem echo_cat_blocks : 0 < 2 ∧ ¬ Terminates (Moves [.echo [104, 105, 10], .external { program := cat }] 2) Returned {} := by
  refine ⟨by decide, fun terminates => ?_⟩
  obtain ⟨state, ran, stuck⟩ := exists_stuck (moves_wellFounded [.echo [104, 105, 10], .external { program := cat }] 2) {}
  have returned : state.main = .returned := terminates.2 state ran stuck
  have upTo := @upTo_of_reached [.echo [104, 105, 10], .external { program := cat }] 2 state 0 [104, 105, 10] rfl (by decide)
    (by simp) (by decide) ran
  exact Main.not_upTo_returned (returned ▸ upTo)

end Index.Plumb
