import Index.Audio.Renderer

/-! # What a range sounds like

Frame by frame: the instrument that is active plays its sample for the frame, the rate and the values the controls
have there.  Where a range is cut into blocks, and into how many calls, does not show in the samples. -/

namespace Index.Audio

open Index.Lib

variable {Memory : Type}

/-- The sample of an instrument at a frame, for a rate, the controls and a channel. -/
abbrev Sample := (frame sampleRate : Nat) → Controls → (channel : Nat) → F32

/-- Who plays, and who takes over at which frame. -/
structure Lineup where
  current : Option Sample
  next : Option (Nat × Sample)

namespace Lineup

def playsAt (lineup : Lineup) (frame : Nat) : Option Sample :=
  match lineup.next with
  | some (atFrame, sample) => if atFrame ≤ frame then some sample else lineup.current
  | none => lineup.current

def promote (lineup : Lineup) (frame : Nat) : Lineup :=
  match lineup.next with
  | some (atFrame, sample) => if atFrame ≤ frame then ⟨some sample, none⟩ else lineup
  | none => lineup

variable {frame : Nat}

/-- A successor that has taken over goes on. -/
theorem playsAt_promote (lineup : Lineup) {later : Nat} (le : frame ≤ later) :
    (lineup.promote frame).playsAt later = lineup.playsAt later := by
  obtain ⟨current, _ | ⟨atFrame, sample⟩⟩ := lineup
  · rfl
  · by_cases due : atFrame ≤ frame
    · simp [promote, playsAt, due, due.trans le]
    · simp [promote, due]

variable {lineup : Lineup}

/-- Until the successor's frame the current one plays. -/
theorem playsAt_of_lt (waits : ∀ next ∈ lineup.next, frame < next.1) : lineup.playsAt frame = lineup.current := by
  obtain ⟨current, _ | next⟩ := lineup
  · rfl
  · exact if_neg (Nat.not_le.mpr (waits next rfl))

theorem lt_of_promote : ∀ next ∈ (lineup.promote frame).next, frame < next.1 := by
  intro next mem
  obtain ⟨current, _ | ⟨atFrame, sample⟩⟩ := lineup
  · cases mem
  · by_cases due : atFrame ≤ frame
    · simp [promote, due] at mem
    · simp only [promote, due, if_false, Option.mem_def, Option.some.injEq] at mem
      rw [← mem]
      exact Nat.not_le.mp due

end Lineup

section Specification

variable (narrow : F64 → F32) (score : Score)

/-- The controls at a frame: those of the score, and the events up to the frame in their order. -/
def controlsAt (frame : Nat) : Controls :=
  ((score.events narrow).filter fun event => event.atFrame ≤ frame ∧ event.control < controlCount).foldl
    (fun state event => state.setControl event.control event.value) (baseControls (score.controls narrow))

/-- The samples of a frame, one for each channel. -/
def frameSamples (lineup : Lineup) (channels sampleRate frame : Nat) : List F32 :=
  match lineup.playsAt frame with
  | some sample => (List.range channels).map (sample frame sampleRate (controlsAt narrow score frame))
  | none => List.replicate channels 0

def rangeSamples (lineup : Lineup) (channels sampleRate start frames : Nat) : List F32 :=
  (List.range' start frames).flatMap (frameSamples narrow score lineup channels sampleRate)

variable {narrow score}

theorem rangeSamples_congr {one other : Lineup} {channels sampleRate start frames : Nat}
    (agree : ∀ frame, start ≤ frame → one.playsAt frame = other.playsAt frame) :
    rangeSamples narrow score one channels sampleRate start frames =
      rangeSamples narrow score other channels sampleRate start frames := by
  apply List.flatMap_congr
  intro frame mem
  rw [frameSamples, frameSamples, agree frame (List.mem_range'_1.mp mem).1]

theorem rangeSamples_append (lineup : Lineup) (channels sampleRate start frames more : Nat) :
    rangeSamples narrow score lineup channels sampleRate start (frames + more) =
      rangeSamples narrow score lineup channels sampleRate start frames ++
        rangeSamples narrow score lineup channels sampleRate (start + frames) more := by
  rw [rangeSamples, rangeSamples, rangeSamples, ← List.flatMap_append, List.range'_append_1]

end Specification

section ApplyDue

variable {frame : Nat} {state : Controls} {events : List Event}

theorem applyDue_cons_of_le {event : Event} (due : event.atFrame ≤ frame) :
    applyDue frame state (event :: events) = applyDue frame (state.setControl event.control event.value) events :=
  if_pos due

theorem applyDue_of_head (later : ∀ event ∈ events.head?, frame < event.atFrame) :
    applyDue frame state events = (state, events) := by
  cases events with
  | nil => rfl
  | cons event events => exact if_neg (Nat.not_le.mpr (later event rfl))

/-- Applying what is due twice is applying it once, at the later frame. -/
theorem applyDue_applyDue {later : Nat} (le : frame ≤ later) (state : Controls) (events : List Event) :
    applyDue later (applyDue frame state events).1 (applyDue frame state events).2 = applyDue later state events := by
  induction events generalizing state with
  | nil => rfl
  | cons event events ih =>
    by_cases due : event.atFrame ≤ frame
    · rw [applyDue_cons_of_le due, applyDue_cons_of_le (due.trans le), ih]
    · rw [applyDue, if_neg due]

/-- What waits is not due. -/
theorem lt_of_applyDue_head (frame : Nat) (state : Controls) (events : List Event) :
    ∀ event ∈ (applyDue frame state events).2.head?, frame < event.atFrame := by
  induction events generalizing state with
  | nil => nofun
  | cons event events ih =>
    by_cases due : event.atFrame ≤ frame
    · rw [applyDue_cons_of_le due]
      exact ih _
    · rw [applyDue, if_neg due]
      intro head mem
      obtain rfl := Option.some.inj mem
      exact Nat.not_le.mp due

theorem setControl_of_le {control : Nat} (outside : controlCount ≤ control) (value : F32) :
    state.setControl control value = state := Vector.setIfInBounds_eq_of_size_le outside

/-- Events are sorted by their frames, so those that are due are a front of the list. -/
theorem applyDue_eq_foldl (sorted : events.Pairwise (· ≤ ·)) (state : Controls) : (applyDue frame state events).1 =
      (events.filter fun event => event.atFrame ≤ frame ∧ event.control < controlCount).foldl
        (fun state event => state.setControl event.control event.value) state := by
  induction events generalizing state with
  | nil => rfl
  | cons event events ih =>
    obtain ⟨first, sorted⟩ := List.pairwise_cons.mp sorted
    by_cases due : event.atFrame ≤ frame
    · rw [applyDue_cons_of_le due, ih sorted]
      by_cases inside : event.control < controlCount
      · simp [due, inside]
      · simp [inside, setControl_of_le (Nat.le_of_not_lt inside)]
    · have none_due : (event :: events).filter (fun event => event.atFrame ≤ frame ∧ event.control < controlCount) = [] := by
        apply List.filter_eq_nil_iff.mpr
        intro later mem both
        have later_due := (of_decide_eq_true both).1
        obtain rfl | mem := List.mem_cons.mp mem
        · exact due later_due
        · exact due ((Event.atFrame_le_of_le (first later mem)).trans later_due)
      rw [applyDue, if_neg due, none_due]
      rfl

theorem controlsAt_eq_applyDue (narrow : F64 → F32) (score : Score) (frame : Nat) :
    controlsAt narrow score frame = (applyDue frame (baseControls (score.controls narrow)) (score.events narrow)).1 :=
  (applyDue_eq_foldl score.pairwise_events _).symm

end ApplyDue

/-- At a frame, an instrument plays a sample whatever its memory holds. -/
def Instrument.Plays (instrument : Instrument Memory) (sample : Sample) : Prop :=
  ∀ memory controls start frames sampleRate, frames ≤ maxBlockFrames → start + frames ≤ 2 ^ 63 → sampleRate < 2 ^ 31 →
    ({ instrument with memory } : Instrument Memory).played controls start frames sampleRate =
      some ((List.range' start frames).flatMap fun frame =>
        (List.range instrument.channels).map (sample frame sampleRate controls))

namespace Renderer

variable {renderer : Renderer Memory} {channels : Nat} {lineup : Lineup}

/-- The instruments of a renderer are those of a lineup, all with the channels of the range. -/
structure Performs (renderer : Renderer Memory) (channels : Nat) (lineup : Lineup) : Prop where
  loaded : Option.Rel (fun loaded sample => loaded.2.channels = channels ∧ loaded.2.Plays sample)
    renderer.loaded lineup.current
  staged : Option.Rel (fun staged next => staged.instrument.channels = channels ∧ staged.atFrame = next.1 ∧
    staged.instrument.Plays next.2) renderer.staged lineup.next
  silent : renderer.loaded = none → channels = 1

theorem Performs.channels_eq (performs : renderer.Performs channels lineup) : renderer.channels = channels := by
  obtain ⟨loaded, staged⟩ := renderer
  obtain ⟨current, next⟩ := lineup
  obtain ⟨loaded_rel, -, silent⟩ := performs
  cases loaded_rel with
  | none => exact (silent rfl).symm
  | some rel => exact rel.1

theorem Performs.promoteDue (performs : renderer.Performs channels lineup) (frame : Nat) :
    (renderer.promoteDue frame).Performs channels (lineup.promote frame) := by
  obtain ⟨loaded, staged⟩ := renderer
  obtain ⟨current, next⟩ := lineup
  obtain ⟨loaded_rel, staged_rel, silent⟩ := performs
  cases staged_rel with
  | none => exact ⟨loaded_rel, .none, silent⟩
  | @some staged next rel =>
    obtain ⟨same_channels, same_frame, plays⟩ := rel
    by_cases due : staged.atFrame ≤ frame
    · have due' : next.1 ≤ frame := same_frame ▸ due
      simp only [Renderer.promoteDue, Lineup.promote, if_pos due, if_pos due']
      exact ⟨.some ⟨same_channels, plays⟩, .none, nofun⟩
    · have due' : ¬ next.1 ≤ frame := same_frame ▸ due
      simp only [Renderer.promoteDue, Lineup.promote, if_neg due, if_neg due']
      exact ⟨loaded_rel, .some ⟨same_channels, same_frame, plays⟩, silent⟩

end Renderer

section Block

variable {renderer : Renderer Memory} {channels sampleRate : Nat} {lineup : Lineup}

/-- A block of an instrument that plays a sample. -/
theorem Instrument.Plays.renderBlock {instrument : Instrument Memory} {sample : Sample} (plays : instrument.Plays sample)
    (same : instrument.channels = channels) {frame blockFrames : Nat} (short : blockFrames ≤ maxBlockFrames) (in_time : frame + blockFrames ≤ 2 ^ 63)
    (some_frame : 0 < blockFrames) (rate_fits : sampleRate < 2 ^ 31) (state : Controls) :
    ∃ memory, instrument.renderBlock frame blockFrames sampleRate state channels =
      ({ instrument with memory }, .ok ((List.range' frame blockFrames).flatMap fun frame =>
        (List.range channels).map (sample frame sampleRate state))) := by
  subst same
  have played := plays instrument.memory state frame blockFrames sampleRate short in_time rate_fits
  refine ⟨(instrument.saRender instrument.memory state frame blockFrames sampleRate).1, ?_⟩
  rw [Instrument.renderBlock, if_pos rfl, Instrument.render, if_neg (Nat.not_lt.mpr short), if_neg (not_not.mpr rfl),
    if_neg (by omega), if_neg (Nat.not_le.mpr rate_fits)]
  rw [played]

theorem replicate_eq_flatMap_range' (start frames channels : Nat) :
    List.replicate (frames * channels) (0 : F32) = (List.range' start frames).flatMap fun _ => List.replicate channels 0 := by
  induction frames generalizing start with
  | zero => simp
  | succ frames ih => rw [List.range'_succ, List.flatMap_cons, ← ih, List.replicate_append_replicate, Nat.succ_mul, Nat.add_comm]

/-- A block in which nobody takes over. -/
theorem Renderer.Performs.renderNext (performs : renderer.Performs channels lineup) (frame blockFrames : Nat) (short : blockFrames ≤ maxBlockFrames)
    (in_time : frame + blockFrames ≤ 2 ^ 63) (some_frame : 0 < blockFrames) (rate_fits : sampleRate < 2 ^ 31) (state : Controls) :
    ∃ rendered, renderer.renderNext frame blockFrames sampleRate state channels =
        (rendered, .ok ((List.range' frame blockFrames).flatMap fun frame =>
          lineup.current.elim (List.replicate channels 0) fun sample =>
            (List.range channels).map (sample frame sampleRate state))) ∧
      rendered.Performs channels lineup ∧ rendered.loaded.map Prod.fst = renderer.loaded.map Prod.fst ∧
      rendered.staged = renderer.staged := by
  obtain ⟨loaded, staged⟩ := renderer
  obtain ⟨current, next⟩ := lineup
  obtain ⟨loaded_rel, staged_rel, silent⟩ := performs
  cases loaded_rel with
  | none =>
    refine ⟨⟨none, staged⟩, ?_, ⟨.none, staged_rel, silent⟩, rfl, rfl⟩
    rw [Renderer.renderNext, replicate_eq_flatMap_range' frame]
    rfl
  | @some loaded sample rel =>
    obtain ⟨hash, instrument⟩ := loaded
    obtain ⟨memory, rendered⟩ := rel.2.renderBlock rel.1 short in_time some_frame rate_fits state
    refine ⟨⟨some (hash, { instrument with memory }), staged⟩, ?_, ⟨.some ⟨rel.1, rel.2⟩, staged_rel, nofun⟩, rfl, rfl⟩
    rw [Renderer.renderNext]
    dsimp only
    rw [rendered]
    rfl

end Block

end Index.Audio
