import Index.Audio.RangeSoundness

/-! # What earlier calls leave behind

A renderer keeps the instrument that plays.  Over one score there are two states it can be in once it has read the
score: the instrument waits for its frame, or it plays.  It begins to play when a call reaches the frame, and then
plays at every frame, also at those before. -/

namespace Index.Audio

open Index.Lib

variable {Memory : Type}

/-- What a module renders does not depend on what its memory holds. -/
def Instrument.Pure (instrument : Instrument Memory) : Prop :=
  ∀ memory memory' controls start frames sampleRate,
    ({ instrument with memory } : Instrument Memory).played controls start frames sampleRate =
      ({ instrument with memory := memory' } : Instrument Memory).played controls start frames sampleRate

section Memory

variable (instrument : Instrument Memory) (start frames sampleRate : Nat) (controls : Controls) (outLen : Nat)

/-- Rendering changes the memory only. -/
theorem Instrument.exists_render :
    ∃ memory, (instrument.render start frames sampleRate controls outLen).1 = { instrument with memory } := by
  unfold Instrument.render
  repeat' split
  all_goals exact ⟨_, rfl⟩

theorem Instrument.exists_renderBlock :
    ∃ memory, (instrument.renderBlock start frames sampleRate controls outLen).1 = { instrument with memory } := by
  unfold Instrument.renderBlock
  dsimp only
  split <;> exact instrument.exists_render start frames sampleRate controls _

variable {instrument}

theorem Instrument.Pure.render (isPure : instrument.Pure) (memory memory' : Memory) :
    (({ instrument with memory } : Instrument Memory).render start frames sampleRate controls outLen).2 =
      (({ instrument with memory := memory' } : Instrument Memory).render start frames sampleRate controls outLen).2 := by
  unfold Instrument.render
  rw [isPure memory memory']
  repeat' split
  all_goals rfl

theorem Instrument.Pure.renderBlock (isPure : instrument.Pure) (memory memory' : Memory) :
    (({ instrument with memory } : Instrument Memory).renderBlock start frames sampleRate controls outLen).2 =
      (({ instrument with memory := memory' } : Instrument Memory).renderBlock start frames sampleRate controls outLen).2 := by
  unfold Instrument.renderBlock
  dsimp only
  split
  · exact isPure.render start frames sampleRate controls _ memory memory'
  · exact congrArg (Except.map _) (isPure.render start frames sampleRate controls _ memory memory')

end Memory

/-- The arguments of a call of `render_range`. -/
structure Call where
  start : Nat
  frames : Nat
  sampleRate : Nat
  outLen : Nat
deriving DecidableEq

/-- A call of a renderer whose instrument waits for a frame comes to that frame: it starts there or later, or it is a
mono range, which is the only one it takes, that goes on beyond. -/
def Call.Reaches (atFrame : Nat) (call : Call) : Prop :=
  atFrame ≤ call.start ∨
    call.outLen = call.frames ∧ call.start + call.frames < 2 ^ 64 ∧ atFrame < call.start + call.frames

instance (atFrame : Nat) (call : Call) : Decidable (call.Reaches atFrame) := inferInstanceAs (Decidable (_ ∨ _))

namespace Renderer

/-- One call. -/
def renderCall (narrow : F64 → F32) (host : Host Memory) (score : Score) (renderer : Renderer Memory) (call : Call) :
    Renderer Memory × Except (Fault RenderError) (List F32) :=
  renderer.renderRange narrow host score call.start call.frames call.sampleRate call.outLen

/-- A new renderer after some calls, whether they succeed or not. -/
def after (narrow : F64 → F32) (host : Host Memory) (score : Score) (calls : List Call) : Renderer Memory :=
  calls.foldl (fun renderer call => (renderer.renderCall narrow host score call).1) new

/-- The instrument waits. -/
def waiting (wanted : InstrumentRef) (instrument : Instrument Memory) : Renderer Memory :=
  ⟨none, some ⟨wanted.hash, instrument, wanted.atFrame⟩⟩

/-- The instrument plays, with some memory. -/
def playing (wanted : InstrumentRef) (instrument : Instrument Memory) (memory : Memory) : Renderer Memory :=
  ⟨some (wanted.hash, { instrument with memory }), none⟩

/-- The instrument plays if its frame was reached, and waits otherwise. -/
inductive Stage (wanted : InstrumentRef) (instrument : Instrument Memory) (reached : Prop) : Renderer Memory → Prop
  | plays (isReached : reached) (memory : Memory) : Stage wanted instrument reached (playing wanted instrument memory)
  | waits (unreached : ¬ reached) : Stage wanted instrument reached (waiting wanted instrument)

section States

variable {narrow : F64 → F32} {host : Host Memory} {score : Score} {wanted : InstrumentRef} {instrument : Instrument Memory}
  {sampleRate channels endFrame : Nat} {frame : Nat}

theorem promoteDue_waiting_of_le (due : wanted.atFrame ≤ frame) :
    (waiting wanted instrument).promoteDue frame = playing wanted instrument instrument.memory := if_pos due

theorem promoteDue_waiting_of_lt (early : frame < wanted.atFrame) :
    (waiting wanted instrument).promoteDue frame = waiting wanted instrument := if_neg (Nat.not_le.mpr early)

theorem promoteDue_playing (memory : Memory) (frame : Nat) :
    (playing wanted instrument memory).promoteDue frame = playing wanted instrument memory := rfl

/-- A block of a pure instrument that plays. -/
theorem renderNext_playing (isPure : instrument.Pure) (memory : Memory) (frame blockFrames : Nat) (state : Controls) :
    ∃ memory', (playing wanted instrument memory).renderNext frame blockFrames sampleRate state channels =
      (playing wanted instrument memory', (instrument.renderBlock frame blockFrames sampleRate state channels).2) := by
  obtain ⟨memory', rendered⟩ := ({ instrument with memory } : Instrument Memory).exists_renderBlock frame blockFrames
    sampleRate state channels
  refine ⟨memory', ?_⟩
  rw [playing, renderNext]
  dsimp only
  rw [rendered, isPure.renderBlock frame _ sampleRate state channels memory instrument.memory]
  rfl

/-- A pure instrument that plays goes on playing, and what it puts out does not depend on its memory. -/
theorem renderLoop_playing (isPure : instrument.Pure) (sampleRate channels endFrame fuel : Nat) (state : Controls)
    (pending : List Event) (frame : Nat) (out : List F32) (memory other : Memory) :
    ∃ memory', (playing wanted instrument memory).renderLoop sampleRate channels endFrame fuel state pending frame out =
      (playing wanted instrument memory',
        ((playing wanted instrument other).renderLoop sampleRate channels endFrame fuel state pending frame out).2) := by
  induction fuel generalizing state pending frame out memory other with
  | zero => exact ⟨memory, rfl⟩
  | succ fuel ih =>
    rw [renderLoop, renderLoop, promoteDue_playing, promoteDue_playing]
    by_cases inside : frame < endFrame
    case neg => exact ⟨memory, by rw [if_neg inside, if_neg inside]⟩
    by_cases overflows : 2 ^ 64 ≤ frame + maxBlockFrames
    case pos => exact ⟨memory, by simp only [if_pos inside, if_pos overflows]⟩
    -- nobody waits, so the block ends where it does for every memory
    have same : (playing wanted instrument other).blockEnd pending frame endFrame =
      (playing wanted instrument memory).blockEnd pending frame endFrame := rfl
    simp only [if_pos inside, if_neg overflows, same]
    generalize (playing wanted instrument memory).blockEnd pending frame endFrame = blockEnd
    obtain ⟨memory', block⟩ := @renderNext_playing _ wanted _ sampleRate channels isPure memory frame (blockEnd - frame) state
    obtain ⟨other', block'⟩ := @renderNext_playing _ wanted _ sampleRate channels isPure other frame (blockEnd - frame) state
    rw [block, block']
    cases (instrument.renderBlock frame (blockEnd - frame) sampleRate state channels).2 with
    | error error => exact ⟨memory', rfl⟩
    | ok samples => exact ih ..

/-- A walk of a renderer whose instrument waits comes to its frame if the range goes on beyond. -/
theorem renderLoop_waiting (sampleRate channels : Nat) (isPure : instrument.Pure) (small : wanted.atFrame < 2 ^ 63) {fuel : Nat}
    (early : frame ≤ wanted.atFrame) (enough : endFrame - frame ≤ fuel) (state : Controls) (pending : List Event)
    (out : List F32) : Stage wanted instrument (wanted.atFrame < endFrame)
      ((waiting wanted instrument).renderLoop sampleRate channels endFrame fuel state pending frame out).1 := by
  induction fuel generalizing state pending frame out with
  | zero => exact .waits (by omega)
  | succ fuel ih =>
    by_cases inside : frame < endFrame
    case neg =>
      rw [renderLoop, if_neg inside]
      exact .waits (by omega)
    by_cases due : wanted.atFrame ≤ frame
    · -- the switch is at this very frame
      have begins : (waiting wanted instrument).renderLoop sampleRate channels endFrame (fuel + 1) state pending frame out =
          (playing wanted instrument instrument.memory).renderLoop sampleRate channels endFrame (fuel + 1) state pending
            frame out := by
        rw [renderLoop, renderLoop, if_pos inside, if_pos inside, promoteDue_waiting_of_le due]
        rfl
      obtain ⟨memory, looped⟩ := renderLoop_playing isPure sampleRate channels endFrame (fuel + 1) state pending frame out
        instrument.memory instrument.memory
      rw [begins, looped]
      exact .plays (by omega) memory
    · have before : frame < wanted.atFrame := Nat.not_le.mp due
      have still := @promoteDue_waiting_of_lt _ wanted instrument _ before
      have silent (frames : Nat) : ((waiting wanted instrument).promoteDue frame).renderNext frame frames sampleRate state
          channels = (waiting wanted instrument, .ok (List.replicate (frames * channels) 0)) := by
        rw [still]
        rfl
      have fits : frame + maxBlockFrames < 2 ^ 64 := by
        rw [maxBlockFrames]
        omega
      rw [renderLoop_block inside fits rfl (silent _), still]
      have after := lt_blockEnd (waiting wanted instrument) pending frame endFrame
      have waits : ⟨wanted.hash, instrument, wanted.atFrame⟩ ∈ (waiting wanted instrument).staged := rfl
      have until_switch := blockEnd_le_switch pending endFrame waits before
      exact ih until_switch (by omega) _ _ _

variable {ready : Bool} {call : Call}

/-- After the score is read, a call goes by who plays at its start. -/
theorem renderCall_congr {host' : Host Memory} {renderer renderer' refreshed refreshed' : Renderer Memory} {ready' : Bool}
    (refresh : renderer.refresh host score = (refreshed, .ok ready))
    (refresh' : renderer'.refresh host' score = (refreshed', .ok ready'))
    (same : refreshed.promoteDue call.start = refreshed'.promoteDue call.start) :
    renderer.renderCall narrow host score call = renderer'.renderCall narrow host' score call := by
  rw [renderCall, renderCall, renderRange, renderRange, refresh, refresh']
  dsimp only
  rw [same]

/-- A call does as one of the renderer that has read the score. -/
theorem renderCall_refreshed {renderer refreshed : Renderer Memory} {ready' : Bool}
    (refresh : renderer.refresh host score = (refreshed, .ok ready))
    (settled : refreshed.refresh host score = (refreshed, .ok ready')) (call : Call) :
    renderer.renderCall narrow host score call = refreshed.renderCall narrow host score call :=
  renderCall_congr refresh settled rfl

/-- A call once somebody plays or waits. -/
theorem renderCall_eq (narrow : F64 → F32) {renderer refreshed promoted : Renderer Memory}
    (refresh : renderer.refresh host score = (refreshed, .ok ready)) (promote : refreshed.promoteDue call.start = promoted)
    (somebody : ¬ (promoted.loaded.isNone ∧ promoted.staged.isNone)) : renderer.renderCall narrow host score call =
      if call.outLen ≠ call.frames * promoted.channels then
        (promoted, .error (.raised (.outMissized call.outLen (call.frames * promoted.channels))))
      else if 2 ^ 64 ≤ call.start + call.frames then (promoted, .error .panicked)
      else
        promoted.renderLoop call.sampleRate promoted.channels (call.start + call.frames) call.frames
          (applyDue call.start (baseControls (score.controls narrow)) (score.events narrow)).1
          (applyDue call.start (baseControls (score.controls narrow)) (score.events narrow)).2 call.start [] := by
  rw [renderCall, renderRange, refresh]
  dsimp only
  rw [promote, if_neg somebody]

section Named

variable (isPure : instrument.Pure) (named : score.instrument = .ok (some wanted))
include named

theorem refresh_waiting : (waiting wanted instrument).refresh host score = (waiting wanted instrument, .ok true) := by
  have other : (waiting wanted instrument).loaded.map Prod.fst ≠ some wanted.hash := by simp [waiting]
  have waits : (waiting wanted instrument).staged = some ⟨wanted.hash, instrument, wanted.atFrame⟩ := rfl
  rw [refresh_of_waiting named other waits rfl]
  rfl

theorem refresh_playing (memory : Memory) :
    (playing wanted instrument memory).refresh host score = (playing wanted instrument memory, .ok true) :=
  refresh_of_playing named rfl

theorem Stage.refresh {reached : Prop} {renderer : Renderer Memory} (stage : Stage wanted instrument reached renderer) :
    renderer.refresh host score = (renderer, .ok true) := by
  cases stage with
  | plays _ memory => exact refresh_playing named memory
  | waits => exact refresh_waiting named

/-- A call that starts at the switch or later is one of an instrument that plays. -/
theorem renderCall_waiting_of_le (due : wanted.atFrame ≤ call.start) :
    (waiting wanted instrument).renderCall narrow host score call =
      (playing wanted instrument instrument.memory).renderCall narrow host score call :=
  renderCall_congr (refresh_waiting named) (refresh_playing named instrument.memory) (promoteDue_waiting_of_le due)

include isPure

theorem renderCall_playing (narrow : F64 → F32) (host host' : Host Memory) (call : Call) (memory other : Memory) :
    ∃ memory', (playing wanted instrument memory).renderCall narrow host score call = (playing wanted instrument memory',
      ((playing wanted instrument other).renderCall narrow host' score call).2) := by
  have eq : ∀ memory (host : Host Memory), (playing wanted instrument memory).renderCall narrow host score call = _ :=
    fun memory host => renderCall_eq narrow (refresh_playing named memory) (promoteDue_playing memory call.start)
      (by simp [playing])
  rw [eq memory host, eq other host']
  have same : (playing wanted instrument other).channels = (playing wanted instrument memory).channels := rfl
  rw [same]
  split
  · exact ⟨memory, rfl⟩
  split
  · exact ⟨memory, rfl⟩
  exact renderLoop_playing isPure ..

theorem renderCall_waiting (narrow : F64 → F32) (host : Host Memory) (call : Call) :
    Stage wanted instrument (call.Reaches wanted.atFrame) ((waiting wanted instrument).renderCall narrow host score call).1 := by
  by_cases due : wanted.atFrame ≤ call.start
  · obtain ⟨memory, played⟩ := renderCall_playing isPure named narrow host host call instrument.memory instrument.memory
    rw [renderCall_waiting_of_le named due, played]
    exact .plays (.inl due) memory
  · have early : (waiting wanted instrument).promoteDue call.start = _ := promoteDue_waiting_of_lt (Nat.not_le.mp due)
    have refresh : (waiting wanted instrument).refresh host score = _ := refresh_waiting named
    have eq := renderCall_eq narrow refresh early (by simp [waiting])
    have mono : (waiting wanted instrument).channels = 1 := rfl
    rw [mono, Nat.mul_one] at eq
    rw [eq]
    unfold Call.Reaches
    split
    · exact .waits (by omega)
    split
    · exact .waits (by omega)
    next fits =>
      have beyond : (wanted.atFrame ≤ call.start ∨ call.outLen = call.frames ∧ call.start + call.frames < 2 ^ 64 ∧
          wanted.atFrame < call.start + call.frames) = (wanted.atFrame < call.start + call.frames) := by
        apply propext
        omega
      rw [beyond]
      exact renderLoop_waiting call.sampleRate 1 isPure (Score.atFrame_lt_of_instrument named) (Nat.le_of_not_le due)
        (Nat.le_of_eq (Nat.add_sub_cancel_left call.start call.frames)) ..

theorem renderCall_playing_eq (call : Call) (memory memory' : Memory) (host' : Host Memory) :
    ((playing wanted instrument memory).renderCall narrow host score call).2 =
      ((playing wanted instrument memory').renderCall narrow host' score call).2 := by
  obtain ⟨_, played⟩ := renderCall_playing isPure named narrow host host' call memory memory'
  rw [played]

/-- It does not show whether the instrument waits or plays when the call starts at the switch or later, or is empty. -/
theorem renderCall_waiting_eq (late : wanted.atFrame ≤ call.start ∨ call.frames = 0) (memory : Memory) (host' : Host Memory) :
    ((waiting wanted instrument).renderCall narrow host score call).2 =
      ((playing wanted instrument memory).renderCall narrow host' score call).2 := by
  by_cases due : wanted.atFrame ≤ call.start
  · rw [renderCall_waiting_of_le named due]
    exact renderCall_playing_eq isPure named call instrument.memory memory host'
  · have empty : call.frames = 0 := late.resolve_left due
    have refresh : (waiting wanted instrument).refresh host score = _ := refresh_waiting named
    have refresh' : (playing wanted instrument memory).refresh host' score = _ := refresh_playing named memory
    have early : (waiting wanted instrument).promoteDue call.start = _ := promoteDue_waiting_of_lt (Nat.not_le.mp due)
    rw [renderCall_eq narrow refresh early (by simp [waiting]),
      renderCall_eq narrow refresh' (promoteDue_playing memory call.start) (by simp [playing]), empty]
    simp only [Nat.zero_mul]
    split
    · rfl
    · split <;> rfl

/-- What the calls so far have made of a new renderer, as the next call finds it when it has read the score. -/
theorem refresh_after (narrow : F64 → F32) {bytes : Bytes} (held : host.get wanted.hash = .ok (some bytes)) (loads : host.load bytes = .ok instrument) (calls : List Call) :
    ∃ refreshed, (after narrow host score calls).refresh host score = (refreshed, .ok true) ∧
      Stage wanted instrument (∃ call ∈ calls, call.Reaches wanted.atFrame) refreshed := by
  -- the induction is on the calls from the last one back
  induction calls using List.reverseRecOn with
  | nil => exact ⟨_, refresh_of_loading named (by simp [after, new]) (by simp [after, new]) held loads, .waits (by simp)⟩
  | append_singleton calls call ih =>
    obtain ⟨refreshed, refresh, stage⟩ := ih
    have last : after narrow host score (calls ++ [call]) = (refreshed.renderCall narrow host score call).1 := by
      rw [← renderCall_refreshed refresh (stage.refresh named), after, List.foldl_concat]
      rfl
    suffices next : Stage wanted instrument (∃ call' ∈ calls ++ [call], call'.Reaches wanted.atFrame)
        (refreshed.renderCall narrow host score call).1 from ⟨_, by rw [last, next.refresh named], next⟩
    cases stage with
    | plays reached memory =>
      obtain ⟨memory', played⟩ := renderCall_playing isPure named narrow host host call memory memory
      obtain ⟨earlier, mem, reaches⟩ := reached
      rw [played]
      exact .plays ⟨earlier, List.mem_append_left _ mem, reaches⟩ memory'
    | waits unreached =>
      simp only [List.mem_append, List.mem_singleton, or_and_right, exists_or, unreached, false_or, exists_eq_left]
      exact renderCall_waiting isPure named narrow host call

end Named

/-- A renderer that finds nothing to load stays new. -/
theorem after_eq_new {result : Except RenderError Bool} (refresh : (new : Renderer Memory).refresh host score = (new, result))
    (calls : List Call) : after narrow host score calls = new := by
  have stays : ∀ call, (new.renderCall narrow host score call).1 = new := by
    intro call
    rw [renderCall, renderRange, refresh]
    cases result <;> rfl
  induction calls using List.reverseRecOn with
  | nil => rfl
  | append_singleton calls call ih => rw [after, List.foldl_concat, ← after, ih, stays call]

end States

/-- Two stores hold the bytes of the instrument the score names, and they are those of a pure one if they load. -/
def BothHold (one other : Host Memory) (score : Score) : Prop :=
  ∀ wanted, score.instrument = .ok (some wanted) → ∃ bytes, one.get wanted.hash = .ok (some bytes) ∧
    other.get wanted.hash = .ok (some bytes) ∧ other.load bytes = one.load bytes ∧
    ∀ instrument, one.load bytes = .ok instrument → instrument.Pure

/-- Calls reach the frame of the instrument the score names. -/
def Activated (score : Score) (calls : List Call) : Prop :=
  ∃ wanted, score.instrument = .ok (some wanted) ∧ ∃ call ∈ calls, call.Reaches wanted.atFrame

/-- A call starts before the frame of the instrument the score names. -/
def Early (score : Score) (call : Call) : Prop :=
  ∃ wanted, score.instrument = .ok (some wanted) ∧ call.start < wanted.atFrame

variable {score : Score} {wanted : InstrumentRef}

theorem activated_iff (named : score.instrument = .ok (some wanted)) {calls : List Call} :
    Activated score calls ↔ ∃ call ∈ calls, call.Reaches wanted.atFrame := by
  simp [Activated, named]

theorem early_iff (named : score.instrument = .ok (some wanted)) {call : Call} :
    Early score call ↔ call.start < wanted.atFrame := by
  simp [Early, named]

/-- A new renderer that finds nothing to load puts out the same after any calls. -/
theorem renderCall_of_stuck {narrow : F64 → F32} {one other : Host Memory} {result : Except RenderError Bool}
    (refresh : (new : Renderer Memory).refresh one score = (new, result))
    (refresh' : (new : Renderer Memory).refresh other score = (new, result)) (calls calls' : List Call) (call : Call) :
    ((after narrow one score calls).renderCall narrow one score call).2 =
      ((after narrow other score calls').renderCall narrow other score call).2 := by
  rw [after_eq_new refresh, after_eq_new refresh', renderCall, renderCall, renderRange, renderRange, refresh, refresh']

theorem refresh_of_unloadable {host : Host Memory} {bytes : Bytes} {error : RenderError}
    (named : score.instrument = .ok (some wanted)) (held : host.get wanted.hash = .ok (some bytes))
    (fails : host.load bytes = .error error) : (new : Renderer Memory).refresh host score = (new, .error error) := by
  simp [refresh, named, new, held, fails]

theorem tone_held : BothHold toneHost toneHost toneScore := by
  intro wanted _
  refine ⟨[], rfl, rfl, rfl, ?_⟩
  intro instrument loads memory memory' controls start frames sampleRate
  obtain rfl := Except.ok.inj loads
  exact (tone_played memory controls start frames sampleRate).trans (tone_played memory' controls start frames sampleRate).symm

/-- Two renderers over a score put out the same for a call after any calls if both were brought to the frame of the
instrument or neither was, or the call starts there or later, or it is empty. -/
theorem renderCall_after_eq (narrow : F64 → F32) (one other : Host Memory) (score : Score) (held : BothHold one other score)
    (calls calls' : List Call) (call : Call)
    (alike : (Activated score calls ↔ Activated score calls') ∨ ¬ Early score call ∨ call.frames = 0) :
    ((after narrow one score calls).renderCall narrow one score call).2 =
      ((after narrow other score calls').renderCall narrow other score call).2 := by
  cases instrument_eq : score.instrument with
  | error error =>
    have refresh : ∀ host : Host Memory, new.refresh host score = (new, .error (.score error)) := by
      intro host
      rw [refresh, instrument_eq]
    exact renderCall_of_stuck (refresh one) (refresh other) calls calls' call
  | ok named =>
    cases named with
    | none => exact renderCall_of_stuck (refresh_of_unnamed instrument_eq) (refresh_of_unnamed instrument_eq) calls calls' call
    | some wanted =>
      obtain ⟨bytes, held, held', same_load, isPure⟩ := held wanted instrument_eq
      cases loads : one.load bytes with
      | error error =>
        exact renderCall_of_stuck (refresh_of_unloadable instrument_eq held loads)
          (refresh_of_unloadable instrument_eq held' (same_load.trans loads)) calls calls' call
      | ok instrument =>
        have isPure := isPure instrument loads
        obtain ⟨refreshed, refresh, stage⟩ := refresh_after isPure instrument_eq narrow held loads calls
        obtain ⟨refreshed', refresh', stage'⟩ := refresh_after isPure instrument_eq narrow held' (same_load.trans loads) calls'
        rw [activated_iff instrument_eq, activated_iff instrument_eq, early_iff instrument_eq, Nat.not_lt] at alike
        rw [renderCall_refreshed refresh (stage.refresh instrument_eq), renderCall_refreshed refresh' (stage'.refresh instrument_eq)]
        cases stage with
        | plays reached memory =>
          cases stage' with
          | plays _ memory' => exact renderCall_playing_eq isPure instrument_eq call memory memory' other
          | waits unreached =>
            have late := alike.resolve_left fun same => unreached (same.mp reached)
            exact (renderCall_waiting_eq isPure instrument_eq late memory one).symm
        | waits unreached =>
          cases stage' with
          | plays reached memory' =>
            have late := alike.resolve_left fun same => unreached (same.mpr reached)
            exact renderCall_waiting_eq isPure instrument_eq late memory' other
          | waits => rw [renderCall_congr (refresh_waiting instrument_eq) (refresh_waiting instrument_eq) rfl]

/-- The tone is silent at its first frames until a renderer was brought to frame 100, and sounds there afterwards. -/
theorem early_frame_sounds_after_activation :
    BothHold toneHost toneHost toneScore ∧
      ((after UInt64.toUInt32 toneHost toneScore []).renderCall UInt64.toUInt32 toneHost toneScore ⟨0, 1, 48000, 1⟩).2 =
        .ok [0] ∧
      ((after UInt64.toUInt32 toneHost toneScore [⟨100, 1, 48000, 1⟩]).renderCall UInt64.toUInt32 toneHost toneScore
        ⟨0, 1, 48000, 1⟩).2 = .ok [5] :=
  ⟨tone_held, by decide +kernel, by decide +kernel⟩

theorem activated_tones_alike :
    BothHold toneHost toneHost toneScore ∧
      ((after UInt64.toUInt32 toneHost toneScore [⟨99, 2, 48000, 2⟩]).renderCall UInt64.toUInt32 toneHost toneScore
          ⟨0, 1, 48000, 1⟩).2 =
        ((after UInt64.toUInt32 toneHost toneScore [⟨0, 3, 48000, 3⟩, ⟨100, 1, 48000, 1⟩]).renderCall UInt64.toUInt32 toneHost
          toneScore ⟨0, 1, 48000, 1⟩).2 := by
  have named : toneScore.instrument = .ok (some ⟨zeroHash, 100⟩) := by decide +kernel
  refine ⟨tone_held, renderCall_after_eq UInt64.toUInt32 toneHost toneHost toneScore tone_held _ _ _ (Or.inl ?_)⟩
  rw [activated_iff named, activated_iff named]
  decide

end Renderer

end Index.Audio
