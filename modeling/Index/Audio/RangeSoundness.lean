import Index.Audio.Rendering

/-! # A range is rendered frame by frame

The walk keeps that the controls are those of the frame it has come to and that the events behind are the ones to
come.  A block ends before the next event and before the next switch, so one state of the controls and one instrument
serve all of its frames. -/

namespace Index.Audio

open Index.Lib List Option

variable {Memory : Type} {renderer : Renderer Memory}

namespace Renderer

theorem Performs.exists_staged {channels : Nat} {lineup : Lineup} (performs : renderer.Performs channels lineup)
    {next : Nat × Sample} (mem : next ∈ lineup.next) : ∃ staged ∈ renderer.staged, staged.atFrame = next.1 := by
  obtain ⟨loaded, staged⟩ := renderer
  obtain ⟨current, _ | other⟩ := lineup
  · cases mem
  · obtain rfl := Option.some.inj mem
    obtain ⟨-, staged_rel, -⟩ := performs
    cases staged_rel with
    | some rel => exact ⟨_, rfl, rel.2.1⟩

section BlockEnd

variable {pending : List Event} {frame endFrame : Nat}

theorem lt_blockEnd (renderer : Renderer Memory) (pending : List Event) (frame endFrame : Nat) :
    frame < renderer.blockEnd pending frame endFrame := by
  simp only [blockEnd, maxBlockFrames]
  omega

theorem blockEnd_le_add (renderer : Renderer Memory) (pending : List Event) (frame endFrame : Nat) :
    renderer.blockEnd pending frame endFrame ≤ frame + maxBlockFrames := by
  simp only [blockEnd]
  omega

theorem blockEnd_le (renderer : Renderer Memory) (pending : List Event) (inside : frame < endFrame) :
    renderer.blockEnd pending frame endFrame ≤ endFrame := by
  have event : (pending.head?.elim endFrame fun event => min event.atFrame endFrame) ≤ endFrame := by
    cases pending.head? with
    | none => exact le_rfl
    | some event => exact min_le_right _ _
  simp only [blockEnd]
  omega

/-- A block ends before the next event. -/
theorem blockEnd_le_event (renderer : Renderer Memory) (endFrame : Nat) {event : Event} (head : event ∈ pending.head?)
    (later : frame < event.atFrame) : renderer.blockEnd pending frame endFrame ≤ event.atFrame := by
  rw [mem_def] at head
  simp only [blockEnd, head, elim_some]
  omega

/-- A block ends before the next switch. -/
theorem blockEnd_le_switch (pending : List Event) (endFrame : Nat) {staged : Staged Memory} (waits : staged ∈ renderer.staged)
    (later : frame < staged.atFrame) : renderer.blockEnd pending frame endFrame ≤ staged.atFrame := by
  rw [mem_def] at waits
  have switch : renderer.nextSwitchAfter frame = some staged.atFrame := by simp [nextSwitchAfter, waits, later]
  simp only [blockEnd, switch, elim_some]
  omega

end BlockEnd

section Fresh

variable {host : Host Memory} {score : Score}

/-- Refreshing changes nothing: the score names no instrument, or the one it names plays, or waits for the frame the
score names, or has not come. -/
inductive Fresh (host : Host Memory) (score : Score) (renderer : Renderer Memory) : Prop
  | unnamed (unnamed : score.instrument = .ok none)
  | playing {wanted : InstrumentRef} (named : score.instrument = .ok (some wanted))
      (playing : renderer.loaded.map Prod.fst = some wanted.hash) (alone : renderer.staged = none)
  | waiting {wanted : InstrumentRef} {staged : Staged Memory} (named : score.instrument = .ok (some wanted))
      (other : renderer.loaded.map Prod.fst ≠ some wanted.hash) (waits : renderer.staged = some staged)
      (same_hash : staged.hash = wanted.hash) (same_frame : staged.atFrame = wanted.atFrame)
  | missing {wanted : InstrumentRef} (named : score.instrument = .ok (some wanted))
      (other : renderer.loaded.map Prod.fst ≠ some wanted.hash)
      (other_staged : renderer.staged.map Staged.hash ≠ some wanted.hash) (missing : host.get wanted.hash = .ok none)

theorem Fresh.refresh (fresh : Fresh host score renderer) : ∃ ready, renderer.refresh host score = (renderer, .ok ready) := by
  cases fresh with
  | unnamed unnamed => exact ⟨_, refresh_of_unnamed unnamed⟩
  | playing named playing alone =>
    refine ⟨true, ?_⟩
    rw [refresh_of_playing named playing, ← alone]
  | @waiting wanted staged named other waits same_hash same_frame =>
    refine ⟨true, ?_⟩
    rw [refresh_of_waiting named other waits same_hash, ← same_frame, ← waits]
  | missing named other other_staged missing => exact ⟨_, refresh_of_missing named other other_staged missing⟩

/-- A refreshed renderer stays as it is when it is refreshed again. -/
theorem fresh_of_refresh {refreshed : Renderer Memory} {ready : Bool}
    (refresh : renderer.refresh host score = (refreshed, .ok ready)) : Fresh host score refreshed := by
  unfold Renderer.refresh at refresh
  split at refresh
  case h_1 => cases refresh
  case h_2 unnamed => exact .unnamed unnamed
  case h_3 wanted named =>
    simp only [any_loaded] at refresh
    split_ifs at refresh with playing
    · cases refresh
      exact .playing named playing rfl
    split at refresh
    case h_1 staged waits =>
      cases refresh
      exact .waiting named playing rfl (of_decide_eq_true (filter_eq_some_iff.mp waits).2) rfl
    case h_2 other_staged =>
      rw [filter_staged_eq_none] at other_staged
      split at refresh
      case h_1 => cases refresh
      case h_2 missing =>
        cases refresh
        exact .missing named playing other_staged missing
      case h_3 =>
        split at refresh <;> cases refresh
        exact .waiting named playing rfl rfl rfl

/-- A switch does not change what the score asks for: what waited plays. -/
theorem Fresh.promoteDue (fresh : Fresh host score renderer) (frame : Nat) : Fresh host score (renderer.promoteDue frame) := by
  unfold Renderer.promoteDue
  split
  case h_2 => exact fresh
  case h_1 staged waits =>
    split
    case isFalse => exact fresh
    case isTrue =>
      cases fresh with
      | unnamed unnamed => exact .unnamed unnamed
      | playing named playing alone =>
        rw [waits] at alone
        cases alone
      | @waiting wanted other named _ waits' same_hash _ =>
        obtain rfl : staged = other := Option.some.inj (waits.symm.trans waits')
        exact .playing named (congrArg some same_hash) rfl
      | missing named other other_staged missing =>
        rw [waits] at other_staged
        exact .missing named other_staged nofun missing

theorem Fresh.of_same {other : Renderer Memory} (fresh : Fresh host score renderer)
    (loaded : other.loaded.map Prod.fst = renderer.loaded.map Prod.fst) (staged : other.staged = renderer.staged) :
    Fresh host score other := by
  cases fresh with
  | unnamed unnamed => exact .unnamed unnamed
  | playing named playing alone => exact .playing named (loaded.trans playing) (staged.trans alone)
  | waiting named other waits same_hash same_frame =>
    exact .waiting named (loaded ▸ other) (staged.trans waits) same_hash same_frame
  | missing named other other_staged missing => exact .missing named (loaded ▸ other) (staged ▸ other_staged) missing

end Fresh

section Walk

variable {narrow : F64 → F32} {host : Host Memory} {score : Score} {channels sampleRate endFrame : Nat}
  {lineup : Lineup} {frame : Nat} {state : Controls} {pending : List Event}

/-- The block at a frame, after the switch that is due there: one instrument and one state of the controls for all of
its frames. -/
theorem frameSamples_of_block {later : Nat} (performs : renderer.Performs channels lineup)
    (waits : ∀ next ∈ lineup.next, frame < next.1)
    (walked : applyDue frame (baseControls (score.controls narrow)) (score.events narrow) = (state, pending))
    (le : frame ≤ later) (before : later < renderer.blockEnd pending frame endFrame) :
    frameSamples narrow score lineup channels sampleRate later =
      lineup.current.elim (List.replicate channels 0) fun sample =>
        (List.range channels).map (sample later sampleRate state) := by
  have same_instrument : lineup.playsAt later = lineup.current := by
    apply Lineup.playsAt_of_lt
    intro next mem
    obtain ⟨staged, staged_mem, same_frame⟩ := performs.exists_staged mem
    have := blockEnd_le_switch pending endFrame staged_mem (same_frame ▸ waits next mem)
    omega
  have same_controls : controlsAt narrow score later = state := by
    have heads : ∀ event ∈ pending.head?, frame < event.atFrame := by
      have := lt_of_applyDue_head frame (baseControls (score.controls narrow)) (score.events narrow)
      rwa [walked] at this
    have waiting : applyDue later state pending = (state, pending) := by
      apply applyDue_of_head
      intro event mem
      have := renderer.blockEnd_le_event endFrame mem (heads event mem)
      omega
    rw [controlsAt_eq_applyDue, ← applyDue_applyDue le, walked, waiting]
  rw [frameSamples, same_instrument, same_controls]
  cases lineup.current <;> rfl

theorem rangeSamples_block {blockEnd : Nat} (sampleRate : Nat) (performs : renderer.Performs channels lineup)
    (waits : ∀ next ∈ lineup.next, frame < next.1)
    (walked : applyDue frame (baseControls (score.controls narrow)) (score.events narrow) = (state, pending))
    (ends : renderer.blockEnd pending frame endFrame = blockEnd) :
    rangeSamples narrow score lineup channels sampleRate frame (blockEnd - frame) =
      (List.range' frame (blockEnd - frame)).flatMap fun frame =>
        lineup.current.elim (List.replicate channels 0) fun sample =>
          (List.range channels).map (sample frame sampleRate state) := by
  apply flatMap_congr
  intro later mem
  obtain ⟨le, before⟩ := mem_range'_1.mp mem
  have before' : later < renderer.blockEnd pending frame endFrame := by omega
  exact frameSamples_of_block performs waits walked le before'

theorem renderLoop_block {fuel blockEnd : Nat} {out samples : List F32} {rendered : Renderer Memory} (inside : frame < endFrame)
    (fits : frame + maxBlockFrames < 2 ^ 64) (ends : (renderer.promoteDue frame).blockEnd pending frame endFrame = blockEnd)
    (block : (renderer.promoteDue frame).renderNext frame (blockEnd - frame) sampleRate state channels = (rendered, .ok samples)) :
    renderer.renderLoop sampleRate channels endFrame (fuel + 1) state pending frame out =
      rendered.renderLoop sampleRate channels endFrame fuel (applyDue blockEnd state pending).1
        (applyDue blockEnd state pending).2 blockEnd (out ++ samples) := by
  rw [renderLoop, if_pos inside, if_neg (Nat.not_le.mpr fits)]
  dsimp only
  rw [ends, block]

/-- The walk from a frame on. -/
theorem renderLoop_eq (in_time : endFrame ≤ 2 ^ 63) (rate_fits : sampleRate < 2 ^ 31) {fuel : Nat} (le : frame ≤ endFrame)
    (enough : endFrame - frame ≤ fuel) (performs : renderer.Performs channels lineup) (fresh : Fresh host score renderer)
    (walked : applyDue frame (baseControls (score.controls narrow)) (score.events narrow) = (state, pending)) (out : List F32) :
    ∃ final lineup', renderer.renderLoop sampleRate channels endFrame fuel state pending frame out =
        (final, .ok (out ++ rangeSamples narrow score lineup channels sampleRate frame (endFrame - frame))) ∧
      final.Performs channels lineup' ∧ Fresh host score final ∧
      ∀ later, endFrame ≤ later → lineup'.playsAt later = lineup.playsAt later := by
  -- the induction is on the fuel: each block leaves less of the range than there is fuel
  induction fuel generalizing renderer lineup state pending frame out with
  | zero =>
    obtain rfl : frame = endFrame := by omega
    exact ⟨renderer, lineup, by simp [renderLoop, rangeSamples], performs, fresh, fun _ _ => rfl⟩
  | succ fuel ih =>
    by_cases inside : frame < endFrame
    case neg =>
      obtain rfl : frame = endFrame := by omega
      exact ⟨renderer, lineup, by simp [renderLoop, rangeSamples], performs, fresh, fun _ _ => rfl⟩
    case pos =>
      have promoted := performs.promoteDue frame
      have fits : frame + maxBlockFrames < 2 ^ 64 := by
        rw [maxBlockFrames]
        omega
      have after := lt_blockEnd (renderer.promoteDue frame) pending frame endFrame
      have capped := blockEnd_le_add (renderer.promoteDue frame) pending frame endFrame
      have within := blockEnd_le (renderer.promoteDue frame) pending inside
      generalize ends : (renderer.promoteDue frame).blockEnd pending frame endFrame = blockEnd at after capped within
      obtain ⟨rendered, block, performs', same_loaded, same_staged⟩ := promoted.renderNext frame (blockEnd - frame)
        (by omega) (by omega) (by omega) rate_fits state
      rw [← rangeSamples_block sampleRate promoted Lineup.lt_of_promote walked ends] at block
      rw [renderLoop_block inside fits ends block]
      have fresh' := (fresh.promoteDue frame).of_same same_loaded same_staged
      have walked' : applyDue blockEnd (baseControls (score.controls narrow)) (score.events narrow) =
          applyDue blockEnd state pending := by
        rw [← applyDue_applyDue (Nat.le_of_lt after), walked]
      obtain ⟨final, lineup', looped, performs_final, fresh_final, agree⟩ :=
        ih within (by omega) performs' fresh' walked' _
      refine ⟨final, lineup', ?_, performs_final, fresh_final, ?_⟩
      · -- the switch at the frame shows in no sample from there on
        have whole : rangeSamples narrow score lineup channels sampleRate frame (endFrame - frame) =
            rangeSamples narrow score (lineup.promote frame) channels sampleRate frame (endFrame - frame) :=
          rangeSamples_congr fun later le => (lineup.playsAt_promote le).symm
        have parts : endFrame - frame = (blockEnd - frame) + (endFrame - blockEnd) := by omega
        have start : frame + (blockEnd - frame) = blockEnd := by omega
        rw [looped, whole, parts, rangeSamples_append, start, append_assoc]
      · intro later le
        rw [agree later le, lineup.playsAt_promote (by omega)]

/-- Without an instrument there is silence. -/
theorem Performs.rangeSamples_of_none (performs : renderer.Performs channels lineup) (loaded : renderer.loaded = none)
    (staged : renderer.staged = none) (start frames : Nat) :
    rangeSamples narrow score lineup channels sampleRate start frames = List.replicate (frames * channels) 0 := by
  obtain ⟨current, next⟩ := lineup
  obtain ⟨loaded_rel, staged_rel, -⟩ := performs
  rw [loaded] at loaded_rel
  rw [staged] at staged_rel
  cases loaded_rel
  cases staged_rel
  rw [replicate_eq_flatMap_range' start]
  rfl

variable {refreshed : Renderer Memory} {ready : Bool}

/-- A range of a renderer with the channels of a lineup. -/
theorem renderRange_eq (narrow : F64 → F32) {start frames : Nat}
    (refresh : renderer.refresh host score = (refreshed, .ok ready)) (performs : refreshed.Performs channels lineup)
    (in_time : start + frames ≤ 2 ^ 63) (rate_fits : sampleRate < 2 ^ 31) :
    ∃ final lineup', renderer.renderRange narrow host score start frames sampleRate (frames * channels) =
        (final, .ok (rangeSamples narrow score lineup channels sampleRate start frames)) ∧
      final.Performs channels lineup' ∧ Fresh host score final ∧
      ∀ later, start + frames ≤ later → lineup'.playsAt later = lineup.playsAt later := by
  have promoted := performs.promoteDue start
  have fresh := (fresh_of_refresh refresh).promoteDue start
  have agree : ∀ later, start ≤ later → (lineup.promote start).playsAt later = lineup.playsAt later :=
    fun later le => lineup.playsAt_promote le
  rw [← rangeSamples_congr agree]
  rw [renderRange, refresh]
  dsimp only
  by_cases nobody : (refreshed.promoteDue start).loaded.isNone ∧ (refreshed.promoteDue start).staged.isNone
  · rw [if_pos nobody]
    refine ⟨_, lineup.promote start, ?_, promoted, fresh, fun later le => agree later (by omega)⟩
    rw [promoted.rangeSamples_of_none (isNone_iff_eq_none.mp nobody.1) (isNone_iff_eq_none.mp nobody.2)]
  · rw [if_neg nobody, promoted.channels_eq, if_neg (not_not.mpr rfl), if_neg (by omega)]
    have walked : applyDue start (baseControls (score.controls narrow)) (score.events narrow) = _ := rfl
    obtain ⟨final, lineup', looped, performs', fresh', agree'⟩ := renderLoop_eq in_time rate_fits
      (Nat.le_add_right start frames) (Nat.le_of_eq (Nat.add_sub_cancel_left start frames)) promoted fresh walked []
    refine ⟨final, lineup', ?_, performs', fresh', fun later le => (agree' later le).trans (agree later (by omega))⟩
    rw [looped, nil_append, Nat.add_sub_cancel_left]

/-- A range in consecutive pieces, one call after the other. -/
def renderPieces (narrow : F64 → F32) (host : Host Memory) (score : Score) (sampleRate channels : Nat) :
    Renderer Memory → (start : Nat) → List Nat → Renderer Memory × Except (Fault RenderError) (List F32)
  | renderer, _, [] => (renderer, .ok [])
  | renderer, start, frames :: pieces =>
    match renderer.renderRange narrow host score start frames sampleRate (frames * channels) with
    | (rendered, .error error) => (rendered, .error error)
    | (rendered, .ok samples) =>
      let (final, rest) := renderPieces narrow host score sampleRate channels rendered (start + frames) pieces
      (final, rest.map (samples ++ ·))

theorem renderPieces_eq {start : Nat} {pieces : List Nat} (refresh : renderer.refresh host score = (refreshed, .ok ready))
    (performs : refreshed.Performs channels lineup) (in_time : start + pieces.sum ≤ 2 ^ 63) (rate_fits : sampleRate < 2 ^ 31) :
    (renderPieces narrow host score sampleRate channels renderer start pieces).2 =
      .ok (rangeSamples narrow score lineup channels sampleRate start pieces.sum) := by
  induction pieces generalizing renderer refreshed ready lineup start with
  | nil => rfl
  | cons frames pieces ih =>
    rw [sum_cons] at in_time ⊢
    obtain ⟨rendered, lineup', range, performs', fresh, agree⟩ :=
      renderRange_eq narrow refresh performs (by omega : start + frames ≤ 2 ^ 63) rate_fits
    -- the next call finds the renderer as the last one left it
    obtain ⟨ready', refresh'⟩ := fresh.refresh
    have rest := ih refresh' performs' (by omega : start + frames + pieces.sum ≤ 2 ^ 63)
    rw [renderPieces, range]
    dsimp only
    rw [rest, rangeSamples_append, rangeSamples_congr agree]
    rfl

/-- The order of the events in the document does not show. -/
theorem renderRange_of_perm {shuffled : List LoroValue} (perm : shuffled.Perm score.eventsList)
    (renderer : Renderer Memory) (start frames sampleRate outLen : Nat) :
    renderer.renderRange narrow host { score with eventsList := shuffled } start frames sampleRate outLen =
      renderer.renderRange narrow host score start frames sampleRate outLen := by
  unfold renderRange
  rw [Score.events_eq_of_perm perm]
  rfl

end Walk

/-- A mono instrument that puts out its first control. -/
def tone : Instrument Unit := ⟨1, by decide, (), fun memory controls _ _ _ => (memory, some fun _ => controls.getD 0 0)⟩

def toneSample : Sample := fun _ _ controls _ => controls.getD 0 0

theorem tone_played (memory : Unit) (controls : Controls) (start frames sampleRate : Nat) :
    ({ tone with memory } : Instrument Unit).played controls start frames sampleRate =
      some ((List.range' start frames).flatMap fun frame =>
        (List.range tone.channels).map (toneSample frame sampleRate controls)) := by
  simp only [Instrument.played, tone, map_some, Nat.mul_one, range_one, map_cons, map_nil, toneSample]
  rw [← map_eq_flatMap, map_const', map_const', length_range, length_range']

theorem tone_plays : tone.Plays toneSample := fun memory controls start frames sampleRate _ _ _ =>
  tone_played memory controls start frames sampleRate

def toneHost : Host Unit := ⟨fun _ => .ok (some []), fun _ => .ok tone⟩

def zeroHash : BlobHash := ⟨List.replicate 32 0, rfl⟩

/-- The tone plays from frame 100, and its control is 5 at first and 6 from frame 103. -/
def toneScore : Score where
  instrumentMap := [("hash", .string "0000000000000000000000000000000000000000000000000000000000000000"), ("at_frame", .i64 100)]
  controlsMap := [("0", .double 5)]
  eventsList := [.map [("at", .i64 103), ("control", .i64 0), ("value", .double 6)]]

theorem tone_staged :
    new.refresh toneHost toneScore = (⟨none, some ⟨zeroHash, tone, 100⟩⟩, .ok true) := by
  have named : toneScore.instrument = .ok (some ⟨zeroHash, 100⟩) := by decide +kernel
  exact refresh_of_loading named (by simp [new]) (by simp [new]) rfl rfl

theorem tone_performs : Performs ⟨none, some ⟨zeroHash, tone, 100⟩⟩ 1 ⟨none, some (100, toneSample)⟩ :=
  ⟨.none, .some ⟨rfl, rfl, tone_plays⟩, fun _ => rfl⟩

end Renderer

end Index.Audio
