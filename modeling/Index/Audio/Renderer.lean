import Index.Audio.Score

/-! # The renderer

A renderer turns a range of frames of the score into samples.  It has an instrument that plays and perhaps one that
waits for its frame; both are kept from call to call, while the values of the controls are built anew from the score
each time.  A range is walked in blocks, cut where an event is due, where the waiting instrument takes over, and at
the longest block an instrument renders at once.  Instruments are modules with a memory of their own. -/

namespace Index.Audio

open Index.Lib

def controlCount : Nat := 64

def maxBlockFrames : Nat := 4096

abbrev Controls := Vector F32 controlCount

inductive RenderError where
  | score (error : ScoreError)
  | store
  | load
  | outMissized (samples needed : Nat)
  | blockExceeds (frames : Nat)
  | blockMissized (samples needed : Nat)
  | frameExceedsI64
  | sampleRateExceedsI32
  | trapped
deriving DecidableEq

/-- A loaded module: `sa_render` works on its memory and leaves samples in its buffer, or traps. -/
structure Instrument (Memory : Type) where
  channels : Nat
  channels_valid : 1 ≤ channels ∧ channels ≤ 2
  memory : Memory
  saRender : Memory → Controls → (start frames sampleRate : Nat) → Memory × Option (Nat → F32)

/-- `BlobStore::get` and `Instrument::load`. -/
structure Host (Memory : Type) where
  get : BlobHash → Except RenderError (Option Bytes)
  load : Bytes → Except RenderError (Instrument Memory)

structure Staged (Memory : Type) where
  hash : BlobHash
  instrument : Instrument Memory
  atFrame : Nat

structure Renderer (Memory : Type) where
  loaded : Option (BlobHash × Instrument Memory)
  staged : Option (Staged Memory)

variable {Memory : Type}

namespace Instrument

/-- What the module renders from a memory, as far as it is read. -/
def played (instrument : Instrument Memory) (controls : Controls) (start frames sampleRate : Nat) : Option (List F32) :=
  (instrument.saRender instrument.memory controls start frames sampleRate).2.map fun buffer =>
    (List.range (frames * instrument.channels)).map buffer

def render (instrument : Instrument Memory) (start frames sampleRate : Nat) (controls : Controls) (outLen : Nat) :
    Instrument Memory × Except RenderError (List F32) :=
  if maxBlockFrames < frames then (instrument, .error (.blockExceeds frames))
  else if outLen ≠ frames * instrument.channels then
    (instrument, .error (.blockMissized outLen (frames * instrument.channels)))
  else if 2 ^ 63 ≤ start then (instrument, .error .frameExceedsI64)
  else if 2 ^ 31 ≤ sampleRate then (instrument, .error .sampleRateExceedsI32)
  else
    let memory := (instrument.saRender instrument.memory controls start frames sampleRate).1
    ({ instrument with memory },
      match instrument.played controls start frames sampleRate with
      | some samples => .ok samples
      | none => .error .trapped)

/-- `render_block`: one channel is doubled and a second one dropped when the range has another count. -/
def renderBlock (instrument : Instrument Memory) (frame blockFrames sampleRate : Nat) (controls : Controls)
    (outChannels : Nat) : Instrument Memory × Except RenderError (List F32) :=
  let native := instrument.channels
  if native = outChannels then instrument.render frame blockFrames sampleRate controls (blockFrames * outChannels)
  else
    let (rendered, result) := instrument.render frame blockFrames sampleRate controls (blockFrames * native)
    (rendered, result.map fun scratch =>
      (List.range blockFrames).flatMap fun index =>
        (List.range outChannels).map fun channel => scratch.getD (index * native + min channel (native - 1)) 0)

end Instrument

section Controls

/-- `state.get_mut(control)`: a control out of range is passed over. -/
def Controls.setControl (state : Controls) (control : Nat) (value : F32) : Controls := state.setIfInBounds control value

/-- The controls before any event. -/
def baseControls (controls : List ControlValue) : Controls :=
  controls.foldl (fun state entry => state.setControl entry.control entry.value) (Vector.replicate controlCount 0)

/-- Applies the events that are due from the front of those that wait. -/
def applyDue (frame : Nat) : Controls → List Event → Controls × List Event
  | state, [] => (state, [])
  | state, event :: events =>
    if event.atFrame ≤ frame then applyDue frame (state.setControl event.control event.value) events
    else (state, event :: events)

end Controls

namespace Renderer

def new : Renderer Memory := ⟨none, none⟩

def channels (renderer : Renderer Memory) : Nat :=
  match renderer.loaded with
  | some (_, instrument) => instrument.channels
  | none => 1

def refresh (host : Host Memory) (score : Score) (renderer : Renderer Memory) :
    Renderer Memory × Except RenderError Bool :=
  match score.instrument with
  | .error error => (renderer, .error (.score error))
  | .ok none => (renderer, .ok renderer.loaded.isSome)
  | .ok (some wanted) =>
    if renderer.loaded.any fun loaded => loaded.1 = wanted.hash then ({ renderer with staged := none }, .ok true)
    else
      match renderer.staged.filter fun staged => staged.hash = wanted.hash with
      | some staged => ({ renderer with staged := some { staged with atFrame := wanted.atFrame } }, .ok true)
      | none =>
        match host.get wanted.hash with
        | .error error => (renderer, .error error)
        -- bytes still on their way: the previous module goes on
        | .ok none => (renderer, .ok renderer.loaded.isSome)
        | .ok (some bytes) =>
          match host.load bytes with
          | .error error => (renderer, .error error)
          | .ok instrument => ({ renderer with staged := some ⟨wanted.hash, instrument, wanted.atFrame⟩ }, .ok true)

section Refresh

variable {host : Host Memory} {score : Score} {renderer : Renderer Memory} {wanted : InstrumentRef}

theorem any_loaded (renderer : Renderer Memory) (hash : BlobHash) :
    (renderer.loaded.any fun loaded => loaded.1 = hash) = true ↔ renderer.loaded.map Prod.fst = some hash := by
  cases renderer.loaded <;> simp

theorem filter_staged_eq_none {hash : BlobHash} :
    (renderer.staged.filter fun staged => staged.hash = hash) = none ↔ renderer.staged.map Staged.hash ≠ some hash := by
  cases renderer.staged <;> simp

theorem refresh_of_unnamed (unnamed : score.instrument = .ok none) :
    renderer.refresh host score = (renderer, .ok renderer.loaded.isSome) := by
  rw [refresh, unnamed]

theorem refresh_of_playing (named : score.instrument = .ok (some wanted))
    (playing : renderer.loaded.map Prod.fst = some wanted.hash) :
    renderer.refresh host score = ({ renderer with staged := none }, .ok true) := by
  rw [refresh, named]
  exact if_pos ((any_loaded renderer wanted.hash).mpr playing)

section

variable (named : score.instrument = .ok (some wanted)) (other : renderer.loaded.map Prod.fst ≠ some wanted.hash)
include named other

theorem refresh_of_waiting {staged : Staged Memory} (waits : renderer.staged = some staged) (same : staged.hash = wanted.hash) :
    renderer.refresh host score =
      ({ renderer with staged := some { staged with atFrame := wanted.atFrame } }, .ok true) := by
  rw [Ne, ← any_loaded] at other
  rw [refresh, named]
  dsimp only
  rw [if_neg other, waits, Option.filter_some, if_pos (decide_eq_true same)]

theorem refresh_of_missing (other_staged : renderer.staged.map Staged.hash ≠ some wanted.hash)
    (missing : host.get wanted.hash = .ok none) : renderer.refresh host score = (renderer, .ok renderer.loaded.isSome) := by
  rw [Ne, ← any_loaded] at other
  rw [← filter_staged_eq_none] at other_staged
  rw [refresh, named]
  dsimp only
  rw [if_neg other, other_staged]
  rw [missing]

theorem refresh_of_loading (other_staged : renderer.staged.map Staged.hash ≠ some wanted.hash) {bytes : Bytes}
    {instrument : Instrument Memory} (held : host.get wanted.hash = .ok (some bytes)) (loads : host.load bytes = .ok instrument) :
    renderer.refresh host score =
      ({ renderer with staged := some ⟨wanted.hash, instrument, wanted.atFrame⟩ }, .ok true) := by
  rw [Ne, ← any_loaded] at other
  rw [← filter_staged_eq_none] at other_staged
  rw [refresh, named]
  dsimp only
  rw [if_neg other, other_staged]
  rw [held]
  dsimp only
  rw [loads]

end

end Refresh

/-- Swaps in the staged instrument when its frame is reached. -/
def promoteDue (renderer : Renderer Memory) (frame : Nat) : Renderer Memory :=
  match renderer.staged with
  | some staged => if staged.atFrame ≤ frame then ⟨some (staged.hash, staged.instrument), none⟩ else renderer
  | none => renderer

def nextSwitchAfter (renderer : Renderer Memory) (frame : Nat) : Option Nat :=
  (renderer.staged.map Staged.atFrame).filter fun atFrame => frame < atFrame

/-- The end of the block that begins at a frame. -/
def blockEnd (renderer : Renderer Memory) (pending : List Event) (frame endFrame : Nat) : Nat :=
  let nextEvent := pending.head?.elim endFrame fun event => min event.atFrame endFrame
  let nextSwitch := (renderer.nextSwitchAfter frame).elim endFrame fun atFrame => min atFrame endFrame
  min (max (min nextEvent nextSwitch) (frame + 1)) (frame + maxBlockFrames)

/-- One block: the samples of the instrument that plays, or silence. -/
def renderNext (renderer : Renderer Memory) (frame blockFrames sampleRate : Nat) (state : Controls) (channels : Nat) :
    Renderer Memory × Except RenderError (List F32) :=
  match renderer.loaded with
  | some (hash, instrument) =>
    let (rendered, result) := instrument.renderBlock frame blockFrames sampleRate state channels
    ({ renderer with loaded := some (hash, rendered) }, result)
  | none => (renderer, .ok (List.replicate (blockFrames * channels) 0))

/-- The walk over the range.  Every block has a frame at least, so as much fuel as there are frames is enough. -/
def renderLoop (sampleRate channels endFrame : Nat) :
    (fuel : Nat) → Renderer Memory → Controls → List Event → (frame : Nat) → (out : List F32) →
      Renderer Memory × Except (Fault RenderError) (List F32)
  | 0, renderer, _, _, _, out => (renderer, .ok out)
  | fuel + 1, renderer, state, pending, frame, out =>
    if frame < endFrame then
      let promoted := renderer.promoteDue frame
      -- `frame + MAX_BLOCK_FRAMES` overflows
      if 2 ^ 64 ≤ frame + maxBlockFrames then (promoted, .error .panicked)
      else
        let blockEnd := promoted.blockEnd pending frame endFrame
        match promoted.renderNext frame (blockEnd - frame) sampleRate state channels with
        | (rendered, .error error) => (rendered, .error (.raised error))
        | (rendered, .ok samples) =>
          let (state, pending) := applyDue blockEnd state pending
          renderLoop sampleRate channels endFrame fuel rendered state pending blockEnd (out ++ samples)
    else (renderer, .ok out)

/-- `render_range` into `outLen` samples: the renderer afterwards, and the samples if it succeeds. -/
def renderRange (narrow : F64 → F32) (host : Host Memory) (score : Score) (renderer : Renderer Memory)
    (start frames sampleRate outLen : Nat) : Renderer Memory × Except (Fault RenderError) (List F32) :=
  match renderer.refresh host score with
  | (refreshed, .error error) => (refreshed, .error (.raised error))
  | (refreshed, .ok _) =>
    let promoted := refreshed.promoteDue start
    if promoted.loaded.isNone ∧ promoted.staged.isNone then (promoted, .ok (List.replicate outLen 0))
    else if outLen ≠ frames * promoted.channels then
      (promoted, .error (.raised (.outMissized outLen (frames * promoted.channels))))
    else
      let (state, pending) := applyDue start (baseControls (score.controls narrow)) (score.events narrow)
      -- `start_frame + frames` overflows
      if 2 ^ 64 ≤ start + frames then (promoted, .error .panicked)
      else renderLoop sampleRate promoted.channels (start + frames) frames promoted state pending start []

end Renderer

end Index.Audio
