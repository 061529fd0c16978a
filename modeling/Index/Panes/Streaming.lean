import Mathlib
import Index.Panes.Display
import Index.Panes.Keeping

/-! # Streaming

The compositor, the connections and the windows of the hosts at their other ends.  What was sent on a connection arrives
in order, and any host may take its time.  A window displays the commit that the last frame it was given was taken
from. -/

namespace Index.Panes

open Index.Lib Function List

/-! ## What a connection has been shown -/

/-- What a window is to display, over one message: nothing of it is known, it is known, or it displays a commit. -/
def see (id : WindowId) (seen : Option (Option Pixels)) : Entry → Option (Option Pixels)
  | (.windowNew other .., _) => if other = id then seen.or (some none) else seen
  | (.windowFrame other .., source) => if other = id then seen.map fun _ => source else seen
  | (.windowGone other, _) => if other = id then none else seen
  | _ => seen

def picture (id : WindowId) (log : List Entry) : Option (Option Pixels) := log.foldl (see id) none

section Picture

variable {id : WindowId} {log entries : List Entry} {entry : Entry}

theorem picture_concat : picture id (log ++ [entry]) = see id (picture id log) entry := by
  rw [picture, foldl_append]
  rfl

variable {seen : Option (Option Pixels)}

theorem see_of_window (other : entry.1.window ≠ some id) : see id seen entry = seen := by
  obtain ⟨message, source⟩ := entry
  cases message <;> simp_all [ToHost.window, see]

theorem picture_append (unseen : ∀ entry ∈ entries, ∀ seen, see id seen entry = seen) : picture id (log ++ entries) = picture id log := by
  refine append_of_concat (fun items => picture id items = picture id log) rfl fun items entry member same => ?_
  rw [picture_concat, unseen entry member, same]

end Picture

/-- Every frame is of a commit that the host can show, and adds to what it has been shown. -/
def Coherent (lz4 : Lz4) (log : List Entry) : Prop :=
  ∀ before id seq frame source after, log = before ++ (.windowFrame id seq frame, source) :: after →
    ∃ pixels allowLz4 sent, source = some pixels ∧ pixels.Presentable ∧ (picture id before).isSome = true ∧
      Delta lz4 allowLz4 sent pixels frame ∧ ∀ retained, sent = some retained → frame.full = false → picture id before = some (some retained)

section Coherent

variable {lz4 : Lz4} {arrives : Pixels → Prop} {log entries : List Entry} {entry : Entry}

theorem Coherent.concat (coherent : Coherent lz4 log)
    (frame : ∀ id seq frame source, entry = (.windowFrame id seq frame, source) →
      ∃ pixels allowLz4 sent, source = some pixels ∧ pixels.Presentable ∧ (picture id log).isSome = true ∧
        Delta lz4 allowLz4 sent pixels frame ∧ ∀ retained, sent = some retained → frame.full = false → picture id log = some (some retained)) :
    Coherent lz4 (log ++ [entry]) := by
  intro before id seq sentFrame source after same
  rcases concat_eq_split same with ⟨-, rfl, isEntry⟩ | ⟨shorter, -, isLog⟩
  · exact frame id seq sentFrame source isEntry.symm
  · exact coherent before id seq sentFrame source shorter isLog

theorem Coherent.append (coherent : Coherent lz4 log) (free : ∀ entry ∈ entries, ∀ id seq frame, entry.1 ≠ .windowFrame id seq frame) :
    Coherent lz4 (log ++ entries) := by
  refine append_of_concat (Coherent lz4) coherent fun items entry member coherent =>
    coherent.concat fun id seq frame source isEntry => ?_
  exact absurd (congrArg Prod.fst isEntry) (free entry member id seq frame)

end Coherent

/-! ## The panes -/

/-- A pane has presentable pixels, and when it is clean the host was sent what it has. -/
structure Pane.Clean (pane : Pane) : Prop where
  current : ∀ pixels, pane.store.current = some pixels → pixels.Presentable
  held : ∀ held, pane.pendingGpu = some held → ∀ pixels, held.frame = some pixels → pixels.Presentable
  clean : pane.store.dirty = false → ∀ pixels, pane.store.current = some pixels → pane.announced = true ∧ pane.store.sent = some pixels

/-- An announced pane is known, and the host was shown what it is held to have. -/
def Mirrored (pane : Pane) (log : List Entry) : Prop :=
  (picture pane.id log).isSome = true ∧ ∀ pixels, pane.store.sent = some pixels → picture pane.id log = some (some pixels)

section Stable

variable {lz4 : Lz4} {ready : Bool} {pane next : Pane} {log entries : List Entry}

/-- Nothing is clean that the host has lost. -/
theorem clean_invalidate (clean : pane.Clean) (store : next.store = pane.store.invalidate) (pending : next.pendingGpu = pane.pendingGpu) :
    next.Clean := by
  refine ⟨store ▸ clean.current, pending ▸ clean.held, fun isClean pixels isCurrent => ?_⟩
  rw [store] at isClean isCurrent
  cases (Option.isSome_of_eq_some isCurrent).symm.trans isClean

theorem clean_of_move (move : PaneMove lz4 Pixels.Presentable ready pane next entries) (clean : pane.Clean) : next.Clean := by
  cases move with
  | quiet _ announced store held =>
    refine ⟨store ▸ clean.current, fun buffer isHeld => ?_, by rw [announced, store]; exact clean.clean⟩
    exact (held buffer isHeld).elim (clean.held buffer) id
  | commit _ _ store arrives pending =>
    refine ⟨fun pixels isCurrent => ?_, fun buffer isHeld => ?_, by rw [store]; nofun⟩
    · rw [store] at isCurrent
      obtain rfl := Option.some.inj isCurrent
      exact arrives.elim id fun ⟨buffer, isHeld, isFrame⟩ => clean.held buffer isHeld _ isFrame
    · exact pending.elim (fun same => clean.held buffer (same ▸ isHeld)) fun none => by cases none.symm.trans isHeld
  | expire _ _ store pending | announce _ _ _ store pending => exact clean_invalidate clean store pending
  | bounds wasAnnounced _ announced store pending =>
    exact ⟨store ▸ clean.current, pending ▸ clean.held, fun isClean pixels isCurrent =>
      ⟨announced, store ▸ (clean.clean (store ▸ isClean) pixels (store ▸ isCurrent)).2⟩⟩
  | frame _ _ _ announced takes pending =>
    generalize isStore : next.store = store at takes
    cases takes with
    | @frame current _ _ isCurrent =>
      refine ⟨by rw [isStore]; exact clean.current, pending ▸ clean.held, fun _ pixels isPixels => ⟨announced, ?_⟩⟩
      rw [isStore] at isPixels ⊢
      exact isCurrent.symm.trans isPixels
  | idle _ _ _ announced takes pending =>
    generalize isStore : next.store = store at takes
    refine ⟨fun pixels isPixels => ?_, pending ▸ clean.held, fun isClean pixels isPixels => ⟨announced, ?_⟩⟩
    · rw [isStore] at isPixels
      cases takes <;> exact clean.current pixels isPixels
    · rw [isStore] at isPixels ⊢
      cases takes with
      | clean wasClean => exact (clean.clean wasClean pixels isPixels).2
      | empty none => cases none.symm.trans isPixels
      | same _ isCurrent sent =>
        obtain rfl := Option.some.inj (isCurrent.symm.trans isPixels)
        exact sent (clean.current _ isCurrent).tall
  | gone _ _ store pending =>
    exact ⟨by rw [store]; nofun, by rw [pending]; nofun, by rw [store]; nofun⟩

theorem Mirrored.of_eq (mirrored : Mirrored pane log) (same : next.id = pane.id) (retained : next.store.sent = pane.store.sent) :
    Mirrored next log := by
  rw [Mirrored, same, retained]
  exact mirrored

theorem mirrored_of_others (others : ∀ entry ∈ entries, entry.1.window ≠ some pane.id) (mirrored : Mirrored pane log) :
    Mirrored pane (log ++ entries) := by
  rw [Mirrored, picture_append fun entry member _ => see_of_window (others entry member)]
  exact mirrored

theorem mirrored_of_move (move : PaneMove lz4 Pixels.Presentable ready pane next entries) (mirrored : pane.announced = true → Mirrored pane log)
    (announced : next.announced = true) : Mirrored next (log ++ entries) := by
  cases move with
  | quiet same asBefore store _ aside =>
    exact (mirrored_of_others (others_of_aside aside _) (mirrored (asBefore ▸ announced))).of_eq same (congrArg FrameStore.sent store)
  | commit same asBefore store =>
    rw [append_nil]
    exact (mirrored (asBefore ▸ announced)).of_eq same (by rw [store]; rfl)
  | expire same asBefore store =>
    rw [append_nil, Mirrored, same, store]
    exact ⟨(mirrored (asBefore ▸ announced)).1, nofun⟩
  | announce _ same _ store _ bounds =>
    rw [Mirrored, same, store, append_cons, picture_append, picture_concat]
    · exact ⟨by simp [see], nofun⟩
    · intro entry member seen
      obtain ⟨min, max, rfl⟩ := bounds entry member
      rfl
  | bounds asBefore same _ store =>
    rw [Mirrored, same, store, picture_concat]
    exact mirrored asBefore
  | frame _ asBefore same _ takes =>
    generalize isStore : next.store = store at takes
    cases takes with
    | @frame current _ _ isCurrent =>
      -- The host displays the commit now, which is what the mirror is set to.
      have shown : ∀ seq frame, picture pane.id (log ++ [(.windowFrame pane.id seq frame, pane.store.current)]) = some (some current) := by
        intro seq frame
        rw [picture_concat, isCurrent]
        obtain ⟨seen, isSeen⟩ := Option.isSome_iff_exists.mp (mirrored asBefore).1
        simp [see, isSeen]
      rw [Mirrored, same, isStore, shown]
      exact ⟨rfl, fun pixels isPixels => congrArg some isPixels⟩
  | idle _ asBefore same _ takes =>
    rw [append_nil]
    exact (mirrored asBefore).of_eq same takes.sent_eq
  | gone _ gone => cases gone.symm.trans announced

theorem not_frame_of_aside {message : ToHost} (aside : message.aside = true) (id : WindowId) (seq : Nat) (frame : EncodedFrame) :
    message ≠ .windowFrame id seq frame := by
  rintro rfl
  cases aside

theorem not_frame_goneMessages {entry : Entry} (member : entry ∈ App.goneMessages pane) (id : WindowId) (seq : Nat) (frame : EncodedFrame) :
    entry.1 ≠ .windowFrame id seq frame := by
  rw [eq_of_mem_goneMessages member]
  exact fun same => by cases same

theorem coherent_of_move (move : PaneMove lz4 Pixels.Presentable ready pane next entries) (clean : pane.Clean) (coherent : Coherent lz4 log)
    (mirrored : pane.announced = true → Mirrored pane log) : Coherent lz4 (log ++ entries) := by
  cases move with
  | quiet _ _ _ _ aside => exact coherent.append fun entry member => not_frame_of_aside (aside entry member)
  | commit | expire | idle => rwa [append_nil]
  | announce _ _ _ _ _ bounds =>
    refine coherent.append fun entry member id seq frame => ?_
    rcases mem_cons.mp member with rfl | bound
    · nofun
    · obtain ⟨min, max, rfl⟩ := bounds entry bound
      nofun
  | bounds => exact coherent.append (by simp)
  | @frame seq allowLz4 frame _ asBefore _ _ takes =>
    obtain ⟨known, shown⟩ := mirrored asBefore
    generalize next.store = store at takes
    cases takes with
    | @frame current _ _ isCurrent delta =>
      refine coherent.concat fun id otherSeq otherFrame source same => ?_
      obtain ⟨message, rfl⟩ := Prod.mk.inj same
      obtain ⟨rfl, -, rfl⟩ := ToHost.windowFrame.inj message
      exact ⟨current, allowLz4, pane.store.sent, isCurrent, clean.current current isCurrent, known, delta,
        fun retained isSent _ => shown retained isSent⟩
  | gone => exact coherent.append fun entry => not_frame_goneMessages

theorem stable_stream (lz4 : Lz4) : App.Stable lz4 Pixels.Presentable Pane.Clean Mirrored (Coherent lz4) where
  created _ := ⟨by simp, by simp, by simp⟩
  detached _ clean := clean_invalidate clean rfl rfl
  moved := clean_of_move
  tells move _ _ := mirrored_of_move move
  speaks := coherent_of_move
  others := mirrored_of_others
  aside aside coherent := coherent.append fun entry member => by
    rw [mem_singleton.mp member]
    exact not_frame_of_aside aside
  ends _ coherent := coherent.append fun entry => not_frame_goneMessages
  silent before id seq frame source after same := by cases before <;> cases same

end Stable

/-! ## The hosts -/

/-- A window is as it was told to be. -/
def Matches : Option PaneWindow → Option (Option Pixels) → Prop
  | none, none => True
  | some window, some none => window.Ordered
  | some window, some (some pixels) => window.Displays pixels
  | _, _ => False

section Host

variable {lz4 : Lz4} {textures : Fin 2 → Image} {windows : Windows} {id : WindowId} {seen : Option (Option Pixels)} {pixels : Pixels}

theorem Matches.isSome_eq {window : Option PaneWindow} (matching : Matches window seen) : window.isSome = seen.isSome := by
  rcases window with _ | window <;> rcases seen with _ | _ | pixels <;> first | rfl | cases matching

theorem Matches.ordered {window : PaneWindow} (matching : Matches (some window) seen) : window.Ordered := by
  cases seen with
  | none => cases matching
  | some shown =>
    cases shown with
    | none => exact matching
    | some pixels => exact PaneWindow.Displays.ordered matching

/-- A message changes no other window. -/
theorem handleMsg_of_window {message : ToHost} (other : message.window ≠ some id) :
    windows.handleMsg lz4 textures message id = windows id := by
  cases message with
  | windowNew here =>
    have differ : id ≠ here := fun same => other (congrArg some same.symm)
    simp only [Windows.handleMsg]
    split_ifs
    · rfl
    · exact update_of_ne differ _ _
  | windowFrame here =>
    have differ : id ≠ here := fun same => other (congrArg some same.symm)
    simp only [Windows.handleMsg]
    cases windows here with
    | none => rfl
    | some window => exact update_of_ne differ _ _
  | windowGone here => exact update_of_ne (fun same => other (congrArg some same.symm)) _ _
  | windowMinMax | hello | windowTitle | pong | windowScale => rfl

theorem matches_windowNew (matching : Matches (windows id) seen) {title appId : String} {width height scale : Nat} :
    Matches (windows.handleMsg lz4 textures (.windowNew id title appId width height scale) id) (seen.or (some none)) := by
  rw [Windows.handleMsg]
  split_ifs with known
  · obtain ⟨shown, rfl⟩ := Option.isSome_iff_exists.mp (matching.isSome_eq.symm.trans known)
    exact matching
  · rw [matching.isSome_eq, Option.not_isSome_iff_eq_none] at known
    rw [known, update_self]
    exact fun surface isSurface => by cases isSurface

section Log

variable {log before after : List Entry} (coherent : Coherent lz4 log)
include coherent

/-- A window displays the commit that a frame was taken from. -/
theorem displays_windowFrame (textures : Fin 2 → Image) {seq : Nat} {frame : EncodedFrame} {source : Option Pixels}
    (split : log = before ++ (.windowFrame id seq frame, source) :: after) (matching : Matches (windows id) (picture id before)) :
    ∃ pixels window, source = some pixels ∧ (picture id before).isSome = true ∧
      windows.handleMsg lz4 textures (.windowFrame id seq frame) id = some window ∧ window.Displays pixels := by
  obtain ⟨pixels, allowLz4, sent, isSource, presentable, known, delta, retains⟩ := coherent before id seq frame source after split
  obtain ⟨window, found⟩ := Option.isSome_iff_exists.mp (matching.isSome_eq.trans known)
  rw [found] at matching
  rw [Windows.handleMsg, found]
  refine ⟨pixels, _, isSource, known, update_self _ _ _, PaneWindow.displays_applyFrame presentable delta matching.ordered ?_⟩
  intro retained isSent part
  rw [retains retained isSent part] at matching
  exact matching

/-- A window that is as it was told to be is so after the next message of a coherent log. -/
theorem matches_handleMsg {entry : Entry} (split : log = before ++ entry :: after)
    (matching : ∀ id, Matches (windows id) (picture id before)) (id : WindowId) :
    Matches (windows.handleMsg lz4 textures entry.1 id) (picture id (before ++ [entry])) := by
  rw [picture_concat]
  by_cases here : entry.1.window = some id
  · obtain ⟨message, source⟩ := entry
    cases message with
    | windowNew other =>
      obtain rfl := Option.some.inj here
      rw [see, if_pos rfl]
      exact matches_windowNew (matching other)
    | windowFrame other seq frame =>
      obtain rfl := Option.some.inj here
      obtain ⟨pixels, window, rfl, known, isWindow, displays⟩ := displays_windowFrame coherent textures split (matching other)
      obtain ⟨shown, isShown⟩ := Option.isSome_iff_exists.mp known
      rw [isWindow, see, if_pos rfl, isShown]
      exact displays
    | windowGone other =>
      obtain rfl := Option.some.inj here
      simp [Windows.handleMsg, see, Matches]
    | windowMinMax other => exact matching id
    | hello | windowTitle | pong | windowScale => cases here
  · rw [handleMsg_of_window here, see_of_window here]
    exact matching id

end Log

end Host

/-! ## The world -/

/-- The compositor, the windows at the other end of every connection, and how many messages have arrived there. -/
structure World where
  app : App := {}
  windows : Nat → Windows := fun _ _ => none
  delivered : Nat → Nat := fun _ => 0

namespace World

inductive Event where
  | guest (event : App.Event)
  /-- The next message of a connection arrives.  If it takes new textures, these are they. -/
  | deliver (generation : Nat) (textures : Fin 2 → Image)
  | present (generation : Nat) (id : WindowId) (inFlight : Fin 2 → Bool) (drawn : Bool)
  | setOccluded (generation : Nat) (id : WindowId) (occluded : Bool)

def deliver (lz4 : Lz4) (world : World) (generation : Nat) (textures : Fin 2 → Image) : World :=
  match (world.app.log generation)[world.delivered generation]? with
  | some entry =>
    { world with
      windows := update world.windows generation ((world.windows generation).handleMsg lz4 textures entry.1)
      delivered := update world.delivered generation (world.delivered generation + 1) }
  | none => world

def updateWindow (world : World) (generation : Nat) (id : WindowId) (change : PaneWindow → PaneWindow) : World :=
  { world with
    windows := update world.windows generation
      (update (world.windows generation) id ((world.windows generation id).map change)) }

def step (lz4 : Lz4) (world : World) : Event → World
  | .guest event => { world with app := world.app.step lz4 event }
  | .deliver generation textures => world.deliver lz4 generation textures
  | .present generation id inFlight drawn => world.updateWindow generation id fun window => (window.present inFlight drawn).2
  | .setOccluded generation id occluded =>
    world.updateWindow generation id fun window => { window with occluded, dirty := window.dirty || !occluded && window.surface.isSome }

def next (lz4 : Lz4) (world : World) (event : Event) : Option World := some (world.step lz4 event)

/-- Clients commit what a host can show, and hosts speak the compositor's version. -/
def Event.Streams : Event → Prop
  | .guest (.message _ (.hello major _ _)) => major = versionMajor
  | .guest event => ∀ pixels, event.Brings pixels → pixels.Presentable
  | _ => True

/-- All connections are coherent, and every window is as it was told to be by what has arrived. -/
structure Sound (lz4 : Lz4) (world : World) : Prop where
  app : world.app.Keeping Pane.Clean Mirrored (Coherent lz4)
  arrived : ∀ generation, world.delivered generation ≤ (world.app.log generation).length
  matching : ∀ generation id,
    Matches (world.windows generation id) (picture id ((world.app.log generation).take (world.delivered generation)))

variable {lz4 : Lz4} {world : World} {event : App.Event}

theorem hangsUp_eq_false (streams : (Event.guest event).Streams) (app : App) : app.hangsUp event = false := by
  cases event with
  | message generation message =>
    cases message with
    | hello major minor encodings =>
      have supported : major = versionMajor := streams
      simp [App.hangsUp, supported]
    | _ => rfl
  | _ => rfl

theorem brings_presentable (streams : (Event.guest event).Streams) (pixels : Pixels) (brings : event.Brings pixels) :
    pixels.Presentable := by
  cases event with
  | commit | intakeBuffer => exact streams pixels brings
  | _ => cases brings

theorem Sound.guest (sound : world.Sound lz4) (streams : (Event.guest event).Streams) :
    (world.step lz4 (.guest event)).Sound lz4 := by
  have moves : App.Moves lz4 Pixels.Presentable world.app (world.app.step lz4 event) :=
    App.moves_step (brings_presentable streams) (hangsUp_eq_false streams world.app)
  have grows := App.log_of_moves moves
  refine ⟨sound.app.moves (stable_stream lz4) moves, fun generation => ?_, fun generation id => ?_⟩
  · exact (sound.arrived generation).trans (grows generation).length_le
  · show Matches (world.windows generation id) (picture id (((world.app.step lz4 event).log generation).take (world.delivered generation)))
    obtain ⟨more, isLog⟩ := grows generation
    rw [← isLog, take_append_of_le_length (sound.arrived generation)]
    exact sound.matching generation id

theorem split_of_getElem? {log : List Entry} {entry : Entry} {place : Nat} (found : log[place]? = some entry) :
    log = log.take place ++ entry :: log.drop (place + 1) := by
  obtain ⟨inside, rfl⟩ := List.getElem?_eq_some_iff.mp found
  rw [getElem_cons_drop, take_append_drop]

theorem Sound.deliver (sound : world.Sound lz4) (generation : Nat) (textures : Fin 2 → Image) : (world.deliver lz4 generation textures).Sound lz4 := by
  rw [World.deliver]
  cases found : (world.app.log generation)[world.delivered generation]? with
  | none => exact sound
  | some entry =>
    have arrives : world.delivered generation < (world.app.log generation).length := (List.getElem?_eq_some_iff.mp found).1
    have longer : (world.app.log generation).take (world.delivered generation + 1) =
        (world.app.log generation).take (world.delivered generation) ++ [entry] := by
      rw [take_add_one, found]
      rfl
    refine ⟨sound.app, fun other => ?_, fun other id => ?_⟩ <;> rcases eq_or_ne other generation with rfl | here
    · simpa using Nat.succ_le_of_lt arrives
    · simpa [update_of_ne here] using sound.arrived other
    · simp only [update_self, longer]
      exact matches_handleMsg (sound.app.lawful other) (split_of_getElem? found) (sound.matching other) id
    · simp only [update_of_ne here]
      exact sound.matching other id

/-- A change of a window that keeps what it displays. -/
theorem Sound.updateWindow (sound : world.Sound lz4) (generation : Nat) (id : WindowId) {change : PaneWindow → PaneWindow}
    (ordered : ∀ window, window.Ordered → (change window).Ordered)
    (displays : ∀ window pixels, window.Displays pixels → (change window).Displays pixels) :
    (world.updateWindow generation id change).Sound lz4 := by
  refine ⟨sound.app, sound.arrived, fun other otherId => ?_⟩
  have matched := sound.matching other otherId
  simp only [World.updateWindow]
  rcases eq_or_ne other generation with rfl | here
  · rw [update_self]
    rcases eq_or_ne otherId id with rfl | same
    · rw [update_self]
      generalize picture otherId ((world.app.log other).take (world.delivered other)) = seen at matched ⊢
      cases found : world.windows other otherId with
      | none => rwa [found] at matched
      | some window =>
        rw [found] at matched
        cases seen with
        | none => cases matched
        | some shown =>
          cases shown with
          | none => exact ordered window matched
          | some pixels => exact displays window pixels matched
    · rwa [update_of_ne same]
  · rwa [update_of_ne here]

theorem Sound.step {event : Event} (sound : world.Sound lz4) (streams : event.Streams) : (world.step lz4 event).Sound lz4 := by
  cases event with
  | guest event => exact sound.guest streams
  | deliver generation textures => exact sound.deliver generation textures
  | present generation id inFlight drawn =>
    exact sound.updateWindow generation id (fun window ordered => ordered.present inFlight drawn)
      fun window pixels displays => displays.present inFlight drawn
  | setOccluded generation id occluded => exact sound.updateWindow generation id (fun _ ordered => ordered) fun _ _ displays => displays

theorem Sound.initial (lz4 : Lz4) : ({} : World).Sound lz4 where
  app := App.Keeping.initial (stable_stream lz4)
  arrived _ := Nat.zero_le _
  matching _ _ := trivial

/-- A frame that arrives makes its window display the commit that it was taken from. -/
theorem Sound.displays_frame (sound : world.Sound lz4) {generation : Nat} (textures : Fin 2 → Image) {id : WindowId} {seq : Nat}
    {frame : EncodedFrame} {source : Option Pixels}
    (arrives : (world.app.log generation)[world.delivered generation]? = some (.windowFrame id seq frame, source)) :
    ∃ pixels window, source = some pixels ∧ (world.deliver lz4 generation textures).windows generation id = some window ∧
      window.Displays pixels := by
  obtain ⟨pixels, window, isSource, -, isWindow, displays⟩ := displays_windowFrame (sound.app.lawful generation) textures
    (split_of_getElem? arrives) (sound.matching generation id)
  refine ⟨pixels, window, isSource, ?_, displays⟩
  rw [World.deliver, arrives]
  simpa using isWindow

/-- What a clean pane has is displayed where all has arrived. -/
theorem Sound.displays_clean (sound : world.Sound lz4) {pane : Pane} (member : pane ∈ world.app.panes) {pixels : Pixels}
    (clean : pane.store.dirty = false) (isCurrent : pane.store.current = some pixels) :
    ∃ link, world.app.host = some link ∧
      (world.delivered link.generation = (world.app.log link.generation).length →
        ∃ window, world.windows link.generation pane.id = some window ∧ window.Displays pixels) := by
  obtain ⟨announced, isSent⟩ := (sound.app.holds pane member).clean clean pixels isCurrent
  rcases Option.eq_none_or_eq_some world.app.host with isHost | ⟨link, isHost⟩
  · cases (sound.app.alone isHost pane member).symm.trans announced
  · refine ⟨link, isHost, fun arrived => ?_⟩
    have matched := sound.matching link.generation pane.id
    rw [arrived, take_length, (sound.app.told link isHost pane member announced).2 pixels isSent] at matched
    obtain ⟨window, isWindow⟩ := Option.isSome_iff_exists.mp matched.isSome_eq
    rw [isWindow] at matched
    exact ⟨window, isWindow, matched⟩

theorem Sound.of_run {events : List Event} {final : World} (streams : ∀ event ∈ events, event.Streams)
    (ran : run (next lz4) {} events = some final) : final.Sound lz4 := by
  refine invariant_of_along (fun world event next sound good stepped => ?_) (Sound.initial lz4)
    ((along_true _ _).and_forall streams) ran
  obtain rfl := Option.some.inj stepped
  exact sound.step good.2

/-- After every frame that arrives its window displays the commit that the frame was taken from, and a clean window is
displayed as it is once all has arrived. -/
theorem windows_display_commits {lz4 : Lz4} {events : List Event} {final : World} (streams : ∀ event ∈ events, event.Streams)
    (ran : run (next lz4) {} events = some final) :
    (∀ generation textures id seq frame source,
      (final.app.log generation)[final.delivered generation]? = some (.windowFrame id seq frame, source) →
      ∃ pixels window, source = some pixels ∧ (final.step lz4 (.deliver generation textures)).windows generation id = some window ∧
        window.Displays pixels) ∧
    ∀ pane ∈ final.app.panes, ∀ pixels, pane.store.dirty = false → pane.store.current = some pixels →
      ∃ link, final.app.host = some link ∧
        (final.delivered link.generation = (final.app.log link.generation).length →
          ∃ window, final.windows link.generation pane.id = some window ∧ window.Displays pixels) := by
  have sound := Sound.of_run streams ran
  exact ⟨fun generation textures id seq frame source arrives => sound.displays_frame textures arrives,
    fun pane member pixels clean isCurrent => sound.displays_clean member clean isCurrent⟩

/-- A window is announced to a host, and its first frame is on the way. -/
def oneFrame : List Event :=
  [.guest .newToplevel, .guest .connected, .guest (.message 1 (.hello 1 3 [])), .guest (.commit 0 (.shm (some (dot 0))) 1 none none),
    .deliver 1 (fun _ _ _ => 0), .deliver 1 (fun _ _ _ => 0)]

theorem oneFrame_displays : ∃ final, run (next plainLz4) {} oneFrame = some final ∧
    ∃ seq frame, (final.app.log 1)[final.delivered 1]? = some (.windowFrame 1 seq frame, some (dot 0)) ∧
      ∃ window, (final.step plainLz4 (.deliver 1 (fun _ _ _ => 0))).windows 1 1 = some window ∧ window.Displays (dot 0) := by
  obtain ⟨final, ran, arrives⟩ := exists_run (next plainLz4) {} oneFrame
    (fun final => (final.app.log 1)[final.delivered 1]? =
      some (.windowFrame 1 1 ⟨1, 1, true, [⟨⟨0, 0, 1, 1⟩, .raw, [0, 0, 0, 0]⟩]⟩, some (dot 0))) (by decide +kernel)
  have streams : ∀ event ∈ oneFrame, event.Streams := by
    have black : (dot 0).Presentable := by decide
    simp [oneFrame, Event.Streams, App.Event.Brings, versionMajor, black]
  obtain ⟨pixels, window, isSource, isWindow, displays⟩ := (windows_display_commits streams ran).1 1 (fun _ _ _ => 0) _ _ _ _ arrives
  obtain rfl := Option.some.inj isSource
  exact ⟨final, ran, _, _, arrives, window, isWindow, displays⟩

end World

end Index.Panes
