import Index.Panes.Compositor
import Index.Panes.Delta
import Mathlib.Logic.Relation

/-! # Moves of the compositor

Whatever happens, the compositor does it in moves of few kinds: a pane moves on and says something on its behalf, panes
come and go, or the connection changes.  What every move keeps, every event keeps. -/

namespace Index.Panes

/-- Messages that neither announce, show, bound nor end a window. -/
def ToHost.aside : ToHost → Bool
  | .hello .. | .windowTitle .. | .pong .. | .windowScale .. => true
  | .windowNew .. | .windowMinMax .. | .windowFrame .. | .windowGone .. => false

/-- A move of one pane, with what is said on its behalf.  Pixels come from clients or from a buffer held before. -/
inductive PaneMove (lz4 : Lz4) (arrives : Pixels → Prop) (ready : Bool) (pane : Pane) : Pane → List (ToHost × Option Pixels) → Prop where
  | quiet {next messages} : next.id = pane.id → next.announced = pane.announced → next.store = pane.store →
    (∀ held, next.pendingGpu = some held → pane.pendingGpu = some held ∨ ∀ pixels, held.frame = some pixels → arrives pixels) →
    (∀ message ∈ messages, message.1.aside = true) → PaneMove lz4 arrives ready pane next messages
  | commit {next pixels} : next.id = pane.id → next.announced = pane.announced → next.store = pane.store.commit pixels →
    (arrives pixels ∨ ∃ held, pane.pendingGpu = some held ∧ held.frame = some pixels) →
    (next.pendingGpu = pane.pendingGpu ∨ next.pendingGpu = none) → PaneMove lz4 arrives ready pane next []
  | expire {next} : next.id = pane.id → next.announced = pane.announced → next.store = pane.store.invalidate →
    next.pendingGpu = pane.pendingGpu → PaneMove lz4 arrives ready pane next []
  | announce {next title appId width height scale bounds} : ready = true → next.id = pane.id → next.announced = true →
    next.store = pane.store.invalidate → next.pendingGpu = pane.pendingGpu →
    (∀ message ∈ bounds, ∃ min max, message = (.windowMinMax pane.id min max, none)) →
    PaneMove lz4 arrives ready pane next ((.windowNew pane.id title appId width height scale, none) :: bounds)
  | bounds {next min max} : pane.announced = true → next.id = pane.id → next.announced = true → next.store = pane.store →
    next.pendingGpu = pane.pendingGpu → PaneMove lz4 arrives ready pane next [(.windowMinMax pane.id min max, none)]
  | frame {next seq allowLz4 frame} : ready = true → pane.announced = true → next.id = pane.id → next.announced = true →
    Takes lz4 allowLz4 pane.store (some frame) next.store → next.pendingGpu = pane.pendingGpu →
    PaneMove lz4 arrives ready pane next [(.windowFrame pane.id seq frame, pane.store.current)]
  | idle {next allowLz4} : ready = true → pane.announced = true → next.id = pane.id → next.announced = true →
    Takes lz4 allowLz4 pane.store none next.store → next.pendingGpu = pane.pendingGpu → PaneMove lz4 arrives ready pane next []
  | gone {next} : next.id = pane.id → next.announced = false → next.store = {} → next.pendingGpu = none →
    PaneMove lz4 arrives ready pane next (App.goneMessages pane)

namespace App

inductive Move (lz4 : Lz4) (arrives : Pixels → Prop) (app : App) : App → Prop where
  | pane {index pane next messages} : app.panes[index]? = some pane →
    PaneMove lz4 arrives app.readyHost.isSome pane next messages → Move lz4 arrives app ((app.setPane index next).sendAll messages)
  | add : Move lz4 arrives app app.newToplevel
  | remove {index pane} : app.panes[index]? = some pane →
    Move lz4 arrives app ({ app with panes := app.panes.eraseIdx index }.sendAll (goneMessages pane))
  | accept : Move lz4 arrives app { app with generation := app.generation + 1 }
  | connect {link} : app.host = none → link.generation = app.generation + 1 →
    Move lz4 arrives app { app with generation := app.generation + 1, host := some link }
  | ready {link next} : app.host = some link → next.generation = link.generation → next.ready = true →
    Move lz4 arrives app { app with host := some next }
  | aside {message} : message.aside = true → Move lz4 arrives app (app.send message)
  | detach : Move lz4 arrives app { app with host := none, panes := app.panes.map App.detach }
  /-- Hanging up on a host that was told of no window. -/
  | hangUp : (∀ pane ∈ app.panes, pane.announced = false) → Move lz4 arrives app { app with host := none }

def Moves (lz4 : Lz4) (arrives : Pixels → Prop) : App → App → Prop := Relation.ReflTransGen (Move lz4 arrives)

/-! ## What sending and setting a pane leave -/

section Fields

variable {app : App} {index : Nat} {pane next : Pane} {messages : List (ToHost × Option Pixels)}

@[simp] theorem panes_sendAll : (app.sendAll messages).panes = app.panes := by
  rw [sendAll]
  cases app.host <;> rfl

@[simp] theorem host_sendAll : (app.sendAll messages).host = app.host := by
  rw [sendAll]
  cases host : app.host <;> simp [host]

@[simp] theorem generation_sendAll : (app.sendAll messages).generation = app.generation := by
  rw [sendAll]
  cases app.host <;> rfl

@[simp] theorem nextWindowId_sendAll : (app.sendAll messages).nextWindowId = app.nextWindowId := by
  rw [sendAll]
  cases app.host <;> rfl

@[simp] theorem host_setPane : (app.setPane index next).host = app.host := rfl

@[simp] theorem readyHost_sendAll : (app.sendAll messages).readyHost = app.readyHost := by rw [readyHost, host_sendAll, readyHost]

@[simp] theorem readyHost_setPane : (app.setPane index next).readyHost = app.readyHost := rfl

@[simp] theorem sendAll_nil : app.sendAll [] = app := by
  obtain ⟨panes, nextWindowId, host, generation, sent⟩ := app
  cases host <;> simp [sendAll]

theorem getElem?_setPane (found : app.panes[index]? = some pane) : (app.setPane index next).panes[index]? = some next := by
  have inside : index < app.panes.length := (List.getElem?_eq_some_iff.mp found).1
  rw [setPane, List.getElem?_set_self inside]

end Fields

/-! ## Each operation is made of moves -/

section Operations

variable {lz4 : Lz4} {arrives : Pixels → Prop} {app : App} {index : Nat} {link : HostLink}

theorem Moves.refl (app : App) : Moves lz4 arrives app app := Relation.ReflTransGen.refl

theorem Moves.trans {middle last : App} (first : Moves lz4 arrives app middle) (next : Moves lz4 arrives middle last) :
    Moves lz4 arrives app last := Relation.ReflTransGen.trans first next

theorem Moves.one {next : App} (move : Move lz4 arrives app next) : Moves lz4 arrives app next := Relation.ReflTransGen.single move

theorem moves_withPane {act : Pane → App} (each : ∀ pane, app.panes[index]? = some pane → Moves lz4 arrives app (act pane)) :
    Moves lz4 arrives app (app.withPane index act) := by
  rw [withPane]
  cases found : app.panes[index]? with
  | none => exact Moves.refl app
  | some pane => exact each pane found

/-- A move of a pane on whose behalf nothing is said. -/
theorem moves_setPane {pane next : Pane} (found : app.panes[index]? = some pane)
    (move : PaneMove lz4 arrives app.readyHost.isSome pane next []) : Moves lz4 arrives app (app.setPane index next) := by
  have moved := Move.pane found move
  rw [sendAll_nil] at moved
  exact Moves.one moved

theorem moves_foldl {act : App → Nat → App} (each : ∀ app index, Moves lz4 arrives app (act app index)) (indices : List Nat) :
    ∀ app, Moves lz4 arrives app (indices.foldl act app) := by
  induction indices with
  | nil => exact Moves.refl
  | cons index indices ih => exact fun app => (each app index).trans (ih _)

theorem moves_syncWindowScale (app : App) (index : Nat) : Moves lz4 arrives app (app.syncWindowScale index) := by
  refine moves_withPane fun pane found => ?_
  split_ifs
  · exact Moves.refl app
  · cases app.readyHost.filter fun link => minorWindowScale ≤ link.minor with
    | none => exact Moves.refl app
    | some link => exact Moves.one (Move.pane found (.quiet rfl rfl rfl (fun _ held => Or.inl held) (by simp [ToHost.aside])))

theorem moves_absorbPendingGpu (app : App) (index : Nat) : Moves lz4 arrives app (app.absorbPendingGpu index) := by
  refine moves_withPane fun pane found => ?_
  cases pending : pane.pendingGpu with
  | none => exact Moves.refl app
  | some held =>
    obtain ⟨frame, scale⟩ := held
    cases frame with
    | none =>
      refine Moves.trans (moves_setPane found ?_) (moves_syncWindowScale _ index)
      exact .quiet rfl rfl rfl (by simp) (by simp)
    | some pixels =>
      refine Moves.trans (moves_setPane found ?_) (moves_syncWindowScale _ index)
      exact .commit rfl rfl rfl (Or.inr ⟨_, pending, rfl⟩) (Or.inr rfl)

theorem moves_announce (isReady : app.readyHost.isSome = true) : Moves lz4 arrives app (app.announce index) := by
  refine moves_withPane fun pane found => ?_
  split_ifs with announced
  · exact Moves.refl app
  · refine Moves.one (Move.pane found (.announce isReady rfl rfl rfl rfl fun message member => ?_))
    split_ifs at member with bounded
    · exact ⟨_, _, List.mem_singleton.mp member⟩
    · cases member

theorem announced_announce {pane : Pane} (found : (app.announce index).panes[index]? = some pane) : pane.announced = true := by
  rw [announce, withPane] at found
  cases there : app.panes[index]? with
  | none =>
    rw [there] at found
    simp [there] at found
  | some old =>
    rw [there] at found
    simp only at found
    split_ifs at found with announced
    · rw [there] at found
      exact Option.some.inj found ▸ announced
    · rw [panes_sendAll, getElem?_setPane there] at found
      exact Option.some.inj found ▸ rfl

theorem readyHost_announce : (app.announce index).readyHost = app.readyHost := by
  rw [announce, withPane]
  cases app.panes[index]? with
  | none => rfl
  | some pane =>
    simp only
    split_ifs <;> simp

theorem moves_sendFrame (isReady : app.readyHost.isSome = true)
    (announced : ∀ pane, app.panes[index]? = some pane → pane.announced = true) : Moves lz4 arrives app (sendFrame lz4 link app index) := by
  refine moves_withPane fun pane found => ?_
  have takes := takes_takeFrame lz4 link.lz4 pane.store
  generalize pane.store.takeFrame lz4 link.lz4 = taken at takes ⊢
  obtain ⟨frame, store⟩ := taken
  have isAnnounced := announced pane found
  cases frame with
  | none => exact moves_setPane found (.idle isReady isAnnounced rfl isAnnounced takes rfl)
  | some frame => exact Moves.one (Move.pane found (.frame isReady isAnnounced rfl isAnnounced takes rfl))

theorem moves_pumpContent (isReady : app.readyHost.isSome = true) : Moves lz4 arrives app (pumpContent lz4 link app index) := by
  refine moves_withPane fun pane found => ?_
  split_ifs
  · exact Moves.refl app
  · exact (moves_announce isReady).trans (moves_sendFrame (by rwa [readyHost_announce]) fun _ => announced_announce)

theorem readyHost_syncWindowScale : (app.syncWindowScale index).readyHost = app.readyHost := by
  rw [syncWindowScale, withPane]
  cases app.panes[index]? with
  | none => rfl
  | some pane =>
    simp only
    split_ifs
    · rfl
    · cases app.readyHost.filter fun link => minorWindowScale ≤ link.minor with
      | none => rfl
      | some link => simp [send]

theorem readyHost_absorbPendingGpu : (app.absorbPendingGpu index).readyHost = app.readyHost := by
  rw [absorbPendingGpu, withPane]
  cases app.panes[index]? with
  | none => rfl
  | some pane =>
    simp only
    split <;> simp [readyHost_syncWindowScale]

theorem moves_pump (app : App) (index : Nat) : Moves lz4 arrives app (pump lz4 app index) := by
  rw [pump]
  cases host : app.readyHost with
  | none => exact Moves.refl app
  | some link =>
    refine moves_withPane fun pane found => ?_
    split_ifs
    · exact Moves.refl app
    · exact (moves_absorbPendingGpu app index).trans (moves_pumpContent (by rw [readyHost_absorbPendingGpu, host]; rfl))

theorem moves_onAck (app : App) (id : WindowId) (seq : Nat) : Moves lz4 arrives app (onAck lz4 app id seq) := by
  rw [onAck]
  cases app.paneIndex id with
  | none => exact Moves.refl app
  | some index =>
    refine moves_withPane fun pane found => ?_
    cases pane.inflight with
    | none => exact Moves.refl app
    | some awaited =>
      simp only
      split_ifs
      · refine Moves.trans (moves_setPane found ?_) (moves_pump _ index)
        exact .quiet rfl rfl rfl (fun _ held => Or.inl held) (by simp)
      · exact Moves.refl app

theorem moves_tickPane (app : App) (index : Nat) : Moves lz4 arrives app (tickPane lz4 app index) := by
  refine moves_withPane fun pane found => ?_
  split_ifs
  · exact Moves.refl app
  · exact moves_setPane found (.quiet rfl rfl rfl (fun _ held => Or.inl held) (by simp))
  · refine Moves.trans (moves_setPane found ?_) (moves_pump _ index)
    exact .expire rfl rfl rfl rfl

theorem moves_onTick (app : App) : Moves lz4 arrives app (onTick lz4 app) := by
  rw [onTick]
  split_ifs
  · exact moves_foldl moves_tickPane _ app
  · exact Moves.refl app

/-- A hello with the right version, or from a host that was told of no window. -/
theorem moves_onHello {major minor : Nat} {encodings : List Encoding} (isHost : app.host = some link)
    (heard : major ≠ versionMajor → ∀ pane ∈ app.panes, pane.announced = false) :
    Moves lz4 arrives app (onHello lz4 app link major minor encodings) := by
  rw [onHello]
  split_ifs with other
  · exact Moves.one (.hangUp (heard other))
  · refine Moves.trans (Moves.one ?_) (moves_foldl moves_pump _ _)
    exact .ready isHost rfl rfl

theorem moves_onConnected (app : App) : Moves lz4 arrives app app.onConnected := by
  rw [onConnected]
  simp only
  split_ifs with taken
  · exact Moves.one .accept
  · exact (Moves.one (.connect (Option.not_isSome_iff_eq_none.mp taken) rfl)).trans (Moves.one (.aside rfl))

theorem moves_intakeBuffer {assignment : Assignment} (scale : Nat)
    (brings : ∀ pixels, assignment = .shm (some pixels) ∨ assignment = .dmabuf (some pixels) → arrives pixels) :
    Moves lz4 arrives app (app.intakeBuffer index assignment scale) := by
  refine moves_withPane fun pane found => ?_
  cases assignment with
  | unchanged => exact Moves.refl app
  | shm frame =>
    cases frame with
    | none => exact Moves.refl app
    | some pixels => exact moves_setPane found (.commit rfl rfl rfl (Or.inl (brings pixels (Or.inl rfl))) (Or.inl rfl))
  | dmabuf frame =>
    refine moves_setPane found (.quiet rfl rfl rfl ?_ (by simp))
    rintro held isHeld
    obtain rfl := Option.some.inj isHeld
    refine Or.inr fun pixels isPixels => brings pixels (Or.inr ?_)
    rw [show frame = some pixels from isPixels]
  | removed => exact Moves.one (Move.pane found (.gone rfl rfl rfl rfl))

theorem moves_syncMinMax (app : App) (index : Nat) (min max : Option (Nat × Nat)) :
    Moves lz4 arrives app (app.syncMinMax index min max) := by
  refine moves_withPane fun pane found => ?_
  simp only
  split_ifs with same announced
  · exact Moves.refl app
  · exact Moves.one (Move.pane found (.bounds announced rfl announced rfl rfl))
  · rw [sendAll_nil]
    exact moves_setPane found (.quiet rfl rfl rfl (fun _ held => Or.inl held) (by simp))

theorem moves_titleChanged (app : App) (index : Nat) (title : String) : Moves lz4 arrives app (app.titleChanged index title) := by
  refine moves_withPane fun pane found => ?_
  split_ifs
  · exact Moves.refl app
  · exact Moves.one (Move.pane found (.quiet rfl rfl rfl (fun _ held => Or.inl held) (by simp [ToHost.aside])))
  · exact Moves.one (Move.pane found (.quiet rfl rfl rfl (fun _ held => Or.inl held) (by simp)))

/-- The pixels that an event brings. -/
def Event.Brings (pixels : Pixels) : Event → Prop
  | .commit _ assignment _ _ _ | .intakeBuffer _ assignment _ => assignment = .shm (some pixels) ∨ assignment = .dmabuf (some pixels)
  | _ => False

/-- The event makes the compositor hang up on a host that it has told of windows: a hello with another major version. -/
def hangsUp (app : App) : Event → Bool
  | .message generation (.hello major _ _) =>
    app.host.any (fun link => link.generation = generation) && major ≠ versionMajor && app.panes.any Pane.announced
  | _ => false

/-- Every event is made of moves, but for hanging up. -/
theorem moves_step {event : Event} (brings : ∀ pixels, event.Brings pixels → arrives pixels) (stays : app.hangsUp event = false) :
    Moves lz4 arrives app (app.step lz4 event) := by
  cases event with
  | newToplevel => exact Moves.one .add
  | toplevelDestroyed index => exact moves_withPane fun pane found => Moves.one (.remove found)
  | titleChanged index title => exact moves_titleChanged app index title
  | appIdChanged index appId =>
    exact moves_withPane fun pane found => moves_setPane found (.quiet rfl rfl rfl (fun _ held => Or.inl held) (by simp))
  | commit index assignment scale min max =>
    exact (moves_intakeBuffer scale brings).trans ((moves_syncWindowScale _ index).trans
      ((moves_syncMinMax _ index min max).trans (moves_pump _ index)))
  | intakeBuffer index assignment scale => exact moves_intakeBuffer scale brings
  | pump index => exact moves_pump app index
  | tick => exact moves_onTick app
  | connected => exact moves_onConnected app
  | disconnected generation =>
    show Moves lz4 arrives app (app.onDisconnected generation)
    rw [onDisconnected]
    cases app.host with
    | none => exact Moves.refl app
    | some link =>
      simp only
      split_ifs
      · exact Moves.one .detach
      · exact Moves.refl app
  | message generation message =>
    show Moves lz4 arrives app (app.onMessage lz4 generation message)
    rw [onMessage]
    cases isHost : app.host with
    | none => exact Moves.refl app
    | some link =>
      simp only
      split_ifs with current
      · cases message with
        | hello major minor encodings =>
          refine moves_onHello isHost fun other pane member => Bool.eq_false_iff.mpr fun announced => ?_
          simp only [hangsUp, isHost, Option.any_some, current, decide_true, other, ne_eq, not_false_eq_true, Bool.true_and,
            List.any_eq_false] at stays
          exact stays pane member announced
        | ack id seq =>
          simp only [onHostMsg]
          split_ifs
          · exact moves_onAck app id seq
          · exact Moves.refl app
        | ping nonce =>
          simp only [onHostMsg]
          split_ifs
          · exact Moves.one (.aside rfl)
          · exact Moves.refl app
        | other =>
          simp only [onHostMsg, ite_self]
          exact Moves.refl app
      · exact Moves.refl app

end Operations

end App

end Index.Panes
