import Mathlib
import Index.Panes.Wire

/-! # The compositor of the guest

Every toplevel of a client is a pane.  While a host is connected and has said hello, panes with content are announced to
it and their frames are sent, one at a time: the next one waits for the host's ack, or for the watchdog. -/

namespace Index.Panes

def inflightWatchdogTicks : Nat := 10

def inflightWatchdogMaxTicks : Nat := 80

/-- A committed dmabuf that is not read back yet, with what the readback will give. -/
structure HeldGpuBuffer where
  frame : Option Pixels
  scale : Nat
deriving DecidableEq

structure Pane where
  id : WindowId
  store : FrameStore := {}
  /-- `windowNew` was sent on the current connection. -/
  announced : Bool := false
  seq : Nat := 0
  /-- The frame on the wire that is not acked. -/
  inflight : Option Nat := none
  inflightTicks : Nat := 0
  watchdogTicks : Nat := inflightWatchdogTicks
  title : String := ""
  appId : String := ""
  min : Option (Nat × Nat) := none
  max : Option (Nat × Nat) := none
  scale : Nat := 1
  announcedScale : Nat := 1
  pendingGpu : Option HeldGpuBuffer := none
deriving DecidableEq

structure HostLink where
  generation : Nat
  /-- The hello of the host has arrived. -/
  ready : Bool := false
  lz4 : Bool := false
  minor : Nat := 0
deriving DecidableEq

/-- A message that was queued for a connection.  Of a frame it is noted which commit it was taken from. -/
structure Sent where
  generation : Nat
  message : ToHost
  source : Option Pixels
deriving DecidableEq

structure App where
  panes : List Pane := []
  nextWindowId : WindowId := 1
  host : Option HostLink := none
  /-- The connections that the transport has accepted. -/
  generation : Nat := 0
  sent : List Sent := []
deriving DecidableEq

/-- The logical bounds of a window in pixels of a scale. -/
def wireBounds (bounds : Option (Nat × Nat)) (scale : Nat) : Option (Nat × Nat) :=
  bounds.map fun (w, h) => (Nat.min (w * scale) (2 ^ 32 - 1), Nat.min (h * scale) (2 ^ 32 - 1))

namespace App

def paneIndex (app : App) (id : WindowId) : Option Nat := app.panes.findIdx? fun pane => pane.id = id

def setPane (app : App) (index : Nat) (pane : Pane) : App := { app with panes := app.panes.set index pane }

def withPane (app : App) (index : Nat) (act : Pane → App) : App :=
  match app.panes[index]? with
  | some pane => act pane
  | none => app

/-- `HostLink::send`, to the host there is. -/
def sendAll (app : App) (messages : List (ToHost × Option Pixels)) : App :=
  match app.host with
  | some link => { app with sent := app.sent ++ messages.map fun (message, source) => ⟨link.generation, message, source⟩ }
  | none => app

def send (app : App) (message : ToHost) : App := app.sendAll [(message, none)]

def readyHost (app : App) : Option HostLink := app.host.filter HostLink.ready

/-! ## Sending -/

def minMaxMessages (pane : Pane) (scale : Nat) : List (ToHost × Option Pixels) :=
  [(.windowMinMax pane.id (wireBounds pane.min scale) (wireBounds pane.max scale), none)]

/-- Announces the scale of a window again when it has changed. -/
def syncWindowScale (app : App) (index : Nat) : App := app.withPane index fun pane =>
  if !pane.announced || pane.scale = pane.announcedScale then app
  else
    match app.readyHost.filter fun link => minorWindowScale ≤ link.minor with
    | some _ => (app.setPane index { pane with announcedScale := pane.scale }).send (.windowScale pane.id pane.scale)
    | none => app

/-- Reads the held dmabuf back. -/
def absorbPendingGpu (app : App) (index : Nat) : App := app.withPane index fun pane =>
  match pane.pendingGpu with
  | some ⟨some pixels, scale⟩ =>
    (app.setPane index { pane with pendingGpu := none, scale, store := pane.store.commit pixels }).syncWindowScale index
  | some ⟨none, _⟩ => (app.setPane index { pane with pendingGpu := none }).syncWindowScale index
  | none => app

/-- The window and its bounds, if it has any. -/
def announceMessages (pane : Pane) : List (ToHost × Option Pixels) :=
  let width := (pane.store.current.map Pixels.width).getD 0
  let height := (pane.store.current.map Pixels.height).getD 0
  (.windowNew pane.id pane.title pane.appId width height pane.scale, none) ::
    if pane.min.isSome || pane.max.isSome then minMaxMessages pane pane.scale else []

def announce (app : App) (index : Nat) : App := app.withPane index fun pane =>
  if pane.announced then app
  else
    (app.setPane index { pane with announcedScale := pane.scale, announced := true, store := pane.store.invalidate }).sendAll
      (announceMessages pane)

section Lz4

variable (lz4 : Lz4)

def sendFrame (link : HostLink) (app : App) (index : Nat) : App := app.withPane index fun pane =>
  match pane.store.takeFrame lz4 link.lz4 with
  | (some frame, store) =>
    let seq := pane.seq + 1
    (app.setPane index { pane with store, seq, inflight := some seq, inflightTicks := 0 }).sendAll
      [(.windowFrame pane.id seq frame, pane.store.current)]
  | (none, store) => app.setPane index { pane with store }

/-- Sends what a pane with content has. -/
def pumpContent (link : HostLink) (app : App) (index : Nat) : App := app.withPane index fun pane =>
  if pane.store.current.isNone then app else sendFrame lz4 link (app.announce index) index

/-- Tries to move one frame of a pane onto the wire. -/
def pump (app : App) (index : Nat) : App :=
  match app.readyHost with
  | none => app
  | some link => app.withPane index fun pane =>
    if pane.inflight.isSome then app else pumpContent lz4 link (app.absorbPendingGpu index) index

/-! ## The host -/

def onAck (app : App) (id : WindowId) (seq : Nat) : App :=
  match app.paneIndex id with
  | none => app
  | some index => app.withPane index fun pane =>
    match pane.inflight with
    | some awaited =>
      if awaited ≤ seq then
        pump lz4 (app.setPane index { pane with inflight := none, inflightTicks := 0, watchdogTicks := inflightWatchdogTicks }) index
      else app
    | none => app

def pumpAll (app : App) : App := (List.range app.panes.length).foldl (pump lz4) app

def onHello (app : App) (link : HostLink) (major minor : Nat) (encodings : List Encoding) : App :=
  if major ≠ versionMajor then { app with host := none }
  else pumpAll lz4 { app with host := some { link with ready := true, lz4 := encodings.contains .lz4, minor } }

def onHostMsg (app : App) (link : HostLink) : ToGuest → App
  | .hello major minor encodings => onHello lz4 app link major minor encodings
  | message =>
    if link.ready then
      match message with
      | .ack id seq => onAck lz4 app id seq
      | .ping nonce => app.send (.pong nonce)
      | _ => app
    else app

/-- What a pane is for the next connection. -/
def detach (pane : Pane) : Pane :=
  { pane with inflight := none, inflightTicks := 0, watchdogTicks := inflightWatchdogTicks, announced := false
              store := pane.store.invalidate }

/-- The transport has accepted a connection.  A second host is refused. -/
def onConnected (app : App) : App :=
  let app := { app with generation := app.generation + 1 }
  if app.host.isSome then app
  else { app with host := some { generation := app.generation } }.send (.hello versionMajor versionMinor)

def onDisconnected (app : App) (generation : Nat) : App :=
  match app.host with
  | some link => if link.generation = generation then { app with host := none, panes := app.panes.map detach } else app
  | none => app

def onMessage (app : App) (generation : Nat) (message : ToGuest) : App :=
  match app.host with
  | some link => if link.generation = generation then onHostMsg lz4 app link message else app
  | none => app

/-- The watchdog of a pane: a frame that is not acked in time is given up. -/
def tickPane (app : App) (index : Nat) : App := app.withPane index fun pane =>
  if pane.inflight.isNone then app
  else if pane.inflightTicks + 1 < pane.watchdogTicks then app.setPane index { pane with inflightTicks := pane.inflightTicks + 1 }
  else
    pump lz4 (app.setPane index { pane with
      watchdogTicks := Nat.min (pane.watchdogTicks * 2) inflightWatchdogMaxTicks, inflight := none, inflightTicks := 0
      store := pane.store.invalidate }) index

def onTick (app : App) : App :=
  if app.readyHost.isSome then (List.range app.panes.length).foldl (tickPane lz4) app else app

end Lz4

/-! ## The clients -/

/-- What a commit attaches: a buffer with what its pixels are copied or read back as, nothing, or the end of the
window's content. -/
inductive Assignment where
  | unchanged
  | shm (frame : Option Pixels)
  | dmabuf (frame : Option Pixels)
  | removed
deriving DecidableEq

def goneMessages (pane : Pane) : List (ToHost × Option Pixels) := if pane.announced then [(.windowGone pane.id, none)] else []

def intakeBuffer (app : App) (index : Nat) (assignment : Assignment) (scale : Nat) : App := app.withPane index fun pane =>
  match assignment with
  | .unchanged => app
  | .shm none => app
  | .shm (some pixels) => app.setPane index { pane with scale := Nat.max scale 1, store := pane.store.commit pixels }
  | .dmabuf frame => app.setPane index { pane with pendingGpu := some ⟨frame, Nat.max scale 1⟩ }
  | .removed =>
    (app.setPane index { pane with pendingGpu := none, announced := false, inflight := none, inflightTicks := 0, store := {} }).sendAll
      (goneMessages pane)

def syncMinMax (app : App) (index : Nat) (min max : Option (Nat × Nat)) : App := app.withPane index fun pane =>
  if pane.min = min ∧ pane.max = max then app
  else
    let pane := { pane with min, max }
    (app.setPane index pane).sendAll (if pane.announced then minMaxMessages pane pane.announcedScale else [])

def commit (lz4 : Lz4) (app : App) (index : Nat) (assignment : Assignment) (scale : Nat) (min max : Option (Nat × Nat)) : App :=
  pump lz4 (((app.intakeBuffer index assignment scale).syncWindowScale index).syncMinMax index min max) index

def newToplevel (app : App) : App :=
  { app with panes := app.panes ++ [{ id := app.nextWindowId }], nextWindowId := app.nextWindowId + 1 }

def toplevelDestroyed (app : App) (index : Nat) : App := app.withPane index fun pane =>
  { app with panes := app.panes.eraseIdx index }.sendAll (goneMessages pane)

def titleChanged (app : App) (index : Nat) (title : String) : App := app.withPane index fun pane =>
  if pane.title = title then app
  else
    (app.setPane index { pane with title }).sendAll (if pane.announced then [(.windowTitle pane.id title, none)] else [])

def appIdChanged (app : App) (index : Nat) (appId : String) : App := app.withPane index fun pane =>
  app.setPane index { pane with appId }

/-! ## Events -/

/-- What happens to the compositor.  Apart from whole commits there are their parts: taking the buffer and trying to
send. -/
inductive Event where
  | newToplevel
  | toplevelDestroyed (index : Nat)
  | titleChanged (index : Nat) (title : String)
  | appIdChanged (index : Nat) (appId : String)
  | commit (index : Nat) (assignment : Assignment) (scale : Nat) (min max : Option (Nat × Nat))
  | intakeBuffer (index : Nat) (assignment : Assignment) (scale : Nat)
  | pump (index : Nat)
  | tick
  | connected
  | disconnected (generation : Nat)
  | message (generation : Nat) (message : ToGuest)

def step (lz4 : Lz4) (app : App) : Event → App
  | .newToplevel => app.newToplevel
  | .toplevelDestroyed index => app.toplevelDestroyed index
  | .titleChanged index title => app.titleChanged index title
  | .appIdChanged index appId => app.appIdChanged index appId
  | .commit index assignment scale min max => app.commit lz4 index assignment scale min max
  | .intakeBuffer index assignment scale => app.intakeBuffer index assignment scale
  | .pump index => app.pump lz4 index
  | .tick => app.onTick lz4
  | .connected => app.onConnected
  | .disconnected generation => app.onDisconnected generation
  | .message generation message => app.onMessage lz4 generation message

def next (lz4 : Lz4) (app : App) (event : Event) : Option App := some (app.step lz4 event)

end App

end Index.Panes
