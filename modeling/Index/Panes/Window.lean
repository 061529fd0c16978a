import Mathlib
import Index.Panes.Wire

/-! # The windows of the host

A window has two textures.  Decoded tiles are kept in a log until both have taken them up, so that a texture that the
GPU still reads is not written to. -/

namespace Index.Panes

/-- The bytes of a texture, by row and place in the row. -/
abbrev Image := Nat → Nat → UInt8

/-- `replaceRegion` -/
def Image.upload (image : Image) (rect : Rect) (bytes : Bytes) : Image := fun row col =>
  if (rect.y ≤ row ∧ row < rect.y + rect.h) ∧ rect.x * bytesPerPixel ≤ col ∧ col < (rect.x + rect.w) * bytesPerPixel then
    bytes.getD ((row - rect.y) * (rect.w * bytesPerPixel) + (col - rect.x * bytesPerPixel)) 0
  else image row col

structure PendingTile where
  rect : Rect
  bytes : Bytes

def Image.absorb (image : Image) (tiles : List PendingTile) : Image :=
  tiles.foldl (fun image tile => image.upload tile.rect tile.bytes) image

structure Slot where
  texture : Image
  /-- How much of the log the texture has taken up. -/
  absorbed : Nat

/-! ## Surfaces -/

structure Surface where
  slots : Fin 2 → Slot
  current : Fin 2
  log : List PendingTile
  width : Nat
  height : Nat

namespace Surface

/-- Two textures with whatever is in them. -/
def new (textures : Fin 2 → Image) (width height : Nat) : Surface where
  slots index := ⟨textures index, 0⟩
  current := 0
  log := []
  width := width
  height := height

/-- Adds a tile to the log.  A tile of the whole surface makes what is before it needless. -/
def push (surface : Surface) (rect : Rect) (bytes : Bytes) : Surface :=
  if rect = ⟨0, 0, surface.width, surface.height⟩ then
    { surface with slots := fun index => { surface.slots index with absorbed := 0 }, log := [⟨rect, bytes⟩] }
  else { surface with log := surface.log ++ [⟨rect, bytes⟩] }

/-- Uploads to a slot what it has not taken up. -/
def catchUp (surface : Surface) (index : Fin 2) : Slot :=
  ⟨(surface.slots index).texture.absorb (surface.log.drop (surface.slots index).absorbed), surface.log.length⟩

/-- Drops what both slots have taken up. -/
def compact (surface : Surface) : Surface :=
  let absorbed := min (surface.slots 0).absorbed (surface.slots 1).absorbed
  { surface with
    slots := fun index => { surface.slots index with absorbed := (surface.slots index).absorbed - absorbed }
    log := surface.log.drop absorbed }

def absorbDrained (surface : Surface) (inFlight : Fin 2 → Bool) : Surface :=
  compact { surface with
    slots := fun index =>
      if (surface.slots index).absorbed < surface.log.length && !inFlight index then surface.catchUp index
      else surface.slots index }

end Surface

/-! ## Windows -/

structure PaneWindow where
  surface : Option Surface := none
  pendingAck : Option Nat := none
  dirty : Bool := false
  occluded : Bool := false

namespace PaneWindow

/-- Metal's largest texture dimension. -/
def maxDim : Nat := 16384

def inBounds (width height : Nat) (rect : Rect) : Bool :=
  0 < rect.w && 0 < rect.h && rect.x + rect.w ≤ width && rect.y + rect.h ≤ height

/-- The bytes of a tile, unless they are not those of its rect. -/
def decode (lz4 : Lz4) (tile : Tile) : Option Bytes :=
  let expected := tile.rect.w * tile.rect.h * bytesPerPixel
  match tile.encoding with
  | .raw => if tile.payload.length = expected then some tile.payload else none
  | .lz4 => (lz4.decompress tile.payload expected).filter fun bytes => bytes.length = expected

def pushTile (lz4 : Lz4) (width height : Nat) (surface : Surface) (tile : Tile) : Surface :=
  if inBounds width height tile.rect then
    match decode lz4 tile with
    | some bytes => surface.push tile.rect bytes
    | none => surface
  else surface

/-- Clears the surface for a frame that its tiles do not cover. -/
def clear (frame : EncodedFrame) (fresh : Bool) (surface : Surface) : Surface :=
  let covered := ((frame.tiles.filter fun tile => inBounds frame.width frame.height tile.rect).map
    fun tile => tile.rect.w * tile.rect.h).sum
  if (frame.full || fresh) && covered < frame.width * frame.height then
    surface.push ⟨0, 0, frame.width, frame.height⟩ (List.replicate (frame.width * frame.height * bytesPerPixel) 0)
  else surface

/-- Whether the frame will be presented, and the window with it.  New textures are got from the renderer. -/
def applyFrame (lz4 : Lz4) (textures : Fin 2 → Image) (window : PaneWindow) (seq : Nat) (frame : EncodedFrame) : Bool × PaneWindow :=
  if frame.width = 0 ∨ frame.height = 0 ∨ maxDim < frame.width ∨ maxDim < frame.height then
    (false, { window with pendingAck := none, dirty := false })
  else
    let retained := window.surface.filter fun surface => surface.width = frame.width ∧ surface.height = frame.height
    let surface := retained.getD (Surface.new textures frame.width frame.height)
    let cleared := clear frame retained.isNone surface
    let pushed := frame.tiles.foldl (pushTile lz4 frame.width frame.height) cleared
    (true, { window with surface := some pushed, pendingAck := some seq, dirty := true })

/-- A tick of the display: the ack to send, and the window after it.  What the GPU still reads and whether the draw
could be encoded is up to it. -/
def present (window : PaneWindow) (inFlight : Fin 2 → Bool) (drawn : Bool) : Option Nat × PaneWindow :=
  if !window.dirty then (none, window)
  else
    match window.surface with
    | none => (none, window)
    | some surface =>
      if window.occluded then
        (window.pendingAck, { window with surface := some (surface.absorbDrained inFlight), dirty := false, pendingAck := none })
      else
        let index := if (surface.slots surface.current).absorbed = surface.log.length then surface.current else surface.current + 1
        let behind := (surface.slots index).absorbed ≠ surface.log.length
        if behind ∧ inFlight index then (none, window)
        else
          let slots := if behind then Function.update surface.slots index (surface.catchUp index) else surface.slots
          let surface := { surface with slots, current := index }
          if drawn then
            (window.pendingAck, { window with surface := some surface.compact, dirty := false, pendingAck := none })
          else (none, { window with surface := some surface })

end PaneWindow

/-! ## The host -/

/-- The windows of a connection.  They do not outlive it. -/
abbrev Windows := WindowId → Option PaneWindow

def Windows.handleMsg (lz4 : Lz4) (textures : Fin 2 → Image) (windows : Windows) : ToHost → Windows
  | .windowNew id _ _ _ _ _ => if (windows id).isSome then windows else Function.update windows id (some {})
  | .windowFrame id seq frame =>
    match windows id with
    | some window => Function.update windows id (some (window.applyFrame lz4 textures seq frame).2)
    | none => windows
  | .windowGone id => Function.update windows id none
  | _ => windows

end Index.Panes
