import Mathlib.Data.List.Basic
import Mathlib.Tactic.SplitIfs

/-! # Frames

Every commit of a client lands in the window's store as packed BGRA rows.  When a frame may be sent, the store compares
the commit with a mirror of what the host holds and encodes the rows that changed, band by band. -/

namespace Index.Panes

abbrev Bytes := List UInt8

/-- Tiles never have more rows than this. -/
def bandRows : Nat := 256

def bytesPerPixel : Nat := 4

structure Rect where
  x : Nat
  y : Nat
  w : Nat
  h : Nat
deriving DecidableEq

inductive Encoding where
  | raw
  | lz4
deriving DecidableEq

structure Tile where
  rect : Rect
  encoding : Encoding
  payload : Bytes
deriving DecidableEq

/-- The `lz4_flex` crate: a block decompresses to what it was made of. -/
structure Lz4 where
  compress : Bytes → Bytes
  decompress : Bytes → Nat → Option Bytes
  decompress_compress : ∀ bytes, decompress (compress bytes) bytes.length = some bytes

/-- A packed image: rows of `width` pixels without padding. -/
structure Pixels where
  data : Bytes
  width : Nat
  height : Nat
  packed : data.length = width * height * bytesPerPixel
deriving DecidableEq

/-- The bytes of a row. -/
def Pixels.rowLen (pixels : Pixels) : Nat := pixels.width * bytesPerPixel

structure EncodedFrame where
  width : Nat
  height : Nat
  full : Bool
  tiles : List Tile
deriving DecidableEq

/-! ## Bands -/

/-- The bands of a whole frame, from a row on. -/
def fullBandsFrom (width height y : Nat) : List Rect :=
  if y < height then
    let h := min bandRows (height - y)
    ⟨0, y, width, h⟩ :: fullBandsFrom width height (y + h)
  else []
termination_by height - y
decreasing_by simp only [bandRows]; omega

def fullBands (width height : Nat) : List Rect := fullBandsFrom width height 0

/-- The bytes of a row of a packed frame. -/
def rowOf (data : Bytes) (rowLen row : Nat) : Bytes := (data.drop (row * rowLen)).take rowLen

/-- The first and the last row of a band that changed, as the scan of the band has them after some rows. -/
def scanRow (changed : Nat → Bool) (found : Option Nat × Nat) (row : Nat) : Option Nat × Nat :=
  if changed row then (found.1.or (some row), row) else found

def diffBand (changed : Nat → Bool) (width height index : Nat) : Option Rect :=
  let band := index * bandRows
  let stop := min (band + bandRows) height
  let (first, last) := (List.range' band (stop - band)).foldl (scanRow changed) (none, 0)
  first.map fun first => ⟨0, first, width, last - first + 1⟩

def diffBands (prev next : Bytes) (width height : Nat) : List Rect :=
  let rowLen := width * bytesPerPixel
  let rowChanged := fun row => rowOf prev rowLen row ≠ rowOf next rowLen row
  (List.range ((height + bandRows - 1) / bandRows)).filterMap (diffBand (fun row => rowChanged row) width height)

/-! ## Tiles -/

def extractRect (frame : Bytes) (frameWidth : Nat) (rect : Rect) : Bytes :=
  let frameRow := frameWidth * bytesPerPixel
  (List.range' rect.y rect.h).flatMap fun row =>
    (frame.drop (row * frameRow + rect.x * bytesPerPixel)).take (rect.w * bytesPerPixel)

section Encode

variable (lz4 : Lz4)

def encodeTile (frame : Bytes) (frameWidth : Nat) (allowLz4 : Bool) (rect : Rect) : Tile :=
  let raw := extractRect frame frameWidth rect
  let compressed := lz4.compress raw
  if allowLz4 ∧ compressed.length * 10 < raw.length * 9 then ⟨rect, .lz4, compressed⟩ else ⟨rect, .raw, raw⟩

/-! ## The store of a window -/

/-- The latest commit, what the host holds, and whether a commit came since the last frame. -/
structure FrameStore where
  current : Option Pixels := none
  sent : Option Pixels := none
  dirty : Bool := false
deriving DecidableEq

def FrameStore.commit (store : FrameStore) (pixels : Pixels) : FrameStore :=
  { store with current := some pixels, dirty := true }

/-- The host has lost its copy. -/
def FrameStore.invalidate (store : FrameStore) : FrameStore :=
  { store with sent := none, dirty := store.current.isSome }

/-- Copies the rows of a band from the commit to the mirror. -/
def copyBand (rowLen : Nat) (current sent : Bytes) (rect : Rect) : Bytes :=
  sent.mapIdx fun index byte =>
    if rect.y * rowLen ≤ index ∧ index < rect.y * rowLen + rect.h * rowLen then current.getD index byte else byte

theorem length_copyBands {rowLen : Nat} {current sent : Bytes} {rects : List Rect} :
    (rects.foldl (copyBand rowLen current) sent).length = sent.length := by
  induction rects generalizing sent with
  | nil => rfl
  | cons rect rects ih => rw [List.foldl_cons, ih, copyBand, List.length_mapIdx]

def Pixels.copyBands (sent current : Pixels) (rects : List Rect) : Pixels where
  data := rects.foldl (copyBand current.rowLen current.data) sent.data
  width := sent.width
  height := sent.height
  packed := by rw [length_copyBands, sent.packed]

def FrameStore.takeFrame (allowLz4 : Bool) (store : FrameStore) : Option EncodedFrame × FrameStore :=
  if !store.dirty then (none, store)
  else
    let store := { store with dirty := false }
    match store.current with
    | none => (none, store)
    | some current =>
      let retained := store.sent.filter fun sent => sent.width = current.width ∧ sent.height = current.height
      let rects :=
        match retained with
        | some sent => diffBands sent.data current.data current.width current.height
        | none => fullBands current.width current.height
      if rects = [] then (none, store)
      else
        let tiles := rects.map (encodeTile lz4 current.data current.width allowLz4)
        let sent :=
          match retained with
          | some sent => sent.copyBands current rects
          | none => current
        (some ⟨current.width, current.height, retained.isNone, tiles⟩, { store with sent := some sent })

end Encode

/-- A codec that compresses nothing. -/
def plainLz4 : Lz4 := ⟨fun bytes => bytes, fun bytes _ => some bytes, fun _ => rfl⟩

def dot (byte : UInt8) : Pixels := ⟨[byte, byte, byte, byte], 1, 1, rfl⟩

end Index.Panes
