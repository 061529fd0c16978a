import Mathlib
import Index.Panes.Delta
import Index.Panes.Window

/-! # What a window displays

Each texture, with what it has not taken up of the log, is the image that the accepted tiles have made.  A frame of a
commit makes it the commit, if the window has displayed what the frame adds to. -/

namespace Index.Panes

open List

/-! ## Images -/

/-- An image is a commit, as far as the commit goes. -/
def Image.Shows (image : Image) (pixels : Pixels) : Prop :=
  ∀ row < pixels.height, ∀ col < pixels.rowLen, image row col = pixels.byteAt row col

theorem getElem?_flatMap_rows {rows : Nat → Bytes} {first count length : Nat}
    (uniform : ∀ row, first ≤ row → row < first + count → (rows row).length = length) {index col : Nat} (inside : index < count)
    (inRow : col < length) :
    ((List.range' first count).flatMap rows)[index * length + col]? = (rows (first + index))[col]? := by
  induction count generalizing first index with
  | zero => omega
  | succ count ih =>
    have here := uniform first le_rfl (by omega)
    rw [List.range'_succ, flatMap_cons]
    cases index with
    | zero =>
      rw [Nat.zero_mul, Nat.zero_add, getElem?_append_left (by omega)]
      rfl
    | succ index =>
      have place : (index + 1) * length + col - (rows first).length = index * length + col := by
        rw [here, Nat.add_mul]
        omega
      rw [getElem?_append_right (by rw [here, Nat.add_mul]; omega), place,
        ih (fun row after before => uniform row (by omega) (by omega)) (by omega)]
      rw [show first + 1 + index = first + (index + 1) by omega]

theorem length_flatMap_rows {rows : Nat → Bytes} {first count length : Nat}
    (uniform : ∀ row, first ≤ row → row < first + count → (rows row).length = length) :
    ((List.range' first count).flatMap rows).length = count * length := by
  induction count generalizing first with
  | zero => simp
  | succ count ih =>
    rw [List.range'_succ, flatMap_cons, length_append, uniform first le_rfl (by omega),
      ih fun row after before => uniform row (by omega) (by omega), Nat.add_mul]
    omega

section Band

variable {pixels : Pixels} {rect : Rect}

theorem length_rowOf {row : Nat} (inside : row < pixels.height) : (rowOf pixels.data pixels.rowLen row).length = pixels.rowLen := by
  have rows : (row + 1) * pixels.rowLen ≤ pixels.height * pixels.rowLen := Nat.mul_le_mul_right _ inside
  have total : pixels.data.length = pixels.height * pixels.rowLen := by
    rw [pixels.packed, Pixels.rowLen]
    ring
  rw [Nat.add_mul, Nat.one_mul] at rows
  rw [rowOf, length_take, length_drop]
  omega

section

variable (band : rect.Band pixels.width pixels.height)
include band

theorem extractRect_band :
    extractRect pixels.data pixels.width rect = (List.range' rect.y rect.h).flatMap (rowOf pixels.data pixels.rowLen) := by
  simp only [extractRect, band.left, band.across, Nat.zero_mul, Nat.add_zero]
  rfl

theorem uniform_band (row : Nat) (_ : rect.y ≤ row) (before : row < rect.y + rect.h) :
    (rowOf pixels.data pixels.rowLen row).length = pixels.rowLen :=
  length_rowOf (Nat.lt_of_lt_of_le before band.inside)

theorem length_extractRect : (extractRect pixels.data pixels.width rect).length = rect.w * rect.h * bytesPerPixel := by
  rw [extractRect_band band, length_flatMap_rows (uniform_band band), Pixels.rowLen, band.across]
  ring

/-- The tile of a band of a commit, uploaded. -/
theorem upload_extractRect (image : Image) {row col : Nat} (inRow : col < pixels.rowLen) :
    image.upload rect (extractRect pixels.data pixels.width rect) row col =
      if rect.HasRow row then pixels.byteAt row col else image row col := by
  have inColumns : rect.x * bytesPerPixel ≤ col ∧ col < (rect.x + rect.w) * bytesPerPixel := by
    rw [band.left, band.across, Nat.zero_mul, Nat.zero_add]
    exact ⟨Nat.zero_le _, inRow⟩
  rw [Image.upload]
  by_cases hasRow : rect.HasRow row
  · obtain ⟨after, before⟩ := id hasRow
    rw [if_pos ⟨hasRow, inColumns⟩, if_pos hasRow, extractRect_band band, band.left, band.across, Nat.zero_mul, Nat.sub_zero,
      getD_eq_getElem?_getD]
    have place := getElem?_flatMap_rows (uniform_band band) (show row - rect.y < rect.h by omega) inRow
    rw [show rect.y + (row - rect.y) = row by omega, getElem?_rowOf inRow] at place
    rw [Pixels.byteAt, getD_eq_getElem?_getD, ← place]
    rfl
  · rw [if_neg fun both => hasRow both.1, if_neg hasRow]

theorem decode_encodeTile {lz4 : Lz4} {allowLz4 : Bool} :
    PaneWindow.decode lz4 (encodeTile lz4 pixels.data pixels.width allowLz4 rect) = some (extractRect pixels.data pixels.width rect) := by
  have expected := length_extractRect band
  rw [encodeTile]
  split_ifs
  · simp only [PaneWindow.decode, ← expected, lz4.decompress_compress]
    simp
  · simp [PaneWindow.decode, expected]

end

end Band

/-! ## Surfaces -/

namespace Surface

variable {surface : Surface} {index : Fin 2}

/-- The image of a texture with what it has not taken up. -/
def logical (surface : Surface) (index : Fin 2) : Image :=
  (surface.slots index).texture.absorb (surface.log.drop (surface.slots index).absorbed)

/-- No slot has taken up more than there is. -/
def Ordered (surface : Surface) : Prop := ∀ index, (surface.slots index).absorbed ≤ surface.log.length

/-- A surface of a size, in order. -/
def Sized (surface : Surface) (width height : Nat) : Prop := surface.width = width ∧ surface.height = height ∧ surface.Ordered

theorem ordered_new (textures : Fin 2 → Image) (width height : Nat) : (new textures width height).Ordered := fun _ => le_rfl

@[simp] theorem width_push {rect : Rect} {bytes : Bytes} : (surface.push rect bytes).width = surface.width := by
  rw [push]
  split_ifs <;> rfl

@[simp] theorem height_push {rect : Rect} {bytes : Bytes} : (surface.push rect bytes).height = surface.height := by
  rw [push]
  split_ifs <;> rfl

theorem Ordered.push (ordered : surface.Ordered) (rect : Rect) (bytes : Bytes) : (surface.push rect bytes).Ordered := by
  intro index
  rw [Surface.push]
  split_ifs
  · exact Nat.zero_le _
  · exact (ordered index).trans (by simp)

theorem Sized.push {width height : Nat} (sized : surface.Sized width height) (rect : Rect) (bytes : Bytes) :
    (surface.push rect bytes).Sized width height :=
  ⟨width_push.trans sized.1, height_push.trans sized.2.1, sized.2.2.push rect bytes⟩

/-- It does not matter what a tile of the whole surface is uploaded over. -/
theorem upload_whole {width height row col : Nat} {bytes : Bytes} (image other : Image) (inside : row < height)
    (inRow : col < width * bytesPerPixel) :
    image.upload ⟨0, 0, width, height⟩ bytes row col = other.upload ⟨0, 0, width, height⟩ bytes row col := by
  simp [Image.upload, inside, inRow]

/-- A pushed tile is uploaded over what there was, as far as the surface goes. -/
theorem logical_push (ordered : surface.Ordered) (rect : Rect) (bytes : Bytes) {row col : Nat} (inside : row < surface.height)
    (inRow : col < surface.width * bytesPerPixel) :
    (surface.push rect bytes).logical index row col = (surface.logical index).upload rect bytes row col := by
  rw [Surface.push]
  split_ifs with whole
  · subst whole
    exact upload_whole _ _ inside inRow
  · rw [logical, logical, drop_append_of_le_length (ordered index)]
    simp [Image.absorb]

/-- A surface of the same size that makes the same images. -/
structure Keeps (surface result : Surface) : Prop where
  width : result.width = surface.width
  height : result.height = surface.height
  logical : result.logical = surface.logical
  ordered : surface.Ordered → result.Ordered

theorem Keeps.trans {second third : Surface} (first : surface.Keeps second) (next : second.Keeps third) : surface.Keeps third :=
  ⟨next.width.trans first.width, next.height.trans first.height, next.logical.trans first.logical, fun ordered => next.ordered (first.ordered ordered)⟩

/-- Slots may catch up at any time. -/
theorem keeps_catchUp {slots : Fin 2 → Slot} (taken : ∀ index, slots index = surface.slots index ∨ slots index = surface.catchUp index)
    (current : Fin 2) : surface.Keeps { surface with slots, current } where
  width := rfl
  height := rfl
  logical := by
    funext index
    show (slots index).texture.absorb (surface.log.drop (slots index).absorbed) = surface.logical index
    rcases taken index with same | caughtUp
    · rw [same]
      rfl
    · rw [caughtUp, catchUp, drop_length]
      rfl
  ordered ordered index := by
    show (slots index).absorbed ≤ surface.log.length
    rcases taken index with same | caughtUp
    · exact same ▸ ordered index
    · exact caughtUp ▸ le_rfl

theorem keeps_compact (surface : Surface) : surface.Keeps surface.compact where
  width := rfl
  height := rfl
  logical := by
    funext index
    have least : min (surface.slots 0).absorbed (surface.slots 1).absorbed ≤ (surface.slots index).absorbed := by
      match index with
      | 0 => exact Nat.min_le_left _ _
      | 1 => exact Nat.min_le_right _ _
    show (surface.slots index).texture.absorb ((surface.log.drop (min (surface.slots 0).absorbed (surface.slots 1).absorbed)).drop
      ((surface.slots index).absorbed - min (surface.slots 0).absorbed (surface.slots 1).absorbed)) = surface.logical index
    rw [drop_drop, Nat.add_sub_cancel' least]
    rfl
  ordered ordered index := by
    show (surface.slots index).absorbed - min (surface.slots 0).absorbed (surface.slots 1).absorbed ≤
      (surface.log.drop (min (surface.slots 0).absorbed (surface.slots 1).absorbed)).length
    rw [length_drop]
    exact Nat.sub_le_sub_right (ordered index) _

theorem keeps_absorbDrained (surface : Surface) (inFlight : Fin 2 → Bool) : surface.Keeps (surface.absorbDrained inFlight) := by
  refine (keeps_catchUp (fun index => ?_) surface.current).trans (keeps_compact _)
  split_ifs
  · exact Or.inr rfl
  · exact Or.inl rfl

end Surface

/-- Both textures are a commit, with what they have not taken up. -/
structure Surface.Displays (surface : Surface) (pixels : Pixels) : Prop where
  width : surface.width = pixels.width
  height : surface.height = pixels.height
  ordered : surface.Ordered
  shows : ∀ index, (surface.logical index).Shows pixels

/-! ## Windows -/

/-- A commit that the host can show. -/
structure Pixels.Presentable (pixels : Pixels) : Prop where
  wide : 0 < pixels.width
  tall : 0 < pixels.height
  narrow : pixels.width ≤ PaneWindow.maxDim
  short : pixels.height ≤ PaneWindow.maxDim

instance (pixels : Pixels) : Decidable pixels.Presentable :=
  decidable_of_iff (0 < pixels.width ∧ 0 < pixels.height ∧ pixels.width ≤ PaneWindow.maxDim ∧ pixels.height ≤ PaneWindow.maxDim)
    ⟨fun ⟨wide, tall, narrow, short⟩ => ⟨wide, tall, narrow, short⟩, fun ⟨wide, tall, narrow, short⟩ => ⟨wide, tall, narrow, short⟩⟩

namespace PaneWindow

variable {lz4 : Lz4} {allowLz4 : Bool} {textures : Fin 2 → Image} {window : PaneWindow} {surface : Surface} {pixels : Pixels} {seq : Nat}
  {frame : EncodedFrame}

def Ordered (window : PaneWindow) : Prop := ∀ surface, window.surface = some surface → surface.Ordered

def Displays (window : PaneWindow) (pixels : Pixels) : Prop := ∃ surface, window.surface = some surface ∧ surface.Displays pixels

theorem Displays.ordered (displays : window.Displays pixels) : window.Ordered := by
  obtain ⟨surface, found, displays⟩ := displays
  intro other isOther
  obtain rfl := Option.some.inj (found.symm.trans isOther)
  exact displays.ordered

/-- Pushing the tile of a band. -/
theorem pushTile_encodeTile {rect : Rect} (band : rect.Band pixels.width pixels.height) (wide : 0 < pixels.width) :
    pushTile lz4 pixels.width pixels.height surface (encodeTile lz4 pixels.data pixels.width allowLz4 rect) =
      surface.push rect (extractRect pixels.data pixels.width rect) := by
  have isRect : (encodeTile lz4 pixels.data pixels.width allowLz4 rect).rect = rect := by
    rw [encodeTile]
    split_ifs <;> rfl
  have inBounds : inBounds pixels.width pixels.height rect = true := by
    simp [PaneWindow.inBounds, band.left, band.across, band.nonempty, band.inside, wide]
  rw [pushTile, isRect, if_pos inBounds, decode_encodeTile band]

/-- After its tiles are pushed a surface displays a commit, if it did outside them. -/
theorem displays_pushTiles {rects : List Rect} (bands : ∀ rect ∈ rects, rect.Band pixels.width pixels.height) (wide : 0 < pixels.width)
    (sized : surface.Sized pixels.width pixels.height)
    (shown : ∀ index, ∀ row < pixels.height, ∀ col < pixels.rowLen,
      (∃ rect ∈ rects, rect.HasRow row) ∨ surface.logical index row col = pixels.byteAt row col) :
    ((rects.map (encodeTile lz4 pixels.data pixels.width allowLz4)).foldl (pushTile lz4 pixels.width pixels.height) surface).Displays
      pixels := by
  induction rects generalizing surface with
  | nil =>
    obtain ⟨width, height, ordered⟩ := sized
    exact ⟨width, height, ordered, by simpa [Image.Shows] using shown⟩
  | cons rect rects ih =>
    obtain ⟨band, later⟩ := forall_mem_cons.mp bands
    rw [map_cons, foldl_cons, pushTile_encodeTile band wide]
    refine ih later (sized.push rect _) fun index row inside col inRow => ?_
    obtain ⟨width, height, ordered⟩ := sized
    rw [Surface.logical_push ordered _ _ (height ▸ inside) (width ▸ inRow), upload_extractRect band _ inRow]
    split_ifs with hasRow
    · exact Or.inr rfl
    · simpa [hasRow] using shown index row inside col inRow

theorem sized_clear {fresh : Bool} {width height : Nat} (sized : surface.Sized width height) :
    (clear frame fresh surface).Sized width height := by
  rw [clear]
  split_ifs
  · exact sized.push _ _
  · exact sized

/-- After a frame of a commit the window displays it. -/
theorem displays_applyFrame {sent : Option Pixels} (presentable : pixels.Presentable) (delta : Delta lz4 allowLz4 sent pixels frame)
    (ordered : window.Ordered) (retains : ∀ retained, sent = some retained → frame.full = false → window.Displays retained) :
    (window.applyFrame lz4 textures seq frame).2.Displays pixels := by
  obtain ⟨frameWidth, frameHeight, full, tiles⟩ := frame
  obtain ⟨rfl, rfl, ⟨rects, rfl, bands, rows⟩, incremental⟩ := delta
  have drawable : ¬ (pixels.width = 0 ∨ pixels.height = 0 ∨ maxDim < pixels.width ∨ maxDim < pixels.height) := by
    have := presentable.wide
    have := presentable.tall
    have := presentable.narrow
    have := presentable.short
    omega
  rw [applyFrame, if_neg drawable]
  refine ⟨_, rfl, ?_⟩
  cases full with
  | false =>
    -- The frame adds to the surface there is.
    obtain ⟨retained, isSent, width, height⟩ := incremental rfl
    obtain ⟨surface, found, displays⟩ := retains retained isSent rfl
    have kept : window.surface.filter (fun surface => decide (surface.width = pixels.width ∧ surface.height = pixels.height)) =
        some surface := by simp [found, displays.width, displays.height, width, height]
    simp only [kept, Option.getD_some, Option.isNone_some, clear, Bool.or_false, Bool.false_and, Bool.false_eq_true, if_false]
    refine displays_pushTiles bands presentable.wide ⟨displays.width.trans width, displays.height.trans height, displays.ordered⟩
      fun index row inside col inRow => ?_
    refine (rows row inside).imp_right fun kept => ?_
    obtain ⟨-, other, isOther, -, -, same⟩ := kept
    obtain rfl := Option.some.inj (isSent.symm.trans isOther)
    have sameRowLen : retained.rowLen = pixels.rowLen := by rw [Pixels.rowLen, Pixels.rowLen, width]
    have sameByte := congrArg (fun bytes : Bytes => bytes[col]?) same
    rw [getElem?_rowOf inRow, getElem?_rowOf inRow] at sameByte
    rw [displays.shows index row (height ▸ inside) col (sameRowLen ▸ inRow), Pixels.byteAt, Pixels.byteAt, sameRowLen,
      getD_eq_getElem?_getD, getD_eq_getElem?_getD, sameByte]
  | true =>
    -- The frame covers the surface, whatever is on it.
    have sized : ((window.surface.filter fun surface => decide (surface.width = pixels.width ∧ surface.height = pixels.height)).getD
        (Surface.new textures pixels.width pixels.height)).Sized pixels.width pixels.height := by
      cases found : window.surface.filter fun surface => decide (surface.width = pixels.width ∧ surface.height = pixels.height) with
      | none => exact ⟨rfl, rfl, Surface.ordered_new _ _ _⟩
      | some surface =>
        obtain ⟨isSurface, size⟩ := Option.filter_eq_some_iff.mp found
        exact ⟨(of_decide_eq_true size).1, (of_decide_eq_true size).2, ordered surface isSurface⟩
    refine displays_pushTiles bands presentable.wide (sized_clear sized) fun index row inside col inRow => Or.inl ?_
    exact (rows row inside).resolve_right fun kept => by cases kept.1

/-- A tick of the display changes what is taken up, not what it makes.  It does not write to a texture that is in flight, and
what it draws has taken up everything. -/
theorem present_surface (inFlight : Fin 2 → Bool) (drawn : Bool) (found : window.surface = some surface) :
    ∃ result, (window.present inFlight drawn).2.surface = some result ∧ surface.Keeps result ∧
      (∀ index, inFlight index = true → (result.slots index).texture = (surface.slots index).texture) ∧
      (window.dirty = true → window.occluded = false → (window.present inFlight drawn).2.dirty = false →
        (result.slots result.current).texture = result.logical result.current) := by
  have unchanged : surface.Keeps surface := ⟨rfl, rfl, rfl, id⟩
  cases dirty : window.dirty with
  | false => exact ⟨surface, by simp [present, dirty, found], unchanged, fun _ _ => rfl, nofun⟩
  | true =>
    cases occluded : window.occluded with
    | true =>
      refine ⟨surface.absorbDrained inFlight, by simp [present, dirty, found, occluded], surface.keeps_absorbDrained inFlight, ?_, nofun⟩
      intro index reads
      simp [Surface.absorbDrained, Surface.compact, reads]
    | false =>
      simp only [present, dirty, found, occluded, Bool.not_true, Bool.false_eq_true, if_false]
      generalize (if (surface.slots surface.current).absorbed = surface.log.length then surface.current
        else surface.current + 1) = index
      have caughtUp : surface.Keeps { surface with
          slots := if (surface.slots index).absorbed ≠ surface.log.length then Function.update surface.slots index (surface.catchUp index)
            else surface.slots
          current := index } := by
        refine Surface.keeps_catchUp (fun other => ?_) index
        split_ifs
        · by_cases here : other = index
          · exact Or.inr (by rw [here, Function.update_self])
          · exact Or.inl (Function.update_of_ne here _ _)
        · exact Or.inl rfl
      by_cases late : (surface.slots index).absorbed ≠ surface.log.length ∧ inFlight index = true
      · rw [if_pos late]
        refine ⟨surface, found, unchanged, fun _ _ => rfl, fun _ _ through => ?_⟩
        cases dirty.symm.trans through
      · rw [if_neg late]
        have spared : ∀ other, inFlight other = true → ((if (surface.slots index).absorbed ≠ surface.log.length then
            Function.update surface.slots index (surface.catchUp index) else surface.slots) other).texture =
            (surface.slots other).texture := by
          intro other reads
          split_ifs with behind
          · rw [Function.update_of_ne]
            rintro rfl
            exact late ⟨behind, reads⟩
          · rfl
        cases drawn with
        | false => exact ⟨_, rfl, caughtUp, spared, fun _ _ through => by cases through⟩
        | true =>
          refine ⟨_, rfl, caughtUp.trans (Surface.keeps_compact _), spared, fun _ _ _ => ?_⟩
          rw [(Surface.keeps_compact _).logical]
          simp only [Surface.logical, Surface.compact]
          split_ifs with behind
          · simp [Surface.catchUp, Image.absorb]
          · simp [not_not.mp behind, Image.absorb]

theorem Displays.present (displays : window.Displays pixels) (inFlight : Fin 2 → Bool) (drawn : Bool) :
    (window.present inFlight drawn).2.Displays pixels := by
  obtain ⟨surface, found, displays⟩ := displays
  obtain ⟨result, isResult, keeps, -⟩ := present_surface inFlight drawn found
  refine ⟨result, isResult, keeps.width.trans displays.width, keeps.height.trans displays.height, keeps.ordered displays.ordered, ?_⟩
  rw [keeps.logical]
  exact displays.shows

theorem Ordered.present (ordered : window.Ordered) (inFlight : Fin 2 → Bool) (drawn : Bool) :
    (window.present inFlight drawn).2.Ordered := by
  cases found : window.surface with
  | none =>
    have unchanged : (window.present inFlight drawn).2 = window := by
      simp only [PaneWindow.present, found, ite_self]
    rwa [unchanged]
  | some surface =>
    obtain ⟨result, isResult, keeps, -⟩ := present_surface inFlight drawn found
    intro other isOther
    obtain rfl := Option.some.inj (isResult.symm.trans isOther)
    exact keeps.ordered (ordered surface found)

end PaneWindow

end Index.Panes
