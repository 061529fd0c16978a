import Index.Panes.Frame
import Mathlib.Algebra.Order.Group.Nat
import Mathlib.Tactic.Ring

/-! # What a frame carries

The bands of a frame lie in it, and every row that is in none of them is as the host has it.  So the mirror is the commit
once the frame is taken. -/

namespace Index.Panes

open List

/-! ## Bands -/

/-- A band of whole rows in a frame. -/
structure Rect.Band (rect : Rect) (width height : Nat) : Prop where
  left : rect.x = 0
  across : rect.w = width
  nonempty : 0 < rect.h
  inside : rect.y + rect.h ≤ height

def Rect.HasRow (rect : Rect) (row : Nat) : Prop := rect.y ≤ row ∧ row < rect.y + rect.h

instance (rect : Rect) (row : Nat) : Decidable (rect.HasRow row) := inferInstanceAs (Decidable (_ ∧ _))

section Bands

variable {width height : Nat} {rect : Rect}

theorem band_of_fullBandsFrom {y : Nat} (member : rect ∈ fullBandsFrom width height y) : rect.Band width height := by
  fun_induction fullBandsFrom width height y with
  | case1 y inside h ih =>
    rcases mem_cons.mp member with rfl | later
    · exact ⟨rfl, rfl, by simp only [h, bandRows]; omega, by simp only [h]; omega⟩
    · exact ih later
  | case2 => cases member

theorem exists_of_fullBandsFrom {y row : Nat} (after : y ≤ row) (inside : row < height) :
    ∃ rect ∈ fullBandsFrom width height y, rect.HasRow row := by
  fun_induction fullBandsFrom width height y with
  | case1 y _ h ih =>
    by_cases here : row < y + h
    · exact ⟨_, mem_cons_self, after, here⟩
    · obtain ⟨rect, member, hasRow⟩ := ih (by omega)
      exact ⟨rect, mem_cons_of_mem _ member, hasRow⟩
  | case2 => omega

variable {changed : Nat → Bool}

/-- What the scan of a band knows: the changed rows lie between the first and the last. -/
theorem scan_spec (changed : Nat → Bool) (start count : Nat) {first : Option Nat} {last : Nat}
    (scanned : (List.range' start count).foldl (scanRow changed) (none, 0) = (first, last)) :
    (∀ least ∈ first, start ≤ least ∧ least ≤ last ∧ last < start + count) ∧
      ∀ row, start ≤ row → row < start + count → changed row = true → ∃ least ∈ first, least ≤ row ∧ row ≤ last := by
  induction count generalizing first last with
  | zero =>
    cases scanned
    exact ⟨nofun, fun row _ _ => by omega⟩
  | succ count ih =>
    rw [List.range'_1_concat, foldl_append] at scanned
    generalize (List.range' start count).foldl (scanRow changed) (none, 0) = found at ih scanned
    obtain ⟨bounds, between⟩ := ih rfl
    rw [foldl_cons, foldl_nil, scanRow] at scanned
    split_ifs at scanned with here <;> cases scanned
    · have widened : ∀ least ∈ found.1.or (some (start + count)), start ≤ least ∧ least ≤ start + count := by
        intro least isFirst
        rcases Option.or_eq_some_iff.mp isFirst with isEarlier | ⟨-, isRow⟩
        · have := bounds least isEarlier
          omega
        · cases isRow
          omega
      refine ⟨fun least isFirst => by have := widened least isFirst; omega, fun row after before isChanged => ?_⟩
      rcases Nat.lt_or_ge row (start + count) with earlier | later
      · obtain ⟨least, isFirst, lower, -⟩ := between row after earlier isChanged
        exact ⟨least, by simp [Option.mem_def.mp isFirst], lower, by omega⟩
      · obtain ⟨least, isFirst⟩ : ∃ least, least ∈ found.1.or (some (start + count)) := by cases found.1 <;> simp
        exact ⟨least, isFirst, by have := widened least isFirst; omega, by omega⟩
    · refine ⟨fun least isFirst => by have := bounds least isFirst; omega, fun row after before isChanged => ?_⟩
      have elsewhere : row ≠ start + count := fun same => here (same ▸ isChanged)
      exact between row after (by omega) isChanged

/-- The rectangle that is found is a band, and every changed row is in it. -/
theorem diffBand_spec (changed : Nat → Bool) (width height index : Nat) :
    (∀ rect ∈ diffBand changed width height index, rect.Band width height) ∧
      ∀ row, index * bandRows ≤ row → row < index * bandRows + bandRows → row < height → changed row = true →
        ∃ rect ∈ diffBand changed width height index, rect.HasRow row := by
  obtain ⟨bounds, between⟩ := scan_spec changed (index * bandRows) (min (index * bandRows + bandRows) height - index * bandRows) rfl
  simp only [diffBand, Option.mem_map]
  refine ⟨?_, fun row after before inside isChanged => ?_⟩
  · rintro _ ⟨first, isFirst, rfl⟩
    have := bounds first isFirst
    exact ⟨rfl, rfl, by simp, by simp only; omega⟩
  · obtain ⟨first, isFirst, lower, upper⟩ := between row after (by omega) isChanged
    exact ⟨_, ⟨first, isFirst, rfl⟩, lower, by simp only; omega⟩

variable {prev next : Bytes}

theorem band_of_diffBands (member : rect ∈ diffBands prev next width height) : rect.Band width height := by
  obtain ⟨index, -, found⟩ := mem_filterMap.mp member
  exact (diffBand_spec _ width height index).1 rect found

/-- A row outside the bands has not changed. -/
theorem diffBands_or_eq {row : Nat} (inside : row < height) :
    (∃ rect ∈ diffBands prev next width height, rect.HasRow row) ∨
      rowOf prev (width * bytesPerPixel) row = rowOf next (width * bytesPerPixel) row := by
  refine or_iff_not_imp_right.mpr fun differ => ?_
  have index : row / bandRows < (height + bandRows - 1) / bandRows := by
    simp only [bandRows]
    omega
  have before : row < row / bandRows * bandRows + bandRows := by
    simp only [bandRows]
    omega
  obtain ⟨rect, found, hasRow⟩ :=
    (diffBand_spec (fun row => rowOf prev (width * bytesPerPixel) row ≠ rowOf next (width * bytesPerPixel) row) width height _).2 row
      (Nat.div_mul_le_self row bandRows) before inside (decide_eq_true differ)
  exact ⟨rect, mem_filterMap.mpr ⟨_, mem_range.mpr index, found⟩, hasRow⟩

end Bands

/-! ## Bytes of rows -/

/-- The byte of a packed frame at a place of a row. -/
def Pixels.byteAt (pixels : Pixels) (row col : Nat) : UInt8 := pixels.data.getD (row * pixels.rowLen + col) 0

theorem getElem?_rowOf {data : Bytes} {rowLen row col : Nat} (inRow : col < rowLen) :
    (rowOf data rowLen row)[col]? = data[row * rowLen + col]? := by
  rw [rowOf, getElem?_take, if_pos inRow, getElem?_drop]

theorem getElem?_copyBand {rowLen index : Nat} {current sent : Bytes} {rect : Rect} (same : current.length = sent.length) :
    (copyBand rowLen current sent rect)[index]? =
      if rect.y * rowLen ≤ index ∧ index < rect.y * rowLen + rect.h * rowLen then current[index]? else sent[index]? := by
  rw [copyBand, getElem?_mapIdx]
  by_cases there : index < sent.length
  · rw [getElem?_eq_getElem there, Option.map_some, getElem?_eq_getElem (same ▸ there)]
    split_ifs
    · rw [getD_eq_getElem?_getD, getElem?_eq_getElem (same ▸ there), Option.getD_some]
    · rfl
  · rw [getElem?_eq_none (not_lt.mp there), getElem?_eq_none (same ▸ not_lt.mp there)]
    simp

/-- The mirror with the bands of a list copied. -/
theorem getElem?_copyBands {rowLen row col : Nat} {current sent : Bytes} {rects : List Rect} (same : current.length = sent.length)
    (inRow : col < rowLen) :
    (rects.foldl (copyBand rowLen current) sent)[row * rowLen + col]? =
      if ∃ rect ∈ rects, rect.HasRow row then current[row * rowLen + col]? else sent[row * rowLen + col]? := by
  have place : (row * rowLen + col) / rowLen = row := by
    rw [Nat.mul_comm, Nat.mul_add_div (by omega), Nat.div_eq_of_lt inRow, Nat.add_zero]
  have inBand : ∀ rect : Rect, (rect.y * rowLen ≤ row * rowLen + col ∧ row * rowLen + col < rect.y * rowLen + rect.h * rowLen) ↔
      rect.HasRow row := by
    intro rect
    rw [← Nat.add_mul, ← Nat.le_div_iff_mul_le (by omega), ← Nat.div_lt_iff_lt_mul (by omega), place]
    rfl
  induction rects generalizing sent with
  | nil => simp
  | cons rect rects ih =>
    rw [foldl_cons, ih (by rw [copyBand, length_mapIdx, same]), getElem?_copyBand same]
    by_cases later : ∃ other ∈ rects, other.HasRow row
    · simp [later]
    · simp [later, inBand]

/-- Images of one size with the same rows. -/
theorem Pixels.ext_rows {left right : Pixels} (width : left.width = right.width) (height : left.height = right.height)
    (rows : ∀ row < right.height, ∀ col < right.rowLen,
      left.data[row * right.rowLen + col]? = right.data[row * right.rowLen + col]?) : left = right := by
  obtain ⟨leftData, leftWidth, leftHeight, leftPacked⟩ := left
  obtain ⟨rightData, rightWidth, rightHeight, rightPacked⟩ := right
  obtain rfl : leftWidth = rightWidth := width
  obtain rfl : leftHeight = rightHeight := height
  have sameLength : leftData.length = rightData.length := leftPacked.trans rightPacked.symm
  have sameData : leftData = rightData := by
    refine ext_getElem? fun index => ?_
    by_cases there : index < rightData.length
    · have size : rightData.length = leftHeight * (leftWidth * bytesPerPixel) := by
        rw [rightPacked]
        ring
      have wide : 0 < leftWidth * bytesPerPixel := Nat.pos_of_ne_zero fun zero => by simp [size, zero] at there
      have place := Nat.div_add_mod' index (leftWidth * bytesPerPixel)
      have row : index / (leftWidth * bytesPerPixel) < leftHeight := (Nat.div_lt_iff_lt_mul wide).mpr (size ▸ there)
      have same := rows _ row _ (Nat.mod_lt index wide)
      simp only [Pixels.rowLen, place] at same
      exact same
    · rw [getElem?_eq_none (not_lt.mp there), getElem?_eq_none (sameLength ▸ not_lt.mp there)]
  subst sameData
  rfl

/-- The mirror is the commit once the bands that differ are copied. -/
theorem copyBands_diffBands {sent current : Pixels} (width : sent.width = current.width) (height : sent.height = current.height) :
    sent.copyBands current (diffBands sent.data current.data current.width current.height) = current := by
  have sameLength : current.data.length = sent.data.length := by rw [current.packed, sent.packed, width, height]
  refine Pixels.ext_rows width height fun row inside col inRow => ?_
  refine (getElem?_copyBands sameLength inRow).trans ?_
  split_ifs with hasRow
  · rfl
  · have sameRow : rowOf sent.data current.rowLen row = rowOf current.data current.rowLen row := (diffBands_or_eq inside).resolve_left hasRow
    have same := congrArg (fun bytes : Bytes => bytes[col]?) sameRow
    rwa [getElem?_rowOf inRow, getElem?_rowOf inRow] at same

/-! ## Taking a frame -/

section Take

variable {lz4 : Lz4} {allowLz4 : Bool} {store after : FrameStore} {frame : EncodedFrame}

/-- What a frame of a commit carries, over what the host is sent before it. -/
structure Delta (lz4 : Lz4) (allowLz4 : Bool) (sent : Option Pixels) (current : Pixels) (frame : EncodedFrame) : Prop where
  width : frame.width = current.width
  height : frame.height = current.height
  carries : ∃ rects : List Rect, frame.tiles = rects.map (encodeTile lz4 current.data current.width allowLz4) ∧
    (∀ rect ∈ rects, rect.Band current.width current.height) ∧
    ∀ row < current.height, (∃ rect ∈ rects, rect.HasRow row) ∨
      frame.full = false ∧ ∃ retained, sent = some retained ∧ retained.width = current.width ∧ retained.height = current.height ∧
        rowOf retained.data current.rowLen row = rowOf current.data current.rowLen row
  /-- Only what the host is sent already is added to. -/
  incremental : frame.full = false → ∃ retained, sent = some retained ∧ retained.width = current.width ∧ retained.height = current.height

/-- What taking a frame does. -/
inductive Takes (lz4 : Lz4) (allowLz4 : Bool) (store : FrameStore) : Option EncodedFrame → FrameStore → Prop where
  /-- Nothing was committed since the last frame. -/
  | clean : store.dirty = false → Takes lz4 allowLz4 store none store
  | empty : store.current = none → Takes lz4 allowLz4 store none { store with dirty := false }
  /-- The host has the commit, or it has no rows. -/
  | same {current} : store.dirty = true → store.current = some current → (0 < current.height → store.sent = some current) →
    Takes lz4 allowLz4 store none { store with dirty := false }
  | frame {current frame} : store.dirty = true → store.current = some current → Delta lz4 allowLz4 store.sent current frame →
    Takes lz4 allowLz4 store (some frame) { store with sent := some current, dirty := false }

theorem takes_takeFrame (lz4 : Lz4) (allowLz4 : Bool) (store : FrameStore) :
    Takes lz4 allowLz4 store (store.takeFrame lz4 allowLz4).1 (store.takeFrame lz4 allowLz4).2 := by
  obtain ⟨current?, sent?, dirty⟩ := store
  rw [FrameStore.takeFrame]
  cases dirty with
  | false => exact .clean rfl
  | true =>
    cases current? with
    | none => exact .empty rfl
    | some current =>
      simp only [Bool.not_true, Bool.false_eq_true, if_false]
      cases retained : sent?.filter fun sent => decide (sent.width = current.width ∧ sent.height = current.height) with
      | some sent =>
        obtain ⟨rfl, fits⟩ := Option.filter_eq_some_iff.mp retained
        obtain ⟨width, height⟩ := of_decide_eq_true fits
        simp only [copyBands_diffBands width height, Option.isNone_some]
        split_ifs with none
        · refine .same rfl rfl fun _ => ?_
          show some sent = _
          rw [← copyBands_diffBands width height, none]
          rfl
        · refine .frame rfl rfl ⟨rfl, rfl, ⟨_, rfl, fun rect => band_of_diffBands, fun row inside => ?_⟩, fun _ => ⟨sent, rfl, width, height⟩⟩
          exact (diffBands_or_eq inside).imp_right fun same => ⟨rfl, sent, rfl, width, height, same⟩
      | none =>
        -- The host holds nothing of this size.
        simp only [Option.isNone_none]
        split_ifs with none
        · refine .same rfl rfl fun tall => ?_
          obtain ⟨rect, member, -⟩ := @exists_of_fullBandsFrom current.width current.height 0 0 le_rfl tall
          rw [fullBands] at none
          rw [none] at member
          cases member
        · refine .frame rfl rfl ⟨rfl, rfl, ⟨_, rfl, fun rect => band_of_fullBandsFrom, fun row inside => ?_⟩, nofun⟩
          exact Or.inl (exists_of_fullBandsFrom (Nat.zero_le row) inside)

theorem Takes.sent_eq (takes : Takes lz4 allowLz4 store none after) : after.sent = store.sent := by
  cases takes <;> rfl

/-- A frame that adds to nothing is full. -/
theorem Takes.full (takes : Takes lz4 allowLz4 store (some frame) after) (nothing : store.sent = none) : frame.full = true := by
  cases takes with
  | frame _ _ delta =>
    cases full : frame.full with
    | true => rfl
    | false =>
      obtain ⟨retained, isSent, -⟩ := delta.incremental full
      cases nothing.symm.trans isSent

end Take

end Index.Panes
