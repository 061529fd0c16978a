import Mathlib

/-! # Captured output

Of a stream that flows through a pipeline a report keeps the first bytes, up to a head limit, and the last of those after
them, up to a tail limit. -/

namespace Index.Plumb

open List

structure Capture where
  head : List UInt8
  tail : List UInt8
  headLimit : Nat
  tailLimit : Nat
  total : Nat

namespace Capture

def new (limit : Nat) : Capture := ⟨[], [], limit / 4 * 3, limit - limit / 4 * 3, 0⟩

/-- The loop that takes bytes off the front of the tail. -/
def evict (tailLimit : Nat) : List UInt8 → List UInt8
  | [] => []
  | byte :: tail => if tailLimit < tail.length + 1 then evict tailLimit tail else byte :: tail

def write (capture : Capture) (buf : List UInt8) : Capture :=
  let headRoom := min (capture.headLimit - capture.head.length) buf.length
  { capture with
    head := capture.head ++ buf.take headRoom
    tail := evict capture.tailLimit (capture.tail ++ buf.drop headRoom)
    total := capture.total + buf.length }

def truncated (capture : Capture) : Bool := capture.head.length + capture.tail.length < capture.total

theorem evict_eq (tailLimit : Nat) (tail : List UInt8) : evict tailLimit tail = tail.drop (tail.length - tailLimit) := by
  induction tail with
  | nil => simp [evict]
  | cons byte tail ih =>
    rw [evict, length_cons]
    split_ifs with tooLong
    · rw [ih, Nat.succ_sub (Nat.lt_succ_iff.mp tooLong), drop_succ_cons]
    · rw [Nat.sub_eq_zero_of_le (Nat.not_lt.mp tooLong), drop_zero]

/-- The last bytes of a list, up to a limit. -/
def lastBytes (limit : Nat) (bytes : List UInt8) : List UInt8 := bytes.drop (bytes.length - limit)

/-- Evicting early loses nothing that is kept later. -/
theorem evict_lastBytes (limit : Nat) (bytes more : List UInt8) :
    evict limit (lastBytes limit bytes ++ more) = lastBytes limit (bytes ++ more) := by
  rw [evict_eq, lastBytes, ← drop_append_of_le_length (Nat.sub_le ..), drop_drop, lastBytes]
  congr 1
  simp only [length_drop, length_append]
  omega

/-- What a capture holds of the stream so far. -/
structure Holds (limit : Nat) (stream : List UInt8) (capture : Capture) : Prop where
  headLimit : capture.headLimit = limit / 4 * 3
  tailLimit : capture.tailLimit = limit - limit / 4 * 3
  head : capture.head = stream.take (limit / 4 * 3)
  tail : capture.tail = lastBytes (limit - limit / 4 * 3) (stream.drop (limit / 4 * 3))
  total : capture.total = stream.length

variable {limit : Nat} {stream : List UInt8} {capture : Capture}

theorem Holds.write (holds : Holds limit stream capture) (buf : List UInt8) : Holds limit (stream ++ buf) (capture.write buf) := by
  obtain ⟨isHeadLimit, isTailLimit, isHead, isTail, isTotal⟩ := holds
  have room : min (capture.headLimit - capture.head.length) buf.length = min (limit / 4 * 3 - stream.length) buf.length := by
    rw [isHeadLimit, isHead, length_take]
    omega
  refine ⟨isHeadLimit, isTailLimit, ?_, ?_, ?_⟩
  · rw [Capture.write, room, isHead, take_append, ← take_eq_take_min]
  · rw [Capture.write, room, isTailLimit, isTail, evict_lastBytes, drop_append, ← drop_eq_drop_min]
  · rw [Capture.write, isTotal, length_append]

/-- However a stream is cut into chunks, its capture holds the same of it. -/
theorem foldl_write_holds (limit : Nat) (chunks : List (List UInt8)) : Holds limit chunks.flatten (chunks.foldl write (new limit)) := by
  induction chunks using reverseRecOn with
  | nil => exact ⟨rfl, rfl, by simp [new], by simp [new, lastBytes], rfl⟩
  | append_singleton chunks chunk ih =>
    rw [foldl_concat, flatten_concat]
    exact ih.write chunk

theorem Holds.length_kept (holds : Holds limit stream capture) : capture.head.length + capture.tail.length = min limit stream.length := by
  rw [holds.head, holds.tail, lastBytes]
  simp only [length_take, length_drop]
  omega

/-- A capture counts the whole stream, keeps both ends of it within the limit, and is truncated when the stream is longer
than the limit. -/
theorem capture_of_chunks (limit : Nat) (chunks : List (List UInt8)) :
    Holds limit chunks.flatten (chunks.foldl write (new limit)) ∧
      (chunks.foldl write (new limit)).head.length + (chunks.foldl write (new limit)).tail.length ≤ limit ∧
      ((chunks.foldl write (new limit)).truncated = true ↔ limit < chunks.flatten.length) := by
  have holds := foldl_write_holds limit chunks
  have length := holds.length_kept
  refine ⟨holds, by omega, ?_⟩
  rw [truncated, decide_eq_true_eq, holds.total]
  omega

end Capture

/-! ## Text

What is kept is read as UTF-8, the head and the tail each for itself. -/

def encode (text : List Char) : List UInt8 := text.flatMap String.utf8EncodeChar

def isContinuation (byte : UInt8) : Bool := 0x80 ≤ byte && byte ≤ 0xBF

/-- Whether a second byte may follow the first of a character of three or four. -/
def secondFits (first second : UInt8) : Bool :=
  if first = 0xE0 then 0xA0 ≤ second && second ≤ 0xBF
  else if first = 0xED then 0x80 ≤ second && second ≤ 0x9F
  else if first = 0xF0 then 0x90 ≤ second && second ≤ 0xBF
  else if first = 0xF4 then 0x80 ≤ second && second ≤ 0x8F
  else 0xE1 ≤ first && first ≤ 0xF3 && isContinuation second

/-- How many bytes that are no character one replacement stands for. -/
def invalidLength : List UInt8 → Nat
  | first :: second :: rest =>
    if secondFits first second then if 0xF0 ≤ first && rest.head?.any isContinuation then 3 else 2 else 1
  | _ => 1

theorem invalidLength_pos (bytes : List UInt8) : 0 < invalidLength bytes := by
  unfold invalidLength
  split
  · split_ifs <;> simp
  · simp

/-- `String::from_utf8_lossy` -/
def fromUtf8Lossy (bytes : List UInt8) : List Char :=
  if bytes.isEmpty then []
  else
    match bytes.toByteArray.utf8DecodeChar? 0 with
    | some char => char :: fromUtf8Lossy (bytes.drop char.utf8Size)
    | none => '\uFFFD' :: fromUtf8Lossy (bytes.drop (invalidLength bytes))
termination_by bytes.length
decreasing_by
  · have := char.utf8Size_pos
    simp_all [length_drop, length_pos_iff]
  · have := invalidLength_pos bytes
    simp_all [length_drop, length_pos_iff]

def Capture.render (capture : Capture) : List Char :=
  if capture.truncated then
    fromUtf8Lossy capture.head ++
      s!"\n[plumb: {capture.total - (capture.head.length + capture.tail.length)} bytes omitted]\n".toList ++ fromUtf8Lossy capture.tail
  else if capture.tail.isEmpty then fromUtf8Lossy capture.head
  else fromUtf8Lossy capture.head ++ fromUtf8Lossy capture.tail

/-- The value of a substitution, from what its last stage printed. -/
def substitutionValue (stdout : Capture) : Option (List Char) :=
  if stdout.truncated then none else some (stdout.render.rdropWhile (· = '\n'))

theorem fromUtf8Lossy_nil : fromUtf8Lossy [] = [] := by rw [fromUtf8Lossy]; rfl

/-- The bytes of a character: all but the first are continuations. -/
theorem utf8EncodeChar_eq (char : Char) : ∃ first rest, String.utf8EncodeChar char = first :: rest ∧ isContinuation first = false ∧
    ∀ byte ∈ rest, isContinuation byte = true := by
  unfold String.utf8EncodeChar
  generalize char.val.toNat = value
  dsimp only
  split_ifs <;> refine ⟨_, _, rfl, ?_, ?_⟩ <;> simp [isContinuation, UInt8.le_iff_toNat_le] <;> omega

theorem fromUtf8Lossy_char (char : Char) (rest : List UInt8) :
    fromUtf8Lossy (String.utf8EncodeChar char ++ rest) = char :: fromUtf8Lossy rest := by
  have nonempty : (String.utf8EncodeChar char ++ rest).isEmpty = false := by
    obtain ⟨first, others, isEncoded, -⟩ := utf8EncodeChar_eq char
    simp [isEncoded]
  rw [fromUtf8Lossy, nonempty, toByteArray_append, ByteArray.utf8DecodeChar?_utf8EncodeChar_append]
  simp

theorem fromUtf8Lossy_encode (text : List Char) : fromUtf8Lossy (encode text) = text := by
  induction text with
  | nil => exact fromUtf8Lossy_nil
  | cons char text ih =>
    rw [encode, flatMap_cons, fromUtf8Lossy_char]
    exact congrArg (char :: ·) ih

theorem fromUtf8Lossy_ne_nil {bytes : List UInt8} (some : bytes ≠ []) : fromUtf8Lossy bytes ≠ [] := by
  rw [fromUtf8Lossy]
  split_ifs with empty
  · exact absurd (isEmpty_iff.mp empty) some
  · split <;> simp

theorem fromUtf8Lossy_continuation {byte : UInt8} (continues : isContinuation byte = true) (rest : List UInt8) :
    fromUtf8Lossy (byte :: rest) = '\uFFFD' :: fromUtf8Lossy rest := by
  have undecoded : (byte :: rest).toByteArray.utf8DecodeChar? 0 = none := by
    by_contra decodes
    obtain ⟨char, decoded⟩ := Option.ne_none_iff_exists'.mp decodes
    obtain ⟨others, whole⟩ := ByteArray.exists_of_utf8DecodeChar?_eq_some decoded
    obtain ⟨first, further, isEncoded, starts, -⟩ := utf8EncodeChar_eq char
    have bytes := congrArg (·.data.toList) whole
    simp [isEncoded] at bytes
    simp [← bytes.1, continues] at starts
  have single : invalidLength (byte :: rest) = 1 := by
    cases rest with
    | nil => rfl
    | cons second rest =>
      rw [invalidLength, if_neg]
      simp [isContinuation, UInt8.le_iff_toNat_le] at continues
      have small : byte.toNat < 0xE0 := by omega
      have differ : ∀ first : UInt8, 0xE0 ≤ first.toNat → byte ≠ first := by
        rintro first large rfl
        omega
      simp [secondFits, differ, UInt8.le_iff_toNat_le]
      omega
  rw [fromUtf8Lossy, undecoded]
  simp [single]

theorem fromUtf8Lossy_continuations {bytes : List UInt8} (continue_ : ∀ byte ∈ bytes, isContinuation byte = true) (rest : List UInt8) :
    (fromUtf8Lossy (bytes ++ rest)).length = bytes.length + (fromUtf8Lossy rest).length := by
  induction bytes with
  | nil => simp
  | cons byte bytes ih =>
    obtain ⟨here, later⟩ := forall_mem_cons.mp continue_
    rw [cons_append, fromUtf8Lossy_continuation here, length_cons, length_cons, ih later]
    omega

/-- The two parts of a text read as the text unless they are cut within a character. -/
theorem fromUtf8Lossy_cut (text : List Char) (place : Nat) :
    fromUtf8Lossy ((encode text).take place) ++ fromUtf8Lossy ((encode text).drop place) = text ↔
      (encode text)[place]?.any isContinuation = false := by
  induction text generalizing place with
  | nil => simp [encode, fromUtf8Lossy_nil]
  | cons char text ih =>
    obtain ⟨first, rest, isEncoded, starts, continues⟩ := utf8EncodeChar_eq char
    have bytes : encode (char :: text) = String.utf8EncodeChar char ++ encode text := flatMap_cons
    by_cases beyond : (String.utf8EncodeChar char).length ≤ place
    · obtain ⟨further, rfl⟩ := Nat.exists_eq_add_of_le beyond
      rw [bytes, take_length_add_append, drop_length_add_append, fromUtf8Lossy_char, cons_append, cons.injEq, ih,
        getElem?_append_right (Nat.le_add_right ..), Nat.add_sub_cancel_left]
      simp
    · cases place with
      | zero =>
        rw [take_zero, drop_zero, fromUtf8Lossy_nil, nil_append, fromUtf8Lossy_encode]
        simp [bytes, isEncoded, starts]
      | succ taken =>
        -- A part of the character is read at the end of the first part, and at least one more at the start of the second.
        have part : taken < rest.length := by simpa [isEncoded] using beyond
        rw [bytes, isEncoded, cons_append, take_succ_cons, drop_succ_cons, getElem?_cons_succ, getElem?_append_left part,
          getElem?_eq_getElem part, Option.any_some, continues _ (getElem_mem part)]
        refine iff_of_false (fun same => ?_) (by simp)
        have lengths := congrArg length same
        have some := length_pos_iff.mpr (fromUtf8Lossy_ne_nil (cons_ne_nil first ((rest ++ encode text).take taken)))
        rw [drop_append_of_le_length part.le, length_append,
          fromUtf8Lossy_continuations fun byte member => continues byte (mem_of_mem_drop member), fromUtf8Lossy_encode,
          length_drop, length_cons] at lengths
        omega

/-- A capture of a text within the limit. -/
theorem Capture.Holds.render_eq {limit : Nat} {text : List Char} {capture : Capture} (holds : Holds limit (encode text) capture)
    (fits : (encode text).length ≤ limit) : capture.truncated = false ∧
      capture.render = fromUtf8Lossy ((encode text).take (limit / 4 * 3)) ++ fromUtf8Lossy ((encode text).drop (limit / 4 * 3)) := by
  have whole : capture.truncated = false := by
    rw [truncated, decide_eq_false_iff_not, holds.length_kept, holds.total]
    omega
  have tail : capture.tail = (encode text).drop (limit / 4 * 3) := by
    rw [holds.tail, lastBytes, Nat.sub_eq_zero_of_le (by rw [length_drop]; omega), drop_zero]
  refine ⟨whole, ?_⟩
  rw [render, whole, holds.head, tail]
  cases (encode text).drop (limit / 4 * 3) with
  | nil => simp [fromUtf8Lossy_nil]
  | cons byte bytes => rfl

/-- A text within the limit is captured as it is unless the head ends within one of its characters, and then a substitution
has it as its value. -/
theorem render_eq_text_iff {limit : Nat} {text : List Char} {chunks : List (List UInt8)} (printed : chunks.flatten = encode text)
    (fits : (encode text).length ≤ limit) :
    ((chunks.foldl Capture.write (.new limit)).render = text ↔ (encode text)[limit / 4 * 3]?.any isContinuation = false) ∧
      ((encode text)[limit / 4 * 3]?.any isContinuation = false →
        substitutionValue (chunks.foldl Capture.write (.new limit)) = some (text.rdropWhile (· = '\n'))) := by
  obtain ⟨whole, rendered⟩ := (printed ▸ Capture.foldl_write_holds limit chunks).render_eq fits
  refine ⟨by rw [rendered, fromUtf8Lossy_cut], fun starts => ?_⟩
  rw [substitutionValue, whole, rendered, (fromUtf8Lossy_cut ..).mpr starts]
  rfl

/-- Of a limit of four bytes three are the head, and the last character of this text has two. -/
theorem accent_cut : encode ['a', 'a', 'é'] = [97, 97, 0xC3, 0xA9] ∧
    ([[97, 97, 0xC3, 0xA9]].foldl Capture.write (.new 4)).render ≠ ['a', 'a', 'é'] := by
  have holds : Capture.Holds 4 (encode ['a', 'a', 'é']) _ := Capture.foldl_write_holds 4 [[97, 97, 0xC3, 0xA9]]
  refine ⟨by decide, ?_⟩
  rw [(holds.render_eq (by decide)).2, Ne, fromUtf8Lossy_cut]
  decide

theorem accent_kept : ([[97, 0xC3], [0xA9, 10]].foldl Capture.write (.new 4)).render = ['a', 'é', '\n'] ∧
    substitutionValue ([[97, 0xC3], [0xA9, 10]].foldl Capture.write (.new 4)) = some ['a', 'é'] := by
  have starts : (encode ['a', 'é', '\n'])[4 / 4 * 3]?.any isContinuation = false := by decide
  obtain ⟨rendered, value⟩ := @render_eq_text_iff 4 ['a', 'é', '\n'] [[97, 0xC3], [0xA9, 10]] (by decide) (by decide)
  exact ⟨rendered.mpr starts, value starts⟩

end Index.Plumb
