import Mathlib
import Index.Lib.Json

/-! # Texts by byte offset

A Rust `String` is cut at byte offsets, and only at those that fall between two characters: every
other offset panics.  A cut returns the two parts, or `none` where Rust panics; slices and
replacements are built from cuts, and all of it is read back through the bytes of the text. -/

namespace Index.Lib

open List

/-! ## Characters -/

/-- The Rust character tables a program consults, beyond what is fixed here. -/
structure Unicode where
  isAlphanumeric : Char → Bool
  toLowercase : String → String

/-- The tables restricted to ASCII, where they can be evaluated. -/
def Unicode.ascii : Unicode where
  isAlphanumeric := Char.isAlphanum
  toLowercase text := String.ofList (text.toList.map Char.toLower)

/-- `char::is_whitespace`: the Unicode property `White_Space`. -/
def isWhitespace (char : Char) : Bool :=
  let code := char.toNat
  (9 ≤ code && code ≤ 13) || code == 32 || code == 0x85 || code == 0xA0 || code == 0x1680 ||
    (0x2000 ≤ code && code ≤ 0x200A) || code == 0x2028 || code == 0x2029 || code == 0x202F || code == 0x205F ||
    code == 0x3000

/-- The lines of a text from the reversed start of the current one on. -/
def lineChars : List Char → List Char → List (List Char)
  | [], [] => []
  | current, [] => [current.reverse]
  | '\r' :: current, '\n' :: rest => current.reverse :: lineChars [] rest
  | current, '\n' :: rest => current.reverse :: lineChars [] rest
  | current, char :: rest => lineChars (char :: current) rest

/-- `str::lines`: lines end with a newline, whose carriage return belongs to it; the last line may have none. -/
def lines (text : String) : List String := (lineChars [] text.toList).map String.ofList

theorem lineChars_newline {current : List Char} (rest : List Char) (plain : ∀ char ∈ current, char ≠ '\r') :
    lineChars current ('\n' :: rest) = current.reverse :: lineChars [] rest := by
  cases current with
  | nil => rw [lineChars]; simp
  | cons char current =>
    have notReturn := plain char mem_cons_self
    rw [lineChars]
    simp [notReturn]

theorem lineChars_char {char : Char} (plain : char ≠ '\n') (current rest : List Char) :
    lineChars current (char :: rest) = lineChars (char :: current) rest := by
  rw [lineChars] <;> simp [plain]

/-- A line that is ended by a newline. -/
theorem lineChars_line {line current : List Char} (rest : List Char) (plain : ∀ char ∈ line, char ≠ '\n' ∧ char ≠ '\r')
    (started : ∀ char ∈ current, char ≠ '\r') :
    lineChars current (line ++ '\n' :: rest) = (current.reverse ++ line) :: lineChars [] rest := by
  induction line generalizing current with
  | nil => rw [nil_append, lineChars_newline rest started, append_nil]
  | cons char line ih =>
    obtain ⟨here, later⟩ := forall_mem_cons.mp plain
    rw [cons_append, lineChars_char here.1, ih later (forall_mem_cons.mpr ⟨here.2, started⟩)]
    simp

/-- Lines without line breaks in them, each ended by a newline. -/
theorem lines_flatMap {written : List (List Char)} (plain : ∀ line ∈ written, ∀ char ∈ line, char ≠ '\n' ∧ char ≠ '\r') :
    lines (String.ofList (written.flatMap fun line => line ++ ['\n'])) = written.map String.ofList := by
  rw [lines, String.toList_ofList]
  induction written with
  | nil => rfl
  | cons line written ih =>
    obtain ⟨here, later⟩ := forall_mem_cons.mp plain
    rw [flatMap_cons, append_assoc, singleton_append, lineChars_line _ here (by simp), map_cons, ih later]
    simp

variable {text : String}

/-- `str::trim_matches` for a class of characters. -/
def trimMatches (isTrimmed : Char → Bool) (text : String) : String :=
  String.ofList ((text.toList.dropWhile isTrimmed).reverse.dropWhile isTrimmed).reverse

/-- `str::trim` -/
def trim (text : String) : String := trimMatches isWhitespace text

/-- `str::trim_start` -/
def trimStart (text : String) : String := String.ofList (text.toList.dropWhile isWhitespace)

/-- `str::trim_end` -/
def trimEnd (text : String) : String := String.ofList (text.toList.reverse.dropWhile isWhitespace).reverse

/-! ## Bytes -/

@[simp] theorem utf8_append (left right : String) : utf8 (left ++ right) = utf8 left ++ utf8 right := by
  simp [utf8]

theorem utf8_ofList (chars : List Char) : utf8 (String.ofList chars) = chars.flatMap String.utf8EncodeChar := by
  simp [utf8, List.utf8Encode]

@[simp] theorem utf8_empty : utf8 "" = [] := rfl

theorem utf8_eq_flatMap (text : String) : utf8 text = text.toList.flatMap String.utf8EncodeChar := by
  rw [← utf8_ofList, String.ofList_toList]

theorem length_utf8 (text : String) : (utf8 text).length = (text.toList.map Char.utf8Size).sum := by
  simp [utf8_eq_flatMap, length_flatMap]

theorem eq_empty_of_utf8 (empty : utf8 text = []) : text = "" :=
  utf8_injective (empty.trans utf8_empty.symm)

/-- Two ways to cut one text: the shorter head is a beginning of the longer one. -/
theorem append_eq_append_of_le {head tail before after : String} (same : head ++ tail = before ++ after)
    (shorter : (utf8 head).length ≤ (utf8 before).length) :
    ∃ middle, before = head ++ middle ∧ tail = middle ++ after := by
  have chars : head.toList ++ tail.toList = before.toList ++ after.toList := by
    rw [← String.toList_append, ← String.toList_append, same]
  rcases append_eq_append_iff.mp chars with ⟨middle, longer, rest⟩ | ⟨middle, longer, rest⟩
  · refine ⟨String.ofList middle, String.toList_injective ?_, String.toList_injective ?_⟩
    · simpa using longer
    · simpa using rest
  · have longer : head = before ++ String.ofList middle := String.toList_injective (by simpa using longer)
    have rest : after = String.ofList middle ++ tail := String.toList_injective (by simpa using rest)
    have empty : String.ofList middle = "" := by
      refine eq_empty_of_utf8 (length_eq_zero_iff.mp ?_)
      rw [longer, utf8_append, length_append] at shorter
      omega
    exact ⟨"", by simp [longer, empty], by simp [rest, empty]⟩

/-! ## Cuts -/

def cutChars : List Char → Nat → Option (List Char × List Char)
  | chars, 0 => some ([], chars)
  | [], _ + 1 => none
  | char :: chars, offset + 1 =>
    -- An offset inside the encoding of `char` is no boundary.
    if char.utf8Size ≤ offset + 1 then
      (cutChars chars (offset + 1 - char.utf8Size)).map fun parts => (char :: parts.1, parts.2)
    else none

/-- `str::split_at_checked`: the parts before and after a byte offset, if it is a boundary. -/
def cut (text : String) (offset : Nat) : Option (String × String) :=
  (cutChars text.toList offset).map fun parts => (String.ofList parts.1, String.ofList parts.2)

/-- `str::is_char_boundary` -/
def isCharBoundary (text : String) (offset : Nat) : Bool := (cut text offset).isSome

variable {offset : Nat}

theorem cutChars_eq_some {chars before after : List Char} : cutChars chars offset = some (before, after) ↔
      chars = before ++ after ∧ (before.map Char.utf8Size).sum = offset := by
  induction chars generalizing before offset with
  | nil =>
    cases offset with
    | zero =>
      simp only [cutChars, Option.some.injEq, Prod.mk.injEq, nil_eq_append_iff]
      constructor
      · rintro ⟨rfl, rfl⟩
        exact ⟨⟨rfl, rfl⟩, rfl⟩
      · rintro ⟨⟨rfl, rfl⟩, -⟩
        exact ⟨rfl, rfl⟩
    | succ offset =>
      simp only [cutChars, reduceCtorEq, nil_eq_append_iff, false_iff, not_and]
      rintro ⟨rfl, -⟩
      simp
  | cons char chars ih =>
    cases offset with
    | zero =>
      cases before with
      | nil => simp [cutChars, eq_comm]
      | cons other before =>
        have := Char.utf8Size_pos other
        simp [cutChars]
        omega
    | succ offset =>
      cases before with
      | nil =>
        simp only [cutChars, map_nil, sum_nil]
        split <;> simp
      | cons other before =>
        simp only [cutChars, map_cons, sum_cons, cons_append, List.cons.injEq]
        split
        next fits =>
          simp only [Option.map_eq_some_iff, Prod.mk.injEq, List.cons.injEq, Prod.exists]
          constructor
          · rintro ⟨_, _, found, ⟨rfl, rfl⟩, rfl⟩
            obtain ⟨rfl, size⟩ := ih.mp found
            exact ⟨⟨rfl, rfl⟩, by omega⟩
          · rintro ⟨⟨rfl, rfl⟩, size⟩
            exact ⟨before, after, ih.mpr ⟨rfl, by omega⟩, ⟨rfl, rfl⟩, rfl⟩
        next inside =>
          simp only [reduceCtorEq, false_iff, not_and]
          rintro ⟨rfl, rfl⟩
          omega

theorem cut_eq_some {before after : String} :
    cut text offset = some (before, after) ↔ text = before ++ after ∧ (utf8 before).length = offset := by
  simp only [cut, Option.map_eq_some_iff, Prod.mk.injEq, Prod.exists, length_utf8]
  constructor
  · rintro ⟨_, _, found, rfl, rfl⟩
    obtain ⟨chars, size⟩ := cutChars_eq_some.mp found
    exact ⟨String.toList_injective (by simpa using chars), by simpa using size⟩
  · rintro ⟨rfl, size⟩
    exact ⟨_, _, cutChars_eq_some.mpr ⟨String.toList_append, size⟩, by simp, by simp⟩

theorem isCharBoundary_iff : isCharBoundary text offset = true ↔
      ∃ before after, text = before ++ after ∧ (utf8 before).length = offset := by
  simp only [isCharBoundary, Option.isSome_iff_exists, Prod.exists, cut_eq_some]

/-- `&text[start..stop]` -/
def slice (text : String) (start stop : Nat) : Option String := do
  let (head, _) ← cut text stop
  let (_, middle) ← cut head start
  some middle

/-- `String::replace_range(start..stop, replacement)` -/
def replaceRange (text : String) (start stop : Nat) (replacement : String) : Option String := do
  let (before, _) ← cut text start
  let (_, after) ← cut text stop
  if start ≤ stop then some (before ++ replacement ++ after) else none

theorem replaceRange_append {before middle after : String} (replacement : String) :
    replaceRange (before ++ middle ++ after) (utf8 before).length (utf8 (before ++ middle)).length replacement =
      some (before ++ replacement ++ after) := by
  have atStart : cut (before ++ middle ++ after) (utf8 before).length = some (before, middle ++ after) :=
    cut_eq_some.mpr ⟨String.append_assoc, rfl⟩
  have atStop : cut (before ++ middle ++ after) (utf8 (before ++ middle)).length = some (before ++ middle, after) :=
    cut_eq_some.mpr ⟨rfl, rfl⟩
  have ordered : (utf8 before).length ≤ (utf8 (before ++ middle)).length := by simp
  simp only [replaceRange, atStart, atStop, Option.bind_eq_bind, Option.bind_some, if_pos ordered]

end Index.Lib
