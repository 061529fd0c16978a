import Mathlib

/-! # Globs of the kernel build

A glob is matched segment by segment.  Within a segment the matcher remembers only the last star it has passed. -/

namespace Index.NixKbuildUnit

open List

/-- A text is spelled by a pattern if it is the parts that the pattern's signs stand for, one behind the other. -/
def Spells {α β : Type} (standsFor : α → List β → Prop) (pattern : List α) (text : List β) : Prop :=
  ∃ parts, Forall₂ standsFor pattern parts ∧ parts.flatten = text

section Spelling

variable {α β : Type} {standsFor : α → List β → Prop} {sign : α} {pattern : List α} {text : List β}

@[simp] theorem spells_nil : Spells standsFor [] text ↔ text = [] := by
  simp [Spells, eq_comm]

theorem spells_cons : Spells standsFor (sign :: pattern) text ↔
    ∃ part rest, standsFor sign part ∧ Spells standsFor pattern rest ∧ part ++ rest = text := by
  constructor
  · rintro ⟨_, _ | ⟨first, others⟩, rfl⟩
    exact ⟨_, _, first, ⟨_, others, rfl⟩, rfl⟩
  · rintro ⟨part, _, first, ⟨parts, others, rfl⟩, rfl⟩
    exact ⟨part :: parts, .cons first others, rfl⟩

/-- A sign for anything leaves some rest of the text to the others. -/
theorem spells_wild (wild : ∀ part, standsFor sign part) :
    Spells standsFor (sign :: pattern) text ↔ ∃ rest, rest <:+ text ∧ Spells standsFor pattern rest := by
  rw [spells_cons]
  constructor
  · rintro ⟨part, rest, -, spelled, rfl⟩
    exact ⟨rest, suffix_append part rest, spelled⟩
  · rintro ⟨rest, ⟨part, whole⟩, spelled⟩
    exact ⟨part, rest, wild part, spelled, whole⟩

end Spelling

/-! ## A segment -/

abbrev Bytes := List UInt8

def star : UInt8 := 42

/-- The loop of the matcher, on what is left of the pattern and the segment, with what was left of the pattern
behind the last star and of the segment at it. -/
def segmentLoop (pattern segment : Bytes) (last : Option (Bytes × Bytes)) : Bool :=
  match segment with
  | [] => pattern.all (· == star)
  | byte :: rest =>
    if pattern.head? = some star then segmentLoop pattern.tail (byte :: rest) (some (pattern.tail, byte :: rest))
    else if pattern.head? = some byte then segmentLoop pattern.tail rest last
    else
      match last with
      | some (behind, start) => segmentLoop behind start.tail (some (behind, start.tail))
      | none => false
termination_by (max segment.length (last.elim 0 (·.2.length)), pattern.length)
decreasing_by
  all_goals simp only [Prod.lex_def, Option.elim, length_cons, length_tail]
  · have := length_pos_of_mem (mem_of_mem_head? ‹_›)
    omega
  · have := length_pos_of_mem (mem_of_mem_head? ‹_›)
    cases last <;> simp only [] <;> omega
  · omega

def segmentMatch (pattern segment : Bytes) : Bool := segmentLoop pattern segment none

/-- A star stands for any bytes, any other byte for itself. -/
abbrev Covers : Bytes → Bytes → Prop := Spells fun byte part => byte = star ∨ part = [byte]

variable {pattern segment behind start : Bytes} {byte : UInt8}

theorem covers_star : Covers (star :: pattern) segment ↔ ∃ rest, rest <:+ segment ∧ Covers pattern rest :=
  spells_wild fun _ => .inl rfl

theorem covers_byte (plain : byte ≠ star) :
    Covers (byte :: pattern) segment ↔ ∃ rest, segment = byte :: rest ∧ Covers pattern rest := by
  simp [Covers, spells_cons, plain, eq_comm, and_comm]

theorem covers_empty : Covers pattern [] ↔ pattern.all (· == star) := by
  induction pattern with
  | nil => simp
  | cons byte pattern ih =>
    by_cases wild : byte = star
    · simp [wild, covers_star, ih]
    · simp [wild, covers_byte]

theorem covers_plain {plain : Bytes} (noStar : star ∉ plain) :
    Covers (plain ++ pattern) segment ↔ ∃ rest, segment = plain ++ rest ∧ Covers pattern rest := by
  induction plain generalizing segment with
  | nil => simp
  | cons byte plain ih =>
    simp only [mem_cons, not_or] at noStar
    simp [covers_byte (Ne.symm noStar.1), ih noStar.2]

/-- Neither a star nor the next byte. -/
theorem not_covers {rest : Bytes} (passed : pattern.head? ≠ some star) (other : pattern.head? ≠ some byte) :
    ¬ Covers pattern (byte :: rest) := by
  cases pattern with
  | nil => simp
  | cons sign pattern => simp_all [covers_byte, eq_comm]

/-- What was left at the last star differs from what is left by the same plain bytes. -/
def SinceStar (pattern segment : Bytes) (last : Option (Bytes × Bytes)) : Prop :=
  ∀ behind start, last = some (behind, start) →
    ∃ plain, star ∉ plain ∧ behind = plain ++ pattern ∧ start = plain ++ segment

theorem sinceStar_self : SinceStar behind start (some (behind, start)) := by
  rintro _ _ ⟨⟩
  exact ⟨[], not_mem_nil, rfl, rfl⟩

/-- A later start from the last star. -/
def Restarts (last : Option (Bytes × Bytes)) : Prop :=
  ∃ behind start, last = some (behind, start) ∧ ∃ rest, rest <:+ start.tail ∧ Covers behind rest

theorem covers_or_restarts :
    Covers behind start ∨ Restarts (some (behind, start)) ↔ ∃ rest, rest <:+ start ∧ Covers behind rest := by
  cases start with
  | nil => simp [Restarts]
  | cons byte start => simp [Restarts, suffix_cons_iff, or_and_right, exists_or]

variable {last : Option (Bytes × Bytes)}

theorem Restarts.exists_suffix (since : SinceStar pattern segment last) (restarts : Restarts last) :
    ∃ rest, rest <:+ segment ∧ Covers pattern rest := by
  obtain ⟨behind, start, isLast, text, later, covered⟩ := restarts
  obtain ⟨plain, noStar, rfl, rfl⟩ := since behind start isLast
  obtain ⟨rest, rfl, others⟩ := (covers_plain noStar).mp covered
  have whole : plain ++ rest <:+ plain ++ segment := later.trans (tail_suffix _)
  have shorter : rest.length ≤ segment.length := by simpa using whole.length_le
  exact ⟨rest, suffix_of_suffix_length_le ((suffix_append plain rest).trans whole) (suffix_append plain segment) shorter, others⟩

/-- No start from an earlier star than the last is needed. -/
theorem segmentLoop_iff (since : SinceStar pattern segment last) :
    segmentLoop pattern segment last ↔ Covers pattern segment ∨ Restarts last := by
  fun_induction segmentLoop pattern segment last with
  | case1 pattern last =>
    rw [← covers_empty, iff_self_or]
    intro restarts
    obtain ⟨rest, isRest, covered⟩ := restarts.exists_suffix since
    rwa [suffix_nil.mp isRest] at covered
  | case2 pattern last byte rest passed ih =>
    obtain ⟨behind, rfl⟩ := head?_eq_some_iff.mp passed
    rw [ih sinceStar_self, tail_cons, covers_or_restarts, ← covers_star, iff_self_or]
    intro restarts
    obtain ⟨text, isText, covered⟩ := restarts.exists_suffix since
    obtain ⟨others, later, covered⟩ := covers_star.mp covered
    exact covers_star.mpr ⟨others, later.trans isText, covered⟩
  | case3 pattern last byte rest passed same ih =>
    obtain ⟨behind, rfl⟩ := head?_eq_some_iff.mp same
    have plain : byte ≠ star := by simpa using passed
    have further : SinceStar behind rest last := by
      intro atStar start isLast
      obtain ⟨bytes, noStar, rfl, rfl⟩ := since atStar start isLast
      exact ⟨bytes ++ [byte], by simp [noStar, Ne.symm plain], by simp, by simp⟩
    rw [ih further, tail_cons, covers_byte plain]
    simp
  | case4 pattern byte rest passed other behind start ih =>
    rw [ih sinceStar_self, covers_or_restarts, or_iff_right (not_covers passed other)]
    simp [Restarts]
  | case5 pattern byte rest passed other =>
    simp [Restarts, not_covers passed other]

theorem segmentMatch_iff : segmentMatch pattern segment ↔ Covers pattern segment := by
  rw [segmentMatch, segmentLoop_iff (by simp [SinceStar])]
  simp [Restarts]

/-! ## A path -/

def doubleStar : Bytes := [star, star]

def matchSegments : List Bytes → List Bytes → Bool
  | [], path => path.isEmpty
  | first :: rest, path =>
    if first = doubleStar then (range (path.length + 1)).any fun skip => matchSegments rest (path.drop skip)
    else
      match path with
      | [] => false
      | segment :: pathRest => segmentMatch first segment && matchSegments rest pathRest

/-- The pattern and the path are cut at the slashes. -/
def globMatch (pattern path : Bytes) : Bool := matchSegments (pattern.splitOn 47) (path.splitOn 47)

/-- A double star stands for any segments, another sign for one segment that it covers. -/
abbrev CoversPath : List Bytes → List Bytes → Prop :=
  Spells fun sign part => sign = doubleStar ∨ ∃ segment, part = [segment] ∧ Covers sign segment

theorem matchSegments_iff (pattern path : List Bytes) : matchSegments pattern path ↔ CoversPath pattern path := by
  induction pattern generalizing path with
  | nil => simp [matchSegments]
  | cons first rest ih =>
    unfold matchSegments
    split_ifs with double
    · rw [CoversPath, spells_wild fun _ => .inl double]
      simp only [any_eq_true, mem_range, ih]
      constructor
      · rintro ⟨skip, -, covered⟩
        exact ⟨path.drop skip, drop_suffix skip path, covered⟩
      · rintro ⟨text, isText, covered⟩
        refine ⟨path.length - text.length, by omega, ?_⟩
        rwa [← suffix_iff_eq_drop.mp isText]
    · cases path with
      | nil => simp [spells_cons, double]
      | cons segment path => simp [spells_cons, double, segmentMatch_iff, ih]

/-- A glob matches the paths it spells: a double star stands for any segments, a star for any bytes of one. -/
theorem globMatch_iff (pattern path : Bytes) :
    globMatch pattern path ↔ CoversPath (pattern.splitOn 47) (path.splitOn 47) :=
  matchSegments_iff _ _

end Index.NixKbuildUnit
