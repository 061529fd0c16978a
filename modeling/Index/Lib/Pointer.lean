import Mathlib.Data.List.Infix
import Mathlib.Data.String.Basic

/-! # JSON Pointers

A path of segments is written with a slash before each of them; a tilde and a slash inside a segment are escaped.
The text can be read back, and one path continues another exactly when its text continues the other's with a slash. -/

namespace Index.Lib

open List

/-- `str::replace` of a character. -/
def replaceChar (old : Char) (new : List Char) (text : List Char) : List Char :=
  text.flatMap fun char => if char = old then new else [char]

/-- `str::replace` of two characters by one. -/
def replacePair (first second new : Char) : List Char → List Char
  | [] => []
  | [char] => [char]
  | char :: next :: rest =>
    if char = first ∧ next = second then new :: replacePair first second new rest
    else char :: replacePair first second new (next :: rest)

/-- `str::strip_prefix` -/
def withoutStart (start text : List Char) : Option (List Char) :=
  if start <+: text then some (text.drop start.length) else none

/-- Whether one of two texts is the other or continues it with a separator. -/
def related (separator : Char) (left right : List Char) : Bool :=
  let continues := fun longer shorter => (withoutStart shorter longer).any fun rest => rest.head? = some separator
  left = right || continues left right || continues right left

theorem continues_iff {separator : Char} {longer shorter : List Char} :
    ((withoutStart shorter longer).any fun rest => rest.head? = some separator) = true ↔
      ∃ rest, longer = shorter ++ separator :: rest := by
  rw [withoutStart]
  constructor
  · intro found
    split_ifs at found with leads
    · obtain ⟨rest, rfl⟩ := leads
      cases rest with
      | nil => simp at found
      | cons char rest => exact ⟨rest, by simpa using found⟩
    · simp at found
  · rintro ⟨rest, rfl⟩
    simp

theorem related_iff {separator : Char} {left right : List Char} :
    related separator left right = true ↔
      left = right ∨ (∃ rest, left = right ++ separator :: rest) ∨ ∃ rest, right = left ++ separator :: rest := by
  rw [related, Bool.or_eq_true, Bool.or_eq_true, continues_iff, continues_iff, decide_eq_true_eq, or_assoc]

namespace Pointer

def escape (segment : List Char) : List Char := replaceChar '/' ['~', '1'] (replaceChar '~' ['~', '0'] segment)

def unescape (segment : List Char) : List Char := replacePair '~' '0' '~' (replacePair '~' '1' '/' segment)

def render (segments : List String) : List Char := segments.flatMap fun segment => '/' :: escape segment.toList

def parse (text : List Char) : List String :=
  ((text.splitOn '/').drop 1).map fun segment => String.ofList (unescape segment)

/-! ## Reading back -/

theorem replacePair_cons {first second new char : Char} {rest : List Char} (differ : char ≠ first) :
    replacePair first second new (char :: rest) = char :: replacePair first second new rest := by
  cases rest with
  | nil => rfl
  | cons next rest => rw [replacePair, if_neg fun both => differ both.1]

theorem replacePair_pair {first second new : Char} {rest : List Char} :
    replacePair first second new (first :: second :: rest) = new :: replacePair first second new rest := by
  rw [replacePair, if_pos ⟨rfl, rfl⟩]

theorem escape_cons {char : Char} {segment : List Char} :
    escape (char :: segment) =
      (if char = '~' then ['~', '0'] else if char = '/' then ['~', '1'] else [char]) ++ escape segment := by
  by_cases tilde : char = '~'
  · simp [escape, replaceChar, tilde]
  · by_cases slash : char = '/' <;> simp [escape, replaceChar, tilde, slash]

/-- Slashes come back first; the tildes that were escaped are still marked then. -/
theorem replacePair_escape (segment : List Char) :
    replacePair '~' '1' '/' (escape segment) = replaceChar '~' ['~', '0'] segment := by
  induction segment with
  | nil => rfl
  | cons char segment ih =>
    rw [escape_cons, replaceChar, flatMap_cons, ← replaceChar]
    split_ifs with tilde slash
    · rw [cons_append, cons_append, nil_append, replacePair, if_neg (by decide),
        replacePair_cons (by decide), ih]
      rfl
    · rw [cons_append, cons_append, nil_append, replacePair_pair, ih, slash]
      rfl
    · rw [singleton_append, replacePair_cons tilde, ih]
      rfl

@[simp] theorem unescape_escape (segment : List Char) : unescape (escape segment) = segment := by
  rw [unescape, replacePair_escape]
  induction segment with
  | nil => rfl
  | cons char segment ih =>
    rw [replaceChar, flatMap_cons, ← replaceChar]
    split_ifs with tilde
    · rw [cons_append, cons_append, nil_append, replacePair_pair, ih, tilde]
    · rw [singleton_append, replacePair_cons tilde, ih]

theorem slash_not_mem_escape (segment : List Char) : '/' ∉ escape segment := by
  induction segment with
  | nil => simp [escape, replaceChar]
  | cons char segment ih =>
    rw [escape_cons, mem_append, not_or]
    refine ⟨?_, ih⟩
    split_ifs with tilde slash
    · decide
    · decide
    · simpa using Ne.symm slash

theorem splitOn_render (segments : List String) :
    (render segments).splitOn '/' = [] :: segments.map fun segment => escape segment.toList := by
  have after : ∀ first : List Char, '/' ∉ first → ∀ segments : List String,
      (first ++ render segments).splitOn '/' = first :: segments.map fun segment => escape segment.toList := by
    intro first clean segments
    induction segments generalizing first with
    | nil => simpa [render] using splitOn_eq_singleton clean
    | cons segment segments ih =>
      rw [render, flatMap_cons, ← render, cons_append, splitOn_append_cons_self_of_not_mem clean,
        ih _ (slash_not_mem_escape _), map_cons]
  simpa using after [] (by simp) segments

theorem parse_render (segments : List String) : parse (render segments) = segments := by
  rw [parse, splitOn_render]
  simp [Function.comp_def]

theorem render_append (front back : List String) : render (front ++ back) = render front ++ render back :=
  flatMap_append

/-! ## Continuing a path -/

theorem prefix_of_render {front path : List String} {rest : List Char} (continues : render path = render front ++ '/' :: rest) :
    front <+: path := by
  have split := congrArg (List.splitOn '/') continues
  rw [splitOn_append_cons_self, splitOn_render, splitOn_render, cons_append, List.cons.injEq] at split
  have escaped : front.map (fun segment => escape segment.toList) <+: path.map fun segment => escape segment.toList :=
    ⟨_, split.2.symm⟩
  have injective : Function.Injective fun segment : String => escape segment.toList := fun left right same =>
    String.toList_injective (by simpa using congrArg unescape same)
  exact (prefix_map_iff_of_injective injective).mp escaped

theorem related_render {left right : List String} :
    related '/' (render left) (render right) = true ↔ left <+: right ∨ right <+: left := by
  have continues : ∀ {front path : List String}, front <+: path →
      render path = render front ∨ ∃ rest, render path = render front ++ '/' :: rest := by
    rintro front _ ⟨back, rfl⟩
    rw [render_append]
    cases back with
    | nil => exact Or.inl (by simp [render])
    | cons segment back => exact Or.inr ⟨_, by rw [render, render, flatMap_cons, cons_append]⟩
  rw [related_iff]
  constructor
  · rintro (same | ⟨rest, longer⟩ | ⟨rest, longer⟩)
    · have paths : left = right := by rw [← parse_render left, same, parse_render]
      exact Or.inl (paths ▸ prefix_rfl)
    · exact Or.inr (prefix_of_render longer)
    · exact Or.inl (prefix_of_render longer)
  · rintro (leads | leads)
    · rcases continues leads with same | longer
      · exact Or.inl same.symm
      · exact Or.inr (Or.inr longer)
    · rcases continues leads with same | longer
      · exact Or.inl same
      · exact Or.inr (Or.inl longer)

end Pointer

end Index.Lib
