import Mathlib.Data.Option.Defs
import Mathlib.Data.List.TakeWhile
import Index.Astlog.Digits

/-! # Regrouping is a normaliser

A decimal literal is given by its runs and its exponent marker; the canonical literal has the same digits, with separators
where they belong.  Regrouping finds the canonical literal of every text that is a literal, and leaves a canonical one alone. -/

namespace Index.Astlog

open List

/-! ## Literals -/

/-- Digits, with underscores strictly between them. -/
structure Run (run : List Char) : Prop where
  chars : ∀ char ∈ run, char.isDigit = true ∨ char = '_'
  first : ∃ digit, run.head? = some digit ∧ digit.isDigit = true
  last : ∃ digit, run.getLast? = some digit ∧ digit.isDigit = true

structure Number where
  int : List Char
  frac : Option (List Char)
  /-- The marker with its sign, and the run behind it. -/
  exponent : Option (List Char × List Char)

def Number.text (number : Number) : List Char :=
  number.int ++ (number.frac.elim [] fun frac => '.' :: frac) ++ number.exponent.elim [] fun exponent => exponent.1 ++ exponent.2

def exponentMarkers : List (List Char) := [['e'], ['E'], ['e', '+'], ['E', '+'], ['e', '-'], ['E', '-']]

structure Number.Valid (number : Number) : Prop where
  int : number.int = [] ∨ Run number.int
  frac : ∀ frac ∈ number.frac, frac = [] ∨ Run frac
  exponent : ∀ exponent ∈ number.exponent, exponent.1 ∈ exponentMarkers ∧ Run exponent.2
  mantissa : number.int ≠ [] ∨ ∃ frac ∈ number.frac, frac ≠ []

/-- A decimal literal, separators wherever they stand. -/
def IsLiteral (text : List Char) : Prop := ∃ number : Number, number.Valid ∧ number.text = text

/-! ## Canonical literals -/

/-- Groups with separators between them. -/
def joinGroups : List (List Char) → List Char
  | [] => []
  | first :: rest => first ++ rest.flatMap fun group => '_' :: group

/-- Groups of three, from the right or from the left; the group at the other end may be shorter. -/
inductive Grouped : Bool → List Char → Prop
  | right (first : List Char) (groups : List (List Char)) (some : 0 < first.length) (few : first.length ≤ groupSize)
      (full : ∀ group ∈ groups, group.length = groupSize) (digits : ∀ group ∈ first :: groups, ∀ char ∈ group, char.isDigit = true) :
      Grouped false (joinGroups (first :: groups))
  | left (groups : List (List Char)) (last : List Char) (some : 0 < last.length) (few : last.length ≤ groupSize)
      (full : ∀ group ∈ groups, group.length = groupSize) (digits : ∀ group ∈ groups ++ [last], ∀ char ∈ group, char.isDigit = true) :
      Grouped true (joinGroups (groups ++ [last]))

def bare (run : List Char) : List Char := run.filter (· ≠ '_')

/-- The same digits: grouped, if there were separators or more digits than may stay bare, and otherwise without separators. -/
structure RunRegrouped (fromLeft : Bool) (run fixed : List Char) : Prop where
  digits : bare fixed = bare run
  separators : if '_' ∈ run ∨ maxUngrouped < (bare run).length then Grouped fromLeft fixed else '_' ∉ fixed

structure Number.Regrouped (number fixed : Number) : Prop where
  int : RunRegrouped false number.int fixed.int
  frac : Option.Rel (RunRegrouped true) number.frac fixed.frac
  exponent : Option.Rel (fun exponent other => exponent.1 = other.1 ∧ RunRegrouped false exponent.2 other.2)
    number.exponent fixed.exponent

/-! ## Groups -/

theorem bare_of_digits {digits : List Char} (plain : ∀ char ∈ digits, char.isDigit = true) : bare digits = digits := by
  refine filter_eq_self.mpr fun char member => ?_
  have digit := plain char member
  simp only [decide_eq_true_eq]
  rintro rfl
  cases digit

theorem bare_joinGroups {groups : List (List Char)} (plain : ∀ group ∈ groups, ∀ char ∈ group, char.isDigit = true) :
    bare (joinGroups groups) = groups.flatten := by
  cases groups with
  | nil => rfl
  | cons first groups =>
    obtain ⟨here, later⟩ := forall_mem_cons.mp plain
    have rest : groups.flatMap (fun group => bare ('_' :: group)) = groups.flatMap id :=
      flatMap_congr fun group member => bare_of_digits (later group member)
    rw [joinGroups, bare, filter_append, filter_flatMap, flatten_cons, ← flatMap_id]
    exact congrArg₂ _ (bare_of_digits here) rest

/-- A separator stands before the digit at a position. -/
abbrev Boundary (length : Nat) (fromLeft : Bool) (index : Nat) : Prop :=
  0 < index ∧ if fromLeft then index % groupSize = 0 else (length - index) % groupSize = 0

section Groups

variable {length index : Nat} {fromLeft : Bool} {first last group : List Char} {groups : List (List Char)}

theorem groupDigitsFrom_append (rest : List Char) (inside : ∀ offset < group.length, ¬ Boundary length fromLeft (index + offset)) :
    groupDigitsFrom length fromLeft index (group ++ rest) = group ++ groupDigitsFrom length fromLeft (index + group.length) rest := by
  induction group generalizing index with
  | nil => rfl
  | cons digit group ih =>
    have next := @ih (index + 1) fun offset short => by simpa [Nat.add_assoc, Nat.add_comm 1] using inside (offset + 1) (by simpa using short)
    rw [cons_append, groupDigitsFrom, if_neg (show ¬ Boundary length fromLeft index from inside 0 (by simp)), next, length_cons, Nat.add_assoc, Nat.add_comm 1]
    rfl

theorem groupDigitsFrom_group (rest : List Char) (some : 0 < group.length) (starts : Boundary length fromLeft index)
    (inside : ∀ offset < group.length, 0 < offset → ¬ Boundary length fromLeft (index + offset)) :
    groupDigitsFrom length fromLeft index (group ++ rest) =
      '_' :: group ++ groupDigitsFrom length fromLeft (index + group.length) rest := by
  cases group with
  | nil => cases some
  | cons digit group =>
    have next := @groupDigitsFrom_append length (index + 1) fromLeft group rest fun offset short => by
      simpa [Nat.add_assoc, Nat.add_comm 1] using inside (offset + 1) (by simpa using short) offset.succ_pos
    rw [cons_append, groupDigitsFrom, if_pos starts, next, length_cons, Nat.add_assoc, Nat.add_comm 1]
    rfl

variable (full : ∀ group ∈ groups, group.length = groupSize)
include full

theorem length_flatten_full : groups.flatten.length % 3 = 0 := by
  rw [length_flatten, map_congr_left full]
  simp [groupSize]

theorem groupDigitsFrom_right (later : 0 < index) :
    groupDigitsFrom (index + groups.flatten.length) false index groups.flatten = groups.flatMap fun group => '_' :: group := by
  induction groups generalizing index with
  | nil => rfl
  | cons group groups ih =>
    obtain ⟨here, rest⟩ := forall_mem_cons.mp full
    have multiple := length_flatten_full rest
    rw [flatten_cons, flatMap_cons, ← ih rest (show 0 < index + group.length by omega), length_append, ← Nat.add_assoc]
    simp only [groupSize] at here
    refine groupDigitsFrom_group _ (by omega) ?_ fun offset short positive => ?_ <;>
      simp only [Boundary, groupSize, Bool.false_eq_true, if_false] <;> omega

theorem groupDigits_right (few : first.length ≤ groupSize) (some : 0 < first.length) :
    groupDigits (first ++ groups.flatten) false = joinGroups (first :: groups) := by
  have multiple := length_flatten_full full
  rw [joinGroups, ← groupDigitsFrom_right full some, groupDigits, groupDigitsFrom_append, Nat.zero_add, length_append]
  intro offset short
  simp only [Boundary, groupSize, length_append, Bool.false_eq_true, if_false] at few ⊢
  omega

theorem groupDigitsFrom_left (some : 0 < last.length) (few : last.length ≤ groupSize) (later : 0 < index)
    (boundary : index % groupSize = 0) :
    groupDigitsFrom length true index (groups ++ [last]).flatten = (groups ++ [last]).flatMap fun group => '_' :: group := by
  have group (group rest : List Char) {index : Nat} (some : 0 < group.length) (few : group.length ≤ groupSize) (later : 0 < index)
      (boundary : index % groupSize = 0) : groupDigitsFrom length true index (group ++ rest) =
        '_' :: group ++ groupDigitsFrom length true (index + group.length) rest := by
    refine groupDigitsFrom_group _ some ⟨later, boundary⟩ fun offset short positive => ?_
    simp only [Boundary, groupSize, if_true] at few boundary ⊢
    omega
  induction groups generalizing index with
  | nil => simpa [groupDigitsFrom] using group last [] some few later boundary
  | cons full_ groups ih =>
    obtain ⟨here, rest⟩ := forall_mem_cons.mp full
    rw [cons_append, flatten_cons, flatMap_cons, ← ih rest (show 0 < index + full_.length by omega) (by rw [here, Nat.add_mod_right, boundary])]
    exact group full_ _ (here ▸ by decide) here.le later boundary

theorem groupDigits_left (some : 0 < last.length) (few : last.length ≤ groupSize) :
    groupDigits (groups ++ [last]).flatten true = joinGroups (groups ++ [last]) := by
  have start (length : Nat) {first : List Char} (rest : List Char) (few : first.length ≤ groupSize) :
      groupDigitsFrom length true 0 (first ++ rest) = first ++ groupDigitsFrom length true first.length rest := by
    rw [groupDigitsFrom_append, Nat.zero_add]
    intro offset short
    simp only [Boundary, groupSize, if_true] at few ⊢
    omega
  cases groups with
  | nil => simpa [groupDigits, groupDigitsFrom, joinGroups] using start last.length [] few
  | cons first groups =>
    obtain ⟨here, rest⟩ := forall_mem_cons.mp full
    rw [cons_append, joinGroups, flatten_cons, groupDigits, start _ _ here.le, here]
    exact congrArg _ (groupDigitsFrom_left rest some few (by decide) rfl)

end Groups

theorem exists_groups {digits : List Char} (some : digits ≠ []) : ∃ groups last, (∀ group ∈ groups, group.length = groupSize) ∧
    0 < last.length ∧ last.length ≤ groupSize ∧ (groups ++ [last]).flatten = digits := by
  by_cases few : digits.length ≤ groupSize
  · exact ⟨[], digits, by simp, length_pos_of_ne_nil some, few, by simp⟩
  · obtain ⟨groups, last, full, rest⟩ := @exists_groups (digits.drop groupSize) (by simpa using few)
    refine ⟨digits.take groupSize :: groups, last, forall_mem_cons.mpr ⟨by simp; omega, full⟩, rest.1, rest.2.1, ?_⟩
    rw [cons_append, flatten_cons, rest.2.2, take_append_drop]
termination_by digits.length
decreasing_by simp [groupSize] at few ⊢; omega

theorem grouped_groupDigits {digits : List Char} (some : digits ≠ []) (plain : ∀ char ∈ digits, char.isDigit = true) (fromLeft : Bool) :
    Grouped fromLeft (groupDigits digits fromLeft) ∧ bare (groupDigits digits fromLeft) = digits := by
  cases fromLeft with
  | false =>
    -- From the right the groups are those of the digits read backwards.
    obtain ⟨groups, last, full, some, few, same⟩ := @exists_groups digits.reverse (by simpa using some)
    have split : digits = last.reverse ++ (groups.map reverse).reverse.flatten := by
      rw [← reverse_reverse digits, ← same]
      simp [reverse_flatten]
    rw [← length_reverse] at some few
    replace full : ∀ group ∈ (groups.map reverse).reverse, group.length = groupSize := by
      intro group member
      obtain ⟨found, inside, rfl⟩ := mem_map.mp (mem_reverse.mp member)
      rw [length_reverse, full found inside]
    rw [split] at plain ⊢
    rw [groupDigits_right full few some]
    have grouped := fun group member char inside => plain char (flatten_cons ▸ mem_flatten.mpr ⟨group, member, inside⟩)
    exact ⟨.right _ _ some few full grouped, bare_joinGroups grouped⟩
  | true =>
    obtain ⟨groups, last, full, positive, few, rfl⟩ := exists_groups some
    rw [groupDigits_left full positive few]
    have grouped := fun group member char inside => plain char (mem_flatten.mpr ⟨group, member, inside⟩)
    exact ⟨.left groups last positive few full grouped, bare_joinGroups grouped⟩

/-- Groups are found from their digits. -/
theorem Grouped.eq {fromLeft : Bool} {run : List Char} (grouped : Grouped fromLeft run) : groupDigits (bare run) fromLeft = run := by
  cases grouped with
  | right first groups some few full digits => rw [bare_joinGroups digits, flatten_cons, groupDigits_right full few some]
  | left groups last some few full digits => rw [bare_joinGroups digits, groupDigits_left full some few]

/-! ## Runs -/

variable {run : List Char}

theorem Run.ne_nil (isRun : Run run) : run ≠ [] := by
  rintro rfl
  obtain ⟨digit, first, -⟩ := isRun.first
  cases first

theorem isRun_iff : isRun run = true ↔ Run run := by
  simp only [isRun, Bool.and_eq_true, all_eq_true, Bool.or_eq_true, decide_eq_true_eq, Option.any_eq_true]
  exact ⟨fun ⟨⟨first, last⟩, chars⟩ => ⟨chars, first, last⟩, fun ⟨chars, first, last⟩ => ⟨⟨first, last⟩, chars⟩⟩

theorem Run.bare_digits (isRun : Run run) : ∀ char ∈ bare run, char.isDigit = true := by
  intro char member
  obtain ⟨inside, notSeparator⟩ := mem_filter.mp member
  exact (isRun.chars char inside).resolve_right (by simpa using notSeparator)

theorem Run.bare_ne_nil (isRun : Run run) : bare run ≠ [] := by
  obtain ⟨digit, first, isDigit⟩ := isRun.first
  refine ne_nil_of_mem (mem_filter.mpr ⟨mem_of_mem_head? first, ?_⟩)
  simp only [decide_eq_true_eq]
  rintro rfl
  cases isDigit

theorem bare_of_not_mem (plain : '_' ∉ run) : bare run = run :=
  filter_eq_self.mpr fun char member => by
    simp only [decide_eq_true_eq]
    rintro rfl
    exact plain member

theorem not_mem_bare (run : List Char) : '_' ∉ bare run := by simp [bare]

theorem canonicalRun_eq (run : List Char) (fromLeft : Bool) : canonicalRun run fromLeft =
    if '_' ∈ run ∨ maxUngrouped < (bare run).length then groupDigits (bare run) fromLeft else bare run := rfl

/-- The canonical run of the code is the regrouped run. -/
theorem runRegrouped_iff {fromLeft : Bool} {fixed : List Char} (isRun : run = [] ∨ Run run) :
    RunRegrouped fromLeft run fixed ↔ fixed = canonicalRun run fromLeft := by
  rw [canonicalRun_eq]
  constructor
  · rintro ⟨digits, separators⟩
    split
    next needed =>
      rw [if_pos needed] at separators
      rw [← digits, separators.eq]
    next needless =>
      rw [if_neg needless] at separators
      rw [← digits, bare_of_not_mem separators]
  · rintro rfl
    split
    next needed =>
      rcases isRun with rfl | isRun
      · simp [bare] at needed
      · obtain ⟨grouped, digits⟩ := grouped_groupDigits isRun.bare_ne_nil isRun.bare_digits fromLeft
        refine ⟨digits, ?_⟩
        rwa [if_pos needed]
    next needless =>
      refine ⟨bare_of_not_mem (not_mem_bare run), ?_⟩
      rw [if_neg needless]
      exact not_mem_bare run

theorem RunRegrouped.canonicalRun (isRun : run = [] ∨ Run run) (fromLeft : Bool) :
    RunRegrouped fromLeft run (canonicalRun run fromLeft) :=
  (runRegrouped_iff isRun).mpr rfl

theorem canonicalRun_canonicalRun (isRun : run = [] ∨ Run run) (fromLeft : Bool) :
    canonicalRun (canonicalRun run fromLeft) fromLeft = canonicalRun run fromLeft := by
  obtain ⟨digits, separators⟩ := RunRegrouped.canonicalRun isRun fromLeft
  rw [canonicalRun_eq (canonicalRun run fromLeft), digits]
  split_ifs at separators ⊢ with again needed needed
  · rw [← digits, separators.eq]
  · exact absurd (.inr (again.resolve_left separators)) needed
  · rw [← digits, bare_of_not_mem fun inside => again (.inl inside)]
  · rw [← digits, bare_of_not_mem separators]

theorem head?_groupDigits (digits : List Char) (fromLeft : Bool) : (groupDigits digits fromLeft).head? = digits.head? := by
  cases digits with
  | nil => rfl
  | cons digit digits => simp [groupDigits, groupDigitsFrom]

theorem getLast?_groupDigits (digits : List Char) (fromLeft : Bool) : (groupDigits digits fromLeft).getLast? = digits.getLast? := by
  have from_ : ∀ length index, (groupDigitsFrom length fromLeft index digits).getLast? = digits.getLast? := by
    intro length
    induction digits with
    | nil => exact fun _ => rfl
    | cons digit digits ih =>
      intro index
      simp only [groupDigitsFrom]
      split_ifs <;> simp [getLast?_cons, ih]
  exact from_ _ 0

theorem Run.canonicalRun (isRun : Run run) (fromLeft : Bool) : Run (canonicalRun run fromLeft) := by
  have digits := (RunRegrouped.canonicalRun (.inr isRun) fromLeft).digits
  have ends : (Astlog.canonicalRun run fromLeft).head? = (bare run).head? ∧
      (Astlog.canonicalRun run fromLeft).getLast? = (bare run).getLast? := by
    rw [canonicalRun_eq]
    split
    next => exact ⟨head?_groupDigits _ _, getLast?_groupDigits _ _⟩
    next => exact ⟨rfl, rfl⟩
  obtain ⟨first, firstEq⟩ : ∃ first, (bare run).head? = some first := ⟨_, head?_eq_some_head isRun.bare_ne_nil⟩
  obtain ⟨last, lastEq⟩ : ∃ last, (bare run).getLast? = some last := ⟨_, getLast?_eq_some_getLast isRun.bare_ne_nil⟩
  refine ⟨fun char inside => ?_, ⟨first, ends.1.trans firstEq, ?_⟩, ⟨last, ends.2.trans lastEq, ?_⟩⟩
  · by_cases separator : char = '_'
    · exact .inr separator
    · refine .inl (isRun.bare_digits char ?_)
      rw [← digits]
      exact mem_filter.mpr ⟨inside, by simpa using separator⟩
  · exact isRun.bare_digits first (mem_of_mem_head? firstEq)
  · exact isRun.bare_digits last (mem_of_mem_getLast? lastEq)

/-! ## Reading a literal -/

theorem takeWhile_dropWhile_append {p : Char → Bool} {before after : List Char} (all : ∀ char ∈ before, p char = true)
    (stop : ∀ char ∈ after.head?, p char = false) :
    (before ++ after).takeWhile p = before ∧ (before ++ after).dropWhile p = after := by
  rw [takeWhile_append_of_pos all, dropWhile_append_of_pos all]
  cases after with
  | nil => simp
  | cons char after =>
    have stops := stop char rfl
    simp [stops]

/-- The parts of a number. -/
def Number.parts (number : Number) : NumberParts where
  int := number.int
  frac := number.frac
  exponent := number.exponent.map fun exponent => exponent.1 ++ exponent.2

/-- The characters of a run end no part of a literal. -/
theorem plain_of_run (isRun : run = [] ∨ Run run) : ∀ char ∈ run, char ≠ 'e' ∧ char ≠ 'E' ∧ char ≠ '.' := by
  intro char member
  rcases isRun with rfl | isRun
  · cases member
  · rcases isRun.chars char member with digit | rfl
    · refine ⟨?_, ?_, ?_⟩ <;> (rintro rfl; cases digit)
    · decide

theorem exponentRun_append {marker : List Char} (isMarker : marker ∈ exponentMarkers) (isRun : Run run) :
    exponentRun (marker ++ run) = (marker, run) := by
  obtain ⟨digit, first, isDigit⟩ := isRun.first
  cases run with
  | nil => cases first
  | cons char run =>
    obtain rfl : char = digit := Option.some.inj first
    have signless : char ≠ '+' ∧ char ≠ '-' := by
      refine ⟨?_, ?_⟩ <;> (rintro rfl; cases isDigit)
    simp only [exponentMarkers, mem_cons, not_mem_nil, or_false] at isMarker
    rcases isMarker with rfl | rfl | rfl | rfl | rfl | rfl <;> simp [exponentRun, signless]

theorem numberParts_text {number : Number} (valid : number.Valid) : numberParts number.text = number.parts := by
  have intPlain := plain_of_run valid.int
  have fracPlain : ∀ frac ∈ number.frac, ∀ char ∈ frac, char ≠ 'e' ∧ char ≠ 'E' ∧ char ≠ '.' :=
    fun frac isFrac => plain_of_run (valid.frac frac isFrac)
  have exponent : ∀ char ∈ (number.exponent.elim [] fun exponent => exponent.1 ++ exponent.2).head?, char = 'e' ∨ char = 'E' := by
    cases isExponent : number.exponent with
    | none => simp
    | some exponent =>
      have isMarker := (valid.exponent exponent isExponent).1
      simp only [exponentMarkers, mem_cons, not_mem_nil, or_false] at isMarker
      rcases isMarker with same | same | same | same | same | same <;> simp [same]
  obtain ⟨mantissa, rest⟩ := @takeWhile_dropWhile_append (fun c => !(c = 'e' || c = 'E'))
    (number.int ++ number.frac.elim [] fun frac => '.' :: frac) (number.exponent.elim [] fun exponent => exponent.1 ++ exponent.2)
    (by
      intro char member
      rcases mem_append.mp member with inInt | inFrac
      · simp [intPlain char inInt]
      · cases isFrac : number.frac with
        | none => simp [isFrac] at inFrac
        | some frac =>
          rw [isFrac, Option.elim_some, mem_cons] at inFrac
          rcases inFrac with rfl | inFrac
          · decide
          · simp [fracPlain frac isFrac char inFrac])
    (by
      intro char isHead
      rcases exponent char isHead with rfl | rfl <;> decide)
  obtain ⟨int, frac⟩ := @takeWhile_dropWhile_append (fun c => decide (c ≠ '.')) number.int (number.frac.elim [] fun frac => '.' :: frac)
    (fun char member => by simp [intPlain char member]) (by
      cases number.frac with
      | none => simp
      | some frac => simp)
  unfold numberParts Number.text Number.parts
  simp only [mantissa, rest, int, frac]
  congr 1
  · cases number.frac <;> rfl
  · cases isExponent : number.exponent with
    | none => rfl
    | some exponent =>
      have nonempty : exponent.1 ++ exponent.2 ≠ [] := by
        simpa using fun _ => (valid.exponent exponent isExponent).2.ne_nil
      simp [nonempty]

theorem exponentRun_spec {marker : Char} (isMarker : marker = 'e' ∨ marker = 'E') (run : List Char) :
    (exponentRun (marker :: run)).1 ∈ exponentMarkers ∧
      (exponentRun (marker :: run)).1 ++ (exponentRun (marker :: run)).2 = marker :: run := by
  unfold exponentRun
  split
  case h_4 same => cases same
  all_goals
    rename_i same
    obtain ⟨rfl, rfl⟩ := List.cons.inj same
    rcases isMarker with rfl | rfl <;> simp [exponentMarkers]

/-- The parts put together are the text, and an exponent starts with its marker. -/
theorem numberParts_spec (text : List Char) :
    (numberParts text).int ++ ((numberParts text).frac.elim [] fun frac => '.' :: frac) ++ (numberParts text).exponent.getD [] = text ∧
      ∀ exponent ∈ (numberParts text).exponent,
        (exponentRun exponent).1 ∈ exponentMarkers ∧ (exponentRun exponent).1 ++ (exponentRun exponent).2 = exponent := by
  have whole := @takeWhile_append_dropWhile _ (fun c : Char => !(c = 'e' || c = 'E')) text
  have marked := head?_dropWhile_not (fun c : Char => !(c = 'e' || c = 'E')) text
  simp only [numberParts]
  generalize text.takeWhile _ = mantissa at *
  generalize text.dropWhile _ = exponent at *
  constructor
  · have point := head?_dropWhile_not (fun c : Char => decide (c ≠ '.')) mantissa
    have fracText : ((mantissa.dropWhile fun c => decide (c ≠ '.')).tail?.elim [] fun frac => '.' :: frac) =
        mantissa.dropWhile fun c => decide (c ≠ '.') := by
      generalize mantissa.dropWhile _ = frac at point
      cases frac with
      | nil => rfl
      | cons char frac =>
        obtain rfl : char = '.' := by simpa using point
        rfl
    rw [fracText, takeWhile_append_dropWhile, ← whole]
    cases exponent <;> rfl
  · intro found isFound
    cases exponent with
    | nil => cases isFound
    | cons marker run =>
      cases isFound
      exact exponentRun_spec (by simpa [or_iff_not_imp_left] using marked) run

/-- A text with the parts of a decimal literal is one. -/
theorem isLiteral_of_isNumber {text : List Char} (isNumber : (numberParts text).isNumber = true) : IsLiteral text := by
  simp only [NumberParts.isNumber, Bool.and_eq_true, Bool.or_eq_true, Option.all_eq_true, isRun_iff, List.isEmpty_iff] at isNumber
  obtain ⟨⟨⟨mantissa, int⟩, frac⟩, exponent⟩ := isNumber
  obtain ⟨whole, marked⟩ := numberParts_spec text
  refine ⟨⟨(numberParts text).int, (numberParts text).frac, (numberParts text).exponent.map exponentRun⟩, ⟨int, frac, ?_, ?_⟩, ?_⟩
  · intro pair isPair
    obtain ⟨found, isFound, rfl⟩ := Option.map_eq_some_iff.mp isPair
    exact ⟨(marked found isFound).1, exponent found isFound⟩
  · by_contra empty
    push Not at empty
    have bareFrac : (numberParts text).frac.all List.isEmpty = true := by
      rw [Option.all_eq_true]
      exact fun frac isFrac => List.isEmpty_iff.mpr (empty.2 frac isFrac)
    have bareInt : (numberParts text).int = [] := empty.1
    simp [bareFrac, bareInt] at mantissa
  · have exponentText : (((numberParts text).exponent.map exponentRun).elim [] fun exponent => exponent.1 ++ exponent.2) =
        (numberParts text).exponent.getD [] := by
      cases isExponent : (numberParts text).exponent with
      | none => rfl
      | some exponent => exact (marked exponent isExponent).2
    rw [Number.text, exponentText, whole]

/-! ## The canonical literal -/

def Number.canonical (number : Number) : Number where
  int := canonicalRun number.int false
  frac := number.frac.map (canonicalRun · true)
  exponent := number.exponent.map fun exponent => (exponent.1, canonicalRun exponent.2 false)

section Canonical

variable {number fixed : Number}

theorem canonicalRun_valid (isRun : run = [] ∨ Run run) (fromLeft : Bool) :
    canonicalRun run fromLeft = [] ∧ run = [] ∨ Run (canonicalRun run fromLeft) := by
  rcases isRun with rfl | isRun
  · exact .inl ⟨rfl, rfl⟩
  · exact .inr (isRun.canonicalRun fromLeft)

theorem Number.Valid.canonical (valid : number.Valid) : number.canonical.Valid := by
  refine ⟨(canonicalRun_valid valid.int false).imp And.left id, fun frac isFrac => ?_, fun exponent isExponent => ?_, ?_⟩
  · obtain ⟨found, isFound, rfl⟩ := Option.map_eq_some_iff.mp isFrac
    exact (canonicalRun_valid (valid.frac found isFound) true).imp And.left id
  · obtain ⟨found, isFound, rfl⟩ := Option.map_eq_some_iff.mp isExponent
    obtain ⟨isMarker, isRun⟩ := valid.exponent found isFound
    exact ⟨isMarker, isRun.canonicalRun false⟩
  · rcases valid.mantissa with nonempty | ⟨found, isFound, nonempty⟩
    · exact .inl ((valid.int.resolve_left nonempty).canonicalRun false).ne_nil
    · refine .inr ⟨_, Option.map_eq_some_iff.mpr ⟨found, isFound, rfl⟩, ?_⟩
      exact (((valid.frac found isFound).resolve_left nonempty).canonicalRun true).ne_nil

theorem rel_iff_eq_map {α β : Type} {related : α → β → Prop} {f : α → β} {value : Option α} {other : Option β}
    (each : ∀ a ∈ value, ∀ b, related a b ↔ b = f a) : Option.Rel related value other ↔ other = value.map f := by
  cases value with
  | none => cases other <;> simp
  | some a =>
    cases other with
    | none => simp
    | some b => simp [each a rfl b]

theorem Number.regrouped_iff (valid : number.Valid) : number.Regrouped fixed ↔ fixed = number.canonical := by
  obtain ⟨fixedInt, fixedFrac, fixedExponent⟩ := fixed
  have fracIff := @rel_iff_eq_map _ _ _ _ _ fixedFrac fun frac isFrac fixed =>
    @runRegrouped_iff frac true fixed (valid.frac frac isFrac)
  have exponentIff := @rel_iff_eq_map _ _ (fun exponent other : List Char × List Char => exponent.1 = other.1 ∧ RunRegrouped false exponent.2 other.2)
      (fun exponent => (exponent.1, canonicalRun exponent.2 false)) number.exponent fixedExponent fun exponent isExponent fixed => by
    rw [runRegrouped_iff (.inr (valid.exponent exponent isExponent).2), Prod.ext_iff, eq_comm]
  rw [Number.canonical, Number.mk.injEq, ← runRegrouped_iff valid.int, ← fracIff, ← exponentIff]
  exact ⟨fun regrouped => ⟨regrouped.int, regrouped.frac, regrouped.exponent⟩, fun ⟨int, frac, exponent⟩ => ⟨int, frac, exponent⟩⟩

theorem Number.Valid.canonical_canonical (valid : number.Valid) : number.canonical.canonical = number.canonical := by
  obtain ⟨int, frac, exponent⟩ := number
  rw [Number.canonical, Number.mk.injEq]
  refine ⟨canonicalRun_canonicalRun valid.int false, ?_, ?_⟩
  · cases frac with
    | none => rfl
    | some frac => exact congrArg some (canonicalRun_canonicalRun (valid.frac frac rfl) true)
  · cases exponent with
    | none => rfl
    | some exponent =>
      exact congrArg (fun run => some (exponent.1, run)) (canonicalRun_canonicalRun (.inr (valid.exponent exponent rfl).2) false)

theorem Number.Valid.canonical_text (valid : number.Valid) : number.parts.canonical = number.canonical.text := by
  obtain ⟨int, frac, exponent⟩ := number
  cases exponent with
  | none => cases frac <;> rfl
  | some exponent =>
    have split := exponentRun_append (valid.exponent exponent rfl).1 (valid.exponent exponent rfl).2
    cases frac <;> simp [Number.parts, NumberParts.canonical, Number.canonical, Number.text, split]

theorem Number.Valid.isNumber (valid : number.Valid) : number.parts.isNumber = true := by
  simp only [NumberParts.isNumber, Bool.and_eq_true, Bool.or_eq_true, Option.all_eq_true, isRun_iff, List.isEmpty_iff]
  refine ⟨⟨⟨?_, valid.int⟩, valid.frac⟩, fun exponent isExponent => ?_⟩
  · rcases valid.mantissa with nonempty | ⟨frac, isFrac, nonempty⟩
    · simp [Number.parts, nonempty]
    · have isFrac : number.frac = some frac := isFrac
      simp [Number.parts, isFrac, nonempty]
  · obtain ⟨found, isFound, rfl⟩ := Option.map_eq_some_iff.mp isExponent
    rw [exponentRun_append (valid.exponent found isFound).1 (valid.exponent found isFound).2]
    exact (valid.exponent found isFound).2

theorem bare_append (first second : List Char) : bare (first ++ second) = bare first ++ bare second := filter_append ..

theorem Number.Regrouped.bare_text (regrouped : number.Regrouped fixed) : bare fixed.text = bare number.text := by
  obtain ⟨int, frac, exponent⟩ := number
  obtain ⟨fixedInt, fixedFrac, fixedExponent⟩ := fixed
  obtain ⟨sameInt, sameFrac, sameExponent⟩ := regrouped
  have fracText : bare (fixedFrac.elim [] fun frac => '.' :: frac) = bare (frac.elim [] fun frac => '.' :: frac) := by
    cases sameFrac with
    | none => rfl
    | some same => exact congrArg ('.' :: ·) same.digits
  have exponentText : bare (fixedExponent.elim [] fun exponent => exponent.1 ++ exponent.2) =
      bare (exponent.elim [] fun exponent => exponent.1 ++ exponent.2) := by
    cases sameExponent with
    | none => rfl
    | some same =>
      simp only [Option.elim_some, bare_append]
      rw [same.1, same.2.digits]
  simp only [Number.text, bare_append]
  rw [sameInt.digits, fracText, exponentText]

theorem regroupDigits_text (valid : number.Valid) :
    regroupDigits number.text = if number.canonical.text = number.text then none else some number.canonical.text := by
  unfold regroupDigits
  simp only [numberParts_text valid, valid.isNumber, valid.canonical_text, Bool.not_true, Bool.false_eq_true, if_false]

theorem regroupDigits_of_not_literal {text : List Char} (notLiteral : ¬ IsLiteral text) : regroupDigits text = none := by
  unfold regroupDigits
  rw [if_pos]
  simpa using fun isNumber => notLiteral (isLiteral_of_isNumber isNumber)

/-- What is regrouped is a literal, and the result is its canonical literal. -/
theorem eq_canonical_of_regroupDigits {text result : List Char} (regrouped : regroupDigits text = some result) :
    ∃ number : Number, number.Valid ∧ number.text = text ∧ number.canonical.text = result ∧ result ≠ text := by
  by_cases isLiteral : IsLiteral text
  · obtain ⟨number, valid, rfl⟩ := isLiteral
    rw [regroupDigits_text valid] at regrouped
    split at regrouped
    next => cases regrouped
    next differs => exact ⟨number, valid, rfl, Option.some.inj regrouped, Option.some.inj regrouped ▸ differs⟩
  · rw [regroupDigits_of_not_literal isLiteral] at regrouped
    cases regrouped

/-- A canonical literal is left alone. -/
theorem regroupDigits_regrouped {text result : List Char} (regrouped : regroupDigits text = some result) : regroupDigits result = none := by
  obtain ⟨number, valid, -, rfl, -⟩ := eq_canonical_of_regroupDigits regrouped
  rw [regroupDigits_text valid.canonical, valid.canonical_canonical, if_pos rfl]

/-- Regrouping gives the canonical literal of a literal that is not canonical, and nothing otherwise. -/
theorem regroupDigits_spec (text : List Char) :
    (∀ fixed, regroupDigits text = some fixed →
      fixed ≠ text ∧ bare fixed = bare text ∧
      (∃ number other : Number, number.Valid ∧ number.text = text ∧ number.Regrouped other ∧ other.text = fixed) ∧
      regroupDigits fixed = none) ∧
    (regroupDigits text = none ↔
      ¬ IsLiteral text ∨ ∃ number : Number, number.Valid ∧ number.text = text ∧ ∃ other, number.Regrouped other ∧ other.text = text) := by
  refine ⟨fun fixed regrouped => ?_, fun unchanged => ?_, ?_⟩
  · have again := regroupDigits_regrouped regrouped
    obtain ⟨number, valid, rfl, rfl, differs⟩ := eq_canonical_of_regroupDigits regrouped
    have isRegrouped := (Number.regrouped_iff valid).mpr rfl
    exact ⟨differs, isRegrouped.bare_text, ⟨number, _, valid, rfl, isRegrouped, rfl⟩, again⟩
  · refine or_iff_not_imp_left.mpr fun isLiteral => ?_
    obtain ⟨number, valid, rfl⟩ := not_not.mp isLiteral
    rw [regroupDigits_text valid] at unchanged
    split at unchanged
    next same => exact ⟨number, valid, rfl, _, (Number.regrouped_iff valid).mpr rfl, same⟩
    next => cases unchanged
  · rintro (notLiteral | ⟨number, valid, rfl, other, regrouped, same⟩)
    · exact regroupDigits_of_not_literal notLiteral
    · obtain rfl := (Number.regrouped_iff valid).mp regrouped
      rw [regroupDigits_text valid, if_pos same]

end Canonical

end Index.Astlog
