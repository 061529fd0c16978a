import Mathlib.Data.Nat.Notation
import Mathlib.Data.String.Basic
import Mathlib.Tactic.SplitIfs

/-! # Decimal numbers in texts -/

namespace Index.Lib

/-- `str::parse::<usize>`: an optional plus sign and digits, of a value below 2^64. -/
def parseUsize (text : String) : Option Nat :=
  let digits :=
    match text.toList with
    | '+' :: rest => rest
    | chars => chars
  let value := Nat.ofDigitChars 10 digits 0
  if digits ≠ [] ∧ digits.all Char.isDigit = true ∧ value < 2 ^ 64 then some value else none

/-- A written number reads back as itself, if it fits. -/
theorem parseUsize_written (value : Nat) : parseUsize (toString value) = if value < 2 ^ 64 then some value else none := by
  have digits : ∀ digit ∈ Nat.toDigits 10 value, digit.isDigit = true :=
    fun digit member => Nat.isDigit_of_mem_toDigits (by decide) (by decide) member
  have unsigned : (match Nat.toDigits 10 value with
      | '+' :: rest => rest
      | chars => chars) = Nat.toDigits 10 value := by
    split
    next rest signed =>
      have plus := digits '+' (by rw [signed]; exact List.mem_cons_self)
      exact absurd plus (by decide)
    next => rfl
  have number : (Nat.toDigits 10 value ≠ [] ∧ (Nat.toDigits 10 value).all Char.isDigit = true ∧ value < 2 ^ 64) ↔
      value < 2 ^ 64 := ⟨fun number => number.2.2, fun fits => ⟨Nat.toDigits_ne_nil, List.all_eq_true.mpr digits, fits⟩⟩
  simp only [parseUsize, Nat.toString_eq_ofList_toDigits, String.toList_ofList, unsigned, Nat.ofDigitChars_ten_toDigits, number]

theorem parseUsize_toString {value : Nat} (fits : value < 2 ^ 64) : parseUsize (toString value) = some value := by
  rw [parseUsize_written, if_pos fits]

theorem eq_of_parseUsize_toString {value parsed : Nat} (read : parseUsize (toString value) = some parsed) : value = parsed := by
  rw [parseUsize_written] at read
  split_ifs at read
  exact Option.some.inj read

theorem lt_of_parseUsize {text : String} {value : Nat} (parsed : parseUsize text = some value) : value < 2 ^ 64 := by
  rw [parseUsize] at parsed
  split_ifs at parsed with number
  · rw [← Option.some.inj parsed]
    exact number.2.2

end Index.Lib
