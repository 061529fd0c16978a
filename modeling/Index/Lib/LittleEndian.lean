import Mathlib.Data.Nat.ModEq

/-! # Little-endian numbers

A number in a fixed count of bytes, the least one first. -/

namespace Index.Lib

/-- The lowest bytes of a number. -/
def leBytes : Nat → Nat → List UInt8
  | 0, _ => []
  | width + 1, number => UInt8.ofNat number :: leBytes width (number / 256)

def leValue : List UInt8 → Nat
  | [] => 0
  | byte :: bytes => byte.toNat + 256 * leValue bytes

@[simp]
theorem length_leBytes (width number : Nat) : (leBytes width number).length = width := by
  induction width generalizing number with
  | zero => rfl
  | succ width ih => rw [leBytes, List.length_cons, ih]

theorem leValue_leBytes (width number : Nat) : leValue (leBytes width number) = number % 256 ^ width := by
  induction width generalizing number with
  | zero => rw [leBytes, leValue, Nat.pow_zero, Nat.mod_one]
  | succ width ih =>
    have byte : (UInt8.ofNat number).toNat = number % 256 := UInt8.toNat_ofNat'
    rw [leBytes, leValue, ih, byte, Nat.pow_succ', Nat.mod_mul]

theorem leValue_leBytes_of_lt {width number : Nat} (fits : number < 256 ^ width) :
    leValue (leBytes width number) = number := by
  rw [leValue_leBytes, Nat.mod_eq_of_lt fits]

end Index.Lib
