import Mathlib.Algebra.Ring.Nat

/-! `size_t` and `uint64_t` arithmetic on naturals, reduced modulo 2^64, and the
conversion to 32 bits. Exact wherever the result fits. -/
namespace ImPir.SizeT

def add (a b : Nat) : Nat := (a + b) % 2^64
def sub (a b : Nat) : Nat := if b ≤ a then a - b else 2^64 - (b - a)
def mul (a b : Nat) : Nat := a*b % 2^64
def toUInt32 (a : Nat) : Nat := a % 2^32

theorem addExact {a b : Nat} (fits : a + b < 2^64) : add a b = a + b := Nat.mod_eq_of_lt fits

theorem mulExact {a b : Nat} (fits : a*b < 2^64) : mul a b = a*b := Nat.mod_eq_of_lt fits

theorem subExact {a b : Nat} (le : b ≤ a) : sub a b = a - b := if_pos le

theorem toUInt32Exact {a : Nat} (fits : a < 2^32) : toUInt32 a = a := Nat.mod_eq_of_lt fits

/- `(a + b - 1) / b`, the ceiling of the quotient when the sum does not wrap. -/
def ceilDiv (a b : Nat) : Nat := sub (add a b) 1 / b

theorem ceilDivIs {a b : Nat} (positive : 0 < b) : ceilDiv a b = (a + b - 1) % 2^64 / b := by
  have minuend : sub (add a b) 1 = (a + b - 1) % 2^64 := by
    unfold sub add
    split <;> omega
  rw [ceilDiv,minuend]

/- Exact up to a sum of 2^64, as the 1 is subtracted after a wrap to zero. -/
theorem ceilDivExact {a b : Nat} (positive : 0 < b) (fits : a + b ≤ 2^64) : ceilDiv a b = (a + b - 1)/b := by
  rw [ceilDivIs positive,Nat.mod_eq_of_lt (by omega)]

theorem ceilDivWraps {a b : Nat} (small : a < 2^64) (word : b < 2^64) (wraps : 2^64 < a + b) : ceilDiv a b = 0 := by
  rw [ceilDivIs (by omega)]
  exact Nat.div_eq_of_lt (by omega)

end ImPir.SizeT
