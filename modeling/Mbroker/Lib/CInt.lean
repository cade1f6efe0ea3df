import Mathlib.Tactic.Common
import Mathlib.Tactic.NormNum

/-!
# `size_t`, `int` and `ssize_t`

Unsigned arithmetic is on `Nat` modulo `2 ^ 64`; a conversion to a signed type
keeps the value modulo `2 ^ 32` or `2 ^ 64` in the signed range.
-/

namespace CLib

def sizeAdd (a b : Nat) : Nat := (a + b) % 2 ^ 64

def sizeSub (a b : Nat) : Nat := (a + 2 ^ 64 - b) % 2 ^ 64

def sizeMul (a b : Nat) : Nat := (a * b) % 2 ^ 64

/-- `(int)n` of a `size_t`. -/
def castInt (n : Nat) : Int := Int.bmod n (2 ^ 32)

/-- `(ssize_t)n` of a `size_t`. -/
def castSsize (n : Nat) : Int := Int.bmod n (2 ^ 64)

theorem sizeAdd_of_lt {a b : Nat} (h : a + b < 2 ^ 64) : sizeAdd a b = a + b :=
  Nat.mod_eq_of_lt h

theorem sizeMul_of_lt {a b : Nat} (h : a * b < 2 ^ 64) : sizeMul a b = a * b :=
  Nat.mod_eq_of_lt h

theorem sizeSub_of_le {a b : Nat} (ha : a < 2 ^ 64) (h : b ≤ a) : sizeSub a b = a - b := by
  unfold sizeSub; omega

/-- A difference below zero wraps around. -/
theorem sizeSub_of_lt {a b : Nat} (hb : b < 2 ^ 64) (h : a < b) :
    sizeSub a b = a + 2 ^ 64 - b := by
  unfold sizeSub; omega

theorem castInt_of_lt {n : Nat} (h : n < 2 ^ 31) : castInt n = n := by
  unfold castInt
  rw [Int.bmod_def]
  push_cast
  split_ifs <;> omega

theorem castSsize_of_lt {n : Nat} (h : n < 2 ^ 63) : castSsize n = n := by
  unfold castSsize
  rw [Int.bmod_def]
  push_cast
  split_ifs <;> omega

@[simp] theorem castSsize_zero : castSsize 0 = 0 := castSsize_of_lt (by omega)

end CLib
