import Mathlib.Data.Nat.Bitwise

/-!
# Unsigned 64-bit arithmetic on natural numbers

A `u64` is a natural number not above `U64_MAX`, with the checked operations of the standard library.
`alignDownMask_eq` says what the bit trick `address & !(alignment - 1)` computes for a power of two.
-/

set_option autoImplicit false

namespace RustVmm.Lib

open Nat

def U64_MAX : Nat := 18446744073709551615

theorem U64_MAX_eq : U64_MAX = 18446744073709551615 := rfl

def checkedAdd (a b : Nat) : Option Nat := if a + b ≤ U64_MAX then some (a + b) else none

def checkedSub (a b : Nat) : Option Nat := if b ≤ a then some (a - b) else none

def checkedMul (a b : Nat) : Option Nat := if a * b ≤ U64_MAX then some (a * b) else none

def checkedDiv (a b : Nat) : Option Nat := if b = 0 then none else some (a / b)

variable {a b c address k : Nat}

theorem checkedAdd_of_le (h : a + b ≤ U64_MAX) : checkedAdd a b = some (a + b) := if_pos h

theorem checkedAdd_of_lt (h : U64_MAX < a + b) : checkedAdd a b = none := if_neg (by omega)

theorem checkedAdd_eq_some : checkedAdd a b = some c ↔ a + b ≤ U64_MAX ∧ a + b = c := by
  unfold checkedAdd
  split <;> simp [*]

theorem checkedSub_of_le (h : b ≤ a) : checkedSub a b = some (a - b) := if_pos h

theorem checkedSub_of_lt (h : a < b) : checkedSub a b = none := if_neg (by omega)

theorem checkedSub_eq_some : checkedSub a b = some c ↔ b ≤ a ∧ a - b = c := by
  unfold checkedSub
  split <;> simp [*]

theorem checkedMul_eq_some : checkedMul a b = some c ↔ a * b ≤ U64_MAX ∧ a * b = c := by
  unfold checkedMul
  split <;> simp [*]

theorem or_two_pow_sub_one (n k : Nat) : n ||| (2 ^ k - 1) = 2 ^ k * (n / 2 ^ k) + (2 ^ k - 1) := by
  have hpos : 0 < 2 ^ k := Nat.two_pow_pos k
  have hlow : n % 2 ^ k ||| (2 ^ k - 1) = 2 ^ k - 1 := by
    apply eq_of_testBit_eq
    intro i
    by_cases hi : i < k <;> simp [hi]
  calc n ||| (2 ^ k - 1)
      = (2 ^ k * (n / 2 ^ k) ||| n % 2 ^ k) ||| (2 ^ k - 1) := by
        rw [← two_pow_add_eq_or_of_lt (mod_lt n hpos), div_add_mod]
    _ = 2 ^ k * (n / 2 ^ k) ||| (2 ^ k - 1) := by rw [Nat.or_assoc, hlow]
    _ = 2 ^ k * (n / 2 ^ k) + (2 ^ k - 1) := (two_pow_add_eq_or_of_lt (by omega) _).symm

/-- `address & !(alignment - 1)`, where `!` is the 64-bit complement. -/
def alignDownMask (address alignment : Nat) : Nat := address &&& (U64_MAX - (alignment - 1))

theorem alignDownMask_eq (ha : address ≤ U64_MAX) (hk : 2 ^ k ≤ U64_MAX) :
    alignDownMask address (2 ^ k) = address / 2 ^ k * 2 ^ k := by
  have hk64 : 2 ^ k - 1 < 2 ^ 64 := by rw [U64_MAX_eq] at hk; omega
  have ha64 : address < 2 ^ 64 := by rw [U64_MAX_eq] at ha; omega
  have hmask : U64_MAX - (2 ^ k - 1) = 2 ^ 64 - (2 ^ k - 1 + 1) := by
    rw [U64_MAX_eq] at hk ⊢; omega
  apply eq_of_testBit_eq
  intro i
  rw [alignDownMask, hmask, testBit_and, testBit_two_pow_sub_succ hk64, testBit_mul_two_pow, testBit_div_two_pow]
  by_cases hik : k ≤ i
  · rw [Nat.sub_add_cancel hik]
    by_cases hi : i < 64
    · simp [hi, hik]
    · have : address.testBit i = false :=
        testBit_lt_two_pow (Nat.lt_of_lt_of_le ha64 (Nat.pow_le_pow_right (by omega) (by omega)))
      simp [this]
  · simp [hik]; omega

theorem alignDownMask_le (ha : address ≤ U64_MAX) (hk : 2 ^ k ≤ U64_MAX) : alignDownMask address (2 ^ k) ≤ address := by
  rw [alignDownMask_eq ha hk]
  exact div_mul_le_self _ _

theorem alignDownMask_mod (ha : address ≤ U64_MAX) (hk : 2 ^ k ≤ U64_MAX) :
    alignDownMask address (2 ^ k) % 2 ^ k = 0 := by
  rw [alignDownMask_eq ha hk]
  exact mul_mod_left _ _

end RustVmm.Lib
