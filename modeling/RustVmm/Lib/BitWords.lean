import Mathlib.Data.Nat.Bitwise

/-!
# Bit sets in 64-bit words

A set of numbers kept as a list of words: the number `n` is bit `n & 63` of word `n >> 6`.

* `test_set`, `test_clear` — setting and clearing change one member only.
* `test_append_replicate_zero` — words of zeroes at the end add no member.
-/

set_option autoImplicit false

namespace RustVmm.Lib.BitWords

open List Nat

/-- `1 << (n & 63)`. -/
def mask (n : Nat) : UInt64 := 1 <<< UInt64.ofNat (n &&& 63)

def word (words : List UInt64) (n : Nat) : UInt64 := words.getD (n >>> 6) 0

def test (words : List UInt64) (n : Nat) : Bool := word words n &&& mask n ≠ 0

def set (words : List UInt64) (n : Nat) : List UInt64 := words.set (n >>> 6) (word words n ||| mask n)

def clear (words : List UInt64) (n : Nat) : List UInt64 := words.set (n >>> 6) (word words n &&& ~~~mask n)

@[simp] theorem length_set (words : List UInt64) (n : Nat) : (set words n).length = words.length := List.length_set

@[simp] theorem length_clear (words : List UInt64) (n : Nat) : (clear words n).length = words.length := List.length_set

/-! ## Bits of one word -/

theorem mask_toNat (n : Nat) : (mask n).toNat = 2 ^ (n % 64) := by
  have hlt : n % 64 < 64 := mod_lt _ (by decide)
  have hand : n &&& 63 = n % 64 := and_two_pow_sub_one_eq_mod n 6
  have hpow : 2 ^ (n % 64) < 2 ^ 64 := Nat.pow_lt_pow_right (by decide) hlt
  have hshift : (UInt64.ofNat (n &&& 63)).toNat % 64 = n % 64 := by
    rw [UInt64.toNat_ofNat']
    omega
  rw [mask, UInt64.toNat_shiftLeft, hshift]
  show 1 <<< (n % 64) % 2 ^ 64 = _
  rw [one_shiftLeft, mod_eq_of_lt hpow]

theorem and_mask_ne_zero (w : UInt64) (n : Nat) : decide (w &&& mask n ≠ 0) = w.toNat.testBit (n % 64) := by
  have hzero : w &&& mask n = 0 ↔ w.toNat &&& 2 ^ (n % 64) = 0 := by
    rw [← UInt64.toNat_inj, UInt64.toNat_and, mask_toNat]
    rfl
  rw [and_two_pow] at hzero
  cases hbit : w.toNat.testBit (n % 64) with
  | false | true => simp [hzero, hbit]

theorem testBit_or_mask (w : UInt64) (n i : Nat) :
    (w ||| mask n).toNat.testBit i = (w.toNat.testBit i || decide (n % 64 = i)) := by
  rw [UInt64.toNat_or, mask_toNat, testBit_or, testBit_two_pow]

theorem testBit_and_not_mask (w : UInt64) (n : Nat) {i : Nat} (hi : i < 64) :
    (w &&& ~~~mask n).toNat.testBit i = (w.toNat.testBit i && !decide (n % 64 = i)) := by
  have hlt : (mask n).toNat < 2 ^ 64 := (mask n).toNat_lt
  rw [UInt64.toNat_and, UInt64.toNat_not, testBit_and]
  rw [show UInt64.size - 1 - (mask n).toNat = 2 ^ 64 - ((mask n).toNat + 1) by
    rw [show UInt64.size = 2 ^ 64 from rfl]; omega]
  rw [testBit_two_pow_sub_succ hlt, mask_toNat, testBit_two_pow]
  simp [hi]

/-! ## Bits of the set -/

theorem test_eq_testBit (words : List UInt64) (n : Nat) : test words n = (word words n).toNat.testBit (n % 64) :=
  and_mask_ne_zero _ n

theorem bit_iff_eq {m n : Nat} (hword : m >>> 6 = n >>> 6) : n % 64 = m % 64 ↔ m = n := by
  omega

theorem word_update (words : List UInt64) {n : Nat} (h : n < 64 * words.length) (v : UInt64) (m : Nat) :
    word (words.set (n >>> 6) v) m = if m >>> 6 = n >>> 6 then v else word words m := by
  have hlt : n >>> 6 < words.length := by
    omega
  unfold word
  rw [getD_eq_getElem?_getD, getD_eq_getElem?_getD, getElem?_set]
  by_cases heq : n >>> 6 = m >>> 6
  · rw [if_pos heq, if_pos hlt, if_pos heq.symm]
    rfl
  · rw [if_neg heq, if_neg (Ne.symm heq)]

variable {words : List UInt64}

theorem test_update {n : Nat} {v : UInt64} {f : Bool → Bool → Bool} (h : n < 64 * words.length)
    (hf : ∀ b, f b false = b)
    (hv : ∀ i, i < 64 → v.toNat.testBit i = f ((word words n).toNat.testBit i) (decide (n % 64 = i))) (m : Nat) :
    test (words.set (n >>> 6) v) m = f (test words m) (decide (m = n)) := by
  rw [test_eq_testBit, test_eq_testBit, word_update words h]
  by_cases hword : m >>> 6 = n >>> 6
  · have hsame : word words n = word words m := by rw [word, word, hword]
    rw [if_pos hword, hv _ (mod_lt _ (by decide)), hsame, decide_eq_decide.2 (bit_iff_eq hword)]
  · have hne : m ≠ n := fun hmn => hword (hmn ▸ rfl)
    rw [if_neg hword, decide_eq_false hne, hf]

theorem test_set {n : Nat} (h : n < 64 * words.length) (m : Nat) :
    test (set words n) m = (test words m || decide (m = n)) :=
  test_update (f := or) h Bool.or_false (fun i _ => testBit_or_mask _ n i) m

theorem test_clear {n : Nat} (h : n < 64 * words.length) (m : Nat) :
    test (clear words n) m = (test words m && !decide (m = n)) :=
  test_update (f := fun b c => b && !c) h Bool.and_true (fun _ => testBit_and_not_mask _ n) m

theorem test_replicate_zero (k n : Nat) : test (replicate k 0) n = false := by
  have hword : word (replicate k 0) n = 0 := by
    unfold word
    rw [getD_eq_getElem?_getD, getElem?_replicate]
    split <;> rfl
  rw [test_eq_testBit, hword]
  exact zero_testBit _

theorem test_append_replicate_zero (words : List UInt64) (k n : Nat) :
    test (words ++ replicate k 0) n = test words n := by
  have hword : word (words ++ replicate k 0) n = word words n := by
    unfold word
    rw [getD_eq_getElem?_getD, getD_eq_getElem?_getD, getElem?_append]
    split
    · rfl
    · rename_i hlen
      rw [getElem?_replicate, getElem?_eq_none (not_lt.1 hlen)]
      split <;> rfl
  rw [test, test, hword]

end RustVmm.Lib.BitWords
