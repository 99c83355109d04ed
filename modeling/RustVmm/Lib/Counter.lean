import Mathlib.Algebra.Order.Group.Nat
import Mathlib.Data.Nat.ModEq

/-!
# Free-running 16-bit counters

The indices of a ring are counters that are never reset.  Behind each stands a number that counts without bound.

* `ofNat_inj_of_close`, `toNat_ofNat_sub` — the counters tell numbers apart that are close.
* `mod_ne_of_close` — and so do the slots.
* `window_iff` — the wrapping comparison for an index between two others.
-/

set_option autoImplicit false

namespace RustVmm.Lib.Counter

theorem ofNat_add_one (n : Nat) : UInt16.ofNat n + 1 = UInt16.ofNat (n + 1) := (UInt16.ofNat_add n 1).symm

theorem sub_sub_self (a n : UInt16) : a - (a - n) = n := by
  apply UInt16.toNat_inj.1
  have := n.toNat_lt
  rw [UInt16.toNat_sub, UInt16.toNat_sub]
  omega

theorem toNat_ofNat_sub {a b : Nat} (hle : a ≤ b) (hlt : b - a < 65536) :
    (UInt16.ofNat b - UInt16.ofNat a).toNat = b - a := by
  rw [UInt16.toNat_sub, UInt16.toNat_ofNat', UInt16.toNat_ofNat']
  omega

theorem ofNat_inj_of_close {a b : Nat} (hle : a ≤ b) (hlt : b - a < 65536) :
    UInt16.ofNat a = UInt16.ofNat b ↔ a = b := by
  rw [← UInt16.toNat_inj, UInt16.toNat_ofNat', UInt16.toNat_ofNat']
  omega

theorem toNat_sub_add_one {last counter : UInt16} (h : counter ≠ last) :
    (last - (counter + 1)).toNat + 1 = (last - counter).toNat := by
  have hne : counter.toNat ≠ last.toNat := fun heq => h (UInt16.toNat_inj.1 heq)
  have hlast := last.toNat_lt
  have hcounter := counter.toNat_lt
  rw [UInt16.toNat_sub, UInt16.toNat_sub, UInt16.toNat_add, UInt16.toNat_one]
  omega

theorem eq_of_sub_eq_zero {a b : UInt16} (h : a - b = 0) : a = b := by
  have hback := UInt16.sub_add_cancel a b
  rw [h, UInt16.zero_add] at hback
  exact hback.symm

theorem toNat_ofNat_mod {size : UInt16} {k : Nat} (hk : k ≤ 16) (hsize : size.toNat = 2 ^ k)
    (n : Nat) : (UInt16.ofNat n % size).toNat = n % size.toNat := by
  rw [UInt16.toNat_mod, hsize]
  exact Nat.mod_mod_of_dvd n (Nat.pow_dvd_pow 2 hk)

theorem mod_ne_of_close {a b size : Nat} (hlt : a < b) (hclose : b < a + size) : a % size ≠ b % size := by
  intro h
  have hdvd : size ∣ b - a := (Nat.modEq_iff_dvd' hlt.le).1 h
  have := Nat.le_of_dvd (by omega) hdvd
  omega

theorem window_iff {old event : UInt16} {n : Nat} (hn : n < 65536) :
    old + UInt16.ofNat n - event - 1 < UInt16.ofNat n ↔ ∃ i < n, event = old + UInt16.ofNat i := by
  have hold := old.toNat_lt
  have hevent := event.toNat_lt
  rw [UInt16.lt_iff_toNat_lt]
  simp only [← UInt16.toNat_inj, UInt16.toNat_sub, UInt16.toNat_add, UInt16.toNat_ofNat', UInt16.toNat_one]
  constructor
  · intro h
    refine ⟨(event.toNat + 65536 - old.toNat) % 65536, by omega, by omega⟩
  · omega

end RustVmm.Lib.Counter
