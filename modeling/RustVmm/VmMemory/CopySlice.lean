import Mathlib.Data.Nat.Factorization.Basic
import RustVmm.Lib.Outcome
import RustVmm.Lib.U64

/-!
# Small copies

Model of `alignment`, `copy_single`, `copy_slice_volatile` and `copy_slice` in `volatile_memory.rs`: a copy between
two ranges of the address space of the host, with the integers that it reads and writes.

* `alignment_spec` — `addr & (!addr + 1)` is the largest power of two that divides the address.
* `Copy.Inv.single`, `Copy.Inv.copyLoop` — the invariant of the loop, for one pass and for all of them.
* `copy_slice_exact` — the copy is exact, of aligned integers, and a single one if the bytes are an aligned integer.
-/

set_option autoImplicit false

namespace RustVmm.VmMemory

open Lib List Outcome

/-! ## Alignment -/

/-- `addr & (!addr + 1)`, where the addition overflows for a null pointer. -/
def alignment (addr : Nat) : Outcome Empty Nat := do
  let negated ← .unwrap (checkedAdd (U64_MAX - addr) 1)
  return addr &&& negated

theorem and_complement (j q : Nat) (hq : q < 2 ^ j) : q &&& (2 ^ j - (q + 1)) = 0 := by
  refine Nat.eq_of_testBit_eq fun i => ?_
  rw [Nat.testBit_and, Nat.testBit_two_pow_sub_succ hq]
  cases q.testBit i <;> simp

theorem and_odd (a b : Nat) : (2 * a + 1) &&& (2 * b + 1) = 2 * (a &&& b) + 1 := by
  have hbit := Nat.land_bit true a true b
  simpa [Nat.bit] using hbit

theorem alignment_eq {k q : Nat} (h : (2 * q + 1) * 2 ^ k ≤ U64_MAX) : alignment ((2 * q + 1) * 2 ^ k) = .ok
    (2 ^ k) := by
  have hk : k < 64 := by
    refine (Nat.pow_lt_pow_iff_right (by decide : 1 < 2)).1 ?_
    have hle : 2 ^ k ≤ (2 * q + 1) * 2 ^ k := Nat.le_mul_of_pos_left _ (by omega)
    rw [U64_MAX] at h
    omega
  have hpow : 2 ^ (63 - k) * 2 * 2 ^ k = 2 ^ 64 := by
    rw [← pow_succ, ← pow_add]
    congr 1
    omega
  have hq : q < 2 ^ (63 - k) := by
    by_contra hge
    have hbig : 2 ^ (63 - k) * 2 * 2 ^ k ≤ (2 * q + 1) * 2 ^ k := Nat.mul_le_mul_right _ (by omega)
    rw [U64_MAX] at h
    omega
  have hneg : U64_MAX - (2 * q + 1) * 2 ^ k + 1 = (2 * (2 ^ (63 - k) - (q + 1)) + 1) * 2 ^ k := by
    have hsum : (2 * (2 ^ (63 - k) - (q + 1)) + 1) * 2 ^ k + (2 * q + 1) * 2 ^ k = 2 ^ 64 := by
      rw [← Nat.add_mul, ← hpow]
      congr 1
      omega
    rw [U64_MAX] at h ⊢
    omega
  have hpos : 0 < (2 * q + 1) * 2 ^ k := Nat.mul_pos (by omega) (Nat.two_pow_pos k)
  rw [alignment, checkedAdd_of_le (by omega), unwrap_some, ok_bind, hneg, ← Nat.shiftLeft_eq, ← Nat.shiftLeft_eq,
    ← Nat.shiftLeft_and_distrib, and_odd, and_complement _ _ hq, Nat.shiftLeft_eq]
  simp

theorem alignment_spec {addr : Nat} (hpos : 0 < addr) (h : addr ≤ U64_MAX) :
    ∃ align, alignment addr = .ok align ∧ 0 < align ∧ ∀ e, 2 ^ e ≤ align ↔ 2 ^ e ∣ addr := by
  obtain ⟨k, m, ⟨q, rfl⟩, rfl⟩ := Nat.exists_eq_two_pow_mul_odd hpos.ne'
  rw [Nat.mul_comm] at h ⊢
  refine ⟨2 ^ k, alignment_eq h, Nat.two_pow_pos k, fun e => ?_⟩
  rw [Nat.pow_le_pow_iff_right (by decide)]
  constructor
  · exact fun he => Dvd.dvd.mul_left (Nat.pow_dvd_pow 2 he) _
  · intro he
    by_contra hlt
    have hpow : 2 ^ (k + 1) ∣ (2 * q + 1) * 2 ^ k := (Nat.pow_dvd_pow 2 (Nat.lt_of_not_le hlt)).trans he
    rw [Nat.pow_succ', Nat.mul_dvd_mul_iff_right (Nat.two_pow_pos k)] at hpow
    omega

/-! ## The copy -/

abbrev HostMemory := Nat → UInt8

inductive CopyAccess where
  /-- `write_volatile(dst, read_volatile(src))`, for an integer of `size` bytes. -/
  | volatile (size src dst : Nat)
  /-- `copy_nonoverlapping`. -/
  | bulk (size src dst : Nat)
  deriving DecidableEq, Repr

/-- Sizes of the integers that are copied. -/
abbrev Width (size : Nat) : Prop := size = 8 ∨ size = 4 ∨ size = 2 ∨ size = 1

def CopyAccess.size : CopyAccess → Nat
  | volatile size _ _ => size
  | bulk size _ _ => size

/-- The memory after `size` bytes at `src` have been written to `dst`. -/
def transfer (memory : HostMemory) (size src dst : Nat) : HostMemory := fun addr =>
  if dst ≤ addr ∧ addr < dst + size then memory (src + (addr - dst)) else memory addr

/-- The variables that the closure captures, the memory and the accesses to it. -/
structure Copy where
  memory : HostMemory
  src : Nat
  dst : Nat
  left : Nat
  accesses : List CopyAccess

namespace Copy

def copySingle (self : Copy) (align : Nat) : Outcome Empty Copy :=
  if Width align then
    .ok { self with
      memory := transfer self.memory align self.src self.dst
      accesses := self.accesses ++ [.volatile align self.src self.dst] }
  else .panic

/-- Pointers above the last address cannot be formed. -/
def pointerAdd (pointer count : Nat) : Outcome Empty Nat := .unwrap (checkedAdd pointer count)

/-- The loop in `copy_aligned_slice`; `copy_single` is unreachable for `min_align` zero. -/
def copyLoop (minAlign : Nat) (self : Copy) : Outcome Empty Copy :=
  if _hzero : minAlign = 0 then .panic
  else if _hleft : minAlign ≤ self.left then do
    let copied ← self.copySingle minAlign
    let left := self.left - minAlign
    if left = 0 then return { copied with left := left }
    let src ← pointerAdd copied.src minAlign
    let dst ← pointerAdd copied.dst minAlign
    copyLoop minAlign { copied with src := src, dst := dst, left := left }
  else .ok self
termination_by self.left
decreasing_by exact Nat.sub_lt (by omega) (by omega)

def copyAlignedSlice (self : Copy) (align minAlign : Nat) : Outcome Empty Copy :=
  if align < minAlign then .ok self else copyLoop minAlign self

end Copy

/-- What is returned, the memory afterwards, and the accesses. -/
def copySliceVolatile (memory : HostMemory) (dst src total : Nat) :
    Outcome Empty (Nat × HostMemory × List CopyAccess) := do
  let srcAlign ← alignment src
  let dstAlign ← alignment dst
  let align := min srcAlign dstAlign
  let copy : Copy := ⟨memory, src, dst, total, []⟩
  let copy ← copy.copyAlignedSlice align 8
  let copy ← copy.copyAlignedSlice align 4
  let copy ← copy.copyAlignedSlice align 2
  let copy ← copy.copyAlignedSlice align 1
  return (total, copy.memory, copy.accesses)

def copySlice (memory : HostMemory) (dst src total : Nat) : Outcome Empty (Nat × HostMemory × List CopyAccess) :=
  if total ≤ 8 then copySliceVolatile memory dst src total
  else .ok (total, transfer memory total src dst, [.bulk total src dst])

/-! ## What the loop keeps -/

/-- Two ranges that are not at null, end with the address space at the latest, and do not overlap. -/
structure Ranges (src dst total : Nat) : Prop where
  src_pos : 0 < src
  dst_pos : 0 < dst
  src_le : src ≤ U64_MAX
  dst_le : dst ≤ U64_MAX
  src_end : src + total ≤ U64_MAX + 1
  dst_end : dst + total ≤ U64_MAX + 1
  apart : src + total ≤ dst ∨ dst + total ≤ src

def CopyAccess.Natural (src dst total : Nat) : CopyAccess → Prop
  | volatile size s d => Width size ∧ size ∣ s ∧ size ∣ d ∧
      src ≤ s ∧ s + size ≤ src + total ∧ dst ≤ d ∧ d + size ≤ dst + total
  | bulk _ _ _ => False

namespace Copy

variable {memory : HostMemory} {src dst total align minAlign : Nat} {c : Copy}

/-- All but `left` bytes have been copied, in units of `unit`; the pointers are at the next one, if there is one. -/
structure Inv (memory : HostMemory) (src dst total unit : Nat) (c : Copy) : Prop where
  left_le : c.left ≤ total
  unit_dvd : unit ∣ total - c.left
  src_eq : 0 < c.left → c.src = src + (total - c.left)
  dst_eq : 0 < c.left → c.dst = dst + (total - c.left)
  memory_eq : c.memory = transfer memory (total - c.left) src dst
  natural : ∀ access ∈ c.accesses, access.Natural src dst total
  sizes : (c.accesses.map CopyAccess.size).sum = total - c.left

theorem transfer_transfer {size : Nat} (hapart : src + total ≤ dst ∨ dst + total ≤ src) {done : Nat}
    (hsize : done + size ≤ total) : transfer (transfer memory done src dst) size (src + done) (dst + done) =
      transfer memory (done + size) src dst := by
  funext addr
  unfold transfer
  by_cases hin : dst + done ≤ addr ∧ addr < dst + done + size
  · rw [if_pos hin, if_neg (by omega), if_pos (by omega)]
    congr 1
    omega
  · rw [if_neg hin]
    by_cases hold : dst ≤ addr ∧ addr < dst + done
    · rw [if_pos hold, if_pos (by omega)]
    · rw [if_neg hold, if_neg (by omega)]

theorem copyLoop_of_lt (hpos : 0 < minAlign) (h : c.left < minAlign) : copyLoop minAlign c = .ok c := by
  rw [copyLoop, dif_neg hpos.ne', dif_neg (Nat.not_le.2 h)]

theorem copySingle_eq (hmin : Width minAlign) (c : Copy) :
    c.copySingle minAlign = .ok { c with
      memory := transfer c.memory minAlign c.src c.dst
      accesses := c.accesses ++ [.volatile minAlign c.src c.dst] } := if_pos hmin

theorem copyLoop_last (hmin : Width minAlign) (h : c.left = minAlign) :
    copyLoop minAlign c = .ok { c with
      memory := transfer c.memory minAlign c.src c.dst
      left := 0
      accesses := c.accesses ++ [.volatile minAlign c.src c.dst] } := by
  rw [copyLoop, dif_neg (by omega), dif_pos h.ge, copySingle_eq hmin, h, Nat.sub_self]
  rfl

theorem Inv.single (h : Inv memory src dst total minAlign c)
    (hmin : Width minAlign) (hsrc : minAlign ∣ src) (hdst : minAlign ∣ dst)
    (hapart : src + total ≤ dst ∨ dst + total ≤ src) (hle : minAlign ≤ c.left) {s d : Nat}
    (hs : 0 < c.left - minAlign → s = c.src + minAlign) (hd : 0 < c.left - minAlign → d = c.dst + minAlign) :
    Inv memory src dst total minAlign
      ⟨transfer c.memory minAlign c.src c.dst, s, d, c.left - minAlign,
        c.accesses ++ [.volatile minAlign c.src c.dst]⟩ := by
  have hleft := h.left_le
  have hsrcEq := h.src_eq (by omega)
  have hdstEq := h.dst_eq (by omega)
  have hdone : total - (c.left - minAlign) = total - c.left + minAlign := by omega
  refine ⟨by dsimp only; omega, ?_, fun hpos => ?_, fun hpos => ?_, ?_, fun access ha => ?_, ?_⟩
  · rw [hdone]
    exact Nat.dvd_add h.unit_dvd (Nat.dvd_refl _)
  · rw [hs hpos, hsrcEq, hdone, Nat.add_assoc]
  · rw [hd hpos, hdstEq, hdone, Nat.add_assoc]
  · rw [hdone, h.memory_eq, hsrcEq, hdstEq, transfer_transfer hapart (by omega)]
  · rcases mem_append.1 ha with ha | ha
    · exact h.natural access ha
    · rw [mem_singleton.1 ha, hsrcEq, hdstEq]
      exact ⟨hmin, Nat.dvd_add hsrc h.unit_dvd, Nat.dvd_add hdst h.unit_dvd, by omega, by omega, by omega, by omega⟩
  · rw [map_append, sum_append, h.sizes, hdone]
    rfl

theorem Inv.copyLoop (hmin : Width minAlign) (hsrc : minAlign ∣ src) (hdst : minAlign ∣ dst)
    (hr : Ranges src dst total) (h : Inv memory src dst total minAlign c) :
    ∃ c', copyLoop minAlign c = .ok c' ∧ Inv memory src dst total minAlign c' ∧ c'.left < minAlign := by
  -- by induction on what is left, which every pass makes less
  induction hleft : c.left using Nat.strongRecOn generalizing c with
  | ind left ih =>
    by_cases hle : minAlign ≤ c.left
    · rw [Copy.copyLoop, dif_neg (by omega), dif_pos hle, copySingle_eq hmin, ok_bind]
      dsimp only
      by_cases hzero : c.left - minAlign = 0
      · rw [if_pos hzero]
        exact ⟨_, rfl, h.single hmin hsrc hdst hr.apart hle (by omega) (by omega), by dsimp only; omega⟩
      · have htotal := h.left_le
        have hsrcEnd := hr.src_end
        have hdstEnd := hr.dst_end
        have hsrcEq := h.src_eq (by omega)
        have hdstEq := h.dst_eq (by omega)
        rw [if_neg hzero, pointerAdd, checkedAdd_of_le (by omega), unwrap_some, pointerAdd,
          checkedAdd_of_le (by omega)]
        have hnext := h.single hmin hsrc hdst hr.apart hle (fun _ => rfl) (fun _ => rfl)
        exact ih (c.left - minAlign) (by omega) hnext rfl
    · exact ⟨c, copyLoop_of_lt (by omega) (by omega), h, by omega⟩

theorem Inv.copyAlignedSlice (hmin : Width minAlign)
    (halign : minAlign ≤ align → minAlign ∣ src ∧ minAlign ∣ dst) (hr : Ranges src dst total) {unit : Nat}
    (h : Inv memory src dst total unit c) (hunit : minAlign ∣ unit) :
    ∃ c', c.copyAlignedSlice align minAlign = .ok c' ∧ Inv memory src dst total minAlign c' ∧
      (minAlign ≤ align → c'.left < minAlign) := by
  have h : Inv memory src dst total minAlign c := { h with unit_dvd := hunit.trans h.unit_dvd }
  unfold Copy.copyAlignedSlice
  split
  · exact ⟨c, rfl, h, by omega⟩
  · rename_i hge
    obtain ⟨hsrc, hdst⟩ := halign (Nat.le_of_not_lt hge)
    obtain ⟨c', hrun, hinv, hlt⟩ := h.copyLoop hmin hsrc hdst hr
    exact ⟨c', hrun, hinv, fun _ => hlt⟩

theorem copyAlignedSlice_of_lt (hpos : 0 < minAlign) (h : c.left < minAlign) :
    c.copyAlignedSlice align minAlign = .ok c := by
  rw [copyAlignedSlice, copyLoop_of_lt hpos h, ite_self]

end Copy

theorem Ranges.alignments {src dst total : Nat} (h : Ranges src dst total) :
    ∃ a b, alignment src = .ok a ∧ alignment dst = .ok b ∧ 0 < min a b ∧
      ∀ e, 2 ^ e ≤ min a b ↔ 2 ^ e ∣ src ∧ 2 ^ e ∣ dst := by
  obtain ⟨a, ha, hapos, hadvd⟩ := alignment_spec h.src_pos h.src_le
  obtain ⟨b, hb, hbpos, hbdvd⟩ := alignment_spec h.dst_pos h.dst_le
  exact ⟨a, b, ha, hb, by omega, fun e => by rw [Nat.le_min, hadvd, hbdvd]⟩

theorem copySliceVolatile_spec (memory : HostMemory) {dst src total : Nat} (hr : Ranges src dst total) :
    ∃ accesses, copySliceVolatile memory dst src total = .ok (total, transfer memory total src dst, accesses) ∧
      (∀ access ∈ accesses, access.Natural src dst total) ∧ (accesses.map CopyAccess.size).sum = total := by
  obtain ⟨a, b, ha, hb, hpos, hdvd⟩ := hr.alignments
  have hstart : Copy.Inv memory src dst total 8 ⟨memory, src, dst, total, []⟩ := by
    refine ⟨Nat.le_refl _, by simp, fun _ => by simp, fun _ => by simp, ?_, nofun, by simp⟩
    funext addr
    simp [transfer]
  obtain ⟨c₈, hrun₈, hinv₈, _⟩ := hstart.copyAlignedSlice (.inl rfl) (hdvd 3).1 hr (Nat.dvd_refl 8)
  obtain ⟨c₄, hrun₄, hinv₄, _⟩ :=
    hinv₈.copyAlignedSlice (.inr (.inl rfl)) (hdvd 2).1 hr ⟨2, rfl⟩
  obtain ⟨c₂, hrun₂, hinv₂, _⟩ :=
    hinv₄.copyAlignedSlice (.inr (.inr (.inl rfl))) (hdvd 1).1 hr ⟨2, rfl⟩
  obtain ⟨c₁, hrun₁, hinv₁, hleft⟩ :=
    hinv₂.copyAlignedSlice (.inr (.inr (.inr rfl))) (hdvd 0).1 hr ⟨2, rfl⟩
  have hzero : c₁.left = 0 := Nat.lt_one_iff.1 (hleft hpos)
  have hmemory := hinv₁.memory_eq
  have hsizes := hinv₁.sizes
  rw [hzero] at hmemory hsizes
  refine ⟨c₁.accesses, ?_, hinv₁.natural, hsizes⟩
  rw [copySliceVolatile, ha, ok_bind, hb, ok_bind]
  dsimp only
  rw [hrun₈, ok_bind, hrun₄, ok_bind, hrun₂, ok_bind, hrun₁, ok_bind, hmemory]
  rfl

theorem copySlice_single (memory : HostMemory) {dst src total : Nat} (hr : Ranges src dst total) (htotal : Width total)
    (hsrc : total ∣ src) (hdst : total ∣ dst) :
    copySlice memory dst src total = .ok (total, transfer memory total src dst, [.volatile total src dst]) := by
  obtain ⟨a, b, ha, hb, _, hdvd⟩ := hr.alignments
  have halign : total ≤ min a b := by
    rcases htotal with rfl | rfl | rfl | rfl
    · exact (hdvd 3).2 ⟨hsrc, hdst⟩
    · exact (hdvd 2).2 ⟨hsrc, hdst⟩
    · exact (hdvd 1).2 ⟨hsrc, hdst⟩
    · exact (hdvd 0).2 ⟨hsrc, hdst⟩
  have hlast : Copy.copyAlignedSlice ⟨memory, src, dst, total, []⟩ (min a b) total =
      .ok ⟨transfer memory total src dst, src, dst, 0, [.volatile total src dst]⟩ := by
    rw [Copy.copyAlignedSlice, if_neg (Nat.not_lt.2 halign), Copy.copyLoop_last htotal rfl]
    rfl
  rw [copySlice, copySliceVolatile, ha, ok_bind, hb, ok_bind]
  rcases htotal with rfl | rfl | rfl | rfl <;>
    simp [hlast, Copy.copyAlignedSlice_of_lt]

/-- **Small copies are exact, aligned and not torn**, for ranges anywhere in the address space, up to its last
address: no pointer above it is formed. -/
theorem copy_slice_exact (memory : HostMemory) (dst src total : Nat) (h : Ranges src dst total) :
    (∃ after accesses, copySliceVolatile memory dst src total = .ok (total, after, accesses) ∧
      (∀ i < total, after (dst + i) = memory (src + i)) ∧
      (∀ addr, addr < dst ∨ dst + total ≤ addr → after addr = memory addr) ∧
      (∀ access ∈ accesses, access.Natural src dst total) ∧ (accesses.map CopyAccess.size).sum = total) ∧
    (Width total → total ∣ src → total ∣ dst →
      ∃ after, copySlice memory dst src total = .ok (total, after, [.volatile total src dst])) := by
  refine ⟨?_, fun htotal hsrc hdst => ⟨_, copySlice_single memory h htotal hsrc hdst⟩⟩
  obtain ⟨accesses, hrun, hnatural, hsizes⟩ := copySliceVolatile_spec memory h
  refine ⟨_, accesses, hrun, fun i hi => ?_, fun addr hout => ?_, hnatural, hsizes⟩
  · rw [transfer, if_pos (by omega), Nat.add_sub_cancel_left]
  · rw [transfer, if_neg (by omega)]

/-- The last four bytes of the address space. -/
theorem copy_slice_exact_top :
    let memory : HostMemory := fun addr => UInt8.ofNat addr
    ∃ after, copySlice memory 4096 (U64_MAX - 3) 4 = .ok (4, after, [.volatile 4 (U64_MAX - 3) 4096]) := by
  intro memory
  have h : Ranges (U64_MAX - 3) 4096 4 :=
    ⟨by decide, by decide, by decide, by decide, by decide, by decide, .inr (by decide)⟩
  exact (copy_slice_exact memory 4096 (U64_MAX - 3) 4 h).2 (by decide) (by decide) (by decide)

end RustVmm.VmMemory
