import RustVmm.Lib.BitWords
import RustVmm.Lib.U64

/-!
# Dirty bitmaps

Model of `bitmap/backend/atomic_bitmap.rs` and `bitmap/backend/slice.rs`: a bit for each page, in 64-bit words, and
slices of a bitmap that start at an offset.

* `AtomicBitmap` carries what `new` and `enlarge` establish: as many bits as pages, as many words as the bits need.
* `test_setResetAddrRange` — the bits after marking or clearing a range; `touches_iff` — which pages the range has.
-/

set_option autoImplicit false

namespace RustVmm.VmMemory

open Lib BitWords

def divCeil (a b : Nat) : Nat := a / b + if a % b = 0 then 0 else 1

def saturatingAdd (a b : Nat) : Nat := min (a + b) U64_MAX

theorem lt_divCeil {a b n : Nat} (hb : 0 < b) : n < divCeil a b ↔ n * b < a := by
  have hdiv := Nat.div_add_mod a b
  have hle : n < a / b ↔ n * b + b ≤ a := by
    rw [← Nat.succ_mul, ← Nat.le_div_iff_mul_le hb]
    rfl
  unfold divCeil
  split
  · rw [Nat.add_zero, hle]
    constructor
    · omega
    · intro h
      have hlt' : n < a / b := by
        rw [Nat.mul_comm] at h
        apply Nat.lt_of_mul_lt_mul_left (a := b)
        omega
      exact hle.1 hlt'
  · rw [Nat.lt_succ_iff, Nat.le_div_iff_mul_le hb]
    constructor
    · intro h
      rcases Nat.lt_or_eq_of_le h with h | h
      · exact h
      · exact absurd (h ▸ Nat.mul_mod_left n b) ‹_›
    · exact Nat.le_of_lt

structure AtomicBitmap where
  map : List UInt64
  size : Nat
  byteSize : Nat
  pageSize : Nat
  pageSize_pos : 0 < pageSize
  size_eq : size = divCeil byteSize pageSize
  map_length : map.length = divCeil size 64

/-- One pass of the loop of `set_reset_addr_range`. -/
def setResetBit (set : Bool) (map : List UInt64) (n : Nat) : List UInt64 :=
  if set then BitWords.set map n else BitWords.clear map n

/-- The loop of `set_reset_addr_range` from bit `n` on; bits beyond the end are ignored. -/
def setResetBits (size : Nat) (set : Bool) (lastBit n : Nat) (map : List UInt64) : List UInt64 :=
  if lastBit < n then map
  else if size ≤ n then map
  else setResetBits size set lastBit (n + 1) (setResetBit set map n)
termination_by size - n

variable (set : Bool)

@[simp] theorem length_setResetBit (map : List UInt64) (n : Nat) : (setResetBit set map n).length = map.length := by
  unfold setResetBit
  split
  · exact length_set map n
  · exact length_clear map n

theorem test_setResetBit {map : List UInt64} {n : Nat} (h : n < 64 * map.length) (set : Bool) (m : Nat) :
    test (setResetBit set map n) m = if m = n then set else test map m := by
  cases set with
  | true =>
    rw [setResetBit, if_pos rfl, test_set h]
    by_cases hmn : m = n <;> simp [hmn]
  | false =>
    rw [setResetBit, if_neg Bool.false_ne_true, test_clear h]
    by_cases hmn : m = n <;> simp [hmn]

theorem length_setResetBits (size : Nat) (set : Bool) (lastBit n : Nat) (map : List UInt64) :
    (setResetBits size set lastBit n map).length = map.length := by
  fun_induction setResetBits size set lastBit n map with
  | case1 n map h => rfl
  | case2 n map h h' => rfl
  | case3 n map h h' ih => rw [ih, length_setResetBit]

theorem test_setResetBits {size lastBit n : Nat} {map : List UInt64} (hsize : size ≤ 64 * map.length) (m : Nat) :
    test (setResetBits size set lastBit n map) m =
      if n ≤ m ∧ m ≤ lastBit ∧ m < size then set else test map m := by
  fun_induction setResetBits size set lastBit n map with
  | case1 n map h => rw [if_neg (by omega)]
  | case2 n map h h' => rw [if_neg (by omega)]
  | case3 n map h h' ih =>
    rw [ih (by rw [length_setResetBit]; exact hsize), test_setResetBit (by omega)]
    by_cases hmn : m = n
    · rw [if_neg (by omega), if_pos hmn, if_pos (by omega)]
    · rw [if_neg hmn]
      exact if_congr (by omega) rfl rfl

/-- `Vec::resize_with(len, Default::default)`. -/
def resize (len : Nat) (map : List UInt64) : List UInt64 :=
  map.take len ++ List.replicate (len - map.length) 0

theorem length_resize (len : Nat) (map : List UInt64) : (resize len map).length = len := by
  rw [resize, List.length_append, List.length_take, List.length_replicate]
  omega

namespace AtomicBitmap

def new (byteSize pageSize : Nat) (h : 0 < pageSize) : AtomicBitmap where
  map := List.replicate (divCeil (divCeil byteSize pageSize) 64) 0
  size := divCeil byteSize pageSize
  byteSize := byteSize
  pageSize := pageSize
  pageSize_pos := h
  size_eq := rfl
  map_length := List.length_replicate

/-- `is_bit_set`: bits outside of the bitmap are never set. -/
def isBitSet (self : AtomicBitmap) (index : Nat) : Bool :=
  if index < self.size then BitWords.test self.map index else false

/-- `is_addr_set`, which is `dirty_at`. -/
def isAddrSet (self : AtomicBitmap) (addr : Nat) : Bool := self.isBitSet (addr / self.pageSize)

def setResetAddrRange (self : AtomicBitmap) (startAddr len : Nat) (set : Bool) : AtomicBitmap :=
  if len = 0 then self
  else
    let firstBit := startAddr / self.pageSize
    let lastBit := saturatingAdd startAddr (len - 1) / self.pageSize
    { self with
      map := setResetBits self.size set lastBit firstBit self.map
      map_length := by rw [length_setResetBits, self.map_length] }

/-- `set_addr_range`, which is `mark_dirty`. -/
def setAddrRange (self : AtomicBitmap) (startAddr len : Nat) : AtomicBitmap :=
  self.setResetAddrRange startAddr len true

def resetAddrRange (self : AtomicBitmap) (startAddr len : Nat) : AtomicBitmap :=
  self.setResetAddrRange startAddr len false

/-- `reset`: all words are zero. -/
def reset (self : AtomicBitmap) : AtomicBitmap :=
  { self with
    map := List.replicate self.map.length 0
    map_length := by rw [List.length_replicate, self.map_length] }

def setBit (self : AtomicBitmap) (index : Nat) : AtomicBitmap :=
  if index ≥ self.size then self
  else
    { self with
      map := setResetBit true self.map index
      map_length := by rw [length_setResetBit, self.map_length] }

def resetBit (self : AtomicBitmap) (index : Nat) : AtomicBitmap :=
  if index ≥ self.size then self
  else
    { self with
      map := setResetBit false self.map index
      map_length := by rw [length_setResetBit, self.map_length] }

/-- `enlarge`: the number of pages is computed anew, and `resize_with` adds words that are zero. -/
def enlarge (self : AtomicBitmap) (additionalSize : Nat) : AtomicBitmap where
  map := resize (divCeil (divCeil (self.byteSize + additionalSize) self.pageSize) 64) self.map
  size := divCeil (self.byteSize + additionalSize) self.pageSize
  byteSize := self.byteSize + additionalSize
  pageSize := self.pageSize
  pageSize_pos := self.pageSize_pos
  size_eq := rfl
  map_length := length_resize _ _

/-- `get_and_reset`: the words, each of which is replaced by zero. -/
def getAndReset (self : AtomicBitmap) : List UInt64 × AtomicBitmap :=
  (self.map,
    { self with
      map := self.map.map fun word => word &&& 0
      map_length := by rw [List.length_map, self.map_length] })

/-! ## What the operations mean for the pages -/

/-- The page has an address of the range. -/
def Touches (self : AtomicBitmap) (startAddr len page : Nat) : Prop :=
  len ≠ 0 ∧ startAddr / self.pageSize ≤ page ∧
    page ≤ saturatingAdd startAddr (len - 1) / self.pageSize

instance (self : AtomicBitmap) (startAddr len page : Nat) :
    Decidable (self.Touches startAddr len page) :=
  inferInstanceAs (Decidable (_ ∧ _ ∧ _))

variable (self : AtomicBitmap)

theorem size_le : self.size ≤ 64 * self.map.length := by
  rw [self.map_length]
  by_contra h
  have := (lt_divCeil (a := self.size) (b := 64) (n := divCeil self.size 64) (by decide)).2 (by omega)
  exact Nat.lt_irrefl _ this

variable (startAddr : Nat)

/-- What a bitmap does not change. -/
structure SameLayout (a b : AtomicBitmap) : Prop where
  size : a.size = b.size
  byteSize : a.byteSize = b.byteSize
  pageSize : a.pageSize = b.pageSize

theorem sameLayout_setResetAddrRange (len : Nat) (set : Bool) :
    (self.setResetAddrRange startAddr len set).SameLayout self := by
  unfold setResetAddrRange
  split <;> exact ⟨rfl, rfl, rfl⟩

theorem test_setResetAddrRange (len : Nat) (set : Bool) (page : Nat) :
    test (self.setResetAddrRange startAddr len set).map page =
      if page < self.size ∧ self.Touches startAddr len page then set else test self.map page := by
  unfold setResetAddrRange
  by_cases hlen : len = 0
  · rw [if_pos hlen]
    exact (if_neg fun h => h.2.1 hlen).symm
  · rw [if_neg hlen]
    rw [test_setResetBits set self.size_le]
    exact if_congr ⟨fun h => ⟨h.2.2, hlen, h.1, h.2.1⟩, fun h => ⟨h.2.2.1, h.2.2.2, h.1⟩⟩ rfl rfl

theorem isBitSet_setResetAddrRange (len : Nat) (set : Bool) (page : Nat) :
    (self.setResetAddrRange startAddr len set).isBitSet page =
      if page < self.size ∧ self.Touches startAddr len page then set else self.isBitSet page := by
  unfold isBitSet
  rw [(self.sameLayout_setResetAddrRange startAddr len set).size, test_setResetAddrRange]
  by_cases hpage : page < self.size
  · rw [if_pos hpage, if_pos hpage]
  · rw [if_neg hpage, if_neg hpage, if_neg (fun h => hpage h.1)]

theorem isBitSet_setAddrRange (len page : Nat) : (self.setAddrRange startAddr len).isBitSet page = true ↔
      self.isBitSet page = true ∨ page < self.size ∧ self.Touches startAddr len page := by
  rw [setAddrRange, isBitSet_setResetAddrRange]
  split
  · rename_i h
    exact iff_of_true rfl (.inr h)
  · rename_i h
    exact ⟨.inl, fun h' => h'.resolve_right h⟩

theorem isBitSet_reset (page : Nat) : self.reset.isBitSet page = false := by
  unfold isBitSet reset
  split
  · exact test_replicate_zero _ _
  · rfl

theorem touches_iff {startAddr len page : Nat} (h : startAddr + len ≤ U64_MAX + 1) :
    self.Touches startAddr len page ↔ ∃ a, startAddr ≤ a ∧ a < startAddr + len ∧ a / self.pageSize = page := by
  have hpos := self.pageSize_pos
  unfold Touches saturatingAdd
  constructor
  · rintro ⟨hlen, hfirst, hlast⟩
    -- the later of the range's first address and the page's first address
    refine ⟨max startAddr (page * self.pageSize), Nat.le_max_left _ _, ?_, ?_⟩
    · have := (Nat.le_div_iff_mul_le hpos).1 hlast
      omega
    · rcases Nat.le_total startAddr (page * self.pageSize) with hle | hle
      · rw [Nat.max_eq_right hle, Nat.mul_div_cancel _ hpos]
      · rw [Nat.max_eq_left hle]
        exact Nat.le_antisymm hfirst ((Nat.le_div_iff_mul_le hpos).2 hle)
  · rintro ⟨a, hle, hlt, rfl⟩
    exact ⟨by omega, Nat.div_le_div_right hle, Nat.div_le_div_right (by omega)⟩

theorem page_lt_size {addr : Nat} (h : addr < self.byteSize) : addr / self.pageSize < self.size := by
  rw [self.size_eq, lt_divCeil self.pageSize_pos]
  exact Nat.lt_of_le_of_lt (Nat.div_mul_le_self _ _) h

end AtomicBitmap

/-! ## Slices of a bitmap -/

/-- `BaseSlice`: a bitmap, seen from an offset on. -/
structure BaseSlice (B : Type) where
  inner : B
  baseOffset : Nat
  deriving DecidableEq, Repr

namespace BaseSlice

variable {B : Type}

/-- The offset into the bitmap of an offset into the slice: `wrapping_add`. -/
def wrappingOffset (self : BaseSlice B) (offset : Nat) : Nat :=
  (self.baseOffset + offset) % (U64_MAX + 1)

def sliceAt (self : BaseSlice B) (offset : Nat) : BaseSlice B :=
  ⟨self.inner, self.wrappingOffset offset⟩

end BaseSlice

end RustVmm.VmMemory
