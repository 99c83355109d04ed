import Mathlib.Data.List.TakeWhile
import RustVmm.Lib.Outcome
import RustVmm.Lib.U64

/-!
# Guest memory

Model of the part of `vm-memory` that the devices read their rings through: regions mapped into the host, the search
for the region of an address, the iterator over the slices of a range, and the atomic 16-bit load.  Addresses are
natural numbers not above `U64_MAX`; the host is little-endian, so that `u16::from_le` changes nothing.

* `GuestMemory` carries the order of its regions as a field; `eq_of_covers` says that an address is in one of them.
* `load16_of_readable`, `load16_cases` — when the load succeeds, and what else it can return.
* `le16_write16_same`, `le16_write16_of_disjoint` — what a load finds after a store.
-/

set_option autoImplicit false

namespace RustVmm.VmMemory

open Lib List Outcome Option

/-- `io::ErrorKind`: the kinds that `vm-memory` makes itself, and all others. -/
inductive ErrorKind where
  | unexpectedEof
  | writeZero
  | other
  deriving DecidableEq, Repr

/-- `guest_memory::Error`: the errors of the modelled functions. -/
inductive Error where
  | invalidGuestAddress (addr : Nat)
  | invalidBackendAddress
  | guestAddressOverflow
  | ioError (kind : ErrorKind)
  | partialBuffer (expected completed : Nat)
  | iommuError (iova length : Nat)
  deriving DecidableEq, Repr

/-! ## Regions -/

/-- A mapped region: `len` bytes from `startAddr`, which the host sees from `hostAddr` on. -/
structure Region where
  startAddr : Nat
  len : Nat
  hostAddr : Nat
  len_pos : 0 < len
  end_le : startAddr + len ≤ U64_MAX

namespace Region

def lastAddr (self : Region) : Nat := self.startAddr + (self.len - 1)

def Covers (self : Region) (addr : Nat) : Prop := self.startAddr ≤ addr ∧ addr < self.startAddr + self.len

instance (self : Region) (addr : Nat) : Decidable (self.Covers addr) := inferInstanceAs (Decidable (_ ∧ _))

/-- `to_region_addr`: the offset of an address in the region. -/
def toRegionAddr (self : Region) (addr : Nat) : Option Nat :=
  (checkedSub addr self.startAddr).bind fun offset => if offset < self.len then some offset else none

theorem covers_iff_le_lastAddr {self : Region} {addr : Nat} :
    self.Covers addr ↔ self.startAddr ≤ addr ∧ addr ≤ self.lastAddr := by
  have := self.len_pos
  unfold Covers lastAddr
  omega

theorem toRegionAddr_of_covers {self : Region} {addr : Nat} (h : self.Covers addr) :
    self.toRegionAddr addr = some (addr - self.startAddr) := by
  obtain ⟨hle, hlt⟩ := h
  rw [toRegionAddr, checkedSub_of_le hle]
  exact if_pos (by omega)

end Region

/-- The regions of a guest with their contents, byte by byte. -/
structure GuestMemory where
  regions : List Region
  sorted : regions.Pairwise fun a b => a.startAddr + a.len ≤ b.startAddr
  bytes : Nat → UInt8

/-- A slice of host memory, with the guest address it backs. -/
structure VolatileSlice where
  guestAddr : Nat
  hostAddr : Nat
  len : Nat

def Region.getSlice (self : Region) (offset count : Nat) : Outcome Error VolatileSlice := do
  let memEnd ← .okOr (checkedAdd offset count) .invalidBackendAddress
  if memEnd > self.len then .err .invalidBackendAddress
  else return ⟨self.startAddr + offset, self.hostAddr + offset, count⟩

namespace GuestMemory

def findRegion (mem : GuestMemory) (addr : Nat) : Option Region :=
  let below := mem.regions.takeWhile fun r => r.startAddr < addr
  let others := mem.regions.dropWhile fun r => r.startAddr < addr
  match others.head?.filter fun r => r.startAddr = addr with
  | some r => some r
  | none => below.getLast?.filter fun r => addr ≤ r.lastAddr

def toRegionAddr (mem : GuestMemory) (addr : Nat) : Outcome Error (Region × Nat) := do
  let region ← .okOr (mem.findRegion addr) (.invalidGuestAddress addr)
  let offset ← .unwrap (region.toRegionAddr addr)
  return (region, offset)

/-! ## Slices of a range -/

/-- `GuestMemoryBackendSliceIterator`: the next address and the bytes that remain. -/
structure SliceIterator where
  addr : Nat
  count : Nat

/-- `overflowing_add`, for which a range may end exactly at the top of the address space. -/
def advance (addr len : Nat) : Outcome Error Nat :=
  if addr + len ≤ U64_MAX then .ok (addr + len)
  else if addr + len = U64_MAX + 1 then .ok 0
  else .err .guestAddressOverflow

/-- `do_next` for a count that is not zero, with its `assert_eq!`. -/
def doNext (mem : GuestMemory) (it : SliceIterator) : Outcome Error (VolatileSlice × SliceIterator) := do
  let (region, start) ← mem.toRegionAddr it.addr
  let len := min (region.len - start) it.count
  let addr ← advance it.addr len
  let slice ← region.getSlice start len
  if slice.len = len then return (slice, ⟨addr, it.count - len⟩) else .panic

/-- `next`: `none` at the end of the range. -/
def nextSlice (mem : GuestMemory) (it : SliceIterator) : Option (Outcome Error (VolatileSlice × SliceIterator)) :=
  if it.count = 0 then none else some (mem.doNext it)

/-! ## Atomic access -/

/-- The little-endian 16-bit integer at an address. -/
def le16 (bytes : Nat → UInt8) (addr : Nat) : UInt16 :=
  UInt16.ofNat ((bytes addr).toNat + 256 * (bytes (addr + 1)).toNat)

/-- `VolatileSlice::load` at offset 0: `get_atomic_ref` checks the size and the host alignment. -/
def loadSlice16 (mem : GuestMemory) (slice : VolatileSlice) : Outcome Error UInt16 :=
  if slice.len < 2 then .err .invalidBackendAddress
  else if slice.hostAddr % 2 ≠ 0 then .err .invalidBackendAddress
  else .ok (le16 mem.bytes slice.guestAddr)

/-- `load` of a `u16`: only the first slice is looked at. -/
def load16 (mem : GuestMemory) (addr : Nat) : Outcome Error UInt16 := do
  let item ← .unwrap (mem.nextSlice ⟨addr, 2⟩)
  let (slice, _) ← item
  mem.loadSlice16 slice

/-- A 16-bit store by the guest itself. -/
def write16 (mem : GuestMemory) (addr : Nat) (v : UInt16) : GuestMemory := { mem with
    bytes := fun a =>
      if a = addr then v.toUInt8 else if a = addr + 1 then (v >>> 8).toUInt8 else mem.bytes a }

def write8 (mem : GuestMemory) (addr : Nat) (v : UInt8) : GuestMemory :=
  { mem with bytes := fun a => if a = addr then v else mem.bytes a }

/-! ## The search finds the region of the address -/

variable {mem : GuestMemory} {addr other : Nat} {r : Region}

theorem eq_of_covers {s : Region} (hr : r ∈ mem.regions) (hs : s ∈ mem.regions) (hra : r.Covers addr)
    (hsa : s.Covers addr) : r = s := by
  obtain ⟨i, hi, rfl⟩ := mem_iff_getElem.1 hr
  obtain ⟨j, hj, rfl⟩ := mem_iff_getElem.1 hs
  have hsorted := pairwise_iff_getElem.1 mem.sorted
  unfold Region.Covers at hra hsa
  rcases Nat.lt_trichotomy i j with hij | rfl | hij
  · have := hsorted i j hi hj hij
    omega
  · rfl
  · have := hsorted j i hj hi hij
    omega

theorem covers_of_findRegion (h : mem.findRegion addr = some r) : r ∈ mem.regions ∧ r.Covers addr := by
  unfold findRegion at h
  dsimp only at h
  split at h
  · rename_i r' hr'
    cases h
    obtain ⟨hhead, heq⟩ := filter_eq_some_iff.1 hr'
    have hmem := mem_of_mem_head? (mem_def.2 hhead)
    have := r.len_pos
    have := of_decide_eq_true heq
    refine ⟨(dropWhile_sublist _).subset hmem, ?_⟩
    unfold Region.Covers
    omega
  · obtain ⟨hlast, hle⟩ := filter_eq_some_iff.1 h
    have hmem := mem_of_getLast? hlast
    have hlt : r.startAddr < addr := by simpa using mem_takeWhile_imp hmem
    refine ⟨(takeWhile_sublist _).subset hmem, Region.covers_iff_le_lastAddr.2 ⟨?_, ?_⟩⟩
    · omega
    · exact of_decide_eq_true hle

theorem findRegion_isSome (hr : r ∈ mem.regions) (hc : r.Covers addr) : (mem.findRegion addr).isSome = true := by
  have hsplit := takeWhile_append_dropWhile (p := fun r : Region => decide (r.startAddr < addr))
    (l := mem.regions)
  have hsorted := mem.sorted
  rw [← hsplit] at hr hsorted
  obtain ⟨hbelow, hothers, _⟩ := pairwise_append.1 hsorted
  obtain ⟨hstart, hend⟩ := hc
  unfold findRegion
  dsimp only
  rcases mem_append.1 hr with hr | hr
  · split
    · rfl
    · obtain ⟨front, last, hlast⟩ : ∃ front last,
          (mem.regions.takeWhile fun r => decide (r.startAddr < addr)) = front ++ [last] :=
        ⟨_, _, (dropLast_concat_getLast (ne_nil_of_mem hr)).symm⟩
      have hlastmem : last ∈ mem.regions.takeWhile fun r => decide (r.startAddr < addr) := by
        simp [hlast]
      have hlt : last.startAddr < addr := by simpa using mem_takeWhile_imp hlastmem
      rw [hlast] at hr hbelow
      have hle : addr ≤ last.lastAddr := by
        rcases mem_append.1 hr with hr | hr
        · have := (pairwise_append.1 hbelow).2.2 r hr last (mem_singleton_self last)
          omega
        · rw [← mem_singleton.1 hr]
          exact (Region.covers_iff_le_lastAddr.1 ⟨hstart, hend⟩).2
      rw [hlast]
      simp [hle]
  · cases hB : mem.regions.dropWhile fun r => decide (r.startAddr < addr) with
    | nil =>
      rw [hB] at hr
      cases hr
    | cons b bs =>
      have hb := head?_dropWhile_not (fun r : Region => decide (r.startAddr < addr)) mem.regions
      rw [hB] at hr hothers hb
      have hge : addr ≤ b.startAddr := by simpa using hb
      have heq : b.startAddr = addr := by
        rcases mem_cons.1 hr with rfl | hr
        · omega
        · have := (pairwise_cons.1 hothers).1 r hr
          omega
      simp [filter_some, heq]

theorem findRegion_eq_some : mem.findRegion addr = some r ↔ r ∈ mem.regions ∧ r.Covers addr := by
  constructor
  · exact covers_of_findRegion
  · rintro ⟨hr, hc⟩
    obtain ⟨s, hs⟩ := isSome_iff_exists.1 (findRegion_isSome hr hc)
    obtain ⟨hsm, hsc⟩ := covers_of_findRegion hs
    rw [hs, eq_of_covers hsm hr hsc hc]

theorem toRegionAddr_eq_ok {offset : Nat} : mem.toRegionAddr addr = .ok (r, offset) ↔
      r ∈ mem.regions ∧ r.Covers addr ∧ offset = addr - r.startAddr := by
  unfold toRegionAddr
  rw [bind_eq_ok]
  constructor
  · rintro ⟨s, hs, h⟩
    obtain ⟨hmem, hcov⟩ := findRegion_eq_some.1 (okOr_eq_ok.1 hs)
    rw [Region.toRegionAddr_of_covers hcov] at h
    cases h
    exact ⟨hmem, hcov, rfl⟩
  · rintro ⟨hmem, hcov, rfl⟩
    refine ⟨r, okOr_eq_ok.2 (findRegion_eq_some.2 ⟨hmem, hcov⟩), ?_⟩
    rw [Region.toRegionAddr_of_covers hcov]
    rfl

/-! ## What a slice and a load are -/

theorem toRegionAddr_unmapped (h : ∀ r ∈ mem.regions, ¬ r.Covers addr) :
    mem.toRegionAddr addr = .err (.invalidGuestAddress addr) := by
  have hnone : mem.findRegion addr = none := by
    rw [eq_none_iff_forall_ne_some]
    intro r hr
    obtain ⟨hmem, hcov⟩ := findRegion_eq_some.1 hr
    exact h r hmem hcov
  rw [toRegionAddr, hnone]
  rfl

theorem doNext_of_covers {it : SliceIterator} (hr : r ∈ mem.regions) (hc : r.Covers it.addr) : mem.doNext it = .ok
      (⟨it.addr, r.hostAddr + (it.addr - r.startAddr), min (r.len - (it.addr - r.startAddr)) it.count⟩,
        ⟨it.addr + min (r.len - (it.addr - r.startAddr)) it.count,
          it.count - min (r.len - (it.addr - r.startAddr)) it.count⟩) := by
  have hend := r.end_le
  have hstart := hc.1
  have hlt := hc.2
  have hle : min (r.len - (it.addr - r.startAddr)) it.count ≤ r.len - (it.addr - r.startAddr) := Nat.min_le_left _ _
  unfold doNext
  rw [toRegionAddr_eq_ok.2 ⟨hr, hc, rfl⟩, ok_bind]
  dsimp only
  rw [advance, if_pos (by omega), ok_bind, Region.getSlice, checkedAdd_of_le (by omega),
    okOr_some, ok_bind, if_neg (by omega), pure_eq, ok_bind,
    if_pos rfl, Nat.add_sub_cancel' hstart]
  rfl

theorem load16_of_covers (hr : r ∈ mem.regions) (hc : r.Covers addr) : mem.load16 addr =
      if addr + 1 < r.startAddr + r.len ∧ (r.hostAddr + (addr - r.startAddr)) % 2 = 0 then
        .ok (le16 mem.bytes addr)
      else .err .invalidBackendAddress := by
  have hstart := hc.1
  have hnext : mem.nextSlice ⟨addr, 2⟩ = some (mem.doNext ⟨addr, 2⟩) := rfl
  rw [load16, hnext, unwrap_some, ok_bind, doNext_of_covers hr hc, ok_bind]
  unfold loadSlice16
  dsimp only
  by_cases hlen : addr + 1 < r.startAddr + r.len
  · rw [if_neg (by omega)]
    by_cases halign : (r.hostAddr + (addr - r.startAddr)) % 2 = 0
    · rw [if_neg (by omega), if_pos ⟨hlen, halign⟩]
    · rw [if_pos halign, if_neg (fun h => halign h.2)]
  · rw [if_pos (by omega), if_neg (fun h => hlen h.1)]

theorem load16_unmapped (h : ∀ r ∈ mem.regions, ¬ r.Covers addr) :
    mem.load16 addr = .err (.invalidGuestAddress addr) := by
  have hnext : mem.nextSlice ⟨addr, 2⟩ = some (mem.doNext ⟨addr, 2⟩) := rfl
  rw [load16, hnext, unwrap_some, doNext, toRegionAddr_unmapped h]
  rfl

theorem load16_cases (mem : GuestMemory) (addr : Nat) :
    (∃ e, mem.load16 addr = .err e) ∨ mem.load16 addr = .ok (le16 mem.bytes addr) := by
  by_cases h : ∃ r ∈ mem.regions, r.Covers addr
  · obtain ⟨r, hr, hc⟩ := h
    rw [load16_of_covers hr hc]
    split
    · exact .inr rfl
    · exact .inl ⟨_, rfl⟩
  · exact .inl ⟨_, load16_unmapped fun r hr hc => h ⟨r, hr, hc⟩⟩

/-- Both bytes lie in one region, which maps them to an aligned host address. -/
def Readable16 (mem : GuestMemory) (addr : Nat) : Prop :=
  ∃ r ∈ mem.regions, r.startAddr ≤ addr ∧ addr + 1 < r.startAddr + r.len ∧ (r.hostAddr + (addr - r.startAddr)) % 2 = 0

theorem load16_of_readable (h : mem.Readable16 addr) : mem.load16 addr = .ok (le16 mem.bytes addr) := by
  obtain ⟨r, hr, hle, hlt, halign⟩ := h
  have hc : r.Covers addr := ⟨hle, by omega⟩
  rw [load16_of_covers hr hc, if_pos ⟨hlt, halign⟩]

theorem Readable16.lt (h : mem.Readable16 addr) : addr + 1 < U64_MAX := by
  obtain ⟨r, _, _, hlt, _⟩ := h
  exact Nat.lt_of_lt_of_le hlt r.end_le

/-- Regions begin, end and are mapped on even addresses, as pages do. -/
def EvenRegions (mem : GuestMemory) : Prop :=
  ∀ r ∈ mem.regions, r.startAddr % 2 = 0 ∧ r.len % 2 = 0 ∧ r.hostAddr % 2 = 0

def Mapped (mem : GuestMemory) (addr len : Nat) : Prop := ∀ a, addr ≤ a → a < addr + len → ∃ r ∈ mem.regions, r.Covers a

theorem readable16_of_mapped {base len : Nat} (heven : mem.EvenRegions) (h : mem.Mapped base len) (hle : base ≤ addr)
    (hlt : addr < base + len) (ha : addr % 2 = 0) : mem.Readable16 addr := by
  obtain ⟨r, hr, hstart, hend⟩ := h addr hle hlt
  obtain ⟨hs, hl, hh⟩ := heven r hr
  exact ⟨r, hr, hstart, by omega, by omega⟩

/-! ## Contents after a store -/

theorem le16_of_bytes {bytes : Nat → UInt8} {v : UInt16} (hlow : bytes addr = v.toUInt8)
    (hhigh : bytes (addr + 1) = (v >>> 8).toUInt8) : le16 bytes addr = v := by
  have hv := v.toNat_lt
  unfold le16
  apply UInt16.toNat_inj.1
  rw [hlow, hhigh, UInt16.toNat_toUInt8, UInt16.toNat_toUInt8]
  show (v.toNat % 2 ^ 8 + 256 * (v.toNat >>> 8 % 2 ^ 8)) % 2 ^ 16 = v.toNat
  omega

theorem le16_write16_same (mem : GuestMemory) (addr : Nat) (v : UInt16) : le16 (mem.write16 addr v).bytes addr = v := by
  apply le16_of_bytes
  · exact if_pos rfl
  · simp [write16]

theorem le16_write16_of_disjoint (mem : GuestMemory) (v : UInt16) (h : other + 1 < addr ∨ addr + 1 < other) :
    le16 (mem.write16 addr v).bytes other = le16 mem.bytes other := by
  unfold le16 write16
  dsimp only
  rw [if_neg (by omega), if_neg (by omega), if_neg (by omega), if_neg (by omega)]

theorem bytes_write16_of_outside (mem : GuestMemory) {a : Nat} (v : UInt16) (h : a < addr ∨ addr + 1 < a) :
    (mem.write16 addr v).bytes a = mem.bytes a := by
  unfold write16
  dsimp only
  rw [if_neg (by omega), if_neg (by omega)]

theorem le16_write8_of_ne (mem : GuestMemory) (v : UInt8) (h : addr ≠ other) (h' : addr ≠ other + 1) :
    le16 (mem.write8 addr v).bytes other = le16 mem.bytes other := by
  unfold le16 write8
  dsimp only
  rw [if_neg (by omega), if_neg (by omega)]

end GuestMemory

end RustVmm.VmMemory
