import RustVmm.Lib.Iter
import RustVmm.VmMemory.Bitmap
import RustVmm.VmMemory.GuestMemory

/-!
# The slices of a guest range

Model of `GuestMemoryBackend::get_slices`, of its iterator, and of `check_range`.

* `SliceIterator.next_of_covers`, `next_unmapped`, `next_end` — the three things that a call of `next` does.
* `items_spec` — what all calls yield (`Yielded`): slices that follow each other, and an error at the first address
  that is not mapped, by induction on the bytes that remain.
* `Yielded.mapped_iff_le`, `checkRange_iff` — how far the range is mapped, and that `check_range` says so.
* `get_slices_cover` — these together, for every range.
-/

set_option autoImplicit false

namespace RustVmm.VmMemory

open Lib Outcome List

deriving instance DecidableEq for Region

/-- The dirty bitmaps: one for each region, and one for the addresses that an IOMMU translates. -/
inductive BitmapRef where
  | region (region : Region)
  | iova
  deriving DecidableEq

/-- A `VolatileSlice` with its bitmap. -/
structure GuestSlice extends VolatileSlice where
  bitmap : BaseSlice BitmapRef

def GuestSlice.addresses (s : GuestSlice) : List Nat := (List.range s.len).map fun i => s.guestAddr + i

variable {r : Region}

namespace GuestMemory

/-- `get_slice`: the whole range as one slice. -/
def getSlice (mem : GuestMemory) (addr count : Nat) : Outcome Error GuestSlice := do
  let (region, offset) ← mem.toRegionAddr addr
  let slice ← region.getSlice offset count
  return ⟨slice, ⟨.region region, offset⟩⟩

def getSlices (addr count : Nat) : SliceIterator := ⟨addr, count⟩

namespace SliceIterator

def doNext (mem : GuestMemory) (it : SliceIterator) : Outcome Error (GuestSlice × SliceIterator) := do
  let (region, start) ← mem.toRegionAddr it.addr
  let (slice, it') ← mem.doNext it
  return (⟨slice, ⟨.region region, start⟩⟩, it')

/-- `next`: the count is reset on an error and at the end, so iteration remains stopped. -/
def next (mem : GuestMemory) (it : SliceIterator) : Option (Outcome Error GuestSlice) × SliceIterator :=
  if it.count = 0 then (none, ⟨it.addr, 0⟩)
  else
    match it.doNext mem with
    | .ok (slice, it') => (some (.ok slice), it')
    | .err e => (some (.err e), ⟨it.addr, 0⟩)
    | .panic => (some .panic, ⟨it.addr, 0⟩)

/-! ## One call -/

variable {mem : GuestMemory} {it it' : SliceIterator}

theorem next_end (h : it.count = 0) : it.next mem = (none, ⟨it.addr, 0⟩) := if_pos h

/-- The bytes of the next slice of an address in a region. -/
def lenIn (it : SliceIterator) (r : Region) : Nat := min (r.len - (it.addr - r.startAddr)) it.count

/-- The next slice of an address in a region. -/
def sliceIn (it : SliceIterator) (r : Region) : GuestSlice where
  guestAddr := it.addr
  hostAddr := r.hostAddr + (it.addr - r.startAddr)
  len := it.lenIn r
  bitmap := ⟨.region r, it.addr - r.startAddr⟩

theorem next_of_covers (hcount : it.count ≠ 0) (hr : r ∈ mem.regions) (hc : r.Covers it.addr) :
    it.next mem = (some (.ok (it.sliceIn r)), ⟨it.addr + it.lenIn r, it.count - it.lenIn r⟩) := by
  rw [next, if_neg hcount, doNext, GuestMemory.toRegionAddr_eq_ok.2 ⟨hr, hc, rfl⟩]
  rw [GuestMemory.doNext_of_covers hr hc]
  rfl

theorem next_unmapped (hcount : it.count ≠ 0) (h : ∀ r ∈ mem.regions, ¬ r.Covers it.addr) :
    it.next mem = (some (.err (.invalidGuestAddress it.addr)), ⟨it.addr, 0⟩) := by
  rw [next, if_neg hcount, doNext, GuestMemory.toRegionAddr_unmapped h]
  rfl

theorem lenIn_pos (hcount : it.count ≠ 0) (hc : r.Covers it.addr) : 0 < it.lenIn r := by
  unfold Region.Covers at hc
  unfold lenIn
  omega

theorem lenIn_le (it : SliceIterator) (r : Region) :
    it.lenIn r ≤ r.len - (it.addr - r.startAddr) ∧ it.lenIn r ≤ it.count :=
  ⟨Nat.min_le_left _ _, Nat.min_le_right _ _⟩

variable {item : Outcome Error GuestSlice}

theorem count_next_lt (h : it.next mem = (some item, it')) : it'.count < it.count := by
  by_cases hcount : it.count = 0
  · rw [next_end hcount] at h
    cases h
  · by_cases hmapped : ∃ r ∈ mem.regions, r.Covers it.addr
    · obtain ⟨r, hr, hc⟩ := hmapped
      have hpos := lenIn_pos hcount hc
      rw [next_of_covers hcount hr hc] at h
      cases h
      show it.count - it.lenIn r < it.count
      omega
    · rw [next_unmapped hcount fun r hr hc => hmapped ⟨r, hr, hc⟩] at h
      cases h
      exact Nat.pos_of_ne_zero hcount

/-! ## All calls -/

theorem next_none (h : it.next mem = (none, it')) : it'.next mem = (none, it') := by
  have hcount : it.count = 0 := by
    by_contra hne
    rw [next, if_neg hne] at h
    split at h <;> cases h
  rw [next_end hcount] at h
  cases h
  rfl

/-- The iterator as a finite fused one. -/
def iter (mem : GuestMemory) : Iter SliceIterator (Outcome Error GuestSlice) where
  next := next mem
  size it := it.count
  size_lt := count_next_lt
  fused := next_none

/-- The items that an iterator yields before its first `None`. -/
def items (mem : GuestMemory) (it : SliceIterator) : List (Outcome Error GuestSlice) := (iter mem).items it

theorem items_of_none (h : it.next mem = (none, it')) : it.items mem = [] := (iter mem).items_of_none h

theorem items_of_some (h : it.next mem = (some item, it')) : it.items mem = item :: it'.items mem :=
  (iter mem).items_of_some h

/-- The item that the call after `n` others returns. -/
def call (mem : GuestMemory) (it : SliceIterator) (n : Nat) : Option (Outcome Error GuestSlice) := (iter mem).call it n

end SliceIterator

end GuestMemory

open GuestMemory

/-! ## What the items are -/

/-- The slice is a part of a region, with its host memory and its bitmap. -/
def GuestMemory.Backs (mem : GuestMemory) (s : GuestSlice) : Prop :=
  ∃ r ∈ mem.regions, 0 < s.len ∧ r.startAddr ≤ s.guestAddr ∧ s.guestAddr + s.len ≤ r.startAddr + r.len ∧
    s.hostAddr = r.hostAddr + (s.guestAddr - r.startAddr) ∧
    s.bitmap = ⟨.region r, s.guestAddr - r.startAddr⟩

/-- The slices follow each other without a gap, from the address on. -/
def Consecutive : Nat → List GuestSlice → Prop
  | _, [] => True
  | addr, s :: ss => s.guestAddr = addr ∧ Consecutive (addr + s.len) ss

def totalLen (slices : List GuestSlice) : Nat := (slices.map fun s => s.len).sum

@[simp] theorem totalLen_cons (s : GuestSlice) (ss : List GuestSlice) : totalLen (s :: ss) = s.len + totalLen ss := rfl

theorem totalLen_append (first second : List GuestSlice) :
    totalLen (first ++ second) = totalLen first + totalLen second := by
  simp [totalLen]

def GuestMemory.Unmapped (mem : GuestMemory) (addr : Nat) : Prop := ∀ r ∈ mem.regions, ¬ r.Covers addr

variable {mem : GuestMemory} {it : SliceIterator}

theorem GuestMemory.SliceIterator.backs_sliceIn (hcount : it.count ≠ 0) (hr : r ∈ mem.regions)
    (hc : r.Covers it.addr) : mem.Backs (it.sliceIn r) := by
  obtain ⟨hle, _⟩ := it.lenIn_le r
  have hpos := lenIn_pos hcount hc
  obtain ⟨hstart, hend⟩ := hc
  refine ⟨r, hr, hpos, hstart, ?_, rfl, rfl⟩
  show it.addr + it.lenIn r ≤ _
  omega

theorem GuestMemory.Backs.covers {s : GuestSlice} (h : mem.Backs s) {a : Nat} (hle : s.guestAddr ≤ a)
    (hlt : a < s.guestAddr + s.len) : ∃ r ∈ mem.regions, r.Covers a := by
  obtain ⟨r, hr, _, hstart, hend, _, _⟩ := h
  exact ⟨r, hr, by omega, by omega⟩

variable {slices : List GuestSlice}

theorem Consecutive.mapped {addr : Nat} (h : Consecutive addr slices) (hb : ∀ s ∈ slices, mem.Backs s) :
    mem.Mapped addr (totalLen slices) := by
  induction slices generalizing addr with
  | nil =>
    intro a hle hlt
    exact absurd hlt (Nat.not_lt.2 hle)
  | cons s ss ih =>
    obtain ⟨rfl, hrest⟩ := h
    intro a hle hlt
    rw [totalLen_cons] at hlt
    rcases Nat.lt_or_ge a (s.guestAddr + s.len) with hlt' | hge
    · exact (hb s mem_cons_self).covers hle hlt'
    · exact ih hrest (fun s hs => hb s (mem_cons_of_mem _ hs)) a hge (by omega)

/-- What an iterator yields: slices, and then an error at the first address that is not mapped. -/
structure Yielded (mem : GuestMemory) (it : SliceIterator) (slices : List GuestSlice) : Prop where
  backs : ∀ s ∈ slices, mem.Backs s
  consecutive : Consecutive it.addr slices
  ends : (it.items mem = slices.map .ok ∧ totalLen slices = it.count) ∨
    (it.items mem = slices.map .ok ++ [.err (.invalidGuestAddress (it.addr + totalLen slices))] ∧
      totalLen slices < it.count ∧ mem.Unmapped (it.addr + totalLen slices))

theorem Yielded.cons (hcount : it.count ≠ 0) (hr : r ∈ mem.regions) (hc : r.Covers it.addr)
    (h : Yielded mem ⟨it.addr + it.lenIn r, it.count - it.lenIn r⟩ slices) :
    Yielded mem it (it.sliceIn r :: slices) := by
  have hitems := SliceIterator.items_of_some (SliceIterator.next_of_covers hcount hr hc)
  obtain ⟨_, hle⟩ := it.lenIn_le r
  have htotal : totalLen (it.sliceIn r :: slices) = it.lenIn r + totalLen slices := rfl
  refine ⟨?_, ⟨rfl, h.consecutive⟩, ?_⟩
  · intro s hs
    rcases mem_cons.1 hs with rfl | hs
    · exact it.backs_sliceIn hcount hr hc
    · exact h.backs s hs
  · rw [hitems, htotal, ← Nat.add_assoc]
    rcases h.ends with ⟨hok, hlen⟩ | ⟨herr, hlen, hun⟩
    · refine .inl ⟨by rw [hok]; rfl, ?_⟩
      have hlen : totalLen slices = it.count - it.lenIn r := hlen
      omega
    · refine .inr ⟨by rw [herr]; rfl, ?_, hun⟩
      have hlen : totalLen slices < it.count - it.lenIn r := hlen
      omega

theorem items_spec (mem : GuestMemory) (it : SliceIterator) : ∃ slices, Yielded mem it slices := by
  -- by induction on the bytes that remain
  induction hn : it.count using Nat.strongRecOn generalizing it with
  | _ n ih =>
    subst hn
    by_cases hcount : it.count = 0
    · refine ⟨[], nofun, trivial, .inl ⟨?_, hcount.symm⟩⟩
      exact SliceIterator.items_of_none (SliceIterator.next_end hcount)
    · by_cases hmapped : ∃ r ∈ mem.regions, r.Covers it.addr
      · obtain ⟨r, hr, hc⟩ := hmapped
        have hpos := SliceIterator.lenIn_pos hcount hc
        obtain ⟨slices, h⟩ := ih _ (by show it.count - it.lenIn r < it.count; omega)
          ⟨it.addr + it.lenIn r, it.count - it.lenIn r⟩ rfl
        exact ⟨_, h.cons hcount hr hc⟩
      · have hun : mem.Unmapped it.addr := fun r hr hc => hmapped ⟨r, hr, hc⟩
        have hitems := SliceIterator.items_of_some (SliceIterator.next_unmapped hcount hun)
        have hend : SliceIterator.items mem ⟨it.addr, 0⟩ = [] :=
          SliceIterator.items_of_none (SliceIterator.next_end rfl)
        refine ⟨[], nofun, trivial, .inr ⟨?_, Nat.pos_of_ne_zero hcount, hun⟩⟩
        rw [hitems, hend]
        rfl

namespace GuestMemory

/-! ## Checking a range -/

def checkRange (mem : GuestMemory) (base len : Nat) : Bool :=
  if len = 0 then true
  else if (mem.getSlice base len).isOk then true
  else ((getSlices base len).items mem).all Outcome.isOk

variable {mem : GuestMemory} {addr count : Nat} {s : GuestSlice}

theorem getSlice_eq_ok (h : mem.getSlice addr count = .ok s) :
    ∃ r ∈ mem.regions, r.Covers addr ∧ addr + count ≤ r.startAddr + r.len ∧
      s = ⟨⟨addr, r.hostAddr + (addr - r.startAddr), count⟩, ⟨.region r, addr - r.startAddr⟩⟩ := by
  obtain ⟨⟨r, offset⟩, hr, h⟩ := bind_eq_ok.1 h
  obtain ⟨hmem, hc, rfl⟩ := toRegionAddr_eq_ok.1 hr
  obtain ⟨slice, hslice, h⟩ := bind_eq_ok.1 h
  cases h
  obtain ⟨memEnd, hadd, hslice⟩ := bind_eq_ok.1 hslice
  obtain ⟨_, rfl⟩ := checkedAdd_eq_some.1 (okOr_eq_ok.1 hadd)
  split at hslice
  · cases hslice
  · cases hslice
    have hstart := hc.1
    refine ⟨r, hmem, hc, by omega, ?_⟩
    rw [Nat.add_sub_cancel' hstart]

theorem Mapped.of_getSlice (h : mem.getSlice addr count = .ok s) : mem.Mapped addr count := by
  obtain ⟨r, hr, hc, hend, _⟩ := getSlice_eq_ok h
  intro a hle hlt
  exact ⟨r, hr, hc.1.trans hle, by omega⟩

theorem unmapped_top (mem : GuestMemory) : mem.Unmapped U64_MAX := by
  rintro r _ ⟨_, hlt⟩
  have := r.end_le
  omega

theorem not_mapped_top (haddr : addr ≤ U64_MAX) (h : U64_MAX < addr + count) : ¬ mem.Mapped addr count := by
  intro hm
  obtain ⟨r, hr, hc⟩ := hm U64_MAX haddr h
  exact mem.unmapped_top r hr hc

theorem Backs.end_le (h : mem.Backs s) : s.guestAddr + s.len ≤ U64_MAX := by
  obtain ⟨r, _, _, _, hend, _, _⟩ := h
  exact hend.trans r.end_le

end GuestMemory

theorem Consecutive.le {addr : Nat} (h : Consecutive addr slices) : ∀ s ∈ slices, addr ≤ s.guestAddr := by
  induction slices generalizing addr with
  | nil => nofun
  | cons s ss ih =>
    obtain ⟨rfl, hrest⟩ := h
    intro s' hs'
    rcases mem_cons.1 hs' with rfl | hs'
    · exact Nat.le_refl _
    · exact Nat.le_trans (Nat.le_add_right _ _) (ih hrest s' hs')

theorem Yielded.mapped_iff_le (h : Yielded mem it slices) {n : Nat} (hn : n ≤ it.count) :
    mem.Mapped it.addr n ↔ n ≤ totalLen slices := by
  constructor
  · intro hmapped
    by_contra hlt
    rcases h.ends with ⟨_, hlen⟩ | ⟨_, _, hun⟩
    · omega
    · obtain ⟨r, hr, hc⟩ := hmapped (it.addr + totalLen slices) (Nat.le_add_right _ _) (by omega)
      exact hun r hr hc
  · intro hle a ha hlt
    exact h.consecutive.mapped h.backs a ha (by omega)

theorem Yielded.of_mapped (h : Yielded mem it slices) (hm : mem.Mapped it.addr it.count) :
    it.items mem = slices.map .ok ∧ totalLen slices = it.count :=
  h.ends.resolve_right fun hends => Nat.not_le.2 hends.2.1 ((h.mapped_iff_le (Nat.le_refl _)).1 hm)

theorem Yielded.mapped_iff (h : Yielded mem it slices) :
    mem.Mapped it.addr it.count ↔ ∀ item ∈ it.items mem, item.isOk = true := by
  rw [h.mapped_iff_le (Nat.le_refl _)]
  rcases h.ends with ⟨hitems, hlen⟩ | ⟨hitems, hlt, _⟩ <;> rw [hitems]
  · refine iff_of_true hlen.ge fun item hitem => ?_
    obtain ⟨s, _, rfl⟩ := mem_map.1 hitem
    rfl
  · refine iff_of_false (Nat.not_le.2 hlt) fun hok => ?_
    cases hok _ (mem_append_right _ mem_cons_self)

theorem checkRange_iff (mem : GuestMemory) (base len : Nat) : mem.checkRange base len = true ↔ mem.Mapped base len := by
  obtain ⟨slices, h⟩ := items_spec mem (getSlices base len)
  have hall : ((getSlices base len).items mem).all isOk = true ↔ mem.Mapped base len := by
    rw [all_eq_true, ← h.mapped_iff]
    rfl
  unfold checkRange
  split
  · rename_i hlen
    subst hlen
    exact iff_of_true rfl fun a hle hlt => absurd hlt (Nat.not_lt.2 hle)
  · split
    · rename_i hok
      obtain ⟨s, hs⟩ := isOk_iff.1 hok
      exact iff_of_true rfl (Mapped.of_getSlice hs)
    · exact hall

/-- **The slices of a range cover exactly what is mapped.**  The calls of the iterator return its
items and then `None` forever.  The items are slices, not empty and one after the other from `addr`
on, each of them memory of a region below the top of the address space.  If the whole range is
mapped there is nothing else and the lengths sum up to `count`; otherwise, and always if the range
goes beyond the top, the slices reach to the first address `h` that is not mapped and one error
follows.  `check_range` accepts a range if it is empty or no error is produced. -/
theorem get_slices_cover (mem : GuestMemory) (addr count : Nat) :
    let it := getSlices addr count
    (∀ n, it.call mem n = (it.items mem)[n]?) ∧
    (∃ slices, (∀ s ∈ slices, mem.Backs s) ∧ Consecutive addr slices ∧
      (∀ s ∈ slices, 0 < s.len ∧ addr ≤ s.guestAddr ∧ s.guestAddr + s.len ≤ U64_MAX) ∧
      (mem.Mapped addr count → it.items mem = slices.map .ok ∧ totalLen slices = count) ∧
      (¬ mem.Mapped addr count → ∃ h e, it.items mem = slices.map .ok ++ [.err e] ∧
        addr + totalLen slices = h ∧ h < addr + count ∧ mem.Unmapped h ∧ ∀ a, addr ≤ a → a < h → ¬ mem.Unmapped a)) ∧
    (addr ≤ U64_MAX → U64_MAX < addr + count → ¬ mem.Mapped addr count) ∧
    (mem.checkRange addr count = true ↔ count = 0 ∨ ∀ item ∈ it.items mem, ∃ s, item = .ok s) := by
  intro it
  obtain ⟨slices, h⟩ := items_spec mem it
  have hiff := h.mapped_iff
  refine ⟨(SliceIterator.iter mem).call_eq_items it, ⟨slices, h.backs, h.consecutive, ?_, ?_, ?_⟩, ?_, ?_⟩
  · intro s hs
    have hb := h.backs s hs
    obtain ⟨_, _, hpos, _⟩ := id hb
    exact ⟨hpos, h.consecutive.le s hs, hb.end_le⟩
  · exact h.of_mapped
  · intro hm
    rcases h.ends with ⟨hitems, hlen⟩ | ⟨hitems, hlt, hun⟩
    · exact absurd ((h.mapped_iff_le (Nat.le_refl _)).2 hlen.ge) hm
    · refine ⟨_, _, hitems, rfl, Nat.add_lt_add_left hlt addr, hun, fun a hle ha hun' => ?_⟩
      obtain ⟨r, hr, hc⟩ := h.consecutive.mapped h.backs a hle ha
      exact hun' r hr hc
  · exact not_mapped_top
  · rw [checkRange_iff]
    constructor
    · intro hm
      exact .inr fun item hitem => isOk_iff.1 (hiff.1 hm item hitem)
    · rintro (hzero | hok)
      · subst hzero
        exact fun a hle hlt => absurd hlt (Nat.not_lt.2 hle)
      · exact hiff.2 fun item hitem => isOk_iff.2 (hok item hitem)

end RustVmm.VmMemory
