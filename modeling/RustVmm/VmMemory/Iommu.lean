import RustVmm.VmMemory.IommuSlices

/-!
# Memory behind an IOMMU

* `IommuMemory.ranges_of_accessible`, `refused_of_not_accessible` — what the check and the slices of a range are, by
  whether the IOMMU lets the access pass.
* `iommu_memory_access` — a range passes the check exactly if it can be sliced, and the slices are the bytes that its
  addresses are translated to.
* `iova_range_end_iff` — exactly the ranges that end below `2^64` do not make the calls panic.
-/

set_option autoImplicit false

namespace RustVmm.VmMemory

open Lib GuestMemory Outcome List IotlbIterator IommuSliceIterator IommuMemory SliceIterator GuestMemoryT GuestSlice

variable {R : Type → Type} [RangeMapLike R]

/-! ## Physical slices -/

variable {mem : GuestMemory} {ss : List GuestSlice}

theorem Yielded.filterMap_items {it : SliceIterator} (h : Yielded mem it ss) :
    (it.items mem).filterMap toOption = ss := by
  rcases h.ends with ⟨hitems, _⟩ | ⟨hitems, _⟩
  · rw [hitems, filterMap_toOption_map_ok]
  · rw [hitems, filterMap_append, filterMap_toOption_map_ok]
    exact append_nil ss

theorem length_addresses (ss : List GuestSlice) : (ss.flatMap addresses).length = totalLen ss := by
  induction ss with
  | nil => rfl
  | cons s ss ih => rw [flatMap_cons, length_append, ih, totalLen_cons, addresses, length_map, length_range]

variable {r : MappedRange}

theorem Yielded.end_le (h : Yielded mem (getSlices r.base r.length) ss) (hbase : r.base ≤ U64_MAX) :
    r.base + totalLen ss ≤ U64_MAX := by
  have hconsecutive : Consecutive r.base ss := h.consecutive
  by_cases hzero : totalLen ss = 0
  · omega
  · -- the last address is mapped
    obtain ⟨r', _, hc⟩ := hconsecutive.mapped h.backs (r.base + totalLen ss - 1) (by omega) (by omega)
    have := r'.end_le
    unfold Region.Covers at hc
    omega

theorem Yielded.addresses_eq (h : Yielded mem (getSlices r.base r.length) ss) : r.addresses =
      ss.flatMap addresses ++
        (range (r.length - totalLen ss)).map fun i => (r.base + (totalLen ss + i)) % (U64_MAX + 1) := by
  have hconsecutive : Consecutive r.base ss := h.consecutive
  have hle : totalLen ss ≤ r.length := h.totalLen_le
  have hrange : range r.length =
      range (totalLen ss) ++ (range (r.length - totalLen ss)).map (totalLen ss + ·) := by
    rw [← range_add, Nat.add_sub_cancel' hle]
  rw [MappedRange.addresses, hrange, map_append, map_map, hconsecutive.addresses_eq]
  congr 1
  apply map_congr_left
  intro i hi
  -- mapped addresses are below the top
  obtain ⟨r', _, hc⟩ := hconsecutive.mapped h.backs (r.base + i) (Nat.le_add_right _ _)
    (Nat.add_lt_add_left (mem_range.1 hi) _)
  have := r'.end_le
  unfold Region.Covers at hc
  exact Nat.mod_eq_of_lt (by omega)

theorem Yielded.addresses_of_totalLen (h : Yielded mem (getSlices r.base r.length) ss)
    (hlen : totalLen ss = r.length) : ss.flatMap addresses = r.addresses := by
  rw [h.addresses_eq, hlen, Nat.sub_self]
  exact (append_nil _).symm

theorem physical_cons (mem : GuestMemory) (r : MappedRange) (ranges : List MappedRange) :
    physical mem (r :: ranges) = (getSlices r.base r.length).items mem ++ physical mem ranges := rfl

theorem totalLen_physical_le (mem : GuestMemory) (ranges : List MappedRange) :
    totalLen ((physical mem ranges).filterMap toOption) ≤ (ranges.map fun r => r.length).sum := by
  induction ranges with
  | nil => exact Nat.le_refl _
  | cons r ranges ih =>
    obtain ⟨ss, hss⟩ := items_spec mem (getSlices r.base r.length)
    have hle : totalLen ss ≤ r.length := hss.totalLen_le
    rw [physical_cons, filterMap_append, totalLen_append, hss.filterMap_items, map_cons]
    exact Nat.add_le_add hle ih

variable {ranges : List MappedRange}

theorem physical_all_ok : (∀ item ∈ physical mem ranges, item.isOk = true) ↔
      ∀ r ∈ ranges, mem.Mapped r.base r.length := by
  have hrange : ∀ r : MappedRange, mem.Mapped r.base r.length ↔
      ∀ item ∈ (getSlices r.base r.length).items mem, item.isOk = true := by
    intro r
    obtain ⟨ss, hss⟩ := items_spec mem (getSlices r.base r.length)
    exact hss.mapped_iff
  simp only [physical, mem_flatMap, hrange]
  exact ⟨fun h r hr item hitem => h item ⟨r, hr, hitem⟩, fun h item ⟨r, hr, hitem⟩ => h r hr item hitem⟩

theorem physical_of_mapped (h : ∀ r ∈ ranges, mem.Mapped r.base r.length) :
    ∃ ss, physical mem ranges = ss.map .ok ∧ (∀ s ∈ ss, mem.Backs s) ∧
      ss.flatMap addresses = ranges.flatMap MappedRange.addresses ∧
      totalLen ss = (ranges.map fun r => r.length).sum := by
  induction ranges with
  | nil => exact ⟨[], rfl, nofun, rfl, rfl⟩
  | cons r ranges ih =>
    obtain ⟨ss', hphys, hbacks, haddr, htotal⟩ := ih fun r hr => h r (mem_cons_of_mem _ hr)
    have hmapped := h r mem_cons_self
    obtain ⟨ss, hss⟩ := items_spec mem (getSlices r.base r.length)
    have hends : (getSlices r.base r.length).items mem = ss.map .ok ∧ totalLen ss = r.length := hss.of_mapped hmapped
    refine ⟨ss ++ ss', ?_, ?_, ?_, ?_⟩
    · rw [physical_cons, map_append, ← hends.1, ← hphys]
    · intro s hs
      rcases mem_append.1 hs with hs | hs
      · exact hss.backs s hs
      · exact hbacks s hs
    · rw [flatMap_append, flatMap_cons, haddr, hss.addresses_of_totalLen hends.2]
    · rw [totalLen_append, hends.2, htotal, map_cons, sum_cons]

/-! ## Checks -/

theorem IotlbIterator.all_of_items {it : IotlbIterator R} (p : MappedRange → Bool) (h : it.items = .ok ranges) :
    it.all p = .ok (ranges.all p) := by
  fun_induction all p it generalizing ranges with
  | case1 it it' hnext =>
    rcases next_of_items h with ⟨rfl, _⟩ | ⟨_, _, _, _, hnext', _⟩
    · rfl
    · rw [hnext] at hnext'
      cases hnext'
  | case2 it r it' hnext hp ih =>
    rcases next_of_items h with ⟨_, _, hnext'⟩ | ⟨_, _, _, rfl, hnext', hrest⟩ <;>
      rw [hnext] at hnext' <;> cases hnext'
    rw [ih hrest, all_cons, hp, Bool.true_and]
  | case3 it r it' hnext hp =>
    rcases next_of_items h with ⟨_, _, hnext'⟩ | ⟨_, _, _, rfl, hnext', _⟩ <;>
      rw [hnext] at hnext' <;> cases hnext'
    rw [all_cons, Bool.eq_false_iff.2 hp, Bool.false_and]
  | case4 it e hnext =>
    rcases next_of_items h with ⟨_, _, hnext'⟩ | ⟨_, _, _, _, hnext', _⟩ <;>
      rw [hnext] at hnext' <;> cases hnext'
  | case5 it hnext =>
    rcases next_of_items h with ⟨_, _, hnext'⟩ | ⟨_, _, _, _, hnext', _⟩ <;>
      rw [hnext] at hnext' <;> cases hnext'

/-- `bitmap().mark_dirty(offset, len)` of a slice. -/
def GuestSlice.markDirty (bitmaps : BitmapRef → AtomicBitmap) (s : GuestSlice) (offset len : Nat) :
    BitmapRef → AtomicBitmap := fun b =>
  if b = s.bitmap.inner then (bitmaps b).setAddrRange (s.bitmap.wrappingOffset offset) len
  else bitmaps b

variable {s : GuestSlice}

theorem GuestSlice.markDirty_iova {v offset len : Nat} (h : s.bitmap = ⟨.iova, v⟩) (hle : v + offset + len ≤ U64_MAX)
    (bitmaps : BitmapRef → AtomicBitmap) :
    (∀ page, ((s.markDirty bitmaps offset len) .iova).isBitSet page = true ↔
      (bitmaps .iova).isBitSet page = true ∨ page < (bitmaps .iova).size ∧
        ∃ a, v + offset ≤ a ∧ a < v + offset + len ∧ a / (bitmaps .iova).pageSize = page) ∧
    ∀ r, (s.markDirty bitmaps offset len) (.region r) = bitmaps (.region r) := by
  have hoff : s.bitmap.wrappingOffset offset = v + offset := by
    rw [h]
    show (v + offset) % (U64_MAX + 1) = v + offset
    exact Nat.mod_eq_of_lt (by omega)
  have hinner : s.bitmap.inner = .iova := by rw [h]
  refine ⟨fun page => ?_, fun r => ?_⟩
  · rw [markDirty, if_pos hinner.symm, hoff, AtomicBitmap.isBitSet_setAddrRange, AtomicBitmap.touches_iff _ (by omega)]
  · rw [markDirty, hinner, if_neg nofun]

namespace IommuMemory

variable {m : IommuMemory R} {addr count : Nat} {access : Permissions}

theorem translate_of_accessible (hpos : 0 < count) (hle : addr + count ≤ U64_MAX)
    (h : Accessible m.iotlb.translation addr count access) :
    m.translate addr count access = .ok ⟨m.iotlb, addr, addr + count, access⟩ := by
  rw [translate, Iotlb.lookup_of_accessible hpos hle h]
  rfl

theorem translate_of_not_accessible (hle : addr + count ≤ U64_MAX)
    (h : ¬ Accessible m.iotlb.translation addr count access) :
    m.translate addr count access = .err (.cannotResolve ⟨addr, count⟩) := by
  rw [translate, Iotlb.lookup_of_not_accessible hle h]
  rfl

theorem refused_of_not_accessible (huse : m.useIommu = true) (hle : addr + count ≤ U64_MAX)
    (h : ¬ Accessible m.iotlb.translation addr count access) :
    m.checkRange addr count access = .ok false ∧ m.getSlices addr count access = .err (.iommuError addr count) := by
  constructor
  · simp [checkRange, huse, translate_of_not_accessible hle h]
  · simp [getSlices, huse, virt, translate_of_not_accessible hle h, mapErr, IommuError.toError]

theorem ranges_of_accessible (huse : m.useIommu = true) (hpos : 0 < count)
    (hle : addr + count ≤ U64_MAX) (h : Accessible m.iotlb.translation addr count access) :
    ∃ it ranges, m.getSlices addr count access = .ok it ∧
      m.checkRange addr count access = .ok (ranges.all fun r => m.backend.checkRange r.base r.length) ∧
      (IommuSliceIterator.iter m.backend).items it = relabel addr (physical m.backend ranges) ∧
      (ranges.flatMap MappedRange.addresses).map some =
        (range count).map (fun i => (m.iotlb.translation (addr + i)).map Prod.fst) ∧
      (ranges.map fun r => r.length).sum = count := by
  have hlen : addr + count - addr = count := Nat.add_sub_cancel_left _ _
  obtain ⟨ranges, hitems, hspec⟩ := items_of_accessible
    ⟨m.iotlb, addr, addr + count, access⟩ (by rw [hlen]; exact h)
  have htargets := hspec.targets
  have htotal := hspec.total
  rw [hlen] at htargets htotal
  refine ⟨⟨addr, true, some ⟨m.iotlb, addr, addr + count, access⟩, none⟩, ranges, ?_, ?_, ?_, htargets, htotal⟩
  · simp [getSlices, huse, virt, translate_of_accessible hpos hle h, mapErr]
  · simp only [checkRange, huse, translate_of_accessible hpos hle h, Bool.not_true, if_neg,
      all_of_items _ hitems, mapErr, Bool.false_eq_true, not_false_eq_true]
  · exact items_eq_relabel ⟨ranges, hitems, rfl⟩ rfl

end IommuMemory

/-- **Memory behind an IOMMU.**  A range passes the check exactly if it can be sliced without an error.
Then the slices are, in order, the physical bytes that the addresses are translated to, and marking a
part of a slice marks the pages of its I/O virtual addresses, as far as the bitmap goes, and nothing in
the bitmaps of the regions.  After an error the iterator returns `None` forever. -/
theorem iommu_memory_access (m : IommuMemory R) (huse : m.useIommu = true) (addr count : Nat)
    (access : Permissions) (hpos : 0 < count) (hle : addr + count ≤ U64_MAX) :
    let iter := IommuSliceIterator.iter m.backend
    (m.checkRange addr count access = .ok true ↔
      ∃ it, m.getSlices addr count access = .ok it ∧ ∀ item ∈ iter.items it, item.isOk = true) ∧
    (m.checkRange addr count access = .ok true ∨ m.checkRange addr count access = .ok false) ∧
    (m.checkRange addr count access = .ok true →
      ∃ it slices, m.getSlices addr count access = .ok it ∧ iter.items it = slices.map .ok ∧
        (slices.flatMap GuestSlice.addresses).map some =
          (List.range count).map (fun i => (m.iotlb.translation (addr + i)).map Prod.fst) ∧
        (∀ s ∈ slices, ∃ b, m.backend.Backs ⟨s.toVolatileSlice, b⟩) ∧
        ∀ before s after, slices = before ++ s :: after → ∀ o l, o + l ≤ s.len → ∀ bitmaps,
          let v := addr + totalLen before
          (∀ page, ((s.markDirty bitmaps o l) .iova).isBitSet page = true ↔
            (bitmaps .iova).isBitSet page = true ∨ page < (bitmaps .iova).size ∧
              ∃ a, v + o ≤ a ∧ a < v + o + l ∧ a / (bitmaps .iova).pageSize = page) ∧
          ∀ r, (s.markDirty bitmaps o l) (.region r) = bitmaps (.region r)) ∧
    (∀ it n e, m.getSlices addr count access = .ok it → iter.call it n = some (.err e) →
      ∀ k, n < k → iter.call it k = none) := by
  intro iter
  by_cases hacc : Accessible m.iotlb.translation addr count access
  · obtain ⟨it, ranges, hget, hcheck, hitems, htargets, htotal⟩ :=
      ranges_of_accessible huse hpos hle hacc
    have hroom : addr + totalLen ((physical m.backend ranges).filterMap toOption) ≤ U64_MAX := by
      have := totalLen_physical_le m.backend ranges
      omega
    have hmapped : m.checkRange addr count access = .ok true ↔ ∀ r ∈ ranges, m.backend.Mapped r.base r.length := by
      rw [hcheck, ok.injEq, all_eq_true]
      simp only [checkRange_iff]
    have hok : m.checkRange addr count access = .ok true ↔ ∀ item ∈ iter.items it, item.isOk = true := by
      rw [hmapped, hitems, relabel_all_ok hroom, physical_all_ok]
    refine ⟨?_, ?_, ?_, ?_⟩
    · rw [hok, hget]
      simp
    · rw [hcheck, ok.injEq, ok.injEq]
      exact Bool.eq_false_or_eq_true _
    · intro htrue
      obtain ⟨ss, hphys, hbacks, haddr, hlen⟩ := physical_of_mapped (hmapped.1 htrue)
      refine ⟨it, label addr ss, hget, ?_, ?_, ?_, ?_⟩
      · rw [hitems, hphys, relabel_map_ok (by omega)]
      · rw [label_addresses, haddr, htargets]
      · intro s hs
        obtain ⟨b, hb⟩ := exists_mem_of_mem_label hs
        exact ⟨b, hbacks _ hb⟩
      · intro before s after hsplit o l hol bitmaps
        have htotal' := totalLen_label addr ss
        rw [hsplit, totalLen_append, totalLen_cons] at htotal'
        exact markDirty_iova (bitmap_of_label hsplit) (by omega) bitmaps
    · intro it' n e hget' herr k hk
      rw [hget] at hget'
      cases hget'
      rw [iter.call_eq_items, hitems] at herr ⊢
      rw [getElem?_eq_none]
      rw [relabel_error_last herr]
      exact hk
  · obtain ⟨hcheck, hget⟩ := refused_of_not_accessible huse hle hacc
    rw [hcheck, hget]
    simp

/-- One region, and a mapping of some of its bytes for reading. -/
def readOnlyWindow : IommuMemory RangeMap where
  backend :=
    { regions := [⟨0x1000, 0x3000, 0x100000, by decide, by decide⟩]
      sorted := List.pairwise_singleton _ _
      bytes := fun _ => 0 }
  iotlb := ⟨[⟨0x10, 0x20, IommuMapping.new 0x10 0x1800 .read, by decide⟩], List.pairwise_singleton _ _⟩
  useIommu := true

theorem iommu_memory_access_window : readOnlyWindow.useIommu = true ∧
    ∃ it, readOnlyWindow.getSlices 0x14 8 .read = .ok it ∧
      ∀ item ∈ (IommuSliceIterator.iter readOnlyWindow.backend).items it, item.isOk = true :=
  ⟨rfl, (iommu_memory_access readOnlyWindow rfl 0x14 8 .read (by decide) (by decide)).1.1
    (by decide +kernel)⟩

/-! ## Ranges at the top of the address space -/

namespace Iotlb

theorem lookup_ne_panic_iff (t : Iotlb R) (iova length : Nat) (access : Permissions) :
    t.lookup iova length access ≠ .panic ↔ iova + length ≤ U64_MAX := by
  unfold lookup
  by_cases hle : iova + length ≤ U64_MAX
  · refine iff_of_true ?_ hle
    rw [checkedAdd_of_le hle, unwrap_some, ok_bind]
    dsimp only
    split
    · exact nofun
    · exact nofun
  · rw [checkedAdd_of_lt (Nat.not_le.1 hle)]
    exact iff_of_false (fun h => h rfl) hle

variable {t : Iotlb R} {iova length : Nat} {access : Permissions} {it : IotlbIterator R}

theorem resolves_of_lookup (h : t.lookup iova length access = .ok it) :
    t.Resolves iova length access ∧ it = ⟨t, iova, iova + length, access⟩ := by
  have hle : iova + length ≤ U64_MAX := (t.lookup_ne_panic_iff iova length access).1 (by rw [h]; exact nofun)
  by_cases hres : t.Resolves iova length access
  · rw [(lookup_of_le hle).1 hres] at h
    cases h
    exact ⟨hres, rfl⟩
  · rw [(lookup_of_le hle).2 hres] at h
    cases h

theorem exists_items_of_lookup (h : t.lookup iova length access = .ok it) :
    ∃ ranges, it.items = .ok ranges ∧ it.Translates ranges := by
  obtain ⟨hres, rfl⟩ := resolves_of_lookup h
  apply items_of_accessible
  rw [Nat.add_sub_cancel_left]
  exact hres.accessible

omit [RangeMapLike R] in
theorem rangeEnd_ne_panic_iff {α : Type} {f : Nat → Outcome IommuError α}
    (hok : iova < iova + length → f (iova + length) ≠ .panic)
    (hpanic : iova + length ≤ iova → f (iova + length) = .panic) :
    (unwrap (checkedAdd iova length) >>= f) ≠ .panic ↔ 0 < length ∧ iova + length ≤ U64_MAX := by
  by_cases hle : iova + length ≤ U64_MAX
  · rw [checkedAdd_of_le hle, unwrap_some, ok_bind]
    by_cases hpos : 0 < length
    · exact iff_of_true (hok (by omega)) ⟨hpos, hle⟩
    · exact iff_of_false (fun h => h (hpanic (by omega))) (by omega)
  · rw [checkedAdd_of_lt (Nat.not_le.1 hle)]
    exact iff_of_false (fun h => h rfl) fun h => hle h.2

theorem setMapping_ne_panic_iff (t : Iotlb R) (iova mapTo length : Nat) (perm : Permissions) :
    t.setMapping iova mapTo length perm ≠ .panic ↔ 0 < length ∧ iova + length ≤ U64_MAX := by
  refine rangeEnd_ne_panic_iff (fun hlt => ?_) fun hle => ?_
  · obtain ⟨tlb, htlb, _⟩ := RangeMapLike.get_insert IommuError t.tlb (.new iova mapTo perm) hlt
    rw [htlb]
    exact ok_ne_panic
  · rw [RangeMapLike.insert_of_le _ _ hle]
    rfl

theorem invalidateMapping_ne_panic_iff (t : Iotlb R) (iova length : Nat) :
    t.invalidateMapping iova length ≠ .panic ↔ 0 < length ∧ iova + length ≤ U64_MAX := by
  refine rangeEnd_ne_panic_iff (fun hlt => ?_) fun hle => ?_
  · obtain ⟨tlb, htlb, _⟩ := RangeMapLike.get_remove IommuError t.tlb hlt
    rw [htlb]
    exact ok_ne_panic
  · rw [RangeMapLike.remove_of_le _ hle]
    rfl

end Iotlb

namespace IommuMemory

variable {m : IommuMemory R} {addr count : Nat} {access : Permissions}

theorem checkRange_ne_panic_iff (huse : m.useIommu = true) :
    m.checkRange addr count access ≠ .panic ↔ addr + count ≤ U64_MAX := by
  rw [← m.iotlb.lookup_ne_panic_iff addr count access]
  simp only [checkRange, huse, Bool.not_true, Bool.false_eq_true, if_false, translate]
  cases hlookup : m.iotlb.lookup addr count access with
  | ok it =>
    obtain ⟨ranges, hitems, _⟩ := Iotlb.exists_items_of_lookup hlookup
    simp only [mapErr, all_of_items _ hitems]
    exact iff_of_true ok_ne_panic ok_ne_panic
  | err fails => exact iff_of_true ok_ne_panic err_ne_panic
  | panic => exact iff_of_false (fun h => h rfl) fun h => h rfl

theorem getSlices_ne_panic_iff (huse : m.useIommu = true) :
    m.getSlices addr count access ≠ .panic ↔ addr + count ≤ U64_MAX := by
  rw [← m.iotlb.lookup_ne_panic_iff addr count access]
  simp only [getSlices, huse, if_true, virt, translate]
  cases m.iotlb.lookup addr count access with
  | ok it => exact iff_of_true ok_ne_panic ok_ne_panic
  | err fails => exact iff_of_true err_ne_panic err_ne_panic
  | panic => exact iff_of_false (fun h => h rfl) fun h => h rfl

end IommuMemory

/-- **Which ranges the IOMMU can compute with.**  A lookup, and the check and the slices of memory behind the
IOMMU, add up start and length of the range, which overflows unless the range ends below `2^64`; the same
addition is made for a mapping that is set or invalidated, whose range may also not be empty.  A lookup does not
succeed for a range whose end cannot be computed. -/
theorem iova_range_end_iff (backend : GuestMemory) (t : Iotlb R) (iova length : Nat) (access : Permissions) :
    (t.lookup iova length access ≠ .panic ↔ iova + length ≤ U64_MAX) ∧
    ((⟨backend, t, true⟩ : IommuMemory R).checkRange iova length access ≠ .panic ↔ iova + length ≤ U64_MAX) ∧
    ((⟨backend, t, true⟩ : IommuMemory R).getSlices iova length access ≠ .panic ↔ iova + length ≤ U64_MAX) ∧
    (∀ it, t.lookup iova length access = .ok it → iova + length ≤ U64_MAX) ∧
    (∀ mapTo, t.setMapping iova mapTo length access ≠ .panic ↔ 0 < length ∧ iova + length ≤ U64_MAX) ∧
    (t.invalidateMapping iova length ≠ .panic ↔ 0 < length ∧ iova + length ≤ U64_MAX) := by
  refine ⟨t.lookup_ne_panic_iff iova length access, checkRange_ne_panic_iff rfl,
    getSlices_ne_panic_iff rfl, fun it hit => ?_, fun mapTo => t.setMapping_ne_panic_iff ..,
    t.invalidateMapping_ne_panic_iff iova length⟩
  exact (t.lookup_ne_panic_iff iova length access).1 (by rw [hit]; exact nofun)

theorem iova_range_end_overflows : (Iotlb.new : Iotlb RangeMap).lookup 0xfffffffffffffff8 16 .read = .panic ∧
    readOnlyWindow.checkRange 0xfffffffffffffff8 16 .read = .panic ∧
    readOnlyWindow.getSlices 0xfffffffffffffff8 16 .read = .panic ∧
    (Iotlb.new : Iotlb RangeMap).setMapping 0xfffffffffffffff8 0 16 .read = .panic ∧
    (Iotlb.new : Iotlb RangeMap).invalidateMapping 0xfffffffffffffff8 16 = .panic := ⟨rfl, rfl, rfl, rfl, rfl⟩

end RustVmm.VmMemory
