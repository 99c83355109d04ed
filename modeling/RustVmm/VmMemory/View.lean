import RustVmm.VmMemory.Flat
import RustVmm.VmMemory.Iommu

/-!
# Memory as a device sees it

The methods of the devices take any `GuestMemory`.  Of the two that the crate has, one is behind an IOMMU, which may
be in use or not; without it in use, it is the other one (`IommuMemory.asT_of_not_useIommu`).

* `IommuMemory.view` is the byte at each address that a device uses, and `IommuMemory.Granted` says for which ranges
  the IOMMU lets the access pass.
* `IommuMemory.slices_of_overflows`, `slices_of_granted` and `slices_of_not_granted` are all that asking for slices can
  give: the slices are the first bytes of the range in the view, up to the first one that is not there.
* `IommuMemory.writeSlice_cases` says when a write stores all of its data, when it fails, and when it panics.
-/

set_option autoImplicit false

namespace RustVmm.VmMemory

open Lib GuestMemory Outcome List IotlbIterator IommuSliceIterator IommuMemory SliceIterator GuestMemoryT

variable {R : Type → Type} [RangeMapLike R]

/-! ## The trait -/

variable {item : Outcome Error GuestSlice}

namespace IommuSliceIterator

omit [RangeMapLike R] in
theorem pull_current (mem : GuestMemory) (iova : Nat) (bitmap : Bool) (translation : Option (IotlbIterator R))
    (current : SliceIterator) :
    pull mem ⟨iova, bitmap, translation, some current⟩ =
      ((current.next mem).1, ⟨iova, bitmap, translation, some (current.next mem).2⟩) := rfl

theorem doNext_of_pull {mem : GuestMemory} {it it' : IommuSliceIterator R}
    (h : it.pull mem = (some item, it')) : it.doNext mem = (some (it'.emit item).1, (it'.emit item).2) := by
  rw [doNext, h]

theorem items_current (mem : GuestMemory) (current : SliceIterator) :
    (iter mem).items (⟨current.addr, false, none, some current⟩ : IommuSliceIterator R) = current.items mem := by
  induction hcount : current.count using Nat.strong_induction_on generalizing current with
  | _ count ih =>
    have hpull := pull_current (R := R) mem current.addr false none current
    by_cases hzero : current.count = 0
    · have hnext : current.next mem = _ := next_end hzero
      rw [items_of_none hnext]
      apply (iter mem).items_of_none
      show next mem _ = _
      rw [hnext] at hpull
      unfold next
      rw [doNext, hpull]
    by_cases hmapped : ∃ r ∈ mem.regions, r.Covers current.addr
    · obtain ⟨r, hr, hc⟩ := hmapped
      have hnext := next_of_covers hzero hr hc
      have hpos := lenIn_pos hzero hc
      have hadv : advance current.addr (current.sliceIn r).len = .ok (current.addr + current.lenIn r) :=
        advance_of_le (backs_sliceIn hzero hr hc).end_le
      have hdo : doNext mem (⟨current.addr, false, none, some current⟩ : IommuSliceIterator R) = (some (.ok (current.sliceIn r)),
          ⟨current.addr + current.lenIn r, false, none,
            some ⟨current.addr + current.lenIn r, current.count - current.lenIn r⟩⟩) := by
        rw [hnext] at hpull
        rw [doNext_of_pull hpull]
        simp only [emit, hadv, Bool.false_eq_true, if_false]
      have hrest := ih (current.count - current.lenIn r) (by omega)
        ⟨current.addr + current.lenIn r, current.count - current.lenIn r⟩ rfl
      rw [items_of_doNext_ok hdo, items_of_some hnext]
      exact congrArg _ hrest
    · have hnext := next_unmapped hzero fun r hr hc => hmapped ⟨r, hr, hc⟩
      rw [hnext] at hpull
      rw [items_of_doNext_error (doNext_of_pull hpull) rfl, items_of_some hnext, items_of_none (next_end rfl)]
      rfl

end IommuSliceIterator

namespace IommuMemory

/-- The trait for memory behind an IOMMU.  A check that panics is one that does not succeed. -/
def asT (m : IommuMemory R) : GuestMemoryT where
  checkRange addr count access := m.checkRange addr count access = .ok true
  getSlices addr count access := do
    let it ← m.getSlices addr count access
    return (IommuSliceIterator.iter m.backend).items it
  physicalMemory := if m.useIommu then none else some m.backend

theorem asT_of_not_useIommu {m : IommuMemory R} (h : m.useIommu = false) : m.asT = m.backend.asT := by
  have hcheck : ∀ addr count access, m.checkRange addr count access = .ok (m.backend.checkRange addr count) := by
    simp [checkRange, h]
  have hslices : ∀ addr count access, m.getSlices addr count access = .ok (.phys addr count) := by
    simp [getSlices, h]
  have hitems : ∀ addr count, (IommuSliceIterator.iter m.backend).items (phys addr count : IommuSliceIterator R) =
      (GuestMemory.getSlices addr count).items m.backend :=
    fun addr count => items_current m.backend (GuestMemory.getSlices addr count)
  unfold asT GuestMemory.asT
  simp only [hcheck, hslices, h, ok.injEq, Bool.decide_eq_true, ok_bind, hitems, pure_eq, Bool.false_eq_true, if_false]

end IommuMemory

theorem GuestMemoryT.firstSlice_eq (M : GuestMemoryT) (addr count : Nat) (access : Permissions) :
    M.firstSlice addr count access = M.slices addr count access >>= fun ss => .unwrap ss.head? := by
  unfold firstSlice slices
  cases M.getSlices addr count access with
  | ok items =>
    cases items with
    | nil => rfl
    | cons item rest => cases item <;> rfl
  | err e => rfl
  | panic => rfl

/-! ## Slices up to the first error -/

variable {mem : GuestMemory} {ranges : List MappedRange}

theorem ne_panic_of_mem_items {it : SliceIterator} (h : item ∈ it.items mem) : item ≠ .panic := by
  obtain ⟨ss, hss⟩ := items_spec mem it
  rcases hss.ends with ⟨hitems, _⟩ | ⟨hitems, _⟩
  · rw [hitems] at h
    obtain ⟨s, _, rfl⟩ := mem_map.1 h
    exact nofun
  · rw [hitems] at h
    rcases mem_append.1 h with h | h
    · obtain ⟨s, _, rfl⟩ := mem_map.1 h
      exact nofun
    · rw [mem_singleton.1 h]
      exact nofun

theorem items_eq_nil_iff {addr count : Nat} : (getSlices addr count).items mem = [] ↔ count = 0 := by
  constructor
  · intro hnil
    obtain ⟨ss, hss⟩ := items_spec mem (getSlices addr count)
    rcases hss.ends with ⟨hitems, hlen⟩ | ⟨hitems, _⟩
    · rw [hnil] at hitems
      rw [map_eq_nil_iff.1 hitems.symm] at hlen
      exact hlen.symm
    · rw [hnil] at hitems
      simp at hitems
  · intro hzero
    exact items_of_none (next_end hzero)

theorem physical_ne_panic (h : item ∈ physical mem ranges) : item ≠ .panic := by
  obtain ⟨r, _, hitem⟩ := mem_flatMap.1 h
  exact ne_panic_of_mem_items hitem

theorem physical_eq_nil_iff : physical mem ranges = [] ↔ (ranges.map fun r => r.length).sum = 0 := by
  induction ranges with
  | nil => exact iff_of_true rfl rfl
  | cons r ranges ih =>
    rw [physical_cons, append_eq_nil_iff, items_eq_nil_iff, ih, map_cons, sum_cons, Nat.add_eq_zero_iff]

/-- The slices before the first item that is none. -/
def untilError : List (Outcome Error GuestSlice) → List GuestSlice
  | .ok s :: rest => s :: untilError rest
  | _ => []

theorem untilError_append (ss : List GuestSlice) (rest : List (Outcome Error GuestSlice)) :
    untilError (ss.map .ok ++ rest) = ss ++ untilError rest := by
  induction ss with
  | nil => rfl
  | cons s ss ih => exact congrArg (s :: ·) ih

theorem untilError_err (e : Error) (rest : List (Outcome Error GuestSlice)) : untilError (.err e :: rest) = [] := rfl

theorem untilError_physical (mem : GuestMemory) (hbase : ∀ r ∈ ranges, r.base ≤ U64_MAX) :
    (∀ s ∈ untilError (physical mem ranges), mem.Backs s) ∧ ∃ rest, ranges.flatMap MappedRange.addresses =
        (untilError (physical mem ranges)).flatMap GuestSlice.addresses ++ rest ∧
      ∀ a ∈ rest.head?, mem.flat a = none := by
  induction ranges with
  | nil => exact ⟨nofun, [], rfl, nofun⟩
  | cons r ranges ih =>
    obtain ⟨hr, hranges⟩ := forall_mem_cons.1 hbase
    obtain ⟨ss, hss⟩ := items_spec mem (getSlices r.base r.length)
    rw [physical_cons]
    rcases hss.ends with ⟨hitems, hlen⟩ | ⟨hitems, hlt, hun⟩
    · -- the whole range
      obtain ⟨hbacks, rest, hrest, hnone⟩ := ih hranges
      rw [hitems, untilError_append]
      refine ⟨fun s hs => ?_, rest, ?_, hnone⟩
      · rcases mem_append.1 hs with hs | hs
        · exact hss.backs s hs
        · exact hbacks s hs
      · rw [flatMap_cons, flatMap_append, hss.addresses_of_totalLen hlen, hrest, append_assoc]
    · rw [hitems, append_assoc, untilError_append, singleton_append, untilError_err, append_nil]
      refine ⟨hss.backs, _, (congrArg (· ++ _) hss.addresses_eq).trans (append_assoc _ _ _), ?_⟩
      · intro a ha
        have hend := hss.end_le hr
        have hlt : totalLen ss < r.length := hlt
        have hpos : 0 < r.length - totalLen ss := by omega
        rw [head?_append, head?_map, head?_range, if_neg (Nat.ne_of_gt hpos), Option.map_some, Option.some_or,
          Nat.add_zero, Nat.mod_eq_of_lt (by omega)] at ha
        cases ha
        exact if_neg fun ⟨r', hr', hc⟩ => hun r' hr' hc

variable {items : List (Outcome Error GuestSlice)}

theorem filterMap_relabel {iova : Nat} (h : iova + totalLen (untilError items) ≤ U64_MAX) :
    (relabel iova items).filterMap toOption = label iova (untilError items) := by
  induction items generalizing iova with
  | nil => rfl
  | cons item rest ih =>
    cases item with
    | ok s =>
      have h : iova + (s.len + totalLen (untilError rest)) ≤ U64_MAX := h
      simp only [relabel, untilError, label]
      rw [advance_of_le (by omega)]
      exact congrArg (_ :: ·) (ih (by omega))
    | err e => rfl
    | panic => rfl

theorem stopOnError_relabel {iova : Nat} (hpanic : ∀ item ∈ items, item ≠ .panic)
    (h : iova + totalLen (untilError items) ≤ U64_MAX) :
    (untilError items = [] → items = []) ∧ stopOnError (relabel iova items) = .ok (label iova (untilError items)) ∨
      untilError items = [] ∧ items ≠ [] ∧ ∃ e, stopOnError (relabel iova items) = .err e := by
  cases items with
  | nil => exact .inl ⟨fun _ => rfl, rfl⟩
  | cons item rest =>
    cases item with
    | ok s =>
      have hlist := filterMap_relabel h
      have hle : iova + (s.len + totalLen (untilError rest)) ≤ U64_MAX := h
      refine .inl ⟨fun hnil => absurd hnil (cons_ne_nil _ _), ?_⟩
      rw [← hlist]
      simp only [relabel]
      rw [advance_of_le (by omega)]
      rfl
    | err e => exact .inr ⟨rfl, cons_ne_nil _ _, e, rfl⟩
    | panic => exact absurd rfl (hpanic .panic mem_cons_self)

/-! ## The view -/

theorem FlatMemory.prefixLen_eq_takeWhile (f : FlatMemory) (addr count : Nat) :
    f.prefixLen addr count = (((range count).map fun i => f (addr + i)).takeWhile Option.isSome).length := by
  induction count generalizing addr with
  | zero => rfl
  | succ count ih =>
    have hshift : (fun i => f (addr + i)) ∘ Nat.succ = fun i => f (addr + 1 + i) := by
      funext i
      rw [Function.comp_apply, Nat.succ_eq_add_one, Nat.add_assoc, Nat.add_comm 1 i]
    rw [range_succ_eq_map, map_cons, takeWhile_cons, map_map, hshift, prefixLen, ih]
    dsimp only [Nat.add_zero]
    split <;> rfl

namespace IommuMemory

/-- The byte at each address that a device uses. -/
def view (m : IommuMemory R) : FlatMemory := fun a =>
  if m.useIommu then ((m.iotlb.translation a).map Prod.fst).bind m.backend.flat else m.backend.flat a

/-- If the IOMMU is in use, the end of the range can be computed, and a lookup of the range succeeds. -/
def Granted (m : IommuMemory R) (addr count : Nat) (access : Permissions) : Prop :=
  m.useIommu = true → addr + count ≤ U64_MAX ∧ m.iotlb.Resolves addr count access

/-- The slices are the first bytes of a range, up to one that is not there. -/
structure Sliced (m : IommuMemory R) (addr count : Nat) (ss : List GuestSlice) : Prop where
  backs : ∀ s ∈ ss, ∃ b, m.backend.Backs ⟨s.toVolatileSlice, b⟩
  baseOffset_le : ∀ s ∈ ss, s.bitmap.baseOffset ≤ U64_MAX
  bytes : ((ss.flatMap GuestSlice.addresses).map fun a => some (m.backend.bytes a)) =
    (List.range (totalLen ss)).map fun i => m.view (addr + i)
  totalLen_eq : totalLen ss = m.view.prefixLen addr count
  targets : m.useIommu = true → (ss.flatMap GuestSlice.addresses).map some =
    (List.range (totalLen ss)).map fun i => (m.iotlb.translation (addr + i)).map Prod.fst

variable {m : IommuMemory R} {addr count : Nat} {access : Permissions} {ss : List GuestSlice}

theorem Sliced.len_pos (h : m.Sliced addr count ss) : ∀ s ∈ ss, 0 < s.len := by
  intro s hs
  obtain ⟨b, hb⟩ := h.backs s hs
  exact hb.len_pos

theorem Sliced.eq_nil_iff (h : m.Sliced addr count ss) : ss = [] ↔ count = 0 ∨ m.view addr = none := by
  rw [← FlatMemory.prefixLen_eq_zero_iff, ← h.totalLen_eq]
  cases ss with
  | nil => exact iff_of_true rfl rfl
  | cons s ss =>
    have := h.len_pos s mem_cons_self
    rw [totalLen_cons]
    exact iff_of_false (cons_ne_nil _ _) (by omega)

theorem view_of_not_useIommu (h : m.useIommu = false) : m.view = m.backend.flat := by
  funext a
  rw [view, h]
  rfl

theorem view_of_useIommu (h : m.useIommu = true) :
    m.view = fun a => ((m.iotlb.translation a).map Prod.fst).bind m.backend.flat := by
  funext a
  rw [view, h]
  rfl

theorem flat_of_mem_addresses {mem : GuestMemory} (hbacks : ∀ s ∈ ss, ∃ b, mem.Backs ⟨s.toVolatileSlice, b⟩) :
    ∀ a ∈ ss.flatMap GuestSlice.addresses, mem.flat a = some (mem.bytes a) := by
  intro a ha
  obtain ⟨s, hs, ha⟩ := mem_flatMap.1 ha
  obtain ⟨i, hi, rfl⟩ := mem_map.1 ha
  obtain ⟨b, hb⟩ := hbacks s hs
  exact flat_of_covers (hb.covers (Nat.le_add_right _ _) (Nat.add_lt_add_left (mem_range.1 hi) _))

theorem sliced_of_targets (huse : m.useIommu = true) {targets rest : List Nat}
    (htargets : targets.map some = (range count).map fun i => (m.iotlb.translation (addr + i)).map Prod.fst)
    (hbacks : ∀ s ∈ ss, ∃ b, m.backend.Backs ⟨s.toVolatileSlice, b⟩) (hbase : ∀ s ∈ ss, s.bitmap.baseOffset ≤ U64_MAX)
    (hsplit : targets = ss.flatMap GuestSlice.addresses ++ rest) (hnone : ∀ a ∈ rest.head?, m.backend.flat a = none) :
    m.Sliced addr count ss := by
  have hflat := flat_of_mem_addresses hbacks
  have hlen : totalLen ss ≤ count := by
    have hcount := congrArg length htargets
    rw [length_map, length_map, length_range, hsplit, length_append, length_addresses] at hcount
    omega
  have hfirst : (ss.flatMap GuestSlice.addresses).map some =
      (range (totalLen ss)).map fun i => (m.iotlb.translation (addr + i)).map Prod.fst := by
    rw [hsplit, map_append] at htargets
    have htake := congrArg (take (totalLen ss)) htargets
    rwa [take_left' (by rw [length_map, length_addresses]), ← map_take, take_range, Nat.min_eq_left hlen] at htake
  have hview : ∀ {n : Nat} {l : List Nat},
      l.map some = (range n).map (fun i => (m.iotlb.translation (addr + i)).map Prod.fst) →
      (range n).map (fun i => m.view (addr + i)) = l.map m.backend.flat := by
    intro n l hl
    have hbind := congrArg (map fun t : Option Nat => t.bind m.backend.flat) hl
    rw [map_map, map_map] at hbind
    rw [view_of_useIommu huse]
    exact hbind.symm
  refine ⟨hbacks, hbase, ?_, ?_, fun _ => hfirst⟩
  · rw [hview hfirst]
    exact map_congr_left fun a ha => (hflat a ha).symm
  · rw [FlatMemory.prefixLen_eq_takeWhile, hview htargets, hsplit, map_append, takeWhile_append_of_pos, ← length_addresses]
    · have hstop : (rest.map m.backend.flat).takeWhile Option.isSome = [] := by
        cases rest with
        | nil => rfl
        | cons a rest => rw [map_cons, hnone a rfl, takeWhile_cons_of_neg (by simp)]
      rw [hstop, append_nil, length_map]
    · intro o ho
      obtain ⟨a, ha, rfl⟩ := mem_map.1 ho
      rw [hflat a ha]
      rfl

/-- The end of the range cannot be computed. -/
def Overflows (m : IommuMemory R) (addr count : Nat) : Prop := m.useIommu = true ∧ U64_MAX < addr + count

/-- The access passes, and the first byte of the range is there if the range has one. -/
def Begins (m : IommuMemory R) (addr count : Nat) (access : Permissions) : Prop :=
  m.Granted addr count access ∧ (count = 0 ∨ m.view addr ≠ none)

theorem not_begins_of_overflows (h : m.Overflows addr count) : ¬ m.Begins addr count access := by
  intro hbegins
  exact absurd (hbegins.1 h.1).1 (Nat.not_le.2 h.2)

theorem sliced_of_yielded (huse : m.useIommu = false) (h : Yielded m.backend (GuestMemory.getSlices addr count) ss) :
    m.Sliced addr count ss := by
  have hconsecutive : Consecutive addr ss := h.consecutive
  have hbacks : ∀ s ∈ ss, ∃ b, m.backend.Backs ⟨s.toVolatileSlice, b⟩ := fun s hs => ⟨s.bitmap, h.backs s hs⟩
  refine ⟨hbacks, fun s hs => (h.backs s hs).baseOffset_le, ?_, ?_, fun h => ?_⟩
  · have hflat := flat_of_mem_addresses hbacks
    rw [hconsecutive.addresses_eq] at hflat ⊢
    rw [map_map, view_of_not_useIommu huse]
    apply map_congr_left
    intro i hi
    exact (hflat _ (mem_map_of_mem hi)).symm
  · rw [view_of_not_useIommu huse]
    exact totalLen_eq_prefixLen h
  · rw [huse] at h
    cases h

theorem sliced_of_translates (huse : m.useIommu = true) (hle : addr + count ≤ U64_MAX)
    (hspec : IotlbIterator.Translates ⟨m.iotlb, addr, addr + count, access⟩ ranges) :
    addr + totalLen (untilError (physical m.backend ranges)) ≤ U64_MAX ∧
      m.Sliced addr count (label addr (untilError (physical m.backend ranges))) := by
  have htargets := hspec.targets
  rw [Nat.add_sub_cancel_left] at htargets
  obtain ⟨hbacks, rest, hrest, hnone⟩ := untilError_physical m.backend hspec.base_le
  generalize untilError (physical m.backend ranges) = ss at hbacks hrest
  have hlen : addr + totalLen ss ≤ U64_MAX := by
    have hcount := congrArg length htargets
    rw [length_map, length_map, length_range, hrest, length_append, length_addresses] at hcount
    omega
  refine ⟨hlen, sliced_of_targets huse htargets (fun s hs => ?_) (fun s hs => ?_) ?_ hnone⟩
  · obtain ⟨b, hb⟩ := exists_mem_of_mem_label hs
    exact ⟨b, hbacks _ hb⟩
  · obtain ⟨before, after, hsplit⟩ := append_of_mem hs
    have htotal := totalLen_label addr ss
    rw [hsplit, totalLen_append] at htotal
    rw [bitmap_of_label hsplit]
    dsimp only
    omega
  · rw [label_addresses, hrest]

theorem slices_of_resolves (huse : m.useIommu = true) (hle : addr + count ≤ U64_MAX)
    (hres : m.iotlb.Resolves addr count access) : ∃ ss, m.Sliced addr count ss ∧
      (m.asT.slices addr count access = .ok ss ∧ (ss = [] → count = 0) ∨
        ss = [] ∧ count ≠ 0 ∧ ∃ e, m.asT.slices addr count access = .err e) := by
  have hlookup := (Iotlb.lookup_of_le hle).1 hres
  obtain ⟨ranges, hitems, hspec⟩ := Iotlb.exists_items_of_lookup hlookup
  obtain ⟨hlen, hsliced⟩ := sliced_of_translates huse hle hspec
  have hget : m.getSlices addr count access = .ok ⟨addr, true, some ⟨m.iotlb, addr, addr + count, access⟩, none⟩ := by
    simp [getSlices, huse, virt, translate, hlookup, mapErr]
  have hslices : m.asT.slices addr count access = stopOnError (relabel addr (physical m.backend ranges)) := by
    have hall : (IommuSliceIterator.iter m.backend).items
        ⟨addr, true, some ⟨m.iotlb, addr, addr + count, access⟩, none⟩ = relabel addr (physical m.backend ranges) :=
      items_eq_relabel ⟨ranges, hitems, rfl⟩ rfl
    simp only [slices, asT, hget, ok_bind, pure_eq]
    rw [hall]
  have hnil : physical m.backend ranges = [] ↔ count = 0 := by
    have htotal := hspec.total
    rw [Nat.add_sub_cancel_left] at htotal
    rw [physical_eq_nil_iff, htotal]
  refine ⟨_, hsliced, ?_⟩
  rw [hslices]
  rcases stopOnError_relabel (fun item => physical_ne_panic) hlen with ⟨hfirst, hok⟩ | ⟨hfirst, hne, herr⟩
  · refine .inl ⟨hok, fun hempty => hnil.1 (hfirst ?_)⟩
    cases huntil : untilError (physical m.backend ranges) with
    | nil => rfl
    | cons s ss =>
      rw [huntil] at hempty
      cases hempty
  · refine .inr ⟨by rw [hfirst]; rfl, mt hnil.2 hne, herr⟩

theorem slices_of_granted (h : m.Granted addr count access) : ∃ ss, m.Sliced addr count ss ∧
      (m.asT.slices addr count access = .ok ss ∧ (ss = [] → count = 0) ∨
        ss = [] ∧ count ≠ 0 ∧ ∃ e, m.asT.slices addr count access = .err e) := by
  cases huse : m.useIommu with
  | false =>
    obtain ⟨ss, hss, heq⟩ := slices_asT m.backend addr count access
    refine ⟨ss, sliced_of_yielded huse hss, ?_⟩
    rw [asT_of_not_useIommu huse, heq]
    split
    · rename_i hnil
      exact .inr ⟨hnil.1, hnil.2, _, rfl⟩
    · rename_i hsome
      exact .inl ⟨rfl, fun hnil => not_not.1 fun hne => hsome ⟨hnil, hne⟩⟩
  | true => exact slices_of_resolves huse (h huse).1 (h huse).2

theorem slices_of_not_granted (hover : ¬ m.Overflows addr count) (h : ¬ m.Granted addr count access) :
    m.asT.slices addr count access = .err (.iommuError addr count) := by
  have huse : m.useIommu = true := by
    by_contra huse
    exact h fun h => absurd h huse
  have hle : addr + count ≤ U64_MAX := Nat.not_lt.1 fun hlt => hover ⟨huse, hlt⟩
  have hres : ¬ m.iotlb.Resolves addr count access := fun hres => h fun _ => ⟨hle, hres⟩
  simp [slices, asT, getSlices, huse, virt, translate, (Iotlb.lookup_of_le hle).2 hres, mapErr, IommuError.toError]

theorem slices_of_overflows (h : m.Overflows addr count) : m.asT.slices addr count access = .panic := by
  have hget : m.getSlices addr count access = .panic := by
    by_contra hne
    exact absurd ((getSlices_ne_panic_iff h.1).1 hne) (Nat.not_le.2 h.2)
  simp only [slices, asT, hget, panic_bind]

theorem slices_cases (m : IommuMemory R) (addr count : Nat) (access : Permissions) :
    (m.Begins addr count access ∧ ∃ ss, m.Sliced addr count ss ∧ m.asT.slices addr count access = .ok ss) ∨
    (¬ m.Begins addr count access ∧ ¬ m.Overflows addr count ∧ ∃ e, m.asT.slices addr count access = .err e) ∨
    m.Overflows addr count ∧ m.asT.slices addr count access = .panic := by
  by_cases hover : m.Overflows addr count
  · exact .inr (.inr ⟨hover, slices_of_overflows hover⟩)
  by_cases hgranted : m.Granted addr count access
  · obtain ⟨ss, hsliced, ⟨hok, hnil⟩ | ⟨hnil, hne, herr⟩⟩ := slices_of_granted hgranted
    · refine .inl ⟨⟨hgranted, ?_⟩, ss, hsliced, hok⟩
      by_contra hno
      rw [not_or, not_not] at hno
      exact hno.1 (hnil (hsliced.eq_nil_iff.2 (.inr hno.2)))
    · have hnone := (hsliced.eq_nil_iff.1 hnil).resolve_left hne
      exact .inr (.inl ⟨fun hbegins => hbegins.2.resolve_left hne hnone, hover, herr⟩)
  · exact .inr (.inl ⟨fun hbegins => hgranted hbegins.1, hover, _, slices_of_not_granted hover hgranted⟩)

/-! ## Writes -/

/-- The access passes, and all bytes of the range are there. -/
def Writable (m : IommuMemory R) (addr count : Nat) : Prop := m.Granted addr count .write ∧ m.view.Mapped addr count

theorem Writable.begins (h : m.Writable addr count) : m.Begins addr count .write := by
  refine ⟨h.1, (Nat.eq_zero_or_pos count).imp_right fun hpos hnone => ?_⟩
  have hfirst := h.2 0 hpos
  rw [Nat.add_zero, hnone] at hfirst
  cases hfirst

variable {σ : Type} {buf : List UInt8}

theorem write_of_sliced (huse : m.useIommu = true) (hsliced : m.Sliced addr buf.length ss)
    (hslices : m.asT.slices addr buf.length .write = .ok ss) (st : σ) :
    ∃ trace, m.asT.write buf addr st = ⟨.ok (totalLen ss), st, trace⟩ := by
  have hfast : m.asT.fastSlice addr buf.length = none := by simp [fastSlice, asT, huse]
  have hle : totalLen ss ≤ buf.length := by
    rw [hsliced.totalLen_eq]
    exact FlatMemory.prefixLen_le _ _
  obtain ⟨trace, hrun⟩ := foldlM_writeNext_pos hsliced.len_pos (Nat.zero_le buf.length) st
  rw [Nat.zero_add, Nat.min_eq_left hle] at hrun
  refine ⟨trace, ?_⟩
  rw [write, hfast]
  rw [hslices]
  exact hrun

theorem writeSlice_eq_ok_iff (m : IommuMemory R) (buf : List UInt8) (addr : Nat) (st : σ) :
    (m.asT.writeSlice buf addr st).outcome = .ok () ↔ m.Writable addr buf.length := by
  cases huse : m.useIommu with
  | false =>
    rw [asT_of_not_useIommu huse, (writeSlice_flat m.backend buf addr st).1, Writable, view_of_not_useIommu huse]
    exact (and_iff_right fun h => absurd (huse.symm.trans h) Bool.false_ne_true).symm
  | true =>
    have hfast : m.asT.fastSlice addr buf.length = none := by simp [fastSlice, asT, huse]
    rcases m.slices_cases addr buf.length .write with
      ⟨hbegins, ss, hsliced, hslices⟩ | ⟨hnot, _, e, hslices⟩ | ⟨hover, hslices⟩
    · obtain ⟨trace, hwrite⟩ := write_of_sliced huse hsliced hslices st
      rw [Writable, and_iff_right hbegins.1, ← FlatMemory.prefixLen_eq_iff, ← hsliced.totalLen_eq, writeSlice,
        Traced.bind_of_ok hwrite]
      split
      · rename_i hne
        exact iff_of_false err_ne_ok hne
      · rename_i heq
        exact iff_of_true rfl (not_not.1 heq)
    · rw [writeSlice, write, hfast]
      rw [hslices]
      exact iff_of_false err_ne_ok fun h => hnot h.begins
    · rw [writeSlice, write, hfast]
      rw [hslices]
      exact iff_of_false panic_ne_ok fun h => not_begins_of_overflows hover h.begins

theorem writeSlice_cases (m : IommuMemory R) (buf : List UInt8) (addr : Nat) (st : σ) :
    (m.Writable addr buf.length ∧ ∃ trace, m.asT.writeSlice buf addr st = ⟨.ok (), st, trace⟩ ∧
      storedData trace = buf) ∨
    (¬ m.Writable addr buf.length ∧ ¬ m.Overflows addr buf.length ∧ ∃ e n trace,
      m.asT.writeSlice buf addr st = ⟨.err e, st, trace⟩ ∧ storedData trace = buf.take n ∧
      (n < buf.length ∨ buf = [])) ∨
    m.Overflows addr buf.length ∧ m.asT.writeSlice buf addr st = ⟨.panic, st, []⟩ := by
  have hok := m.writeSlice_eq_ok_iff buf addr st
  by_cases hover : m.Overflows addr buf.length
  · have hfast : m.asT.fastSlice addr buf.length = none := by simp [fastSlice, asT, hover.1]
    refine .inr (.inr ⟨hover, ?_⟩)
    rw [writeSlice, write, hfast]
    rw [slices_of_overflows hover]
    rfl
  · have hne : m.asT.slices addr buf.length .write ≠ .panic := by
      rcases m.slices_cases addr buf.length .write with ⟨_, _, _, h⟩ | ⟨_, _, _, h⟩ | ⟨h, _⟩
      · rw [h]
        exact ok_ne_panic
      · rw [h]
        exact err_ne_panic
      · exact absurd h hover
    rcases GuestMemoryT.writeSlice_cases _ hne st with ⟨trace, hwrite, hdata⟩ | ⟨e, n, trace, hwrite, hdata, hn⟩
    · rw [hwrite] at hok
      exact .inl ⟨hok.1 rfl, trace, hwrite, hdata⟩
    · rw [hwrite] at hok
      exact .inr (.inl ⟨fun h => err_ne_ok (hok.2 h), hover, e, n, trace, hwrite, hdata, hn⟩)

end IommuMemory

end RustVmm.VmMemory
