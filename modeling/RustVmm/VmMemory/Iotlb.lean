import Mathlib.Data.List.Range
import RustVmm.Lib.RangeMap
import RustVmm.VmMemory.Bytes

/-!
# The IOTLB

The translation cache of the IOMMU support: mappings of ranges of I/O virtual addresses are set and invalidated,
and a lookup of a range yields the physical ranges one after the other.

* `IotlbIterator.items_of_accessible` says what the iterator of a successful lookup yields, by induction on what
  is left of the range.
* `translation_of_calls` is the refinement over whole runs: after any calls, the last one that covers an address
  counts.
* `iotlb_refines` is the result: lookups succeed, translate and fail as the pointwise map says.

The map of ranges is any `RangeMapLike`.
-/

set_option autoImplicit false

namespace RustVmm.VmMemory

open Lib Outcome RangeMapLike List

/-- Mapping target: what to add to an I/O virtual address, as a `Wrapping<u64>`. -/
structure IommuMapping where
  targetSourceDiff : Nat
  permissions : Permissions
  deriving DecidableEq, Repr

namespace IommuMapping

def new (sourceBase targetBase : Nat) (permissions : Permissions) : IommuMapping where
  targetSourceDiff := (targetBase + (U64_MAX + 1 - sourceBase)) % (U64_MAX + 1)
  permissions := permissions

def map (self : IommuMapping) (iova : Nat) : Nat := (iova + self.targetSourceDiff) % (U64_MAX + 1)

theorem map_new (source target : Nat) (hsource : source ≤ U64_MAX) (i : Nat) (perm : Permissions) :
    (new source target perm).map (source + i) = (target + i) % (U64_MAX + 1) := by
  simp only [map, new, U64_MAX_eq] at *
  omega

theorem map_add (self : IommuMapping) (iova i : Nat) : (self.map iova + i) % (U64_MAX + 1) = self.map (iova + i) := by
  simp only [map, U64_MAX_eq]
  omega

end IommuMapping

structure IovaRange where
  base : Nat
  length : Nat
  deriving DecidableEq, Repr

structure MappedRange where
  base : Nat
  length : Nat
  deriving DecidableEq, Repr

def MappedRange.addresses (r : MappedRange) : List Nat :=
  (List.range r.length).map fun i => (r.base + i) % (U64_MAX + 1)

structure IotlbFails where
  misses : List IovaRange
  accessFails : List IovaRange
  deriving DecidableEq, Repr

/-- `iommu::Error`: an I/O virtual range that cannot be resolved. -/
inductive IommuError where
  | cannotResolve (iovaRange : IovaRange)
  deriving DecidableEq, Repr

variable {R : Type → Type} [RangeMapLike R]

structure Iotlb (R : Type → Type) where
  tlb : R IommuMapping

/-- `IotlbIterator`: the range that is left. -/
structure IotlbIterator (R : Type → Type) where
  iotlb : Iotlb R
  start : Nat
  stop : Nat
  access : Permissions

namespace Iotlb

def new : Iotlb R := ⟨empty⟩

/-- `set_mapping`; the end of the range is computed with `+`. -/
def setMapping (self : Iotlb R) (iova mapTo length : Nat) (perm : Permissions) : Outcome IommuError (Iotlb R) := do
  let mapping := IommuMapping.new iova mapTo perm
  let stop ← .unwrap (checkedAdd iova length)
  let tlb ← RangeMapLike.insert self.tlb iova stop mapping
  return ⟨tlb⟩

def invalidateMapping (self : Iotlb R) (iova length : Nat) : Outcome IommuError (Iotlb R) := do
  let stop ← .unwrap (checkedAdd iova length)
  let tlb ← RangeMapLike.remove self.tlb iova stop
  return ⟨tlb⟩

def invalidateAll (_self : Iotlb R) : Iotlb R := ⟨empty⟩

def lookup (this : Iotlb R) (iova length : Nat) (access : Permissions) : Outcome IotlbFails (IotlbIterator R) := do
  let stop ← .unwrap (checkedAdd iova length)
  let hasMisses := (gaps this.tlb iova stop).any fun _ => true
  let hasAccessFails := (overlapping this.tlb iova stop).any fun r => !r.value.permissions.allow access
  if hasMisses || hasAccessFails then
    let misses := (gaps this.tlb iova stop).map fun range => IovaRange.mk range.1 (range.2 - range.1)
    let accessFails := ((overlapping this.tlb iova stop).filter fun r =>
        !r.value.permissions.allow access).map fun range =>
      let start := max range.start iova
      let stop := min range.stop stop
      IovaRange.mk start (stop - start)
    .err ⟨misses, accessFails⟩
  else return ⟨this, iova, stop, access⟩

end Iotlb

namespace IotlbIterator

/-- `next`, with its `unwrap` and its `assert!`. -/
def next (self : IotlbIterator R) : Outcome IommuError (Option MappedRange × IotlbIterator R) :=
  if self.stop ≤ self.start then return (none, self)
  else do
    let range ← .unwrap (getKeyValue self.iotlb.tlb self.start)
    if range.value.permissions.allow self.access then
      let mappingIovaEnd := min self.stop range.stop
      let mappingLen := mappingIovaEnd - self.start
      return (some ⟨range.value.map self.start, mappingLen⟩, { self with start := mappingIovaEnd })
    else .panic

variable {it it' : IotlbIterator R}

theorem next_lt {r : MappedRange} (h : it.next = .ok (some r, it')) : it'.stop - it'.start < it.stop - it.start := by
  unfold next at h
  split at h
  · cases h
  · obtain ⟨range, hrange, h⟩ := bind_eq_ok.1 h
    have hrange : getKeyValue it.iotlb.tlb it.start = some range := by
      cases hget : getKeyValue it.iotlb.tlb it.start with
      | none =>
        rw [hget] at hrange
        cases hrange
      | some range' =>
        rw [hget] at hrange
        cases hrange
        rfl
    have hhas := (getKeyValue_eq_some.1 hrange).2.2
    split at h <;> cases h
    dsimp only
    omega

def items (it : IotlbIterator R) : Outcome IommuError (List MappedRange) :=
  match _h : it.next with
  | .ok (none, _) => .ok []
  | .ok (some r, it') => (r :: ·) <$> items it'
  | .err e => .err e
  | .panic => .panic
termination_by it.stop - it.start
decreasing_by exact next_lt _h

theorem items_of_none (h : it.next = .ok (none, it')) : it.items = .ok [] := by
  rw [items]
  split <;> rename_i heq <;> rw [h] at heq <;> cases heq

theorem items_of_some {r : MappedRange} (h : it.next = .ok (some r, it')) : it.items = (r :: ·) <$> it'.items := by
  rw [items]
  split <;> rename_i heq <;> rw [h] at heq <;> cases heq
  rfl

theorem next_of_items {ranges : List MappedRange} (h : it.items = .ok ranges) :
    (ranges = [] ∧ ∃ it', it.next = .ok (none, it')) ∨
      ∃ r rest it', ranges = r :: rest ∧ it.next = .ok (some r, it') ∧ it'.items = .ok rest := by
  rw [items] at h
  split at h
  case h_1 it' hnext =>
    cases h
    exact .inl ⟨rfl, it', hnext⟩
  case h_2 r it' hnext =>
    obtain ⟨rest, hrest, rfl⟩ := map_eq_ok.1 h
    exact .inr ⟨r, rest, it', rfl, hnext, hrest⟩
  case h_3 => cases h
  case h_4 => cases h

end IotlbIterator

/-! ## Lookups -/

namespace Iotlb

/-- What an IOTLB means for an address: where it is mapped, and with which permissions. -/
def translation (t : Iotlb R) (a : Nat) : Option (Nat × Permissions) :=
  (RangeMapLike.get t.tlb a).map fun m => (m.map a, m.permissions)

end Iotlb

/-- All addresses of a range are mapped and allow the access. -/
def Accessible (F : Nat → Option (Nat × Permissions)) (iova length : Nat) (access : Permissions) : Prop :=
  ∀ a, iova ≤ a → a < iova + length → ∃ target perm, F a = some (target, perm) ∧ perm.allow access = true

/-- A maximal subrange of a range that is not mapped. -/
structure IsMiss (F : Nat → Option (Nat × Permissions)) (iova length : Nat) (r : IovaRange) : Prop where
  le : iova ≤ r.base
  pos : 0 < r.length
  end_le : r.base + r.length ≤ iova + length
  unmapped : ∀ a, r.base ≤ a → a < r.base + r.length → F a = none
  left : r.base = iova ∨ F (r.base - 1) ≠ none
  right : r.base + r.length = iova + length ∨ F (r.base + r.length) ≠ none

variable {r : Run IommuMapping}

namespace Iotlb

variable {t : Iotlb R} {iova length : Nat} {access : Permissions}
variable {a : Nat}

theorem translation_eq_none : t.translation a = none ↔ get t.tlb a = none := by
  simp [translation]

theorem translation_of_has (hr : r ∈ runs t.tlb) (ha : r.Has a) :
    t.translation a = some (r.value.map a, r.value.permissions) := by
  have hget : get t.tlb a = some r.value := get_eq_some.2 ⟨r, hr, ha, rfl⟩
  rw [translation, hget]
  rfl

theorem exists_has_of_translation {target : Nat} {perm : Permissions} (h : t.translation a = some (target, perm)) :
    ∃ r ∈ runs t.tlb, r.Has a ∧ target = r.value.map a ∧ perm = r.value.permissions := by
  obtain ⟨m, hm, heq⟩ := Option.map_eq_some_iff.1 h
  obtain ⟨r, hr, ha, rfl⟩ := get_eq_some.1 hm
  cases heq
  exact ⟨r, hr, ha, rfl, rfl⟩

structure Resolves (t : Iotlb R) (iova length : Nat) (access : Permissions) : Prop where
  mapped : ∀ a, iova ≤ a → a < iova + length → t.translation a ≠ none
  allow : ∀ r ∈ runs t.tlb, r.start < iova + length → iova < r.stop → r.value.permissions.allow access = true

theorem resolves_iff : t.Resolves iova length access ↔ ((gaps t.tlb iova (iova + length)).any (fun _ => true) ||
        (overlapping t.tlb iova (iova + length)).any fun r => !r.value.permissions.allow access) = false := by
  simp only [Bool.or_eq_false_iff, any_eq_false, mem_overlapping, Bool.not_eq_true', Bool.not_eq_false]
  constructor
  · rintro ⟨hmapped, hallow⟩
    refine ⟨fun g hg => ?_, fun r hr => hallow r hr.1 hr.2.1 hr.2.2⟩
    have hgap := isGap_of_mem hg
    exact absurd (translation_eq_none.2 (hgap.unmapped g.1 (Nat.le_refl _) hgap.lt))
      (hmapped g.1 hgap.le (Nat.lt_of_lt_of_le hgap.lt hgap.le_hi))
  · rintro ⟨hgaps, hfails⟩
    refine ⟨fun a hle hlt hnone => ?_, fun r hr hlt hgt => hfails r ⟨hr, hlt, hgt⟩⟩
    obtain ⟨g, hg, _⟩ := (mem_gaps_cover t.tlb iova (iova + length) a).2 ⟨hle, hlt, translation_eq_none.1 hnone⟩
    exact hgaps g hg trivial

theorem Resolves.accessible (h : t.Resolves iova length access) : Accessible t.translation iova length access := by
  intro a hle hlt
  obtain ⟨⟨target, perm⟩, htr⟩ := Option.ne_none_iff_exists'.1 (h.mapped a hle hlt)
  obtain ⟨r, hr, ha, _, rfl⟩ := exists_has_of_translation htr
  unfold Run.Has at ha
  exact ⟨target, _, htr, h.allow r hr (by omega) (by omega)⟩

theorem resolves_of_accessible (hpos : 0 < length) (h : Accessible t.translation iova length access) :
    t.Resolves iova length access := by
  refine ⟨fun a hle hlt hnone => ?_, fun r hr hlt hgt => ?_⟩
  · obtain ⟨target, perm, htr, _⟩ := h a hle hlt
    rw [hnone] at htr
    cases htr
  · -- some address of the run lies in the range
    have hrlt := r.lt
    obtain ⟨target, perm, htr, hallow⟩ := h (max r.start iova) (by omega) (by omega)
    rw [translation_of_has hr ⟨by omega, by omega⟩] at htr
    cases htr
    exact hallow

/-- The subranges that are mapped but do not allow the access, cut to the range. -/
def accessFails (t : Iotlb R) (iova length : Nat) (access : Permissions) : List IovaRange :=
  ((overlapping t.tlb iova (iova + length)).filter fun r => !r.value.permissions.allow access).map
    fun r => ⟨max r.start iova, min r.stop (iova + length) - max r.start iova⟩

def misses (t : Iotlb R) (iova length : Nat) : List IovaRange :=
  (gaps t.tlb iova (iova + length)).map fun g => ⟨g.1, g.2 - g.1⟩

theorem lookup_of_le (hle : iova + length ≤ U64_MAX) :
    (t.Resolves iova length access → t.lookup iova length access = .ok ⟨t, iova, iova + length, access⟩) ∧
    (¬ t.Resolves iova length access →
      t.lookup iova length access = .err ⟨t.misses iova length, t.accessFails iova length access⟩) := by
  rw [lookup, checkedAdd_of_le hle, unwrap_some, ok_bind, resolves_iff, Bool.not_eq_false]
  dsimp only
  constructor
  · intro htests
    rw [htests]
    rfl
  · intro htests
    rw [htests]
    rfl

theorem lookup_of_accessible (hpos : 0 < length) (hle : iova + length ≤ U64_MAX)
    (h : Accessible t.translation iova length access) :
    t.lookup iova length access = .ok ⟨t, iova, iova + length, access⟩ :=
  (lookup_of_le hle).1 (resolves_of_accessible hpos h)

theorem lookup_of_not_accessible (hle : iova + length ≤ U64_MAX) (h : ¬ Accessible t.translation iova length access) :
    t.lookup iova length access = .err ⟨t.misses iova length, t.accessFails iova length access⟩ :=
  (lookup_of_le hle).2 (mt Resolves.accessible h)

theorem mem_misses {r : IovaRange} : r ∈ t.misses iova length ↔ IsMiss t.translation iova length r := by
  simp only [misses, mem_map, mem_gaps]
  constructor
  · rintro ⟨g, hgap, rfl⟩
    have hlt := hgap.lt
    have hend : g.1 + (g.2 - g.1) = g.2 := by omega
    refine ⟨hgap.le, by dsimp only; omega, by dsimp only; rw [hend]; exact hgap.le_hi, ?_, ?_, ?_⟩
    · intro a hle ha
      dsimp only at ha
      exact translation_eq_none.2 (hgap.unmapped a hle (by omega))
    · exact hgap.left.imp_right fun h => mt translation_eq_none.1 h
    · rw [hend]
      exact hgap.right.imp_right fun h => mt translation_eq_none.1 h
  · intro h
    have hpos := h.pos
    refine ⟨(r.base, r.base + r.length), ⟨h.le, by dsimp only; omega, h.end_le, ?_, ?_, ?_⟩, ?_⟩
    · exact fun a hle ha => translation_eq_none.1 (h.unmapped a hle ha)
    · exact h.left.imp_right fun h => mt translation_eq_none.2 h
    · exact h.right.imp_right fun h => mt translation_eq_none.2 h
    · rw [Nat.add_sub_cancel_left]

theorem pairwise_misses : (t.misses iova length).Pairwise fun r s => r.base + r.length < s.base := by
  refine pairwise_map.2 ((pairwise_gaps t.tlb iova (iova + length)).imp_of_mem ?_)
  intro g g' hg _ hlt
  have := (isGap_of_mem hg).lt
  dsimp only
  omega

theorem exists_mem_accessFails :
    (∃ r ∈ t.accessFails iova length access, r.base ≤ a ∧ a < r.base + r.length) ↔ iova ≤ a ∧ a < iova + length ∧
        ∃ target perm, t.translation a = some (target, perm) ∧ perm.allow access = false := by
  simp only [accessFails, mem_map, mem_filter, mem_overlapping, Bool.not_eq_true']
  constructor
  · rintro ⟨_, ⟨r, ⟨⟨hr, hlt, hgt⟩, hdeny⟩, rfl⟩, hle, ha⟩
    dsimp only at hle ha
    have hhas : r.Has a := ⟨by omega, by omega⟩
    exact ⟨by omega, by omega, _, _, translation_of_has hr hhas, hdeny⟩
  · rintro ⟨hle, hlt, target, perm, htr, hdeny⟩
    obtain ⟨r, hr, hhas, rfl, rfl⟩ := exists_has_of_translation htr
    unfold Run.Has at hhas
    refine ⟨_, ⟨r, ⟨⟨hr, by omega, by omega⟩, hdeny⟩, rfl⟩, ?_, ?_⟩ <;> dsimp only <;> omega

theorem accessFails_clipped {r : IovaRange} (hpos : 0 < length) (h : r ∈ t.accessFails iova length access) :
    iova ≤ r.base ∧ 0 < r.length ∧ r.base + r.length ≤ iova + length := by
  simp only [accessFails, mem_map, mem_filter, mem_overlapping] at h
  obtain ⟨r, ⟨⟨_, hlt, hgt⟩, _⟩, rfl⟩ := h
  have := r.lt
  dsimp only
  omega

end Iotlb

namespace IotlbIterator

theorem next_of_accessible {it : IotlbIterator R} (hlt : it.start < it.stop)
    (h : Accessible it.iotlb.translation it.start (it.stop - it.start) it.access) :
    ∃ r ∈ runs it.iotlb.tlb, r.Has it.start ∧ it.next = .ok (some ⟨r.value.map it.start, min it.stop r.stop - it.start⟩,
        { it with start := min it.stop r.stop }) := by
  obtain ⟨target, perm, htr, hallow⟩ := h it.start (Nat.le_refl _) (by omega)
  obtain ⟨r, hr, hhas, rfl, rfl⟩ := Iotlb.exists_has_of_translation htr
  refine ⟨r, hr, hhas, ?_⟩
  rw [next, if_neg (Nat.not_le.2 hlt), getKeyValue_eq_some.2 ⟨hr, hhas⟩, unwrap_some, ok_bind, if_pos hallow]
  rfl

theorem addresses_eq_translation {t : Iotlb R} (hr : r ∈ runs t.tlb)
    {start count : Nat} (hle : r.start ≤ start) (hend : start + count ≤ r.stop) :
    (MappedRange.addresses ⟨r.value.map start, count⟩).map some =
      (range count).map fun i => (t.translation (start + i)).map Prod.fst := by
  rw [MappedRange.addresses, map_map]
  apply map_congr_left
  intro i hi
  have hi : i < count := mem_range.1 hi
  rw [Iotlb.translation_of_has hr ⟨by omega, by omega⟩]
  simp [IommuMapping.map_add]

/-- What an iterator yields. -/
structure Translates (it : IotlbIterator R) (ranges : List MappedRange) : Prop where
  pos : ∀ r ∈ ranges, 0 < r.length
  base_le : ∀ r ∈ ranges, r.base ≤ U64_MAX
  targets : (ranges.flatMap MappedRange.addresses).map some =
    (List.range (it.stop - it.start)).map fun i => (it.iotlb.translation (it.start + i)).map Prod.fst
  total : (ranges.map fun r => r.length).sum = it.stop - it.start

theorem items_of_accessible (it : IotlbIterator R)
    (h : Accessible it.iotlb.translation it.start (it.stop - it.start) it.access) :
    ∃ ranges, it.items = .ok ranges ∧ it.Translates ranges := by
  -- by induction on the length of the range that is left
  induction hn : it.stop - it.start using Nat.strongRecOn generalizing it with
  | _ n ih =>
    subst hn
    by_cases hlt : it.start < it.stop
    · obtain ⟨r, hr, hhas, hnext⟩ := next_of_accessible hlt h
      have hlen := next_lt hnext
      unfold Run.Has at hhas
      have hle : it.start ≤ min it.stop r.stop := by omega
      obtain ⟨ranges, hitems, hspec⟩ := ih _ hlen { it with start := min it.stop r.stop }
        (fun a ha ha' => h a (by dsimp only at ha; omega) (by dsimp only at ha ha'; omega)) rfl
      have hsplit : it.stop - it.start = (min it.stop r.stop - it.start) + (it.stop - min it.stop r.stop) := by omega
      refine ⟨⟨r.value.map it.start, min it.stop r.stop - it.start⟩ :: ranges, ?_, ?_, ?_, ?_, ?_⟩
      · rw [items_of_some hnext, hitems]
        rfl
      · intro x hx
        rcases mem_cons.1 hx with rfl | hx
        · dsimp only
          omega
        · exact hspec.pos x hx
      · intro x hx
        rcases mem_cons.1 hx with rfl | hx
        · exact Nat.le_of_lt_succ (Nat.mod_lt _ (Nat.succ_pos _))
        · exact hspec.base_le x hx
      · have hrest := hspec.targets
        rw [flatMap_cons, map_append, hrest,
          addresses_eq_translation hr (by omega) (by omega), hsplit, range_add, map_append,
          map_map]
        congr 1
        apply map_congr_left
        intro i _
        rw [Function.comp_apply, ← Nat.add_assoc, Nat.add_sub_cancel' hle]
      · have htotal := hspec.total
        rw [map_cons, sum_cons, htotal]
        exact hsplit.symm
    · have hnext : it.next = .ok (none, it) := by
        rw [next, if_pos (Nat.not_lt.1 hlt)]
        rfl
      have hzero : it.stop - it.start = 0 := by omega
      exact ⟨[], items_of_none hnext, nofun, nofun, by rw [hzero]; rfl, by rw [hzero]; rfl⟩

end IotlbIterator

/-! ## Calls that change the IOTLB -/

inductive TlbCall where
  | setMapping (iova mapTo length : Nat) (perm : Permissions)
  | invalidateMapping (iova length : Nat)
  | invalidateAll
  deriving DecidableEq, Repr

namespace TlbCall

def apply (t : Iotlb R) : TlbCall → Outcome IommuError (Iotlb R)
  | setMapping iova mapTo length perm => t.setMapping iova mapTo length perm
  | invalidateMapping iova length => t.invalidateMapping iova length
  | invalidateAll => .ok t.invalidateAll

/-- The range is not empty and ends below the top of the address space. -/
def InRange : TlbCall → Prop
  | setMapping iova _ length _ => 0 < length ∧ iova + length ≤ U64_MAX
  | invalidateMapping iova length => 0 < length ∧ iova + length ≤ U64_MAX
  | invalidateAll => True

/-- What a call says about an address, if it covers it. -/
def covering (a : Nat) : TlbCall → Option (Option (Nat × Permissions))
  | setMapping iova mapTo length perm =>
    if iova ≤ a ∧ a < iova + length then some (some ((mapTo + (a - iova)) % (U64_MAX + 1), perm))
    else none
  | invalidateMapping iova length => if iova ≤ a ∧ a < iova + length then some none else none
  | invalidateAll => some none

end TlbCall

/-- The pointwise map: the last call that covers an address counts. -/
def pointwise (calls : List TlbCall) (a : Nat) : Option (Nat × Permissions) :=
  (calls.reverse.findSome? (TlbCall.covering a)).getD none

theorem pointwise_concat (calls : List TlbCall) (call : TlbCall) (a : Nat) :
    pointwise (calls ++ [call]) a = (call.covering a).getD (pointwise calls a) := by
  rw [pointwise, reverse_append, reverse_singleton, singleton_append, findSome?_cons]
  cases call.covering a <;> rfl

theorem TlbCall.apply_of_inRange (t : Iotlb R) {call : TlbCall} (h : call.InRange) : ∃ t', call.apply t = .ok t' ∧
      ∀ a, t'.translation a = (call.covering a).getD (t.translation a) := by
  cases call with
  | setMapping iova mapTo length perm =>
    obtain ⟨hpos, hle⟩ := h
    obtain ⟨tlb, htlb, hget⟩ := get_insert IommuError t.tlb (IommuMapping.new iova mapTo perm)
      (show iova < iova + length by omega)
    refine ⟨⟨tlb⟩, ?_, fun a => ?_⟩
    · rw [apply, Iotlb.setMapping, checkedAdd_of_le hle, unwrap_some, ok_bind, htlb]
      rfl
    · rw [Iotlb.translation, hget, covering]
      by_cases hin : iova ≤ a ∧ a < iova + length
      · have hmap := IommuMapping.map_new iova mapTo (by omega) (a - iova) perm
        rw [Nat.add_sub_cancel' hin.1] at hmap
        rw [if_pos hin, if_pos hin, Option.map_some, hmap]
        rfl
      · rw [if_neg hin, if_neg hin]
        rfl
  | invalidateMapping iova length =>
    obtain ⟨hpos, hle⟩ := h
    obtain ⟨tlb, htlb, hget⟩ := get_remove IommuError t.tlb (show iova < iova + length by omega)
    refine ⟨⟨tlb⟩, ?_, fun a => ?_⟩
    · rw [apply, Iotlb.invalidateMapping, checkedAdd_of_le hle, unwrap_some, ok_bind, htlb]
      rfl
    · rw [Iotlb.translation, hget, covering]
      split <;> rfl
  | invalidateAll =>
    refine ⟨_, rfl, fun a => ?_⟩
    rw [Iotlb.translation, Iotlb.invalidateAll, get_empty]
    rfl

variable (R) in
theorem translation_of_calls {calls : List TlbCall} (h : ∀ c ∈ calls, c.InRange) :
    ∃ t : Iotlb R, calls.foldlM TlbCall.apply Iotlb.new = .ok t ∧ ∀ a, t.translation a = pointwise calls a := by
  -- by induction on the calls from the last one on
  induction calls using reverseRecOn with
  | nil =>
    refine ⟨Iotlb.new, rfl, fun a => ?_⟩
    rw [Iotlb.translation, Iotlb.new, get_empty]
    rfl
  | append_singleton calls call ih =>
    obtain ⟨t, ht, htr⟩ := ih fun c hc => h c (mem_append_left _ hc)
    obtain ⟨t', ht', htr'⟩ := call.apply_of_inRange t (h call (mem_append_right _ mem_cons_self))
    refine ⟨t', ?_, fun a => ?_⟩
    · rw [foldlM_append, ht, ok_bind, foldlM_cons, ht']
      rfl
    · rw [htr', pointwise_concat, htr]

/-- **The IOTLB refines a pointwise map.**  After any calls, a lookup succeeds exactly if all
addresses of the range are mapped and allow the access; then the ranges it yields are not empty and
are, one after the other, the targets of the addresses.  Otherwise it returns all maximal subranges
that are not mapped, and ranges that consist of the mapped addresses that do not allow the access. -/
theorem iotlb_refines (R : Type → Type) [RangeMapLike R] {calls : List TlbCall} (h : ∀ c ∈ calls, c.InRange) :
    ∃ t : Iotlb R, calls.foldlM TlbCall.apply Iotlb.new = .ok t ∧ ∀ iova length access, 0 < length → iova + length ≤ U64_MAX →
        ((∃ it, t.lookup iova length access = .ok it) ↔ Accessible (pointwise calls) iova length access) ∧
        (∀ it, t.lookup iova length access = .ok it → ∃ ranges, it.items = .ok ranges ∧ (∀ r ∈ ranges, 0 < r.length) ∧
            (ranges.flatMap MappedRange.addresses).map some =
              (List.range length).map (fun i => (pointwise calls (iova + i)).map Prod.fst) ∧
            (ranges.map fun r => r.length).sum = length) ∧
        (¬ Accessible (pointwise calls) iova length access → ∃ fails, t.lookup iova length access = .err fails ∧
            (∀ r, r ∈ fails.misses ↔ IsMiss (pointwise calls) iova length r) ∧
            fails.misses.Pairwise (fun r s => r.base + r.length < s.base) ∧
            (∀ a, (∃ r ∈ fails.accessFails, r.base ≤ a ∧ a < r.base + r.length) ↔ iova ≤ a ∧ a < iova + length ∧
                ∃ target perm, pointwise calls a = some (target, perm) ∧ perm.allow access = false) ∧
            ∀ r ∈ fails.accessFails, iova ≤ r.base ∧ 0 < r.length ∧ r.base + r.length ≤ iova + length) := by
  obtain ⟨t, ht, htr⟩ := translation_of_calls R h
  have htr : t.translation = pointwise calls := funext htr
  refine ⟨t, ht, fun iova length access hpos hle => ?_⟩
  rw [← htr]
  refine ⟨⟨fun ⟨it, hit⟩ => ?_, fun hacc => ⟨_, Iotlb.lookup_of_accessible hpos hle hacc⟩⟩, ?_, ?_⟩
  · by_contra hacc
    rw [Iotlb.lookup_of_not_accessible hle hacc] at hit
    cases hit
  · intro it hit
    have hacc : Accessible t.translation iova length access := by
      by_contra hacc
      rw [Iotlb.lookup_of_not_accessible hle hacc] at hit
      cases hit
    rw [Iotlb.lookup_of_accessible hpos hle hacc] at hit
    cases hit
    have hlen : iova + length - iova = length := Nat.add_sub_cancel_left _ _
    obtain ⟨ranges, hitems, hspec⟩ := IotlbIterator.items_of_accessible
      ⟨t, iova, iova + length, access⟩ (by rw [hlen]; exact hacc)
    have htargets := hspec.targets
    have htotal := hspec.total
    rw [hlen] at htargets htotal
    exact ⟨ranges, hitems, hspec.pos, htargets, htotal⟩
  · intro hacc
    exact ⟨_, Iotlb.lookup_of_not_accessible hle hacc, fun r => Iotlb.mem_misses,
      Iotlb.pairwise_misses, fun a => Iotlb.exists_mem_accessFails, fun r hr => Iotlb.accessFails_clipped hpos hr⟩

/-- A mapping, part of which is mapped again to another target and for reading only. -/
def remapped : List TlbCall := [.setMapping 0x1000 0x8000 0x1000 .readWrite, .setMapping 0x1800 0x4000 0x100 .read]

theorem iotlb_refines_remapped : ∃ t : Iotlb RangeMap, remapped.foldlM TlbCall.apply Iotlb.new = .ok t ∧
      (∃ it, t.lookup 0x17f0 0x20 .read = .ok it) ∧
      ∃ fails, t.lookup 0x17f0 0x20 .write = .err fails := by
  have hrange : ∀ c ∈ remapped, c.InRange := by
    intro c hc
    simp only [remapped, mem_cons, not_mem_nil, or_false] at hc
    rcases hc with rfl | rfl <;> exact ⟨by decide, by decide⟩
  have hlow : ∀ a, 0x17f0 ≤ a → a < 0x1800 → pointwise remapped a = some (a + 0x7000, .readWrite) := by
    intro a hle hlt
    simp only [pointwise, remapped, reverse_cons, reverse_nil, nil_append,
      singleton_append, findSome?_cons, TlbCall.covering]
    rw [if_neg (by omega), if_pos (by omega)]
    simp only [U64_MAX_eq, Option.getD_some, Option.some.injEq, Prod.mk.injEq, and_true]
    omega
  have hhigh : ∀ a, 0x1800 ≤ a → a < 0x1900 → pointwise remapped a = some (a + 0x2800, .read) := by
    intro a hle hlt
    simp only [pointwise, remapped, reverse_cons, reverse_nil, nil_append,
      singleton_append, findSome?_cons, TlbCall.covering]
    rw [if_pos (by omega)]
    simp only [U64_MAX_eq, Option.getD_some, Option.some.injEq, Prod.mk.injEq, and_true]
    omega
  obtain ⟨t, ht, hlookup⟩ := iotlb_refines RangeMap hrange
  obtain ⟨hok, _, _⟩ := hlookup 0x17f0 0x20 .read (by decide) (by decide)
  obtain ⟨_, _, hfail⟩ := hlookup 0x17f0 0x20 .write (by decide) (by decide)
  refine ⟨t, ht, hok.2 fun a hle hlt => ?_, ?_⟩
  · by_cases ha : a < 0x1800
    · exact ⟨_, _, hlow a hle ha, rfl⟩
    · exact ⟨_, _, hhigh a (by omega) (by omega), rfl⟩
  · obtain ⟨fails, hfails, _⟩ := hfail fun hacc => by
      obtain ⟨target, perm, htr, hallow⟩ := hacc 0x1800 (by decide) (by decide)
      cases htr
      cases hallow
    exact ⟨fails, hfails⟩

end RustVmm.VmMemory
