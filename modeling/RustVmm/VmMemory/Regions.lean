import Mathlib.Data.List.Chain
import RustVmm.Lib.BinarySearch
import RustVmm.Lib.Run
import RustVmm.VmMemory.GuestMemory

/-!
# Collections of regions

Model of `GuestRegionCollection` in `region.rs`.  A collection is never changed: each call that adds or removes a
region makes a new one.

* `checkWindows_eq_ok`, `pairwise_before_iff` — comparing neighbours is enough.
* `findRegion_eq_scanRegion` — the binary search finds what a linear scan finds.
* `CollectionCall.ordered_run`, `region_collections` — any calls, on any collections made before.
* `GuestRegionCollection.findRegion_toGuestMemory` — the memory of a collection finds the same regions.
-/

set_option autoImplicit false

namespace RustVmm.VmMemory

open Lib List Outcome Option

/-! ## Regions -/

class GuestMemoryRegion (R : Type) where
  startAddr : R → Nat
  len : R → Nat
  len_pos : ∀ r, 0 < len r
  last_le : ∀ r, startAddr r + (len r - 1) ≤ U64_MAX

instance : GuestMemoryRegion Region where
  startAddr := Region.startAddr
  len := Region.len
  len_pos := Region.len_pos
  last_le r := by
    have := r.end_le
    omega

namespace GuestMemoryRegion

variable {R : Type} [GuestMemoryRegion R]

def lastAddr (r : R) : Nat := startAddr r + (len r - 1)

def Has (r : R) (addr : Nat) : Prop := startAddr r ≤ addr ∧ addr ≤ lastAddr r

instance (r : R) (addr : Nat) : Decidable (Has r addr) := inferInstanceAs (Decidable (_ ∧ _))

def Overlaps (r s : R) : Prop := ∃ addr, Has r addr ∧ Has s addr

def Before (r s : R) : Prop := lastAddr r < startAddr s

theorem startAddr_le_lastAddr (r : R) : startAddr r ≤ lastAddr r := Nat.le_add_right _ _

variable {r s : R}

theorem Before.startAddr_lt (h : Before r s) : startAddr r < startAddr s :=
  Nat.lt_of_le_of_lt (startAddr_le_lastAddr r) h

theorem Before.trans {t : R} (h : Before r s) (h' : Before s t) : Before r t :=
  Nat.lt_trans h h'.startAddr_lt

instance : Trans (Before : R → R → Prop) Before Before := ⟨Before.trans⟩

theorem Before.not_overlaps (h : Before r s) : ¬ Overlaps r s := by
  rintro ⟨addr, hr, hs⟩
  exact absurd (Nat.le_trans hs.1 hr.2) (Nat.not_le.2 h)

theorem Overlaps.symm (h : Overlaps r s) : Overlaps s r := by
  obtain ⟨addr, hr, hs⟩ := h
  exact ⟨addr, hs, hr⟩

instance : Std.Symm fun r s : R => ¬ Overlaps r s := ⟨fun _ _ h h' => h h'.symm⟩

theorem before_of_not_overlaps (hle : startAddr r ≤ startAddr s) (h : ¬ Overlaps r s) : Before r s := by
  by_contra hlast
  exact h ⟨startAddr s, ⟨hle, Nat.not_lt.1 hlast⟩, Nat.le_refl _, startAddr_le_lastAddr s⟩

theorem pairwise_before_iff {rs : List R} : rs.Pairwise Before ↔
      rs.Pairwise (fun r s => startAddr r ≤ startAddr s) ∧ rs.Pairwise fun r s => ¬ Overlaps r s := by
  rw [← pairwise_and_iff]
  constructor
  · exact fun h => h.imp fun hrs => ⟨Nat.le_of_lt hrs.startAddr_lt, hrs.not_overlaps⟩
  · exact fun h => h.imp fun hrs => before_of_not_overlaps hrs.1 hrs.2

end GuestMemoryRegion

open GuestMemoryRegion

/-! ## The calls -/

inductive GuestRegionCollectionError where
  | noMemoryRegion
  | memoryRegionOverlap
  | unsortedMemoryRegions
  deriving DecidableEq, Repr

structure GuestRegionCollection (R : Type) where
  regions : List R

namespace GuestRegionCollection

variable {R : Type} [GuestMemoryRegion R]

/-- `new`, which is `default`. -/
def new : GuestRegionCollection R := ⟨[]⟩

/-- The loop over `windows(2)`. -/
def checkWindows : List R → Outcome GuestRegionCollectionError Unit
  | [] => .ok ()
  | [_] => .ok ()
  | prev :: next :: rest =>
    if startAddr prev > startAddr next then .err .unsortedMemoryRegions
    else if lastAddr prev ≥ startAddr next then .err .memoryRegionOverlap
    else checkWindows (next :: rest)

def fromArcRegions (regions : List R) : Outcome GuestRegionCollectionError (GuestRegionCollection R) :=
  if regions = [] then .err .noMemoryRegion
  else do
    checkWindows regions
    return ⟨regions⟩

/-- `from_regions`: each region is put into an `Arc`. -/
def fromRegions (regions : List R) : Outcome GuestRegionCollectionError (GuestRegionCollection R) :=
  fromArcRegions regions

/-- `insert_region`; `sort_by_key` is stable. -/
def insertRegion (self : GuestRegionCollection R) (region : R) :
    Outcome GuestRegionCollectionError (GuestRegionCollection R) :=
  fromArcRegions ((self.regions ++ [region]).mergeSort fun r s => startAddr r ≤ startAddr s)

/-- `binary_search_by_key` for a start address. -/
def search (self : GuestRegionCollection R) (addr : Nat) : Except Nat (Fin self.regions.length) :=
  binarySearchBy self.regions fun r => compare (startAddr r) addr

def removeRegion (self : GuestRegionCollection R) (base size : Nat) :
    Outcome GuestRegionCollectionError (GuestRegionCollection R × R) :=
  match self.search base with
  | .ok regionIndex =>
    if len (self.regions.get regionIndex) = size then
      .ok (⟨self.regions.eraseIdx regionIndex⟩, self.regions.get regionIndex)
    else .err .noMemoryRegion
  | .error _ => .err .noMemoryRegion

/-- `find_region`: if no region starts at the address, it may be in the one before. -/
def findRegion (self : GuestRegionCollection R) (addr : Nat) :
    Outcome GuestRegionCollectionError (Option R) :=
  match self.search addr with
  | .ok x => .ok (some (self.regions.get x))
  | .error x =>
    if x > 0 then do
      let region ← .unwrap self.regions[x - 1]?
      if addr ≤ lastAddr region then .ok (some region) else .ok none
    else .ok none

/-- `find_region` as the trait `GuestMemoryBackend` implements it: a linear scan. -/
def scanRegion (self : GuestRegionCollection R) (addr : Nat) : Option R :=
  self.regions.find? fun region => addr ≥ startAddr region ∧ addr ≤ lastAddr region

/-- The regions are in order, and no two of them share an address. -/
def Ordered (self : GuestRegionCollection R) : Prop := self.regions.Pairwise Before

/-! ## Making a collection -/

variable {rs : List R}

theorem checkWindows_eq_ok : checkWindows rs = .ok () ↔ rs.IsChain Before := by
  fun_induction checkWindows rs with
  | case1 => exact iff_of_true rfl .nil
  | case2 r => exact iff_of_true rfl (.singleton r)
  | case3 prev next rest hunsorted =>
    refine iff_of_false nofun fun h => ?_
    exact absurd (isChain_cons_cons.1 h).1.startAddr_lt (Nat.lt_asymm hunsorted)
  | case4 prev next rest hsorted hoverlap =>
    refine iff_of_false nofun fun h => ?_
    exact absurd (isChain_cons_cons.1 h).1 (Nat.not_lt.2 hoverlap)
  | case5 prev next rest hsorted hapart ih =>
    rw [ih, isChain_cons_cons]
    exact (and_iff_right (Nat.not_le.1 hapart)).symm

variable {c : GuestRegionCollection R}

theorem fromArcRegions_eq_ok : fromArcRegions rs = .ok c ↔ rs ≠ [] ∧ rs.Pairwise Before ∧ c = ⟨rs⟩ := by
  unfold fromArcRegions
  split
  · rename_i hempty
    exact iff_of_false nofun fun h => h.1 hempty
  · rename_i hne
    rw [bind_eq_ok, ← isChain_iff_pairwise, ← checkWindows_eq_ok]
    constructor
    · rintro ⟨_, hcheck, h⟩
      cases h
      exact ⟨hne, hcheck, rfl⟩
    · rintro ⟨_, hcheck, rfl⟩
      exact ⟨(), hcheck, rfl⟩

variable {self : GuestRegionCollection R}

variable {region r : R}

theorem insertRegion_eq_ok : self.insertRegion region = .ok c ↔
      (self.regions ++ [region]).Pairwise (fun r s => ¬ Overlaps r s) ∧
        c = ⟨(self.regions ++ [region]).mergeSort fun r s => startAddr r ≤ startAddr s⟩ := by
  have hperm := (self.regions ++ [region]).mergeSort_perm fun r s => startAddr r ≤ startAddr s
  have hsorted : ((self.regions ++ [region]).mergeSort fun r s => startAddr r ≤ startAddr s).Pairwise
      fun r s => startAddr r ≤ startAddr s := by
    refine (pairwise_mergeSort (fun r s t hrs hst => ?_) (fun r s => ?_) _).imp of_decide_eq_true
    · rw [decide_eq_true_eq] at *
      exact Nat.le_trans hrs hst
    · rw [← Bool.decide_or, decide_eq_true_eq]
      exact Nat.le_total _ _
  have hne : (self.regions ++ [region]).mergeSort (fun r s => startAddr r ≤ startAddr s) ≠ [] := by
    intro hempty
    rw [hempty] at hperm
    exact absurd (nil_perm.1 hperm) (append_ne_nil_of_right_ne_nil _ (cons_ne_nil _ _))
  rw [insertRegion, fromArcRegions_eq_ok, and_iff_right hne, pairwise_before_iff, and_iff_right hsorted,
    hperm.pairwise_iff fun h h' => h h'.symm]

theorem exists_insertRegion_iff (h : self.Ordered) :
    (∃ c, self.insertRegion region = .ok c) ↔ ∀ r ∈ self.regions, ¬ Overlaps region r := by
  have hthere := (pairwise_before_iff.1 h).2
  simp only [insertRegion_eq_ok, pairwise_append, exists_and_left, exists_eq, and_true]
  constructor
  · rintro ⟨_, _, hnew⟩ r hr hover
    exact hnew r hr region mem_cons_self hover.symm
  · intro hnew
    refine ⟨hthere, pairwise_singleton _ _, fun r hr s hs => ?_⟩
    rw [mem_singleton.1 hs]
    exact fun hover => hnew r hr hover.symm

theorem perm_insertRegion (h : self.insertRegion region = .ok c) : c.regions.Perm (region :: self.regions) := by
  obtain ⟨_, rfl⟩ := insertRegion_eq_ok.1 h
  exact (mergeSort_perm _ _).trans perm_append_comm

/-! ## Finding a region -/

theorem Ordered.sortedFor (h : self.Ordered) (addr : Nat) :
    SortedFor (fun r => compare (startAddr r) addr) self.regions := by
  refine h.imp fun hrs => ?_
  have := hrs.startAddr_lt
  simp only [Nat.compare_eq_lt, Nat.compare_eq_gt]
  exact ⟨fun _ => by omega, fun _ => by omega⟩

variable {addr base size : Nat}

theorem search_ok {i : Fin self.regions.length} (h : self.search addr = .ok i) :
    startAddr (self.regions.get i) = addr := Nat.compare_eq_eq.1 (binarySearchBy_ok h)

theorem search_error (h : self.Ordered) {n : Nat} (hn : self.search addr = .error n) : n ≤ self.regions.length ∧
      (∀ i : Fin self.regions.length, i.val < n → startAddr (self.regions.get i) < addr) ∧
      ∀ i : Fin self.regions.length, n ≤ i.val → addr < startAddr (self.regions.get i) := by
  obtain ⟨hle, hbelow, habove⟩ := binarySearchBy_error (h.sortedFor addr) hn
  exact ⟨hle, fun i hi => Nat.compare_eq_lt.1 (hbelow i hi), fun i hi => Nat.compare_eq_gt.1 (habove i hi)⟩

theorem Ordered.eq_of_has (h : self.Ordered) {s : R} (hr : r ∈ self.regions) (hs : s ∈ self.regions) (hra : Has r addr)
    (hsa : Has s addr) : r = s := by
  by_contra hne
  exact (pairwise_before_iff.1 h).2.forall hr hs hne ⟨addr, hra, hsa⟩

theorem Ordered.scanRegion_eq_some (h : self.Ordered) (hr : r ∈ self.regions) (hra : Has r addr) :
    self.scanRegion addr = some r := by
  have hsome : (self.scanRegion addr).isSome = true := by
    rw [scanRegion, find?_isSome]
    exact ⟨r, hr, decide_eq_true hra⟩
  obtain ⟨s, hs⟩ := isSome_iff_exists.1 hsome
  have hfound := find?_some (show self.regions.find? _ = some s from hs)
  have hsa : Has s addr := of_decide_eq_true hfound
  rw [hs, h.eq_of_has (mem_of_find?_eq_some hs) hr hsa hra]

theorem scanRegion_eq_none (h : ∀ r ∈ self.regions, ¬ Has r addr) : self.scanRegion addr = none := by
  rw [scanRegion, find?_eq_none]
  exact fun r hr hra => h r hr (of_decide_eq_true hra)

theorem findRegion_eq_scanRegion (h : self.Ordered) (addr : Nat) :
    self.findRegion addr = .ok (self.scanRegion addr) := by
  unfold findRegion
  split
  · -- a region starts at the address
    rename_i x hx
    have hhas : Has (self.regions.get x) addr := by
      rw [← search_ok hx]
      exact ⟨Nat.le_refl _, startAddr_le_lastAddr _⟩
    rw [h.scanRegion_eq_some (get_mem _ _) hhas]
  · rename_i x hx
    obtain ⟨hle, hbelow, habove⟩ := search_error h hx
    split
    · have hlt : x - 1 < self.regions.length := by omega
      rw [getElem?_eq_getElem hlt, unwrap_some, ok_bind]
      have hstart : startAddr self.regions[x - 1] < addr := hbelow ⟨x - 1, hlt⟩ (by dsimp only; omega)
      split
      · rename_i hlast
        rw [h.scanRegion_eq_some (getElem_mem hlt) ⟨Nat.le_of_lt hstart, hlast⟩]
      · rename_i hlast
        rw [scanRegion_eq_none]
        intro r hr hra
        obtain ⟨i, hi, rfl⟩ := getElem_of_mem hr
        -- the regions from `x` on start above the address, those before `x - 1` end below it
        rcases Nat.lt_trichotomy i (x - 1) with hi' | rfl | hi'
        · have hbefore : Before self.regions[i] self.regions[x - 1] :=
            pairwise_iff_getElem.1 h i (x - 1) hi hlt hi'
          exact absurd (Nat.lt_trans hbefore hstart) (Nat.not_lt.2 hra.2)
        · exact hlast hra.2
        · exact absurd (habove ⟨i, hi⟩ (by dsimp only; omega)) (Nat.not_lt.2 hra.1)
    · rw [scanRegion_eq_none]
      intro r hr hra
      obtain ⟨i, hi, rfl⟩ := getElem_of_mem hr
      exact absurd (habove ⟨i, hi⟩ (by dsimp only; omega)) (Nat.not_lt.2 hra.1)

/-! ## Removing a region -/

theorem removeRegion_eq_ok (h : self.removeRegion base size = .ok (c, region)) :
    startAddr region = base ∧ len region = size ∧
      ∃ before after, self.regions = before ++ region :: after ∧ c.regions = before ++ after := by
  unfold removeRegion at h
  split at h
  · rename_i i hi
    split at h
    · rename_i hlen
      cases h
      refine ⟨search_ok hi, hlen, self.regions.take i, self.regions.drop (i + 1), ?_, ?_⟩
      · rw [get_eq_getElem, getElem_cons_drop, take_append_drop]
      · exact eraseIdx_eq_take_drop_succ _ _
    · cases h
  · cases h

theorem exists_removeRegion_iff (h : self.Ordered) : (∃ c region, self.removeRegion base size = .ok (c, region)) ↔
      ∃ r ∈ self.regions, startAddr r = base ∧ len r = size := by
  constructor
  · rintro ⟨c, region, hremove⟩
    obtain ⟨hbase, hsize, before, after, hregions, _⟩ := removeRegion_eq_ok hremove
    exact ⟨region, by simp [hregions], hbase, hsize⟩
  · rintro ⟨r, hr, hbase, hsize⟩
    unfold removeRegion
    split
    · -- what is found starts where the region starts, so that it is the region
      rename_i i hi
      have hsame : self.regions.get i = r := by
        refine h.eq_of_has (get_mem _ _) hr (?_ : Has _ base) ?_
        · rw [← search_ok hi]
          exact ⟨Nat.le_refl _, startAddr_le_lastAddr _⟩
        · rw [← hbase]
          exact ⟨Nat.le_refl _, startAddr_le_lastAddr _⟩
      rw [hsame, if_pos hsize]
      exact ⟨_, _, rfl⟩
    · rename_i n hn
      obtain ⟨_, hbelow, habove⟩ := search_error h hn
      obtain ⟨i, hi, rfl⟩ := getElem_of_mem hr
      rcases Nat.lt_or_ge i n with hlt | hge
      · exact absurd hbase (Nat.ne_of_lt (hbelow ⟨i, hi⟩ hlt))
      · exact absurd hbase (Nat.ne_of_gt (habove ⟨i, hi⟩ hge))

/-! ## All calls keep the order -/

theorem ordered_new : (new : GuestRegionCollection R).Ordered := .nil

theorem ordered_fromArcRegions (h : fromArcRegions rs = .ok c) : c.Ordered := by
  obtain ⟨_, hbefore, rfl⟩ := fromArcRegions_eq_ok.1 h
  exact hbefore

theorem Ordered.removeRegion (h : self.Ordered) (hc : self.removeRegion base size = .ok (c, region)) : c.Ordered := by
  obtain ⟨_, _, before, after, hregions, hothers⟩ := removeRegion_eq_ok hc
  unfold Ordered at h ⊢
  rw [hregions] at h
  rw [hothers]
  exact h.sublist ((sublist_cons_self region after).append_left before)

end GuestRegionCollection

/-! ## Runs -/

/-- A call; a collection that exists is named by its position in the order in which they were made. -/
inductive CollectionCall (R : Type) where
  | new
  | fromRegions (regions : List R)
  | fromArcRegions (regions : List R)
  | insertRegion (collection : Nat) (region : R)
  | removeRegion (collection base size : Nat)

namespace CollectionCall

open GuestRegionCollection

variable {R : Type} [GuestMemoryRegion R]

/-- The collection that a call makes, if it succeeds. -/
def made (cs : List (GuestRegionCollection R)) : CollectionCall R → Option (GuestRegionCollection R)
  | new => some .new
  | fromRegions regions => (GuestRegionCollection.fromRegions regions).toOption
  | fromArcRegions regions => (GuestRegionCollection.fromArcRegions regions).toOption
  | insertRegion i region => cs[i]?.bind fun c => (c.insertRegion region).toOption
  | removeRegion i base size => cs[i]?.bind fun c => ((c.removeRegion base size).toOption).map Prod.fst

/-- All collections after a call: those that were there, and the one that it makes. -/
def exec (cs : List (GuestRegionCollection R)) (call : CollectionCall R) : List (GuestRegionCollection R) :=
  cs ++ (call.made cs).toList

theorem ordered_made {cs : List (GuestRegionCollection R)} (h : ∀ c ∈ cs, c.Ordered) {call : CollectionCall R}
    {c : GuestRegionCollection R} (hc : call.made cs = some c) : c.Ordered := by
  cases call with
  | new =>
    cases hc
    exact ordered_new
  | fromRegions regions | fromArcRegions regions => exact ordered_fromArcRegions (toOption_eq_some.1 hc)
  | insertRegion i region =>
    obtain ⟨c₀, hc₀, hc⟩ := bind_eq_some_iff.1 hc
    exact ordered_fromArcRegions (toOption_eq_some.1 hc)
  | removeRegion i base size =>
    obtain ⟨c₀, hc₀, hc⟩ := bind_eq_some_iff.1 hc
    obtain ⟨⟨c', region⟩, hremove, rfl⟩ := map_eq_some_iff.1 hc
    exact (h c₀ (mem_of_getElem? hc₀)).removeRegion (toOption_eq_some.1 hremove)

theorem ordered_run (calls : List (CollectionCall R)) : ∀ c ∈ run exec [] calls, c.Ordered := by
  have hstep : ∀ cs (call : CollectionCall R), (∀ c ∈ cs, c.Ordered) → ∀ c ∈ exec cs call, c.Ordered := by
    intro cs call h c hc
    rcases mem_append.1 hc with hc | hc
    · exact h c hc
    · exact ordered_made h (mem_toList.1 hc)
  have hstart : ∀ c ∈ ([] : List (GuestRegionCollection R)), c.Ordered := nofun
  exact run_stays hstep hstart calls

theorem prefix_run (cs : List (GuestRegionCollection R)) (calls : List (CollectionCall R)) :
    cs <+: run exec cs calls := by
  induction calls generalizing cs with
  | nil => exact prefix_rfl
  | cons call calls ih => exact (prefix_append _ _).trans (ih (exec cs call))

end CollectionCall

open GuestRegionCollection CollectionCall in
/-- **Collections stay in order.**  After any calls, each collection that was made has its regions in order
of their start addresses and without a common address.  A region can be inserted exactly if it overlaps none of
them, which yields the old regions and the new one; a region can be removed exactly if there is one with that
start and length, which yields the others; and the binary search for an address finds what a linear scan finds.
A list is accepted exactly if it is not empty, sorted and without overlaps.  Whatever is called later, the
collections that were made stay as they are. -/
theorem region_collections {R : Type} [GuestMemoryRegion R] (calls : List (CollectionCall R)) :
    (∀ c ∈ run exec [] calls, c.regions.Pairwise (fun r s => startAddr r < startAddr s ∧ ¬ Overlaps r s) ∧
      (∀ region, (∃ c', c.insertRegion region = .ok c') ↔ ∀ r ∈ c.regions, ¬ Overlaps region r) ∧
      (∀ region c', c.insertRegion region = .ok c' → c'.regions.Perm (region :: c.regions)) ∧
      (∀ base size, (∃ c' region, c.removeRegion base size = .ok (c', region)) ↔
        ∃ r ∈ c.regions, startAddr r = base ∧ len r = size) ∧
      (∀ base size c' region, c.removeRegion base size = .ok (c', region) →
        startAddr region = base ∧ len region = size ∧
          ∃ before after, c.regions = before ++ region :: after ∧ c'.regions = before ++ after) ∧
      ∀ addr, c.findRegion addr = .ok (c.scanRegion addr)) ∧
    (∀ regions : List R, (∃ c, GuestRegionCollection.fromArcRegions regions = .ok c) ↔
      regions ≠ [] ∧ regions.Pairwise (fun r s => startAddr r ≤ startAddr s) ∧
        regions.Pairwise fun r s => ¬ Overlaps r s) ∧
    (∀ (regions : List R) c, GuestRegionCollection.fromArcRegions regions = .ok c → c.regions = regions) ∧
    ∀ more, run exec [] calls <+: run exec [] (calls ++ more) := by
  refine ⟨fun c hc => ?_, fun regions => ?_, fun regions c h => ?_, fun more => ?_⟩
  · have hordered := ordered_run calls c hc
    refine ⟨?_, fun _ => exists_insertRegion_iff hordered, fun _ _ => perm_insertRegion,
      fun _ _ => exists_removeRegion_iff hordered, fun _ _ _ _ => removeRegion_eq_ok, findRegion_eq_scanRegion hordered⟩
    exact hordered.imp fun hrs => ⟨hrs.startAddr_lt, hrs.not_overlaps⟩
  · simp only [fromArcRegions_eq_ok, pairwise_before_iff, exists_and_left, exists_eq, and_true]
  · obtain ⟨_, _, rfl⟩ := fromArcRegions_eq_ok.1 h
    rfl
  · rw [run_append]
    exact prefix_run _ _

/-! ## The regions of guest memory -/

/-- The memory of a collection: what the calls keep up is what the structure asks for. -/
def GuestRegionCollection.toGuestMemory (self : GuestRegionCollection Region) (h : self.Ordered)
    (bytes : Nat → UInt8) : GuestMemory where
  regions := self.regions
  sorted := h.imp fun {r s} hrs => by
    have hrs : r.startAddr + (r.len - 1) < s.startAddr := hrs
    have := r.len_pos
    omega
  bytes := bytes

theorem GuestRegionCollection.findRegion_toGuestMemory (self : GuestRegionCollection Region)
    (h : self.Ordered) (bytes : Nat → UInt8) (addr : Nat) :
    self.findRegion addr = .ok ((self.toGuestMemory h bytes).findRegion addr) := by
  rw [findRegion_eq_scanRegion h]
  congr 1
  apply ext
  intro r
  rw [GuestMemory.findRegion_eq_some, Region.covers_iff_le_lastAddr]
  constructor
  · intro hr
    have hfound := find?_some (show self.regions.find? _ = some r from hr)
    exact ⟨mem_of_find?_eq_some hr, of_decide_eq_true hfound⟩
  · rintro ⟨hr, hhas⟩
    exact h.scanRegion_eq_some hr hhas

end RustVmm.VmMemory
