import RustVmm.VmMemory.Effects
import RustVmm.VmMemory.Iotlb

/-!
# Slices of memory behind an IOMMU

Model of `IommuMemory`, whose IOMMU looks up a fixed `Iotlb`, and of its iterator over slices.  The iterator walks
over the ranges of the translation, over the slices of the physical memory in each of them, and counts the I/O
virtual address up, from which on the slice is tracked in the dirty bitmap.

* `IommuSliceIterator.next_size_lt`, `next_none` — the iterator is finite and stays at its end.
* `IommuSliceIterator.items_eq_relabel` — the two nested iterators yield one list: the physical slices, relabelled.
-/

set_option autoImplicit false

namespace RustVmm.VmMemory

open Lib GuestMemory Outcome IotlbIterator List SliceIterator

variable {R : Type → Type} [RangeMapLike R]

structure IommuMemory (R : Type → Type) where
  backend : GuestMemory
  iotlb : Iotlb R
  useIommu : Bool

/-- `IommuMemorySliceIterator`; `bitmap` says whether the bitmap of the I/O virtual addresses is
used. -/
structure IommuSliceIterator (R : Type → Type) where
  iova : Nat
  bitmap : Bool
  translation : Option (IotlbIterator R)
  current : Option SliceIterator

/-- `translate`, by a lookup. -/
def IommuMemory.translate (m : IommuMemory R) (iova length : Nat) (access : Permissions) :
    Outcome IommuError (IotlbIterator R) :=
  (m.iotlb.lookup iova length access).mapErr fun _ => .cannotResolve ⟨iova, length⟩

/-- `GuestMemoryError::IommuError`. -/
def IommuError.toError : IommuError → Error
  | cannotResolve range => .iommuError range.base range.length

def IotlbIterator.all (p : MappedRange → Bool) (it : IotlbIterator R) : Outcome IommuError Bool :=
  match _h : it.next with
  | .ok (none, _) => .ok true
  | .ok (some r, it') => if p r then all p it' else .ok false
  | .err e => .err e
  | .panic => .panic
termination_by it.stop - it.start
decreasing_by exact next_lt _h

namespace IommuSliceIterator

/-- An iterator over physical memory. -/
def phys (addr count : Nat) : IommuSliceIterator R := ⟨addr, false, none, some (getSlices addr count)⟩

/-- An iterator over translated memory. -/
def virt (m : IommuMemory R) (addr count : Nat) (access : Permissions) :
    Outcome IommuError (IommuSliceIterator R) := do
  let translation ← m.translate addr count access
  return ⟨addr, true, some translation, none⟩

/-- The next slice of the range that is visited. -/
def pull (mem : GuestMemory) (it : IommuSliceIterator R) :
    Option (Outcome Error GuestSlice) × IommuSliceIterator R :=
  match it.current with
  | none => (none, it)
  | some current =>
    let (item, current') := current.next mem
    (item, { it with current := some current' })

/-- A slice is returned with its bitmap replaced, and the I/O virtual address goes on. -/
def emit (it : IommuSliceIterator R) (item : Outcome Error GuestSlice) :
    Outcome Error GuestSlice × IommuSliceIterator R :=
  match item with
  | .ok s =>
    match advance it.iova s.len with
    | .ok iova =>
      (.ok (if it.bitmap then { s with bitmap := ⟨.iova, it.iova⟩ } else s), { it with iova := iova })
    | .err e => (.err e, it)
    | .panic => (.panic, it)
  | .err e => (.err e, it)
  | .panic => (.panic, it)

def doNext (mem : GuestMemory) (it : IommuSliceIterator R) :
    Option (Outcome Error GuestSlice) × IommuSliceIterator R :=
  match it.pull mem with
  | (some item, it') => (some (it'.emit item).1, (it'.emit item).2)
  | (none, it') =>
    match _htr : it.translation with
    | none => (none, it')
    | some tr =>
      match _h : tr.next with
      | .ok (none, tr') => (none, { it' with translation := some tr' })
      | .ok (some mapping, tr') =>
        doNext mem { it' with
          translation := some tr'
          current := some (getSlices mapping.base mapping.length) }
      | .err e => (some (.err e.toError), it')
      | .panic => (some .panic, it')
termination_by it.translation.elim 0 fun tr => tr.stop - tr.start
decreasing_by
  rw [_htr]
  exact IotlbIterator.next_lt _h

/-- `next`: both parts are reset on an error and at the end, so iteration remains stopped. -/
def next (mem : GuestMemory) (it : IommuSliceIterator R) :
    Option (Outcome Error GuestSlice) × IommuSliceIterator R :=
  match it.doNext mem with
  | (some (.ok s), it') => (some (.ok s), it')
  | (other, it') => (other, { it' with translation := none, current := none })

end IommuSliceIterator

namespace IommuMemory

def checkRange (m : IommuMemory R) (addr count : Nat) (access : Permissions) : Outcome Error Bool :=
  if !m.useIommu then .ok (m.backend.checkRange addr count)
  else
    match m.translate addr count access with
    | .ok it => (it.all fun r => m.backend.checkRange r.base r.length).mapErr IommuError.toError
    | .err _ => .ok false
    | .panic => .panic

def getSlices (m : IommuMemory R) (addr count : Nat) (access : Permissions) :
    Outcome Error (IommuSliceIterator R) :=
  if m.useIommu then (IommuSliceIterator.virt m addr count access).mapErr IommuError.toError
  else .ok (.phys addr count)

end IommuMemory

/-! ## The iterator is finite -/

theorem IotlbIterator.next_size {it it' : IotlbIterator R} {r : MappedRange} (h : it.next = .ok (some r, it')) :
    it'.stop - it'.start + r.length = it.stop - it.start := by
  have hlt := next_lt h
  unfold next at h
  split at h
  · cases h
  · obtain ⟨range, _, h⟩ := bind_eq_ok.1 h
    split at h <;> cases h
    dsimp only at hlt ⊢
    omega

theorem IotlbIterator.start_lt_of_not_ok {tr : IotlbIterator R} (h : ∀ r, tr.next ≠ .ok r) : tr.start < tr.stop := by
  by_contra hle
  exact h _ (if_pos (Nat.le_of_not_lt hle))

namespace IommuSliceIterator

def size (it : IommuSliceIterator R) : Nat :=
  (it.translation.elim 0 fun tr => tr.stop - tr.start) + it.current.elim 0 fun c => c.count

variable {mem : GuestMemory} {it it' : IommuSliceIterator R} {item : Outcome Error GuestSlice}

section

omit [RangeMapLike R]

theorem pull_cases (mem : GuestMemory) (it : IommuSliceIterator R) :
    (it.pull mem).2.translation = it.translation ∧ (it.pull mem).2.iova = it.iova ∧
      (it.pull mem).2.bitmap = it.bitmap := by
  unfold pull
  split <;> exact ⟨rfl, rfl, rfl⟩

theorem pull_eq_some (h : it.pull mem = (some item, it')) :
    ∃ current current', it.current = some current ∧ current.next mem = (some item, current') ∧
      it' = { it with current := some current' } := by
  unfold pull at h
  split at h
  · cases h
  · rename_i current hcurrent
    rcases hnext : current.next mem with ⟨item₁, current'⟩
    rw [hnext] at h
    cases h
    exact ⟨current, current', hcurrent, hnext, rfl⟩

theorem size_pull_lt (h : it.pull mem = (some item, it')) : it'.size < it.size := by
  obtain ⟨current, current', hcurrent, hnext, rfl⟩ := pull_eq_some h
  have hlt := count_next_lt hnext
  simp only [size, hcurrent, Option.elim]
  omega

theorem size_emit (it : IommuSliceIterator R) (item : Outcome Error GuestSlice) : (it.emit item).2.size = it.size := by
  unfold emit
  split
  · split <;> rfl
  · rfl
  · rfl

end

theorem size_doNext (h : it.doNext mem = (some item, it')) : 0 < it.size ∧ (item.isOk = true → it'.size < it.size) := by
  fun_induction doNext mem it with
  | case1 it item₁ it₁ hpull =>
    have hlt := size_pull_lt hpull
    obtain ⟨_, rfl⟩ := Prod.mk.inj h
    rw [size_emit]
    exact ⟨by omega, fun _ => hlt⟩
  | case2 it it₁ hpull htr => cases h
  | case3 it it₁ hpull tr htr tr' hnext => cases h
  | case4 it it₁ hpull tr htr mapping tr' hnext ih =>
    have hsize := next_size hnext
    obtain ⟨hpos, hlt⟩ := ih h
    simp only [size, Option.elim, htr, getSlices] at hpos hlt ⊢
    exact ⟨by omega, fun hok => by have := hlt hok; omega⟩
  | case5 it it₁ hpull tr htr e hnext =>
    cases h
    have hlt : tr.start < tr.stop := start_lt_of_not_ok (by simp [hnext])
    refine ⟨?_, nofun⟩
    simp only [size, htr, Option.elim]
    omega
  | case6 it it₁ hpull tr htr hnext =>
    cases h
    have hlt : tr.start < tr.stop := start_lt_of_not_ok (by simp [hnext])
    refine ⟨?_, nofun⟩
    simp only [size, htr, Option.elim]
    omega

theorem next_size_lt (h : it.next mem = (some item, it')) : it'.size < it.size := by
  unfold next at h
  split at h
  · rename_i s it₁ hdo
    cases h
    exact (size_doNext hdo).2 rfl
  · rename_i other it₁ _ hdo
    obtain ⟨rfl, rfl⟩ := Prod.mk.inj h
    exact (size_doNext hdo).1

theorem next_reset (mem : GuestMemory) (htr : it.translation = none) (hcurrent : it.current = none) :
    it.next mem = (none, it) := by
  obtain ⟨iova, bitmap, translation, current⟩ := it
  cases htr
  cases hcurrent
  unfold next
  rw [doNext]
  rfl

theorem next_none (h : it.next mem = (none, it')) : it'.next mem = (none, it') := by
  unfold next at h
  split at h
  · cases h
  · obtain ⟨_, rfl⟩ := Prod.mk.inj h
    exact next_reset mem rfl rfl

/-- The iterator as a finite fused one. -/
def iter (mem : GuestMemory) : Iter (IommuSliceIterator R) (Outcome Error GuestSlice) where
  next := next mem
  size := size
  size_lt := next_size_lt
  fused := next_none

end IommuSliceIterator

/-! ## The two nested iterators as lists -/

/-- The physical slices, tracked from an I/O virtual address on; nothing comes after an error. -/
def relabel : Nat → List (Outcome Error GuestSlice) → List (Outcome Error GuestSlice)
  | _, [] => []
  | iova, .ok s :: rest =>
    match advance iova s.len with
    | .ok iova' => .ok { s with bitmap := ⟨.iova, iova⟩ } :: relabel iova' rest
    | .err e => [.err e]
    | .panic => [.panic]
  | _, .err e :: _ => [.err e]
  | _, .panic :: _ => [.panic]

/-- The physical slices of the ranges. -/
def physical (mem : GuestMemory) (ranges : List MappedRange) : List (Outcome Error GuestSlice) :=
  ranges.flatMap fun r => (getSlices r.base r.length).items mem

variable {s : GuestSlice}

namespace IommuSliceIterator

/-- The physical slices that an iterator still has to visit. -/
def Streams (mem : GuestMemory) (it : IommuSliceIterator R) (items : List (Outcome Error GuestSlice)) :
    Prop :=
  ∃ ranges, (it.translation.elim (.ok []) IotlbIterator.items) = .ok ranges ∧
    items = (it.current.elim [] fun c => c.items mem) ++ physical mem ranges

variable {mem : GuestMemory} {it it' : IommuSliceIterator R}

omit [RangeMapLike R] in
theorem streams_of_pull_none (h : it.pull mem = (none, it')) : (it.current.elim [] fun c => c.items mem) = [] := by
  unfold pull at h
  split at h
  · rename_i hcurrent
    rw [hcurrent]
    rfl
  · rename_i current hcurrent
    rcases hnext : current.next mem with ⟨item, current'⟩
    rw [hnext] at h
    cases h
    rw [hcurrent]
    exact items_of_none hnext

omit [RangeMapLike R] in
theorem streams_of_pull_some {item : Outcome Error GuestSlice} (h : it.pull mem = (some item, it')) :
    (it.current.elim [] fun c => c.items mem) = item :: it'.current.elim [] fun c => c.items mem := by
  obtain ⟨current, current', hcurrent, hnext, rfl⟩ := pull_eq_some h
  rw [hcurrent]
  exact items_of_some hnext

variable {items : List (Outcome Error GuestSlice)}

theorem doNext_streams (h : it.Streams mem items) : (items = [] ∧ ∃ it', it.doNext mem = (none, it')) ∨
      ∃ item rest, ∃ it' : IommuSliceIterator R, items = item :: rest ∧ it'.Streams mem rest ∧
        it'.iova = it.iova ∧ it'.bitmap = it.bitmap ∧
        it.doNext mem = (some (it'.emit item).1, (it'.emit item).2) := by
  obtain ⟨ranges, hranges, hitems⟩ := h
  fun_induction doNext mem it generalizing ranges with
  | case1 it item it' hpull =>
    obtain ⟨htr, hiova, hbitmap⟩ := pull_cases mem it
    rw [hpull] at htr hiova hbitmap
    rw [streams_of_pull_some hpull] at hitems
    refine .inr ⟨item, _, it', hitems, ⟨ranges, ?_, rfl⟩, hiova, hbitmap, rfl⟩
    rw [htr]
    exact hranges
  | case2 it it' hpull htr =>
    rw [htr] at hranges
    cases hranges
    rw [streams_of_pull_none hpull] at hitems
    exact .inl ⟨hitems, it', rfl⟩
  | case3 it it' hpull tr htr tr' hnext =>
    rw [htr] at hranges
    rcases next_of_items hranges with ⟨rfl, _⟩ | ⟨_, _, _, _, hnext', _⟩
    · rw [streams_of_pull_none hpull] at hitems
      exact .inl ⟨hitems, _, rfl⟩
    · rw [hnext] at hnext'
      cases hnext'
  | case4 it it₁ hpull tr htr mapping tr' hnext ih =>
    rw [htr] at hranges
    obtain ⟨_, hiova, hbitmap⟩ := pull_cases mem it
    rw [hpull] at hiova hbitmap
    rcases next_of_items hranges with ⟨_, _, hnext'⟩ | ⟨_, ranges', _, rfl, hnext', hrest⟩ <;>
      rw [hnext] at hnext' <;> cases hnext'
    rw [streams_of_pull_none hpull] at hitems
    rcases ih ranges' hrest hitems with hend | ⟨item, rest, it', hcons, hs, hiova', hbitmap', hdo⟩
    · exact .inl hend
    · exact .inr ⟨item, rest, it', hcons, hs, hiova'.trans hiova, hbitmap'.trans hbitmap, hdo⟩
  | case5 it it' hpull tr htr e hnext =>
    rw [htr] at hranges
    rcases next_of_items hranges with ⟨_, _, hnext'⟩ | ⟨_, _, _, _, hnext', _⟩ <;>
      rw [hnext] at hnext' <;> cases hnext'
  | case6 it it' hpull tr htr hnext =>
    rw [htr] at hranges
    rcases next_of_items hranges with ⟨_, _, hnext'⟩ | ⟨_, _, _, _, hnext', _⟩ <;>
      rw [hnext] at hnext' <;> cases hnext'

theorem items_of_doNext_ok (hdo : it.doNext mem = (some (.ok s), it')) :
    (iter mem).items it = .ok s :: (iter mem).items it' := by
  apply (iter mem).items_of_some
  show it.next mem = _
  unfold next
  rw [hdo]

theorem items_of_doNext_error {e : Outcome Error GuestSlice} (hdo : it.doNext mem = (some e, it'))
    (herr : e.isOk = false) : (iter mem).items it = [e] := by
  have hnext : it.next mem = (some e, { it' with translation := none, current := none }) := by
    unfold next
    rw [hdo]
    cases e with
    | ok s => cases herr
    | err e => rfl
    | panic => rfl
  rw [(iter mem).items_of_some hnext, (iter mem).items_of_none (next_reset mem rfl rfl)]

theorem items_eq_relabel (h : it.Streams mem items) (hbitmap : it.bitmap = true) :
    (iter mem).items it = relabel it.iova items := by
  induction items generalizing it with
  | nil =>
    rcases doNext_streams h with ⟨_, it', hdo⟩ | ⟨item, rest, it', hcons, _⟩
    · apply (iter mem).items_of_none
      show it.next mem = _
      unfold next
      rw [hdo]
    · cases hcons
  | cons item rest ih =>
    rcases doNext_streams h with ⟨hnil, _⟩ | ⟨item', rest', it', hcons, hs, hiova, hbit, hdo⟩
    · cases hnil
    · obtain ⟨rfl, rfl⟩ := cons.inj hcons
      cases item with
      | ok s =>
        unfold relabel
        rw [← hiova]
        cases hadv : advance it'.iova s.len with
        | ok iova =>
          have hemit : it'.emit (.ok s) = (.ok { s with bitmap := ⟨.iova, it'.iova⟩ }, { it' with iova := iova }) := by
            simp only [emit, hadv, hbit, hbitmap, if_true]
          rw [hemit] at hdo
          have hrest : ({ it' with iova := iova } : IommuSliceIterator R).Streams mem rest := hs
          rw [items_of_doNext_ok hdo, ih hrest (hbit.trans hbitmap)]
        | err e | panic =>
          simp only [emit, hadv] at hdo
          exact items_of_doNext_error hdo rfl
      | err e | panic => exact items_of_doNext_error hdo rfl

end IommuSliceIterator

/-! ## Relabelled slices -/

/-- The slices with the bitmap of the I/O virtual addresses, from an address on. -/
def label : Nat → List GuestSlice → List GuestSlice
  | _, [] => []
  | iova, s :: ss => { s with bitmap := ⟨.iova, iova⟩ } :: label (iova + s.len) ss

variable {addr iova : Nat}

theorem advance_of_le {len : Nat} (h : addr + len ≤ U64_MAX) : advance addr len = .ok (addr + len) :=
  if_pos h

variable {ss : List GuestSlice}

theorem relabel_map_ok (h : iova + totalLen ss ≤ U64_MAX) : relabel iova (ss.map .ok) = (label iova ss).map .ok := by
  induction ss generalizing iova with
  | nil => rfl
  | cons s ss ih =>
    rw [totalLen_cons] at h
    simp only [map_cons, relabel, label]
    rw [advance_of_le (by omega)]
    dsimp only
    rw [ih (by omega)]

variable {items : List (Outcome Error GuestSlice)}

theorem relabel_all_ok (h : iova + totalLen (items.filterMap toOption) ≤ U64_MAX) :
    (∀ item ∈ relabel iova items, item.isOk = true) ↔ ∀ item ∈ items, item.isOk = true := by
  induction items generalizing iova with
  | nil => simp [relabel]
  | cons item rest ih =>
    cases item with
    | ok s =>
      have h : iova + (s.len + totalLen (rest.filterMap toOption)) ≤ U64_MAX := h
      simp only [relabel]
      rw [advance_of_le (by omega)]
      simp only [forall_mem_cons]
      rw [ih (by omega)]
      exact and_congr_left fun _ => ⟨fun _ => rfl, fun _ => rfl⟩
    | err e | panic => simp [relabel, isOk]

theorem relabel_error_last {n : Nat} {e : Error} (h : (relabel iova items)[n]? = some (.err e)) :
    (relabel iova items).length = n + 1 := by
  induction items generalizing iova n with
  | nil => simp [relabel] at h
  | cons item rest ih =>
    cases item with
    | ok s =>
      simp only [relabel] at h ⊢
      split at h
      · cases n with
        | zero => simp at h
        | succ n => exact congrArg (· + 1) (ih h)
      · cases n with
        | zero => rfl
        | succ n => simp at h
      · cases n with
        | zero | succ n => simp at h
    | err e' =>
      cases n with
      | zero => rfl
      | succ n => simp [relabel] at h
    | panic =>
      cases n with
      | zero | succ n => simp [relabel] at h

theorem label_addresses (iova : Nat) (ss : List GuestSlice) :
    (label iova ss).flatMap GuestSlice.addresses = ss.flatMap GuestSlice.addresses := by
  induction ss generalizing iova with
  | nil => rfl
  | cons s ss ih =>
    rw [label, flatMap_cons, ih]
    rfl

theorem totalLen_label (iova : Nat) (ss : List GuestSlice) : totalLen (label iova ss) = totalLen ss := by
  induction ss generalizing iova with
  | nil => rfl
  | cons s ss ih => rw [label, totalLen_cons, totalLen_cons, ih]

theorem exists_mem_of_mem_label (h : s ∈ label iova ss) : ∃ b, ⟨s.toVolatileSlice, b⟩ ∈ ss := by
  induction ss generalizing iova with
  | nil => cases h
  | cons s' ss ih =>
    rcases mem_cons.1 h with rfl | h
    · exact ⟨s'.bitmap, mem_cons_self⟩
    · obtain ⟨b, hb⟩ := ih h
      exact ⟨b, mem_cons_of_mem _ hb⟩

theorem bitmap_of_label {before after : List GuestSlice} (h : label iova ss = before ++ s :: after) :
    s.bitmap = ⟨.iova, iova + totalLen before⟩ := by
  induction before generalizing iova ss with
  | nil =>
    cases ss with
    | nil => cases h
    | cons s' ss =>
      obtain ⟨rfl, _⟩ := cons.inj h
      rfl
  | cons b before ih =>
    cases ss with
    | nil => cases h
    | cons s' ss =>
      obtain ⟨rfl, hrest⟩ := cons.inj h
      rw [ih hrest, totalLen_cons, Nat.add_assoc]

theorem Consecutive.addresses_eq (h : Consecutive addr ss) :
    ss.flatMap GuestSlice.addresses = (range (totalLen ss)).map fun i => addr + i := by
  induction ss generalizing addr with
  | nil => rfl
  | cons s ss ih =>
    obtain ⟨rfl, hrest⟩ := h
    rw [flatMap_cons, ih hrest, totalLen_cons, range_add, map_append, map_map]
    congr 1
    apply map_congr_left
    intro i _
    rw [Function.comp_apply, Nat.add_assoc]

end RustVmm.VmMemory
