import Mathlib.Data.List.Forall2
import RustVmm.VmMemory.Effects

/-!
# Reading from sources that deliver less than asked

`read_volatile_from` goes over the slices of the range and lets the source fill one after the other.  A source may
deliver less than the slice has room for; the walk goes on with the next slice nevertheless.

* `deliveries` are what the source delivers for the slices in turn, `place` the memory that the walk makes of them.
* `place_eq_iff` — they are stored one after the other exactly if nothing follows a short one (`NoGap`).
* `read_volatile_contiguous_iff` — the same for the call; `short_read_leaves_gap` is a source for which it fails.
-/

set_option autoImplicit false

namespace RustVmm.VmMemory

open Lib GuestMemory List GuestSlice ReadVolatile

/-! ## Sources -/

/-- A source, and the bytes that were consumed from it. -/
structure Recorded (σ : Type) where
  inner : σ
  consumed : List UInt8

variable {σ : Type}

instance [ReadVolatile σ] : ReadVolatile (Recorded σ) where
  readVolatile src len :=
    match ReadVolatile.readVolatile src.inner len with
    | (.bytes data, inner) => (.bytes data, ⟨inner, src.consumed ++ data⟩)
    | (.interrupted, inner) => (.interrupted, ⟨inner, src.consumed⟩)
    | (.error kind touched, inner) => (.error kind touched, ⟨inner, src.consumed⟩)
  patience src := ReadVolatile.patience src.inner
  bytes_le h := by
    split at h <;> cases h
    exact ReadVolatile.bytes_le ‹_›
  touched_le h := by
    split at h <;> cases h
    exact ReadVolatile.touched_le ‹_›
  patience_lt h := by
    split at h <;> cases h
    exact ReadVolatile.patience_lt ‹_›

/-- A source that delivers at most one packet for each call, as a socket or a pipe does. -/
structure Packets where
  packets : List (List UInt8)

instance : ReadVolatile Packets where
  readVolatile src len :=
    match src.packets with
    | [] => (.bytes [], src)
    | packet :: packets => (.bytes (packet.take len), ⟨packets⟩)
  patience _ := 0
  bytes_le h := by
    split at h <;> cases h
    · exact Nat.zero_le _
    · exact List.length_take_le _ _
  touched_le h := by split at h <;> cases h
  patience_lt h := by split at h <;> cases h

/-- What a source delivers when it is asked for a length until it is not interrupted. -/
def deliver [ReadVolatile σ] (len : Nat) (src : σ) : Option (List UInt8) × σ :=
  match _h : ReadVolatile.readVolatile src len with
  | (.bytes data, src') => (some data, src')
  | (.error _ _, src') => (none, src')
  | (.interrupted, src') => deliver len src'
termination_by ReadVolatile.patience src
decreasing_by exact ReadVolatile.patience_lt _h

/-- What it delivers when it is asked for several lengths in turn. -/
def deliveries [ReadVolatile σ] : List Nat → σ → Option (List (List UInt8))
  | [], _ => some []
  | len :: lens, src =>
    match deliver len src with
    | (some data, src') => (deliveries lens src').map (data :: ·)
    | (none, _) => none

/-! ## Contents -/

/-- The contents when each delivery is stored at the start of its slice. -/
def place (bytes : Nat → UInt8) : Nat → List Nat → List (List UInt8) → Nat → UInt8
  | addr, len :: lens, data :: ds => place (storeBytes bytes addr data) (addr + len) lens ds
  | _, [], _ => bytes
  | _, _ :: _, [] => bytes

/-- After a delivery that does not fill its slice there are only empty ones. -/
def NoGap : List Nat → List (List UInt8) → Prop
  | len :: lens, data :: ds => if data.length = len then NoGap lens ds else ∀ d ∈ ds, d = []
  | [], _ => True
  | _ :: _, [] => True

/-- The deliveries fit into the slices. -/
abbrev Fit (lens : List Nat) (ds : List (List UInt8)) : Prop := List.Forall₂ (fun len data => data.length ≤ len) lens ds

variable {lens : List Nat} {ds : List (List UInt8)}

theorem place_of_empty (h : ∀ d ∈ ds, d = []) (bytes : Nat → UInt8) (addr : Nat) :
    place bytes addr lens ds = bytes := by
  induction ds generalizing addr lens with
  | nil => cases lens <;> rfl
  | cons d ds ih =>
    cases lens with
    | nil => rfl
    | cons len lens =>
      rw [place, h d mem_cons_self, storeBytes_nil]
      exact ih (fun d hd => h d (mem_cons_of_mem _ hd)) _

theorem NoGap.place_eq (hfit : Fit lens ds) (h : NoGap lens ds) (bytes : Nat → UInt8) (addr : Nat) :
    place bytes addr lens ds = storeBytes bytes addr ds.flatten := by
  induction hfit generalizing bytes addr with
  | nil => simp [place]
  | @cons len data lens ds hle _ ih =>
    unfold NoGap at h
    rw [place, flatten_cons]
    split at h
    · rename_i hlen
      rw [ih h, storeBytes_append bytes addr hlen]
    · rw [place_of_empty h, flatten_eq_nil_iff.2 h, append_nil]

theorem exists_top (hfit : Fit lens ds) (h : ∃ d ∈ ds, d ≠ []) (addr : Nat) :
    ∃ a v, (∀ bytes, place bytes addr lens ds a = v) ∧ addr + ds.flatten.length ≤ a + 1 := by
  induction hfit generalizing addr with
  | nil => simp at h
  | @cons len data lens ds hle _ ih =>
    rw [flatten_cons, length_append]
    by_cases hrest : ∃ d ∈ ds, d ≠ []
    · obtain ⟨a, v, hv, ha⟩ := ih hrest (addr + len)
      exact ⟨a, v, fun bytes => hv _, by omega⟩
    · have hempty : ∀ d ∈ ds, d = [] := fun d hd => by_contra fun hne => hrest ⟨d, hd, hne⟩
      have hdata : 0 < data.length := by
        obtain ⟨d, hd, hne⟩ := h
        rcases mem_cons.1 hd with rfl | hd
        · exact length_pos_iff.2 hne
        · exact absurd (hempty d hd) hne
      refine ⟨addr + (data.length - 1), data[data.length - 1], fun bytes => ?_, ?_⟩
      · rw [place, place_of_empty hempty]
        exact storeBytes_of_lt bytes _
      · rw [flatten_eq_nil_iff.2 hempty, length_nil]
        omega

theorem exists_beyond (hfit : Fit lens ds) (h : ¬ NoGap lens ds) (addr : Nat) :
    ∃ a v, (∀ bytes, place bytes addr lens ds a = v) ∧ addr + ds.flatten.length ≤ a := by
  induction hfit generalizing addr with
  | nil => exact absurd trivial h
  | @cons len data lens ds hle hfit ih =>
    unfold NoGap at h
    rw [flatten_cons, length_append]
    split at h
    · obtain ⟨a, v, hv, ha⟩ := ih h (addr + len)
      exact ⟨a, v, fun bytes => hv _, by omega⟩
    · have hlater : ∃ d ∈ ds, d ≠ [] := by
        by_contra hne
        exact h fun d hd => by_contra fun hd' => hne ⟨d, hd, hd'⟩
      obtain ⟨a, v, hv, ha⟩ := exists_top hfit hlater (addr + len)
      exact ⟨a, v, fun bytes => hv _, by omega⟩

theorem place_eq_iff (hfit : Fit lens ds) (addr : Nat) :
    (∀ bytes, place bytes addr lens ds = storeBytes bytes addr ds.flatten) ↔ NoGap lens ds := by
  constructor
  · intro h
    by_contra hgap
    obtain ⟨a, v, hv, ha⟩ := exists_beyond hfit hgap addr
    -- in a memory that holds something else at that address, a byte too far up has changed
    have hplace := hv fun _ => v + 1
    rw [h, storeBytes_of_outside _ (.inr ha)] at hplace
    simp at hplace
  · intro h bytes
    exact h.place_eq hfit bytes addr

/-! ## The walk over the slices -/

variable {src src' : σ}
variable {data : List UInt8}

theorem length_le_of_deliver [ReadVolatile σ] {len : Nat} (h : deliver len src = (some data, src')) :
    data.length ≤ len := by
  fun_induction deliver len src with
  | case1 src d s heq =>
    cases h
    exact bytes_le heq
  | case2 => cases h
  | case3 src s heq ih => exact ih h

variable {s : GuestSlice}

theorem readVolatile_of_deliver [ReadVolatile σ] (h : deliver s.len src = (some data, src')) (consumed : List UInt8) :
    ∃ trace, s.readVolatile (⟨src, consumed⟩ : Recorded σ) = ⟨.ok data.length, ⟨src', consumed ++ data⟩, trace⟩ ∧
      ∀ bytes, applyBytes bytes trace = storeBytes bytes s.guestAddr data := by
  fun_induction deliver s.len src with
  | case1 src d s' heq =>
    cases h
    have hread : readVolatile (⟨src, consumed⟩ : Recorded σ) s.len =
        (.bytes data, ⟨src', consumed ++ data⟩) := by
      simp only [ReadVolatile.readVolatile, heq]
    exact ⟨_, readVolatile_of_bytes hread, fun bytes => rfl⟩
  | case2 => cases h
  | case3 src s' heq ih =>
    have hread : readVolatile (⟨src, consumed⟩ : Recorded σ) s.len = (.interrupted, ⟨s', consumed⟩) := by
      simp only [ReadVolatile.readVolatile, heq]
    obtain ⟨trace, hrest, happly⟩ := ih h
    rw [readVolatile_of_interrupted hread, hrest]
    refine ⟨_, rfl, fun bytes => ?_⟩
    rw [applyBytes_cons, storeBytes_nil]
    exact happly bytes

theorem readVolatile_of_not_delivered [ReadVolatile σ] (h : (deliver s.len src).1 = none)
    (consumed : List UInt8) (n : Nat) : (s.readVolatile (⟨src, consumed⟩ : Recorded σ)).outcome ≠ .ok n := by
  fun_induction deliver s.len src with
  | case1 => cases h
  | case2 src kind touched src' heq =>
    have hread : readVolatile (⟨src, consumed⟩ : Recorded σ) s.len =
        (.error kind touched, ⟨src', consumed⟩) := by
      simp only [ReadVolatile.readVolatile, heq]
    rw [readVolatile_of_error hread]
    exact Outcome.err_ne_ok
  | case3 src src' heq ih =>
    have hread : readVolatile (⟨src, consumed⟩ : Recorded σ) s.len = (.interrupted, ⟨src', consumed⟩) := by
      simp only [ReadVolatile.readVolatile, heq]
    rw [readVolatile_of_interrupted hread]
    exact ih h

variable {ss : List GuestSlice}
variable {mem : GuestMemory}

open GuestMemoryT (readVolatileNext)

theorem readVolatileNext_of_deliver [ReadVolatile σ] (hs : mem.Backs s) (h : deliver s.len src = (some data, src'))
    (consumed : List UInt8) (acc : Nat) :
    ∃ trace, readVolatileNext acc s (⟨src, consumed⟩ : Recorded σ) =
        ⟨.ok (acc + data.length), ⟨src', consumed ++ data⟩, trace⟩ ∧
      ∀ bytes, applyBytes bytes trace = storeBytes bytes s.guestAddr data := by
  obtain ⟨trace, hread, happly⟩ := readVolatile_of_deliver h consumed
  rw [readVolatileNext, readVolatileFrom_eq hs]
  exact ⟨trace, Traced.bind_of_ok_of_silent hread rfl, happly⟩

theorem foldlM_of_deliveries [ReadVolatile σ] (hb : ∀ s ∈ ss, mem.Backs s) {addr : Nat} (hc : Consecutive addr ss)
    (h : deliveries (ss.map fun s => s.len) src = some ds) (consumed : List UInt8) (acc : Nat) :
    ∃ src' trace, ss.foldlM readVolatileNext acc (⟨src, consumed⟩ : Recorded σ) =
        ⟨.ok (acc + ds.flatten.length), ⟨src', consumed ++ ds.flatten⟩, trace⟩ ∧
      Fit (ss.map fun s => s.len) ds ∧
      ∀ bytes, applyBytes bytes trace = place bytes addr (ss.map fun s => s.len) ds := by
  induction ss generalizing addr src ds consumed acc with
  | nil =>
    cases h
    exact ⟨src, [], by rw [flatten_nil, append_nil]; rfl, .nil, fun bytes => rfl⟩
  | cons s ss ih =>
    obtain ⟨rfl, hrest⟩ := hc
    rw [map_cons, deliveries] at h
    split at h
    · rename_i data src' hdeliver
      obtain ⟨ds', hds', rfl⟩ := Option.map_eq_some_iff.1 h
      obtain ⟨trace, hstep, happly⟩ := readVolatileNext_of_deliver (hb s mem_cons_self) hdeliver consumed acc
      obtain ⟨src'', trace', hloop, hfit, happly'⟩ :=
        ih (fun s hs => hb s (mem_cons_of_mem _ hs)) hrest hds' (consumed ++ data) (acc + data.length)
      refine ⟨src'', trace ++ trace', ?_, .cons (length_le_of_deliver hdeliver) hfit, fun bytes => ?_⟩
      · rw [foldlM_cons, Traced.bind_of_ok_of_eq hstep hloop, flatten_cons, length_append, Nat.add_assoc, append_assoc]
      · rw [applyBytes_append, happly, happly']
        rfl
    · cases h

theorem exists_deliveries_of_ok [ReadVolatile σ] (hb : ∀ s ∈ ss, mem.Backs s) {consumed : List UInt8} {acc n : Nat}
    {state : Recorded σ} {trace : List Effect}
    (h : ss.foldlM readVolatileNext acc (⟨src, consumed⟩ : Recorded σ) = ⟨.ok n, state, trace⟩) :
    ∃ ds, deliveries (ss.map fun s => s.len) src = some ds := by
  induction ss generalizing src consumed acc trace with
  | nil => exact ⟨[], rfl⟩
  | cons s ss ih =>
    have hs := hb s mem_cons_self
    obtain ⟨acc', state₁, trace₁, trace₂, hstep, hloop, _⟩ := Traced.bind_eq_ok h
    cases hdeliver : deliver s.len src with
    | mk o src' =>
      cases o with
      | none =>
        obtain ⟨m, _, _, _, hread, _⟩ := Traced.bind_eq_ok hstep
        rw [readVolatileFrom_eq hs] at hread
        have hfails := readVolatile_of_not_delivered (congrArg Prod.fst hdeliver) consumed m
        exact absurd (congrArg Traced.Result.outcome hread) hfails
      | some data =>
        obtain ⟨_, hnext, _⟩ := readVolatileNext_of_deliver hs hdeliver consumed acc
        cases hnext.symm.trans hstep
        obtain ⟨ds, hds⟩ := ih (fun s hs => hb s (mem_cons_of_mem _ hs)) hloop
        exact ⟨data :: ds, by simp only [map_cons, deliveries, hdeliver, hds, Option.map_some]⟩

/-! ## Contiguous reads -/

/-- The lengths of the slices of a range, up to the first address that is not mapped. -/
def GuestMemory.fragments (mem : GuestMemory) (addr count : Nat) : List Nat :=
  (((getSlices addr count).items mem).filterMap Outcome.toOption).map fun s => s.len

/-- A source that delivers too little for a slice delivers nothing for the slices after it. -/
def ContiguousWhen [ReadVolatile σ] (mem : GuestMemory) (addr count : Nat) (src : σ) : Prop :=
  ∀ ds, deliveries (mem.fragments addr count) src = some ds → NoGap (mem.fragments addr count) ds

theorem fragments_of_slices {addr count : Nat} (h : mem.asT.slices addr count .write = .ok ss) :
    mem.fragments addr count = ss.map fun s => s.len := by
  have h : stopOnError ((getSlices addr count).items mem) = .ok ss := h
  unfold stopOnError at h
  split at h <;> cases h
  rfl

/-- **When a volatile read is contiguous.**  A call that returns `Ok(n)` has consumed `n` bytes.
These are stored one after the other from `addr` on, and nothing else changes, whatever the memory
held before, if and only if the source delivers nothing more once it has delivered too little for a
slice. -/
theorem read_volatile_contiguous_iff [ReadVolatile σ] (mem : GuestMemory) (addr count : Nat) (src : σ) {n : Nat}
    (h : (mem.asT.readVolatileFrom addr count (⟨src, []⟩ : Recorded σ)).outcome = .ok n) :
    let r := mem.asT.readVolatileFrom addr count (⟨src, []⟩ : Recorded σ)
    r.state.consumed.length = n ∧
    ((∀ bytes, ({ mem with bytes := bytes }.apply r.trace).bytes =
        storeBytes bytes addr r.state.consumed) ↔ ContiguousWhen mem addr count src) := by
  intro r
  have hr : mem.asT.readVolatileFrom addr count (⟨src, []⟩ : Recorded σ) = ⟨.ok n, r.state, r.trace⟩ := by rw [← h]
  obtain ⟨ss, state, trace₁, trace₂, hlift, hloop, htrace⟩ := Traced.bind_eq_ok hr
  obtain ⟨hslices, rfl, rfl⟩ := Traced.Result.mk.inj hlift
  have hss := yielded_of_slices hslices
  obtain ⟨ds, hds⟩ := exists_deliveries_of_ok hss.backs hloop
  obtain ⟨src', trace, hrun, hfit, happly⟩ := foldlM_of_deliveries hss.backs hss.consecutive hds [] 0
  obtain ⟨hok, hstate, rfl⟩ := Traced.Result.mk.inj (hloop.symm.trans hrun)
  obtain rfl : n = 0 + ds.flatten.length := Outcome.ok.inj hok
  have hconsumed : r.state.consumed = ds.flatten := congrArg Recorded.consumed hstate
  have hfrag := fragments_of_slices hslices
  refine ⟨by rw [hconsumed, Nat.zero_add], ?_⟩
  have hcond : ContiguousWhen mem addr count src ↔ NoGap (ss.map fun s => s.len) ds := by
    unfold ContiguousWhen
    rw [hfrag, hds]
    simp
  rw [hcond, ← place_eq_iff hfit addr, hconsumed, htrace, nil_append]
  simp only [apply, happly]
  rfl

def twoRegions : GuestMemory where
  regions := [⟨0, 4, 4096, by decide, by decide⟩, ⟨4, 4, 8192, by decide, by decide⟩]
  sorted := by decide
  bytes := fun _ => 0

theorem read_volatile_contiguous_two_regions :
    (twoRegions.asT.readVolatileFrom 2 4 (⟨[1, 2, 3, 4], []⟩ : Recorded (List UInt8))).outcome = .ok 4 ∧
    ((∀ bytes, ({ twoRegions with bytes := bytes }.apply
        (twoRegions.asT.readVolatileFrom 2 4 (⟨[1, 2, 3, 4], []⟩ : Recorded (List UInt8))).trace).bytes =
      storeBytes bytes 2
        (twoRegions.asT.readVolatileFrom 2 4 (⟨[1, 2, 3, 4], []⟩ : Recorded (List UInt8))).state.consumed) ↔
      ContiguousWhen twoRegions 2 4 ([1, 2, 3, 4] : List UInt8)) :=
  have h : (twoRegions.asT.readVolatileFrom 2 4
      (⟨[1, 2, 3, 4], []⟩ : Recorded (List UInt8))).outcome = .ok 4 := by decide +kernel
  ⟨h, (read_volatile_contiguous_iff twoRegions 2 4 ([1, 2, 3, 4] : List UInt8) h).2⟩

/-- **A short read leaves a gap**: of two packets of one byte each, the second one is stored at
address 4 and not at address 1, and the call returns `Ok(2)`. -/
theorem short_read_leaves_gap :
    let r := twoRegions.asT.readVolatileFrom 0 8 (⟨⟨[[1], [2]]⟩, []⟩ : Recorded Packets)
    r.outcome = .ok 2 ∧ r.state.consumed = [1, 2] ∧
      (twoRegions.apply r.trace).bytes 1 = 0 ∧ (twoRegions.apply r.trace).bytes 4 = 2 := by
  decide +kernel

end RustVmm.VmMemory
