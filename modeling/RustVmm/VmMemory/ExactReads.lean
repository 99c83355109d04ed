import RustVmm.VmMemory.Transfers
import RustVmm.VmMemory.ShortReads

/-!
# Exact reads

`read_exact_volatile_from` of a slice asks the source again until the slice is full.  That of guest memory is one
pass of `read_volatile_from` over the slices of the range, and a check of the number of bytes.

* `Supplies` — a source that answers with at least a byte until it has delivered enough.
* `fill_of_supplies` — the loop on a slice stores what such a source delivers.
* `read_exact_volatile_iff` — the call on guest memory does so exactly if each delivery fills its slice; for
  `short_read_is_partial` the first delivery does not.
-/

set_option autoImplicit false

namespace RustVmm.VmMemory

open Lib GuestMemory List GuestSlice GuestMemoryT

variable {σ : Type}

/-! ## The loop on a slice -/

variable {s : GuestSlice}

namespace GuestSlice

theorem offset_eq_ok {rest : GuestSlice} {count : Nat} (h : s.offset count = .ok rest) :
    count ≤ s.len ∧ rest.len = s.len - count ∧ rest.guestAddr = s.guestAddr + count := by
  unfold offset at h
  by_cases hle : count ≤ s.len
  · rw [checkedSub_of_le hle] at h
    cases h
    exact ⟨hle, rfl, rfl⟩
  · rw [checkedSub_of_lt (Nat.not_le.1 hle)] at h
    cases h

theorem offset_of_le {count : Nat} (hle : count ≤ s.len) : ∃ rest, s.offset count = .ok rest := by
  rw [offset, checkedSub_of_le hle]
  exact ⟨_, rfl⟩

/-- The loop of `read_exact_volatile` on the part of the buffer that is still empty. -/
def fill [ReadVolatile σ] (partialBuf : GuestSlice) (src : σ) : Traced.Result σ Effect Error Unit :=
  if partialBuf.len = 0 then ⟨.ok (), src, []⟩
  else
    let r := partialBuf.readVolatile src
    match r.outcome with
    | .ok bytesRead =>
      if _hzero : bytesRead = 0 then ⟨.err (.ioError .unexpectedEof), r.state, r.trace⟩
      else
        match _hoffset : partialBuf.offset bytesRead with
        | .ok rest =>
          let r' := rest.fill r.state
          ⟨r'.outcome, r'.state, r.trace ++ r'.trace⟩
        | .err e => ⟨.err e, r.state, r.trace⟩
        | .panic => ⟨.panic, r.state, r.trace⟩
    | .err e => ⟨.err e, r.state, r.trace⟩
    | .panic => ⟨.panic, r.state, r.trace⟩
termination_by partialBuf.len
decreasing_by
  obtain ⟨hle, hlen, _⟩ := offset_eq_ok _hoffset
  omega

def readExactVolatile [ReadVolatile σ] (buf : GuestSlice) : Traced σ Effect Error Unit := do
  let partialBuf ← .lift (buf.offset 0)
  partialBuf.fill

def readExactVolatileFrom [ReadVolatile σ] (s : GuestSlice) (addr count : Nat) : Traced σ Effect Error Unit := do
  let slice ← .lift (s.subslice addr count)
  slice.readExactVolatile

theorem subslice_of_le {offset count : Nat} (hlen : s.len ≤ U64_MAX) (hle : offset + count ≤ s.len) :
    ∃ part, s.subslice offset count = .ok part ∧ part.guestAddr = s.guestAddr + offset ∧ part.len = count := by
  rw [subslice, checkedAdd_of_le (Nat.le_trans hle hlen), Outcome.okOr_some, Outcome.ok_bind, if_neg (Nat.not_lt.2 hle)]
  exact ⟨_, rfl, rfl, rfl⟩

end GuestSlice

/-! ## Sources with enough bytes -/

inductive Supplies [ReadVolatile σ] : Nat → σ → Prop
  | done (src : σ) : Supplies 0 src
  | more {n : Nat} {src : σ}
      (answers : ∀ len, 0 < len → ∃ data src', deliver len src = (some data, src') ∧ data ≠ [])
      (next : ∀ len data src', 0 < len → deliver len src = (some data, src') → Supplies (n - data.length) src') :
      Supplies n src

variable {n count : Nat} {src : σ}

theorem Supplies.deliver [ReadVolatile σ] {len : Nat} (h : Supplies n src) (hn : 0 < n) (hlen : 0 < len) :
    ∃ data src', deliver len src = (some data, src') ∧ 0 < data.length ∧ data.length ≤ len ∧
      Supplies (n - data.length) src' := by
  cases h with
  | done => exact absurd hn (Nat.lt_irrefl 0)
  | more hanswers hnext =>
    obtain ⟨data, src', hdeliver, hne⟩ := hanswers len hlen
    exact ⟨data, src', hdeliver, length_pos_iff.2 hne, length_le_of_deliver hdeliver, hnext len data src' hlen hdeliver⟩

theorem supplies_packets {packets : List (List UInt8)} (hne : ∀ p ∈ packets, p ≠ []) (hn : n ≤ packets.length) :
    Supplies n (⟨packets⟩ : Packets) := by
  induction packets generalizing n with
  | nil =>
    obtain rfl := Nat.le_zero.1 hn
    exact .done _
  | cons packet packets ih =>
    have hdeliver : ∀ len, deliver len (⟨packet :: packets⟩ : Packets) = (some (packet.take len), ⟨packets⟩) := by
      intro len
      rw [VmMemory.deliver]
      rfl
    have hpacket : packet ≠ [] := hne packet mem_cons_self
    have htake : ∀ len, 0 < len → packet.take len ≠ [] := by
      intro len hlen hnil
      exact (take_eq_nil_iff.1 hnil).elim (Nat.ne_of_gt hlen) hpacket
    refine .more (fun len hlen => ⟨_, _, hdeliver len, htake len hlen⟩) ?_
    intro len data src' hlen heq
    rw [hdeliver] at heq
    cases heq
    have hpos := length_pos_iff.2 (htake len hlen)
    rw [length_cons] at hn
    exact ih (fun p hp => hne p (mem_cons_of_mem _ hp)) (by omega)

/-! ## One slice -/

/-- The bytes of a source are stored one after the other. -/
structure StoredFrom (addr count : Nat) (r : Traced.Result (Recorded σ) Effect Error Unit) : Prop where
  ok : r.outcome = .ok ()
  length : r.state.consumed.length = count
  bytes : ∀ bytes, applyBytes bytes r.trace = storeBytes bytes addr r.state.consumed

theorem fill_of_supplies [ReadVolatile σ] {buf : GuestSlice} (h : Supplies n src) (hn : buf.len ≤ n)
    (consumed : List UInt8) :
    ∃ data src' trace, buf.fill (⟨src, consumed⟩ : Recorded σ) = ⟨.ok (), ⟨src', consumed ++ data⟩, trace⟩ ∧
      data.length = buf.len ∧ ∀ bytes, applyBytes bytes trace = storeBytes bytes buf.guestAddr data := by
  -- by what is left of the buffer
  induction hlen : buf.len using Nat.strong_induction_on generalizing n buf src consumed with
  | _ len ih =>
    subst hlen
    by_cases hzero : buf.len = 0
    · refine ⟨[], src, [], ?_, hzero.symm, fun bytes => (storeBytes_nil ..).symm⟩
      rw [fill, if_pos hzero, append_nil]
    · have hpos : 0 < buf.len := Nat.pos_of_ne_zero hzero
      obtain ⟨data, src', hdeliver, hdata, hle, hsup⟩ := h.deliver (Nat.lt_of_lt_of_le hpos hn) hpos
      obtain ⟨trace, hread, happly⟩ := readVolatile_of_deliver hdeliver consumed
      obtain ⟨rest, hoffset⟩ := offset_of_le hle
      obtain ⟨_, hrest, haddr⟩ := offset_eq_ok hoffset
      obtain ⟨data', src'', trace', hfill, hdata', happly'⟩ :=
        ih rest.len (by omega) hsup (by omega) (consumed ++ data) rfl
      refine ⟨data ++ data', src'', trace ++ trace', ?_, ?_, fun bytes => ?_⟩
      · rw [fill, if_neg hzero]
        simp only [hread, dif_neg (Nat.ne_of_gt hdata)]
        split <;> rename_i hcase <;> rw [hoffset] at hcase <;> cases hcase
        rw [hfill, append_assoc]
      · rw [length_append, hdata']
        omega
      · rw [applyBytes_append, happly, happly', haddr, storeBytes_append bytes _ rfl]

theorem readExactVolatileFrom_of_supplies [ReadVolatile σ] (h : Supplies count src)
    (hlen : s.len ≤ U64_MAX) {off : Nat} (hle : off + count ≤ s.len) :
    StoredFrom (s.guestAddr + off) count (s.readExactVolatileFrom off count (⟨src, []⟩ : Recorded σ)) := by
  obtain ⟨part, hpart, haddr, hcount⟩ := subslice_of_le hlen hle
  obtain ⟨buf, hbuf⟩ := offset_of_le (Nat.zero_le part.len)
  obtain ⟨_, hbuflen, hbufaddr⟩ := offset_eq_ok hbuf
  have hroom : buf.len ≤ count := by omega
  obtain ⟨data, src', trace, hfill, hdata, happly⟩ := fill_of_supplies h hroom []
  have hrun : s.readExactVolatileFrom off count (⟨src, []⟩ : Recorded σ) = ⟨.ok (), ⟨src', [] ++ data⟩, trace⟩ := by
    rw [GuestSlice.readExactVolatileFrom, hpart, Traced.lift_ok_bind, readExactVolatile, hbuf, ← hfill]
    rfl
  rw [hrun]
  refine ⟨rfl, by show data.length = count; omega, fun bytes => ?_⟩
  rw [← haddr, ← Nat.add_zero part.guestAddr, ← hbufaddr]
  exact happly bytes

/-! ## Guest memory -/

variable {lens : List Nat}

theorem exists_deliveries [ReadVolatile σ] (h : Supplies n src) (hpos : ∀ len ∈ lens, 0 < len) (hn : lens.sum ≤ n) :
    ∃ ds, deliveries lens src = some ds := by
  induction lens generalizing n src with
  | nil => exact ⟨[], rfl⟩
  | cons len lens ih =>
    rw [sum_cons] at hn
    have hlen : 0 < len := hpos len mem_cons_self
    obtain ⟨data, src', hdeliver, _, hle, hsup⟩ := h.deliver (by omega) hlen
    obtain ⟨ds, hds⟩ := ih hsup (fun l hl => hpos l (mem_cons_of_mem _ hl)) (by omega)
    exact ⟨data :: ds, by simp only [deliveries, hdeliver, hds, Option.map_some]⟩

variable {ds : List (List UInt8)} {mem : GuestMemory}

theorem Fit.length_flatten_le (h : Fit lens ds) : ds.flatten.length ≤ lens.sum := by
  induction h with
  | nil => exact Nat.le_refl 0
  | cons hle _ ih =>
    rw [flatten_cons, length_append]
    exact Nat.add_le_add hle ih

theorem Fit.length_flatten_eq_iff (h : Fit lens ds) : ds.flatten.length = lens.sum ↔ ds.map length = lens := by
  induction h with
  | nil => exact iff_of_true rfl rfl
  | @cons len data lens ds hle hfit ih =>
    have hrest := Fit.length_flatten_le hfit
    rw [flatten_cons, length_append, sum_cons, map_cons, cons.injEq, ← ih]
    omega

theorem noGap_of_filled (h : ds.map length = lens) : NoGap lens ds := by
  subst h
  induction ds with
  | nil => trivial
  | cons data ds ih =>
    rw [map_cons, NoGap, if_pos rfl]
    exact ih

/-- Asked for the lengths of the slices of the range in turn, the source fills each slice with one delivery. -/
def FillsEach [ReadVolatile σ] (mem : GuestMemory) (addr count : Nat) (src : σ) : Prop :=
  ∃ ds, deliveries (mem.fragments addr count) src = some ds ∧ ds.map List.length = mem.fragments addr count

theorem readExactVolatileFrom_of_mapped [ReadVolatile σ] {addr : Nat}
    (hmapped : mem.Mapped addr count) (h : Supplies count src) :
    ∃ ds state trace, deliveries (mem.fragments addr count) src = some ds ∧ Fit (mem.fragments addr count) ds ∧
      (mem.fragments addr count).sum = count ∧ state.consumed = ds.flatten ∧
      (∀ bytes, applyBytes bytes trace = place bytes addr (mem.fragments addr count) ds) ∧
      mem.asT.readExactVolatileFrom addr count (⟨src, []⟩ : Recorded σ) =
        ⟨if ds.flatten.length = count then .ok () else .err (.partialBuffer count ds.flatten.length), state, trace⟩ := by
  obtain ⟨ss, hss, hslices⟩ := slices_asT mem addr count .write
  have hle : count ≤ totalLen ss := (hss.mapped_iff_le (Nat.le_refl _)).1 hmapped
  have hsum : totalLen ss = count := Nat.le_antisymm hss.totalLen_le hle
  rw [if_neg (by rintro ⟨rfl, hne⟩; exact hne hsum.symm)] at hslices
  rw [fragments_of_slices hslices]
  have hpos : ∀ len ∈ ss.map fun s => s.len, 0 < len := by
    intro len hlen
    obtain ⟨s, hs, rfl⟩ := mem_map.1 hlen
    exact (hss.backs s hs).len_pos
  obtain ⟨ds, hds⟩ := exists_deliveries h hpos (Nat.le_of_eq hsum)
  obtain ⟨src', trace, hloop, hfit, happly⟩ := foldlM_of_deliveries hss.backs hss.consecutive hds [] 0
  refine ⟨ds, ⟨src', ds.flatten⟩, trace, hds, hfit, hsum, rfl, happly, ?_⟩
  have hread : mem.asT.readVolatileFrom addr count (⟨src, []⟩ : Recorded σ) =
      ⟨.ok ds.flatten.length, ⟨src', ds.flatten⟩, trace⟩ := by
    rw [GuestMemoryT.readVolatileFrom, hslices, Traced.lift_ok_bind, hloop, Nat.zero_add, nil_append]
  refine Traced.bind_of_ok_of_silent hread ?_
  by_cases hlen : ds.flatten.length = count
  · rw [if_neg (fun hne => hne hlen), if_pos hlen]
    rfl
  · rw [if_pos hlen, if_neg hlen]
    rfl

/-- **When an exact read tolerates short reads.**  For a range that is mapped, and a source that has as many bytes,
the exact read of guest memory stores them one after the other if and only if the source fills each slice of the
range with one delivery, and otherwise returns that the buffer is partial.  The exact read of a slice stores them
for every such source. -/
theorem read_exact_volatile_iff [ReadVolatile σ] (mem : GuestMemory) (addr count : Nat) (src : σ)
    (hmapped : mem.Mapped addr count) (h : Supplies count src) :
    (StoredFrom addr count (mem.asT.readExactVolatileFrom addr count (⟨src, []⟩ : Recorded σ)) ↔
      FillsEach mem addr count src) ∧
    (¬ FillsEach mem addr count src → ∃ n < count,
      (mem.asT.readExactVolatileFrom addr count (⟨src, []⟩ : Recorded σ)).outcome = .err (.partialBuffer count n)) ∧
    ∀ s : GuestSlice, s.len ≤ U64_MAX → ∀ off, off + count ≤ s.len →
      StoredFrom (s.guestAddr + off) count (s.readExactVolatileFrom off count (⟨src, []⟩ : Recorded σ)) := by
  obtain ⟨ds, state, trace, hds, hfit, hsum, hconsumed, happly, hrun⟩ := readExactVolatileFrom_of_mapped hmapped h
  have hfills : FillsEach mem addr count src ↔ ds.flatten.length = count := by
    have hfull := hfit.length_flatten_eq_iff
    rw [hsum] at hfull
    rw [hfull]
    constructor
    · rintro ⟨ds', hds', heq⟩
      rw [hds] at hds'
      cases hds'
      exact heq
    · intro heq
      exact ⟨ds, hds, heq⟩
  rw [hrun, hfills]
  refine ⟨⟨fun hstored => ?_, fun hlen => ?_⟩, fun hlen => ?_, fun s hs off hoff =>
    readExactVolatileFrom_of_supplies h hs hoff⟩
  · rw [← hconsumed]
    exact hstored.length
  · have hfull : ds.map length = mem.fragments addr count := by
      rw [← hfit.length_flatten_eq_iff, hsum]
      exact hlen
    refine ⟨if_pos hlen, by rw [hconsumed]; exact hlen, fun bytes => ?_⟩
    rw [happly, (noGap_of_filled hfull).place_eq hfit, hconsumed]
  · have hle := hfit.length_flatten_le
    exact ⟨ds.flatten.length, by omega, if_neg hlen⟩

theorem read_exact_volatile_two_regions :
    StoredFrom 3 2 (twoRegions.asT.readExactVolatileFrom 3 2 (⟨⟨[[1], [2]]⟩, []⟩ : Recorded Packets)) :=
  have hmapped : twoRegions.Mapped 3 2 := by
    rw [← checkRange_iff]
    decide +kernel
  ((read_exact_volatile_iff twoRegions 3 2 (⟨[[1], [2]]⟩ : Packets) hmapped (supplies_packets (by decide) (by decide))).1).2
    ⟨[[1], [2]], by decide +kernel, by decide +kernel⟩

/-- **A short read makes an exact read fail**: of two packets of one byte each, an exact read of two bytes into one
region takes only the first one, where the loop on a slice of two bytes takes both. -/
theorem short_read_is_partial : Supplies 2 (⟨[[1], [2]]⟩ : Packets) ∧ twoRegions.Mapped 0 2 ∧
    (twoRegions.asT.readExactVolatileFrom 0 2 (⟨[[1], [2]]⟩ : Packets)).outcome = .err (.partialBuffer 2 1) ∧
    ∃ s, twoRegions.getSlice 0 2 = .ok s ∧ (s.readExactVolatileFrom 0 2 (⟨[[1], [2]]⟩ : Packets)).outcome = .ok () := by
  refine ⟨supplies_packets (by decide) (by decide), ?_, by decide +kernel, _, rfl, by decide +kernel⟩
  rw [← checkRange_iff]
  decide +kernel

end RustVmm.VmMemory
