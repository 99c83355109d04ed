import RustVmm.Lib.Counter
import RustVmm.VirtioQueue.Operations

/-!
# The used ring

What `add_used` publishes, in memory whose regions begin, end and are mapped on even addresses, as pages do.

* `addUsed_of_mapped` — it stores an entry and then `idx`; only the second store can fail if the slot is mapped.
* `Published.step` — what the ring holds after some calls, and after one more.
* `used_ring_publication` — the index, the entries and the counters after any number of calls.
-/

set_option autoImplicit false

namespace RustVmm.VirtioQueue

open Lib VmMemory GuestMemory Traced List

open QueueOp

variable {headIndex : UInt16}

namespace Queue

/-! ## One call -/

/-- The used ring can be written. -/
structure UsedReady (q : Queue) (mem : GuestMemory) : Prop where
  aligned : q.usedRing % 4 = 0
  even : mem.EvenRegions
  mapped : mem.Mapped q.usedRing (6 + 8 * q.size.toNat)
  size : q.size = 0 ∨ ∃ k ≤ 15, q.size.toNat = 2 ^ k

variable {q : Queue} {mem : GuestMemory}

theorem isValid_iff : q.isValid mem = true ↔ q.ready = true ∧ mem.Mapped q.descTable (16 * q.size.toNat) ∧
      mem.Mapped q.availRing (6 + 2 * q.size.toNat) ∧ mem.Mapped q.usedRing (6 + 8 * q.size.toNat) := by
  simp only [← checkRange_iff]
  unfold isValid
  simp [asT, DESCRIPTOR_SIZE, VIRTQ_AVAIL_RING_META_SIZE, VIRTQ_AVAIL_RING_HEADER_SIZE,
    VIRTQ_AVAIL_ELEMENT_SIZE, VIRTQ_USED_RING_META_SIZE, VIRTQ_USED_RING_HEADER_SIZE,
    VIRTQ_USED_ELEMENT_SIZE]

theorem usedReady_of_valid (hq : QueueCall.Reachable q) (hvalid : q.isValid mem = true) (heven : mem.EvenRegions) :
    q.UsedReady mem := by
  have hconf := hq.configured
  refine ⟨?_, heven, ?_, ?_⟩
  · have hand := hconf.usedRing_and
    rwa [show (0x3 : Nat) = 2 ^ 2 - 1 from rfl, Nat.and_two_pow_sub_one_eq_mod] at hand
  · exact (isValid_iff.1 hvalid).2.2.2
  · by_cases hzero : q.size = 0
    · exact .inl hzero
    · exact .inr (size_eq_two_pow hzero hconf.size_and (UInt16.le_trans hconf.size_le hconf.maxSize_le))

def usedSlot (q : Queue) (k : Nat) : Nat := q.usedRing + (4 + k % q.size.toNat * 8)

theorem usedSlot_lt (hpos : 0 < q.size.toNat) (k : Nat) : q.usedSlot k + 8 ≤ q.usedRing + 4 + 8 * q.size.toNat := by
  have := Nat.mod_lt k hpos
  unfold usedSlot
  omega

theorem UsedReady.usedSlot_ofNat (h : q.UsedReady mem) (hpos : 0 < q.size.toNat) (k : Nat) :
    q.usedSlot (UInt16.ofNat k).toNat = q.usedSlot k := by
  rcases h.size with hzero | ⟨e, he, hsize⟩
  · rw [hzero] at hpos
    cases hpos
  · have hmod := Counter.toNat_ofNat_mod (Nat.le_succ_of_le he) hsize k
    rw [UInt16.toNat_mod] at hmod
    rw [usedSlot, usedSlot, hmod]

theorem addUsed_of_large (h : q.size ≤ headIndex) (len : UInt32) (mem : GuestMemory) :
    addUsed headIndex len ⟨q, mem⟩ = ⟨.err .invalidDescriptorIndex, ⟨q, mem⟩, []⟩ := by
  unfold addUsed
  rw [get_bind_apply, if_pos h, lift_apply]

theorem addUsed_of_lt (h : headIndex < q.size) (len : UInt32) :
    addUsed headIndex len ⟨q, mem⟩ = (do
      let addr ← addressAt q.usedRing (4 + q.nextUsed.toNat % q.size.toNat * 8)
      access fun mem => mem.asT.writeSlice (VirtqUsedElem.mk headIndex.toUInt32 len).bytes addr
      .modify fun s => { s with queue := s.queue.countUsed }
      let s ← .get
      let addr ← addressAt s.queue.usedRing 2
      store16 s.queue.nextUsed addr : QueueOp Unit) ⟨q, mem⟩ := by
  unfold addUsed
  rw [get_bind_apply, if_neg (UInt16.not_le.2 h)]
  simp only [UInt16.toNat_mod, VIRTQ_USED_RING_HEADER_SIZE, VIRTQ_USED_ELEMENT_SIZE]

theorem addUsed_of_mapped (hhead : headIndex < q.size)
    (hmapped : mem.Mapped (q.usedSlot q.nextUsed.toNat) 8) (len : UInt32) :
    let mem' := mem.storeAt (q.usedSlot q.nextUsed.toNat) (VirtqUsedElem.mk headIndex.toUInt32 len).bytes
    mem.Readable16 (q.usedRing + 2) ∧ (∃ trace, addUsed headIndex len ⟨q, mem⟩ =
      ⟨.ok (), ⟨q.countUsed, mem'.write16 (q.usedRing + 2) (q.nextUsed + 1)⟩, trace⟩) ∨
    ¬ mem.Readable16 (q.usedRing + 2) ∧
      ∃ e trace, addUsed headIndex len ⟨q, mem⟩ = ⟨.err e, ⟨q.countUsed, mem'⟩, trace⟩ := by
  intro mem'
  have hmax : q.usedSlot q.nextUsed.toNat ≤ U64_MAX := by
    obtain ⟨r, _, _, hlt⟩ := hmapped _ (Nat.le_refl _) (by omega)
    have := r.end_le
    omega
  have hmax' : q.usedRing + 2 ≤ U64_MAX := by
    unfold usedSlot at hmax
    omega
  have hlen : mem.Mapped (q.usedSlot q.nextUsed.toNat) (VirtqUsedElem.mk headIndex.toUInt32 len).bytes.length := hmapped
  obtain ⟨trace₁, hwrite, happly⟩ := GuestMemoryT.writeSlice_of_mapped hlen ()
  have hrun : ∀ {o s' trace₂}, store16 (q.nextUsed + 1) (q.usedRing + 2) ⟨q.countUsed, mem'⟩ = ⟨o, s', trace₂⟩ →
      addUsed headIndex len ⟨q, mem⟩ = ⟨o, s', trace₁ ++ trace₂⟩ := by
    intro o s' trace₂ hstore
    rw [addUsed_of_lt hhead, addressAt_of_le hmax, lift_ok_bind]
    refine bind_of_ok_of_eq (access_of_store hwrite happly) ?_
    rw [modify_bind_apply, get_bind_apply]
    dsimp only [countUsed] at hstore ⊢
    rw [addressAt_of_le hmax']
    exact hstore
  rcases store16_spec (q.nextUsed + 1) (q.usedRing + 2) ⟨q.countUsed, mem'⟩ with
    ⟨hread, trace₂, hstore⟩ | ⟨hread, e, hstore⟩
  · exact .inl ⟨hread, _, hrun hstore⟩
  · exact .inr ⟨hread, e, _, hrun hstore⟩

theorem addUsed_of_ready (h : q.UsedReady mem) (hhead : headIndex < q.size) (len : UInt32) :
    ∃ trace, addUsed headIndex len ⟨q, mem⟩ = ⟨.ok (), ⟨q.countUsed,
      (mem.storeAt (q.usedSlot q.nextUsed.toNat) (VirtqUsedElem.mk headIndex.toUInt32 len).bytes).write16
        (q.usedRing + 2) (q.nextUsed + 1)⟩, trace⟩ := by
  have hpos : 0 < q.size.toNat := Nat.lt_of_le_of_lt (Nat.zero_le _) (UInt16.lt_iff_toNat_lt.1 hhead)
  have hend := usedSlot_lt hpos q.nextUsed.toNat
  have hmapped : mem.Mapped (q.usedSlot q.nextUsed.toNat) 8 := by
    intro a hle hlt
    unfold usedSlot at hle
    exact h.mapped a (by omega) (by omega)
  have hread : mem.Readable16 (q.usedRing + 2) :=
    readable16_of_mapped h.even h.mapped (by omega) (by omega) (by have := h.aligned; omega)
  rcases addUsed_of_mapped hhead hmapped len with ⟨_, hok⟩ | ⟨hnot, _⟩
  · exact hok
  · exact absurd hread hnot

/-! ## Any number of calls -/

/-- A call of `add_used`: a head, and the length that was written. -/
abbrev Used := UInt16 × UInt32

def Used.bytes (u : Used) : List UInt8 := (VirtqUsedElem.mk u.1.toUInt32 u.2).bytes

def addStep (s : Attached) (u : Used) : Attached := (addUsed u.1 u.2 s).state

def Succeeds (s : Attached) (u : Used) : Prop := (addUsed u.1 u.2 s).outcome = .ok ()

instance (s : Attached) (u : Used) : Decidable (Succeeds s u) := inferInstanceAs (Decidable (_ = _))

/-- The used ring after some calls, from a queue and its memory on. -/
structure Published (q : Queue) (mem : GuestMemory) (uses : List Used) (s : Attached) : Prop where
  queue : s.queue = { q with
    nextUsed := UInt16.ofNat (q.nextUsed.toNat + uses.length)
    numAdded := q.numAdded + UInt16.ofNat uses.length }
  regions : s.mem.regions = mem.regions
  idx : uses ≠ [] ∨ GuestMemory.le16 mem.bytes (q.usedRing + 2) = q.nextUsed →
    GuestMemory.le16 s.mem.bytes (q.usedRing + 2) = UInt16.ofNat (q.nextUsed.toNat + uses.length)
  /-- The entries of the last round are in their slots. -/
  slots : ∀ i u, uses[i]? = some u → uses.length ≤ i + q.size.toNat →
    bytesAt s.mem.bytes (q.usedSlot (q.nextUsed.toNat + i)) 8 = u.bytes
  frame : ∀ a, ¬ (q.usedRing + 2 ≤ a ∧ a < q.usedRing + 4 + 8 * q.size.toNat) →
    s.mem.bytes a = mem.bytes a

variable {q : Queue} {mem : GuestMemory}

theorem Published.refl (q : Queue) (mem : GuestMemory) : Published q mem [] ⟨q, mem⟩ where
  queue := by simp
  regions := rfl
  idx h := by
    rcases h with h | h
    · exact absurd rfl h
    · simpa using h
  slots i u hu := by cases hu
  frame _ _ := rfl

variable {uses : List Used} {s : Attached}

theorem Published.usedReady (h : Published q mem uses s) (hready : q.UsedReady mem) : s.queue.UsedReady s.mem := by
  obtain ⟨haligned, heven, hmapped, hsize⟩ := hready
  rw [h.queue]
  refine ⟨haligned, ?_, ?_, hsize⟩
  · intro r hr
    rw [h.regions] at hr
    exact heven r hr
  · intro a hle hlt
    rw [h.regions]
    exact hmapped a hle hlt

theorem Published.outcome (h : Published q mem uses s) (hready : q.UsedReady mem) (headIndex : UInt16) (len : UInt32) :
    (addUsed headIndex len s).outcome =
      if q.size ≤ headIndex then .err .invalidDescriptorIndex else .ok () := by
  have hsize : s.queue.size = q.size := by rw [h.queue]
  split
  · rename_i hlarge
    have hfail := addUsed_of_large (by rw [hsize]; exact hlarge) len s.mem
    rw [hfail]
  · rename_i hsmall
    have hhead : headIndex < s.queue.size := by
      rw [hsize]
      exact UInt16.not_le.1 hsmall
    obtain ⟨trace, hadd⟩ := addUsed_of_ready (h.usedReady hready) hhead len
    rw [hadd]

/-- Memory after an entry has been written to the slot of a number and the index has been published. -/
def publishEntry (q : Queue) (mem : GuestMemory) (number : Nat) (u : Used) (idx : UInt16) : GuestMemory :=
  (mem.storeAt (q.usedSlot number) u.bytes).write16 (q.usedRing + 2) idx

theorem Used.length_bytes (u : Used) : u.bytes.length = 8 := rfl

theorem bytesAt_publishEntry_same (number : Nat) (u : Used) (idx : UInt16) :
    bytesAt (q.publishEntry mem number u idx).bytes (q.usedSlot number) 8 = u.bytes := by
  have hsame := bytesAt_storeBytes_same mem.bytes (q.usedSlot number) u.bytes
  refine (bytesAt_congr fun a hle _ => ?_).trans hsame
  unfold usedSlot at hle
  exact bytes_write16_of_outside _ _ (by omega)

theorem bytesAt_publishEntry_other {number other : Nat} (u : Used) (idx : UInt16)
    (hne : other % q.size.toNat ≠ number % q.size.toNat) :
    bytesAt (q.publishEntry mem number u idx).bytes (q.usedSlot other) 8 = bytesAt mem.bytes (q.usedSlot other) 8 := by
  apply bytesAt_congr
  intro a hle hlt
  unfold usedSlot at hle hlt
  rw [publishEntry, bytes_write16_of_outside _ _ (by omega)]
  exact storeBytes_of_outside _ (by rw [Used.length_bytes]; unfold usedSlot; omega)

theorem bytes_publishEntry_of_outside (hpos : 0 < q.size.toNat) (number : Nat) (u : Used) (idx : UInt16)
    {a : Nat} (ha : ¬ (q.usedRing + 2 ≤ a ∧ a < q.usedRing + 4 + 8 * q.size.toNat)) :
    (q.publishEntry mem number u idx).bytes a = mem.bytes a := by
  have hend := usedSlot_lt hpos number
  have hstart : q.usedRing + 4 ≤ q.usedSlot number := by
    unfold usedSlot
    omega
  rw [publishEntry, bytes_write16_of_outside _ _ (by omega)]
  exact storeBytes_of_outside _ (by rw [Used.length_bytes]; omega)

theorem Published.lt_of_succeeds (h : Published q mem uses s) (hready : q.UsedReady mem) {u : Used}
    (hu : Succeeds s u) :
    u.1 < q.size := by
  have houtcome := h.outcome hready u.1 u.2
  rw [hu] at houtcome
  split at houtcome
  · cases houtcome
  · rename_i hsmall
    exact UInt16.not_le.1 hsmall

theorem Published.addStep_eq (h : Published q mem uses s) (hready : q.UsedReady mem) {u : Used} (hsmall : u.1 < q.size)
    (hpos : 0 < q.size.toNat) :
    addStep s u = ⟨s.queue.countUsed, q.publishEntry s.mem (q.nextUsed.toNat + uses.length) u
      (UInt16.ofNat (q.nextUsed.toNat + (uses ++ [u]).length))⟩ := by
  have hhead : u.1 < s.queue.size := by rw [h.queue]; exact hsmall
  obtain ⟨trace, hadd⟩ := addUsed_of_ready (h.usedReady hready) hhead u.2
  have hslot : s.queue.usedSlot s.queue.nextUsed.toNat = q.usedSlot (q.nextUsed.toNat + uses.length) := by
    rw [h.queue]
    exact hready.usedSlot_ofNat hpos _
  have hnext : s.queue.nextUsed + 1 = UInt16.ofNat (q.nextUsed.toNat + (uses ++ [u]).length) := by
    rw [h.queue, length_append]
    exact Counter.ofNat_add_one _
  have hring : s.queue.usedRing = q.usedRing := by rw [h.queue]
  rw [addStep, hadd, hslot, hnext, hring]
  rfl

theorem Published.countUsed_eq (h : Published q mem uses s) (u : Used) : s.queue.countUsed = { q with
      nextUsed := UInt16.ofNat (q.nextUsed.toNat + (uses ++ [u]).length)
      numAdded := q.numAdded + UInt16.ofNat (uses ++ [u]).length } := by
  rw [countUsed, h.queue, length_append, length_singleton, ← Nat.add_assoc]
  simp only [← Counter.ofNat_add_one, UInt16.add_assoc]

theorem Published.step (h : Published q mem uses s) (hready : q.UsedReady mem) {u : Used} (hu : Succeeds s u) :
    Published q mem (uses ++ [u]) (addStep s u) := by
  have hsmall := h.lt_of_succeeds hready hu
  have hpos : 0 < q.size.toNat := Nat.lt_of_le_of_lt (Nat.zero_le _) (UInt16.lt_iff_toNat_lt.1 hsmall)
  rw [h.addStep_eq hready hsmall hpos]
  refine ⟨h.countUsed_eq u, h.regions, fun _ => le16_write16_same _ _ _, ?_, fun a ha => ?_⟩
  · intro i u' hi hround
    rw [length_append, length_singleton] at hround
    rcases Nat.lt_or_ge i uses.length with hlt | hge
    · -- less than a round before the new entry, so in another slot
      have hne := Counter.mod_ne_of_close
        (show q.nextUsed.toNat + i < q.nextUsed.toNat + uses.length by omega)
        (show q.nextUsed.toNat + uses.length < q.nextUsed.toNat + i + q.size.toNat by omega)
      rw [getElem?_append_left hlt] at hi
      rw [bytesAt_publishEntry_other _ _ hne]
      exact h.slots i u' hi (by omega)
    · rw [getElem?_append_right hge, getElem?_singleton] at hi
      split at hi
      · cases hi
        have hlast : i = uses.length := by omega
        subst hlast
        exact bytesAt_publishEntry_same _ _ _
      · cases hi
  · rw [bytes_publishEntry_of_outside hpos _ _ _ ha]
    exact h.frame a ha

end Queue

open Queue in
/-- **Used-ring publication.**  On every queue that `is_valid` accepts, after any number of successful
calls of `add_used`: the `idx` field counts them from `next_used` on, modulo 2^16; each call of the
last round of the ring has its entry in the slot of its number; `num_added` has grown by their
number; and no byte outside of the `idx` field and the slots has changed.  And `add_used` fails
exactly for a head that is not below the queue size. -/
theorem used_ring_publication {q : Queue} {mem : GuestMemory} (hq : QueueCall.Reachable q)
    (hvalid : q.isValid mem = true) (heven : mem.EvenRegions) (uses : List Used)
    (hok : Along addStep Succeeds ⟨q, mem⟩ uses) :
    let s := run addStep ⟨q, mem⟩ uses
    let n := uses.length
    (uses ≠ [] ∨ GuestMemory.le16 mem.bytes (q.usedRing + 2) = q.nextUsed →
      (GuestMemory.le16 s.mem.bytes (q.usedRing + 2)).toNat = (q.nextUsed.toNat + n) % 65536) ∧
    (∀ i u, uses[i]? = some u → n ≤ i + q.size.toNat →
      bytesAt s.mem.bytes (q.usedRing + (4 + (q.nextUsed.toNat + i) % q.size.toNat * 8)) 8 =
        leBytes32 u.1.toUInt32 ++ leBytes32 u.2) ∧
    s.queue.numAdded.toNat = (q.numAdded.toNat + n) % 65536 ∧
    (∀ a, ¬ (q.usedRing + 2 ≤ a ∧ a < q.usedRing + 4 + 8 * q.size.toNat) → s.mem.bytes a = mem.bytes a) ∧
    ∀ headIndex len, (addUsed headIndex len s).outcome =
      if q.size ≤ headIndex then .err .invalidDescriptorIndex else .ok () := by
  intro s n
  have hready := usedReady_of_valid hq hvalid heven
  have hpub : Published q mem ([] ++ uses) s :=
    Along.run_history (fun _ _ _ h hu => h.step hready hu) (.refl q mem) hok
  rw [nil_append] at hpub
  refine ⟨fun h => ?_, hpub.slots, ?_, hpub.frame, hpub.outcome hready⟩
  · rw [hpub.idx h, UInt16.toNat_ofNat']
  · rw [hpub.queue, UInt16.toNat_add, UInt16.toNat_ofNat', Nat.add_mod_mod]

/-- A queue of four entries, close to the end of its counters. -/
def closeToWrap : List QueueCall :=
  [.setAvailRingAddress (some 0x400) none, .setUsedRingAddress (some 0x800) none, .setReady true,
    .setNextUsed 65534]

def blankMemory : GuestMemory where
  regions := [⟨0, 0x2000, 0, by decide, by decide⟩]
  sorted := List.pairwise_singleton _ _
  bytes _ := 0

open Queue in
theorem used_ring_publication_wraps : ∃ q₀, Queue.new 4 = .ok q₀ ∧
      let q := run QueueCall.next q₀ closeToWrap
      let s := run addStep ⟨q, blankMemory⟩ [(0, 1), (1, 2), (2, 3), (3, 4), (0, 5)]
      (GuestMemory.le16 s.mem.bytes 0x802).toNat = 3 ∧
      bytesAt s.mem.bytes 0x814 8 = leBytes32 0 ++ leBytes32 5 := by
  refine ⟨_, rfl, ?_⟩
  have heven : blankMemory.EvenRegions := by
    intro r hr
    rw [mem_singleton.1 hr]
    decide
  have h := used_ring_publication ⟨_, closeToWrap, .inr ⟨4, rfl⟩, rfl⟩ (by decide +kernel) heven
    [(0, 1), (1, 2), (2, 3), (3, 4), (0, 5)]
    ⟨by decide +kernel, by decide +kernel, by decide +kernel, by decide +kernel, by decide +kernel, trivial⟩
  exact ⟨h.1 (.inl (by decide)), h.2.1 4 (0, 5) rfl (by decide)⟩

end RustVmm.VirtioQueue
