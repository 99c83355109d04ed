import RustVmm.VirtioQueue.Kick
import RustVmm.VirtioQueue.RingAccesses
import RustVmm.VirtioQueue.UsedRing

/-!
# Queues that are valid

Once `is_valid` has accepted a queue, the calls on it do not fail because of what the guest writes to its memory.

* `usable_of_valid` — what `is_valid` and the setters have checked.
* `Usable.iter_eq`, `Usable.pop_isSome`, `Usable.addUsed_ok`, … — what each call then does.
* `Usable.tableRead`, `Usable.next_none` — no read of the own table fails, and why chains end.
* `valid_queue_never_faults` — all of it together (`NeverFaults`), with the accesses of all calls.
-/

set_option autoImplicit false

namespace RustVmm.VmMemory.GuestMemory

/-- Regions begin, end and are mapped on page boundaries.  Pages have at least 4096 bytes. -/
def PageAligned (mem : GuestMemory) : Prop :=
  ∀ r ∈ mem.regions, r.startAddr % 4096 = 0 ∧ (r.startAddr + r.len) % 4096 = 0 ∧ r.hostAddr % 4096 = 0

theorem PageAligned.evenRegions {mem : GuestMemory} (h : mem.PageAligned) : mem.EvenRegions := by
  intro r hr
  obtain ⟨hstart, hend, hhost⟩ := h r hr
  omega

/-- The same regions, with other contents. -/
def withBytes (mem : GuestMemory) (bytes : Nat → UInt8) : GuestMemory := { mem with bytes := bytes }

end RustVmm.VmMemory.GuestMemory

namespace RustVmm.VirtioQueue

open Lib VmMemory

variable {mem : GuestMemory}

namespace Queue

/-- The `idx` field of the available ring. -/
def offered (q : Queue) (mem : GuestMemory) : UInt16 := GuestMemory.le16 mem.bytes (q.availRing + 2)

/-- The queue is ready, and its table and its rings lie in memory of the guest. -/
structure Usable (q : Queue) (mem : GuestMemory) : Prop where
  ready : q.ready = true
  availRing_ne : q.availRing ≠ 0
  availRing_even : q.availRing % 2 = 0
  table : mem.Mapped q.descTable (16 * q.size.toNat)
  avail : mem.Mapped q.availRing (6 + 2 * q.size.toNat)
  used : q.UsedReady mem

theorem usable_of_valid {q : Queue} (hq : QueueCall.Reachable q) (hpages : mem.PageAligned)
    (hring : q.availRing ≠ 0) (hvalid : q.isValid mem = true) : q.Usable mem := by
  obtain ⟨hready, htable, havail, -⟩ := isValid_iff.1 hvalid
  refine ⟨hready, hring, ?_, htable, havail, usedReady_of_valid hq hvalid hpages.evenRegions⟩
  rw [← Nat.and_one_is_mod]
  exact hq.configured.availRing_and

theorem Usable.withBytes {q : Queue} (h : q.Usable mem) (bytes : Nat → UInt8) :
    q.Usable (mem.withBytes bytes) :=
  { h with used := { h.used with } }

variable {q : Queue} {mem : GuestMemory}

/-! ## The available ring -/

variable {offset : Nat}

theorem Usable.readable (h : q.Usable mem) (heven : offset % 2 = 0) (hlt : offset < 6 + 2 * q.size.toNat) :
    mem.Readable16 (q.availRing + offset) := by
  have hring := h.availRing_even
  exact GuestMemory.readable16_of_mapped h.used.even h.avail (by omega) (by omega) (by omega)

theorem Usable.ringReady (h : q.Usable mem) : q.RingReady mem :=
  ⟨h.ready, h.availRing_ne, fun _ heven hlt => h.readable heven (by omega)⟩

theorem Usable.availIdx_eq (h : q.Usable mem) : q.availIdx mem = .ok (q.offered mem) := by
  rw [availIdx, availIdxW, loadField_of_readable (h.readable (by decide) (by omega))]
  rfl

theorem Usable.usedEvent_ok (h : q.Usable mem) : ∃ event, q.usedEvent mem = .ok event := by
  have hread : mem.Readable16 (q.availRing + (4 + q.size.toNat * 2)) := h.readable (by omega) (by omega)
  exact ⟨_, congrArg (fun x => (x ()).outcome) (loadField_of_readable hread)⟩

theorem Usable.iter_eq (h : q.Usable mem) : q.iter mem =
    if q.size < q.offered mem - q.nextAvail then .err .invalidAvailRingIndex
    else .ok ⟨q.descTable, q.availRing, q.size, q.offered mem⟩ :=
  h.ringReady.iter_eq

theorem Usable.next_eq (h : q.Usable mem) (it : AvailIter) (htable : it.descTable = q.descTable)
    (hring : it.availRing = q.availRing) (hsize : it.queueSize = q.size) (hpos : q.size ≠ 0) {nextAvail : UInt16}
    (hne : nextAvail ≠ it.lastIndex) :
    ∃ headIndex, it.next mem nextAvail = (some (DescriptorChain.new q.descTable q.size headIndex), nextAvail + 1) := by
  have hsome := AvailIter.next_of_ready h.ringReady hring hsize hpos hne
  rcases it.next_cases mem nextAvail with hnone | ⟨-, heq⟩
  · rw [hnone] at hsome
    cases hsome
  · rw [htable, hsize] at heq
    exact ⟨_, heq⟩

theorem Usable.use_pending (h : q.Usable mem) (it : AvailIter) (htable : it.descTable = q.descTable)
    (hring : it.availRing = q.availRing) (hsize : it.queueSize = q.size) (hpos : q.size ≠ 0) {nextAvail : UInt16}
    {contents : List (Nat → UInt8)} (hlen : contents.length ≤ (it.lastIndex - nextAvail).toNat) :
    ∃ heads : List UInt16, heads.length = contents.length ∧
      (it.use nextAvail (contents.map fun bytes => .next (mem.withBytes bytes))).1 =
        heads.map fun headIndex => some (DescriptorChain.new q.descTable q.size headIndex) := by
  induction contents generalizing nextAvail with
  | nil => exact ⟨[], rfl, rfl⟩
  | cons bytes contents ih =>
    rw [List.length_cons] at hlen
    have hne : nextAvail ≠ it.lastIndex := by
      rintro rfl
      exact absurd hlen (by simp)
    have hrest := Counter.toNat_sub_add_one hne
    obtain ⟨headIndex, hnext⟩ := (h.withBytes bytes).next_eq it htable hring hsize hpos hne
    have hfit : contents.length ≤ (it.lastIndex - (nextAvail + 1)).toNat := by omega
    obtain ⟨heads, hheads, huse⟩ := ih hfit
    refine ⟨headIndex :: heads, congrArg (· + 1) hheads, ?_⟩
    rw [List.map_cons, AvailIter.use, hnext]
    exact congrArg (_ :: ·) huse

theorem Usable.pop_isSome (h : q.Usable mem) : (q.popDescriptorChain mem).1.isSome = true ↔
    q.offered mem ≠ q.nextAvail ∧ q.offered mem - q.nextAvail ≤ q.size := by
  have hiter := h.iter_eq
  by_cases hmany : q.size < q.offered mem - q.nextAvail
  · rw [if_pos hmany] at hiter
    rw [popDescriptorChain_of_err hiter]
    exact iff_of_false Bool.false_ne_true fun hle => UInt16.not_le.2 hmany hle.2
  · rw [if_neg hmany] at hiter
    rw [popDescriptorChain_of_ok hiter]
    by_cases hnone : q.offered mem = q.nextAvail
    · rcases AvailIter.next_cases ⟨q.descTable, q.availRing, q.size, q.offered mem⟩ mem q.nextAvail with
        hnext | ⟨hne, -⟩
      · rw [hnext]
        exact iff_of_false Bool.false_ne_true fun hle => hle.1 hnone
      · exact absurd hnone.symm hne
    · have hle := UInt16.not_lt.1 hmany
      have hpos : q.size ≠ 0 := by
        intro hz
        rw [hz] at hle
        exact hnone (Counter.eq_of_sub_eq_zero (UInt16.le_antisymm hle UInt16.zero_le))
      obtain ⟨headIndex, hnext⟩ := h.next_eq ⟨q.descTable, q.availRing, q.size, q.offered mem⟩ rfl rfl rfl
        hpos fun heq => hnone heq.symm
      rw [hnext]
      exact iff_of_true rfl ⟨hnone, hle⟩

/-! ## The used ring and notifications -/

theorem Usable.usedReadable (h : q.Usable mem) (heven : offset % 2 = 0) (hlt : offset < 6 + 8 * q.size.toNat) :
    mem.Readable16 (q.usedRing + offset) := by
  have hring := h.used.aligned
  exact GuestMemory.readable16_of_mapped h.used.even h.used.mapped (by omega) (by omega) (by omega)

theorem Usable.usedIdx_eq (h : q.Usable mem) :
    q.usedIdx mem = .ok (GuestMemory.le16 mem.bytes (q.usedRing + 2)) := by
  rw [usedIdx, usedIdxW, loadField_of_readable (h.usedReadable (by decide) (by omega))]
  rfl

theorem Usable.addUsed_ok (h : q.Usable mem) {headIndex : UInt16} (hhead : headIndex < q.size) (len : UInt32) :
    (addUsed headIndex len ⟨q, mem⟩).outcome = .ok () := by
  obtain ⟨trace, hrun⟩ := addUsed_of_ready h.used hhead len
  rw [hrun]

theorem Usable.setNotification_ok (h : q.Usable mem) (enable : Bool) :
    ∃ bytes trace, setNotification enable ⟨q, mem⟩ = ⟨.ok (), ⟨q, mem.withBytes bytes⟩, trace⟩ := by
  have hread : mem.Readable16 (KickedRing.notifyField q) := by
    unfold KickedRing.notifyField VIRTQ_USED_RING_HEADER_SIZE VIRTQ_USED_ELEMENT_SIZE
    split
    · exact h.usedReadable (by omega) (by omega)
    · exact h.usedReadable (Nat.zero_mod 2) (by omega)
  rcases KickedRing.setNotification_cases enable q mem with ⟨_, hok⟩ | ⟨v, _, ⟨trace, hok⟩ | ⟨hnot, _⟩⟩
  · exact ⟨mem.bytes, [], hok⟩
  · exact ⟨_, trace, hok⟩
  · exact absurd hread hnot

theorem Usable.enableNotification_ok (h : q.Usable mem) : ∃ more, (enableNotification ⟨q, mem⟩).outcome = .ok more := by
  obtain ⟨bytes, trace, hrun⟩ := h.setNotification_ok true
  have hcheck : recheck ⟨q, mem.withBytes bytes⟩ =
      ⟨.ok (decide (q.offered (mem.withBytes bytes) ≠ q.nextAvail)), ⟨q, mem.withBytes bytes⟩, []⟩ := by
    unfold recheck
    rw [Traced.get_bind_apply]
    rw [availIdxW_eq, (h.withBytes bytes).availIdx_eq]
    rfl
  exact ⟨_, congrArg Traced.Result.outcome (Traced.bind_of_ok_of_silent hrun hcheck)⟩

theorem Usable.disableNotification_ok (h : q.Usable mem) : (disableNotification ⟨q, mem⟩).outcome = .ok () := by
  obtain ⟨bytes, trace, hrun⟩ := h.setNotification_ok false
  rw [disableNotification, hrun]

theorem Usable.needsNotification_ok (h : q.Usable mem) :
    ∃ needed, (needsNotification ⟨q, mem⟩).outcome = .ok needed := by
  obtain ⟨event, hevent⟩ := h.usedEvent_ok
  unfold needsNotification
  rw [Traced.get_bind_apply, usedEventW_eq]
  split
  · rw [hevent]
    exact ⟨_, rfl⟩
  · exact ⟨_, rfl⟩

end Queue

/-! ## The descriptor table -/

def descriptorReads (mem : GuestMemory) (found : List Event → Nat → Descriptor) : HostileMemory := fun trace addr =>
  (mem.asT.readSlice mem.bytes DESCRIPTOR_SIZE addr ()).outcome.toOption.map fun _ => found trace addr

theorem descriptorReads_of_mapped {addr : Nat} (h : mem.Mapped addr DESCRIPTOR_SIZE)
    (found : List Event → Nat → Descriptor) (trace : List Event) :
    descriptorReads mem found trace addr = some (found trace addr) := by
  rw [descriptorReads, GuestMemoryT.readSlice_of_mapped h]
  rfl

namespace Walk

/-- As long as a chain has not gone on in an indirect table, it is in the table that it began in. -/
def Stays (descTable : Nat) (queueSize : UInt16) (w : Walk) : Prop :=
  w.chain.isIndirect = false → w.chain.descTable = descTable ∧ w.chain.queueSize = queueSize

theorem Stays.steps {descTable : Nat} {queueSize : UInt16} {w w' : Walk} (hw : w.Stays descTable queueSize)
    (h : Steps w w') : w'.Stays descTable queueSize := by
  induction h with
  | refl => exact hw
  | tail _ hstep ih =>
    cases hstep with
    | read _ _ => exact ih
    | enter _ hswitch =>
      intro hind
      rw [(switched hswitch).2.1] at hind
      cases hind
    | yield _ _ _ =>
      intro hind
      obtain ⟨hsame, htable, hsize, _⟩ := advance_keeps _ _ _
      rw [htable, hsize]
      exact ih (hsame.symm.trans hind)

theorem stays_run (mem : HostileMemory) (descTable : Nat) (queueSize headIndex : UInt16) (calls : List Call) :
    (run (Call.exec mem) (Walk.new descTable queueSize headIndex) calls).Stays descTable queueSize :=
  have hnew : (Walk.new descTable queueSize headIndex).Stays descTable queueSize := fun _ => ⟨rfl, rfl⟩
  hnew.steps (run_steps mem _ calls)

end Walk

namespace Queue

variable {q : Queue} {mem : GuestMemory}

/-- A read of the queue's own table succeeds, and is of one of its entries. -/
structure TableRead (q : Queue) (mem : GuestMemory) (found : List Event → Nat → Descriptor) (w : Walk)
    (addr : Nat) : Prop where
  address : checkedAdd w.chain.descTable (w.chain.nextIndex.toNat * DESCRIPTOR_SIZE) = some addr
  read : descriptorReads mem found w.trace addr = some (found w.trace addr)
  le : q.descTable ≤ addr
  end_le : addr + DESCRIPTOR_SIZE ≤ q.descTable + 16 * q.size.toNat

theorem Usable.tableRead (h : q.Usable mem) (found : List Event → Nat → Descriptor) {w : Walk}
    (hstays : w.Stays q.descTable q.size) (hind : w.chain.isIndirect = false)
    (hindex : w.chain.nextIndex < w.chain.queueSize) : ∃ addr, q.TableRead mem found w addr := by
  obtain ⟨htable, hsize⟩ := hstays hind
  have hlt : w.chain.nextIndex.toNat < q.size.toNat := by
    rw [← hsize]
    exact UInt16.lt_iff_toNat_lt.1 hindex
  have hentry : DESCRIPTOR_SIZE = 16 := rfl
  have hend : w.chain.nextIndex.toNat * DESCRIPTOR_SIZE + DESCRIPTOR_SIZE ≤ 16 * q.size.toNat := by
    rw [hentry]
    omega
  have hmapped : mem.Mapped (q.descTable + w.chain.nextIndex.toNat * DESCRIPTOR_SIZE) DESCRIPTOR_SIZE :=
    fun a hle ha => h.table a (by omega) (by omega)
  have hmax : q.descTable + w.chain.nextIndex.toNat * DESCRIPTOR_SIZE ≤ U64_MAX := by
    obtain ⟨r, _, _, hend⟩ := hmapped _ (Nat.le_refl _) (by omega)
    have := r.end_le
    omega
  refine ⟨_, ?_, descriptorReads_of_mapped hmapped found w.trace, by omega, by omega⟩
  rw [htable]
  exact checkedAdd_of_le hmax

theorem Usable.next_none (h : q.Usable mem) (found : List Event → Nat → Descriptor) {w : Walk}
    (hstays : w.Stays q.descTable q.size) (hind : w.chain.isIndirect = false)
    (hnone : (w.next (descriptorReads mem found)).1 = none) :
    w.chain.ttl = 0 ∨ w.chain.queueSize ≤ w.chain.nextIndex ∨
      ∃ addr, q.TableRead mem found w addr ∧ ((found w.trace addr).refersToIndirectTable = true ∨
        checkedAddU32 w.chain.yieldedBytes (found w.trace addr).len = none) := by
  by_cases hguard : w.chain.ttl = 0 ∨ w.chain.nextIndex ≥ w.chain.queueSize
  · exact hguard.imp_right .inl
  · have hindex : w.chain.nextIndex < w.chain.queueSize := UInt16.not_le.1 fun hge => hguard (.inr hge)
    obtain ⟨addr, hread⟩ := h.tableRead found hstays hind hindex
    refine .inr (.inr ⟨addr, hread, ?_⟩)
    by_cases htable : (found w.trace addr).refersToIndirectTable = true
    · exact .inl htable
    · refine .inr ?_
      rw [Walk.next, if_neg hguard, hread.address] at hnone
      dsimp only at hnone
      rw [hread.read] at hnone
      dsimp only at hnone
      rw [if_neg htable] at hnone
      split at hnone
      · assumption
      · cases hnone

/-! ## The whole -/

/-- What the calls on a queue do, apart from failing because of the guest's memory. -/
structure NeverFaults (q : Queue) (mem : GuestMemory) : Prop where
  /-- `iter` fails only if more is offered than the ring holds. -/
  iter : q.iter mem = if q.size < q.offered mem - q.nextAvail then .err .invalidAvailRingIndex
    else .ok ⟨q.descTable, q.availRing, q.size, q.offered mem⟩
  /-- An iterator that is not at its end takes a chain, also after it was moved back. -/
  next : ∀ it, q.iter mem = .ok it → q.size ≠ 0 → ∀ bytes nextAvail, nextAvail ≠ it.lastIndex →
    ∃ headIndex, it.next (mem.withBytes bytes) nextAvail =
      (some (DescriptorChain.new q.descTable q.size headIndex), nextAvail + 1)
  /-- All entries that are pending are chains. -/
  pending : q.offered mem - q.nextAvail ≤ q.size → ∀ contents : List (Nat → UInt8),
    contents.length ≤ (q.offered mem - q.nextAvail).toNat →
    ∃ heads : List UInt16, heads.length = contents.length ∧
      (q.iterate mem (contents.map fun bytes => .next (mem.withBytes bytes))).1 =
        .ok (heads.map fun headIndex => some (DescriptorChain.new q.descTable q.size headIndex))
  pop : (q.popDescriptorChain mem).1.isSome = true ↔ q.offered mem ≠ q.nextAvail ∧ q.offered mem - q.nextAvail ≤ q.size
  /-- No read of the own table fails, whatever the descriptors are, and chains stop for other reasons. -/
  chain : ∀ (found : List Event → Nat → Descriptor) (headIndex : UInt16) (calls : List Call),
    let w := run (Call.exec (descriptorReads mem found)) (Walk.new q.descTable q.size headIndex) calls
    w.chain.isIndirect = false → (w.chain.nextIndex < w.chain.queueSize → ∃ addr, q.TableRead mem found w addr) ∧
      ((w.next (descriptorReads mem found)).1 = none → w.chain.ttl = 0 ∨ w.chain.queueSize ≤ w.chain.nextIndex ∨
          ∃ addr, q.TableRead mem found w addr ∧ ((found w.trace addr).refersToIndirectTable = true ∨
            checkedAddU32 w.chain.yieldedBytes (found w.trace addr).len = none))
  addUsed : ∀ headIndex len, headIndex < q.size → (addUsed headIndex len ⟨q, mem⟩).outcome = .ok ()
  enableNotification : ∃ more, (enableNotification ⟨q, mem⟩).outcome = .ok more
  disableNotification : (disableNotification ⟨q, mem⟩).outcome = .ok ()
  needsNotification : ∃ needed, (needsNotification ⟨q, mem⟩).outcome = .ok needed
  availIdx : q.availIdx mem = .ok (q.offered mem)
  usedIdx : q.usedIdx mem = .ok (GuestMemory.le16 mem.bytes (q.usedRing + 2))
  /-- What they access. -/
  inRings : ∀ c : QueueCall, ∀ t ∈ c.touches q, ∀ a, t.Touches a → q.InRings a

theorem Usable.iterate_pending (h : q.Usable mem) (hle : q.offered mem - q.nextAvail ≤ q.size)
    (contents : List (Nat → UInt8)) (hlen : contents.length ≤ (q.offered mem - q.nextAvail).toNat) :
    ∃ heads : List UInt16, heads.length = contents.length ∧
      (q.iterate mem (contents.map fun bytes => .next (mem.withBytes bytes))).1 =
        .ok (heads.map fun headIndex => some (DescriptorChain.new q.descTable q.size headIndex)) := by
  have hiter := h.iter_eq
  rw [if_neg (UInt16.not_lt.2 hle)] at hiter
  unfold iterate
  rw [hiter]
  by_cases hpos : q.size = 0
  · -- an empty ring has nothing pending
    rw [hpos] at hle
    rw [UInt16.le_antisymm hle UInt16.zero_le] at hlen
    obtain rfl := List.length_eq_zero_iff.1 (Nat.le_zero.1 hlen)
    exact ⟨[], rfl, rfl⟩
  · obtain ⟨heads, hheads, huse⟩ := h.use_pending
      ⟨q.descTable, q.availRing, q.size, q.offered mem⟩ rfl rfl rfl hpos hlen
    exact ⟨heads, hheads, congrArg Outcome.ok huse⟩

theorem Usable.neverFaults (h : q.Usable mem) : q.NeverFaults mem where
  iter := h.iter_eq
  next it hit hpos bytes nextAvail hne := by
    rw [h.iter_eq] at hit
    split at hit
    · cases hit
    · cases hit
      exact (h.withBytes bytes).next_eq _ rfl rfl rfl hpos hne
  pending := h.iterate_pending
  pop := h.pop_isSome
  chain found headIndex calls := by
    intro w hind
    have hstays := Walk.stays_run (descriptorReads mem found) q.descTable q.size headIndex calls
    exact ⟨h.tableRead found hstays hind, h.next_none found hstays hind⟩
  addUsed _ len hhead := h.addUsed_ok hhead len
  enableNotification := h.enableNotification_ok
  disableNotification := h.disableNotification_ok
  needsNotification := h.needsNotification_ok
  availIdx := h.availIdx_eq
  usedIdx := h.usedIdx_eq
  inRings c := QueueCall.touches_inRings q c

end Queue

/-- **A valid queue never faults on its rings.**  On memory made of pages, let `is_valid` accept a queue that is in
any state it can be brought into, with an available ring that is not at 0.  Then, whatever the guest has written
into memory: `iter` fails only for an `idx` more than the queue size ahead of `next_avail`, and every entry that is
pending is taken as a chain; no read of the queue's own table fails; `add_used` for a head below the queue size,
the notification methods, `avail_idx` and `used_idx` return `Ok`; and all accesses of all calls lie in the descriptor
table and the rings. -/
theorem valid_queue_never_faults {q : Queue} {mem : GuestMemory} (hq : QueueCall.Reachable q)
    (hpages : mem.PageAligned) (hring : q.availRing ≠ 0) (hvalid : q.isValid mem = true) (bytes : Nat → UInt8) :
    q.NeverFaults (mem.withBytes bytes) :=
  ((Queue.usable_of_valid hq hpages hring hvalid).withBytes bytes).neverFaults

theorem valid_queue_never_faults_three : ∃ q₀, Queue.new 4 = .ok q₀ ∧
      ((run QueueCall.next q₀ closeToWrap).popDescriptorChain
        (blankMemory.withBytes fun a => if a = 0x402 then 3 else 0)).1.isSome = true := by
  refine ⟨_, rfl, ?_⟩
  have hpages : blankMemory.PageAligned := by
    intro r hr
    rw [List.mem_singleton.1 hr]
    decide
  have hqueue := valid_queue_never_faults ⟨_, closeToWrap, .inr ⟨4, rfl⟩, rfl⟩ hpages (by decide +kernel)
    (by decide +kernel) fun a => if a = 0x402 then 3 else 0
  exact hqueue.pop.2 (by decide +kernel)

end RustVmm.VirtioQueue
