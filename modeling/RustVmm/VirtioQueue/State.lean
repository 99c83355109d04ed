import RustVmm.VirtioQueue.Operations

/-!
# Saving and restoring a queue

Model of `virtio-queue/src/state.rs`.  A `QueueState` holds all fields of a queue but `num_added`.

* `tryFrom_state` — the state of a queue that was configured by its setters is accepted.
* `observations_probe` — calls that make `num_added` visible on any queue.
* `save_restore_transparent_iff` — nothing is lost exactly if `num_added` is zero, and
  `restored_queue_skips_notification` is an interrupt that gets lost.
-/

set_option autoImplicit false

namespace RustVmm.VirtioQueue

open Lib VmMemory Queue Outcome QueueCall

structure QueueState where
  maxSize : UInt16
  nextAvail : UInt16
  nextUsed : UInt16
  eventIdxEnabled : Bool
  size : UInt16
  ready : Bool
  descTable : Nat
  availRing : Nat
  usedRing : Nat
  deriving DecidableEq, Repr

namespace Queue

def state (self : Queue) : QueueState where
  maxSize := self.maxSize
  nextAvail := self.nextAvail
  nextUsed := self.nextUsed
  eventIdxEnabled := self.eventIdxEnabled
  size := self.size
  ready := self.ready
  descTable := self.descTable
  availRing := self.availRing
  usedRing := self.usedRing

def tryFrom (qState : QueueState) : Outcome Error Queue := do
  let q ← Queue.new qState.maxSize
  let q := q.setNextAvail qState.nextAvail
  let q := q.setNextUsed qState.nextUsed
  let q := q.setEventIdx qState.eventIdxEnabled
  let q ← q.trySetSize qState.size
  let q := q.setReady qState.ready
  let q ← q.trySetDescTableAddress qState.descTable
  let q ← q.trySetAvailRingAddress qState.availRing
  q.trySetUsedRingAddress qState.usedRing

theorem tryFrom_state {q : Queue} (h : q.Configured) (hne : q.maxSize ≠ 0) :
    tryFrom q.state = .ok { q with numAdded := 0 } := by
  have hmax : ¬ (q.maxSize = 0 ∨ q.maxSize > MAX_QUEUE_SIZE ∨ q.maxSize &&& (q.maxSize - 1) ≠ 0) := by
    rintro (hz | hgt | hand)
    · exact hne hz
    · exact UInt16.not_lt.2 h.maxSize_le hgt
    · exact hand h.maxSize_and
  have hsize : ¬ (q.size > q.maxSize ∨ q.size = 0 ∨ q.size &&& (q.size - 1) ≠ 0) := by
    rintro (hgt | hz | hand)
    · exact UInt16.not_lt.2 h.size_le hgt
    · exact hne (h.size_eq_zero.1 hz)
    · exact hand h.size_and
  have hdesc : ¬ q.descTable &&& 0xf ≠ 0 := fun hne => hne h.descTable_and
  have havail : ¬ q.availRing &&& 1 ≠ 0 := fun hne => hne h.availRing_and
  have hused : ¬ q.usedRing &&& 0x3 ≠ 0 := fun hne => hne h.usedRing_and
  dsimp only [tryFrom, state, setNextAvail, setNextUsed, setEventIdx, setReady]
  rw [new, if_neg hmax, ok_bind]
  rw [trySetSize, if_neg hsize, ok_bind, trySetDescTableAddress, if_neg hdesc,
    ok_bind, trySetAvailRingAddress, if_neg havail, ok_bind, trySetUsedRingAddress, if_neg hused]

end Queue

/-! ## Calls that make `num_added` visible -/

/-- Memory in which every aligned 16-bit integer is the same. -/
def uniformMemory (v : UInt16) : GuestMemory where
  regions := [⟨0, 0x30000, 0, by decide, by decide⟩]
  sorted := List.pairwise_singleton _ _
  bytes a := if a % 2 = 0 then v.toUInt8 else (v >>> 8).toUInt8

theorem load16_uniformMemory (v : UInt16) {addr : Nat} (heven : addr % 2 = 0) (hlt : addr < 0x30000) :
    (uniformMemory v).load16 addr = .ok v := by
  have hread : (uniformMemory v).Readable16 addr := by
    refine ⟨_, List.mem_singleton_self _, Nat.zero_le _, ?_, ?_⟩
    · show addr + 1 < 0 + 0x30000
      omega
    · show (0 + (addr - 0)) % 2 = 0
      omega
  have hodd : ¬ (addr + 1) % 2 = 0 := by omega
  rw [GuestMemory.load16_of_readable hread]
  exact congrArg _ (GuestMemory.le16_of_bytes (if_pos heven) (if_neg hodd))

/-- The driver asks to be notified of the entry that was put into the used ring last. -/
def probe (nextUsed : UInt16) : List QueueCall :=
  [.setAvailRingAddress (some 0) (some 0), .setEventIdx true, .needsNotification (uniformMemory (nextUsed - 1))]

theorem observations_probe (q : Queue) : observations q (probe q.nextUsed) =
      [⟨.unit, []⟩, ⟨.unit, []⟩, ⟨.boolResult (.ok (decide (0 < q.numAdded))), []⟩] := by
  have hload : ({ q with availRing := 0, eventIdxEnabled := true } : Queue).usedEvent
      (uniformMemory (q.nextUsed - 1)) = .ok (q.nextUsed - 1) := by
    have hsize := q.size.toNat_lt
    rw [usedEvent, usedEventW, loadField_eq]
    dsimp only [VIRTQ_AVAIL_RING_HEADER_SIZE, VIRTQ_AVAIL_ELEMENT_SIZE]
    rw [checkedAdd_of_le (by rw [U64_MAX_eq]; omega), okOr_some, ok_bind, load16_uniformMemory _ (by omega) (by omega)]
    rfl
  have hneeds := needsNotification_eq { q with availRing := 0, eventIdxEnabled := true }
    (uniformMemory (q.nextUsed - 1)) rfl
  rw [hload] at hneeds
  dsimp only at hneeds
  have hzero : q.nextUsed - (q.nextUsed - 1) - 1 = 0 := by
    rw [Counter.sub_sub_self]
    rfl
  rw [hzero] at hneeds
  have hset : q.setAvailRingAddress (some 0) (some 0) = { q with availRing := 0 } := by
    simp [Queue.setAvailRingAddress, replaceHalves, trySetAvailRingAddress, orUnchanged, toOption]
  simp only [observations, probe, perform, becomes, hset, Queue.setEventIdx, operates, hneeds]

/-! ## Transparency -/

/-- **Saving and restoring is transparent exactly if `num_added` is zero.**  The state of every queue
made by `new` and used in any way can be restored.  What the restored queue returns and writes to
guest memory from then on is the same as without saving and restoring, for all sequences of
calls, if and only if no entry has been added to the used ring since `num_added` was last
zero. -/
theorem save_restore_transparent_iff {maxSize : UInt16} {q₀ : Queue}
    (hnew : Queue.new maxSize = .ok q₀) (calls : List QueueCall) :
    let q := run QueueCall.next q₀ calls
    ∃ restored, Queue.tryFrom q.state = .ok restored ∧
      ((∀ later, observations restored later = observations q later) ↔ q.numAdded = 0) := by
  intro q
  obtain ⟨hconfigured, hne⟩ := configured_new hnew
  have hmax : q.maxSize ≠ 0 := by
    rw [maxSize_run]
    exact hne
  refine ⟨_, tryFrom_state (configured_run hconfigured calls) hmax, ?_⟩
  constructor
  · intro h
    have hprobe := h (probe q.nextUsed)
    rw [observations_probe q] at hprobe
    have hrestored := observations_probe { q with numAdded := 0 }
    rw [hrestored] at hprobe
    simpa using hprobe
  · intro hzero later
    have hsame : { q with numAdded := 0 } = q := by rw [← hzero]
    rw [hsame]

/-- A page with a queue of four entries that is in use, with `EVENT_IDX`. -/
def inUse (mem : GuestMemory) : List QueueCall :=
  [.setAvailRingAddress (some 0x400) none, .setUsedRingAddress (some 0x800) none, .setEventIdx true,
    .setReady true, .addUsed mem 0 16]

theorem save_restore_transparent_notified : ∃ q₀, Queue.new 4 = .ok q₀ ∧
      let q := run QueueCall.next q₀ (inUse (uniformMemory 0) ++ [.needsNotification (uniformMemory 0)])
      ∃ restored, Queue.tryFrom q.state = .ok restored ∧
        ∀ later, observations restored later = observations q later := by
  have hnew : new 4 = .ok _ := rfl
  obtain ⟨restored, hok, hiff⟩ := save_restore_transparent_iff hnew
    (inUse (uniformMemory 0) ++ [.needsNotification (uniformMemory 0)])
  exact ⟨_, hnew, restored, hok, hiff.2 (by decide +kernel)⟩

/-- **A notification is lost.**  An entry is added to the used ring, and then the queue is saved and
restored: `needs_notification` is now false where it would have been true. -/
theorem restored_queue_skips_notification : ∃ q₀ restored, Queue.new 4 = .ok q₀ ∧
      Queue.tryFrom (run QueueCall.next q₀ (inUse (uniformMemory 0))).state = .ok restored ∧
      (observations (run QueueCall.next q₀ (inUse (uniformMemory 0)))
        [.needsNotification (uniformMemory 0)]).map Observation.reply = [.boolResult (.ok true)] ∧
      (observations restored [.needsNotification (uniformMemory 0)]).map Observation.reply =
        [.boolResult (.ok false)] := by
  refine ⟨_, _, rfl, rfl, ?_, ?_⟩
  · decide +kernel
  · decide +kernel

end RustVmm.VirtioQueue
