import RustVmm.VirtioQueue.UsedRing

/-!
# The counters of the used ring

`add_used` makes two stores, and its counters `next_used` and `num_added` go on between them.  An interrupt is due
when the entry that the driver has named in `used_event` is among those written since it was last asked.

* `addUsed_cases` — one call, in any memory.
* `addUsed_keeps_counters_iff` — when a call that fails leaves the counters alone, and `addUsed_err_counts`, a call
  that does not.
* `event_idx_notification` — what `needs_notification` answers along every history of the two calls.
-/

set_option autoImplicit false

namespace RustVmm.VirtioQueue

open Lib VmMemory Traced Queue List

open QueueOp

namespace Queue

/-! ## One call in any memory -/

/-- The head is in the table, and all of the slot of `next_used` is mapped. -/
def EntryWritten (q : Queue) (mem : GuestMemory) (headIndex : UInt16) : Prop :=
  headIndex < q.size ∧ mem.checkRange (q.usedSlot q.nextUsed.toNat) VIRTQ_USED_ELEMENT_SIZE = true

instance (q : Queue) (mem : GuestMemory) (headIndex : UInt16) : Decidable (q.EntryWritten mem headIndex) :=
  inferInstanceAs (Decidable (_ ∧ _))

variable {q : Queue} {mem : GuestMemory} {headIndex : UInt16}

theorem entryWritten_iff :
    q.EntryWritten mem headIndex ↔ headIndex < q.size ∧ mem.Mapped (q.usedSlot q.nextUsed.toNat) 8 := by
  rw [EntryWritten, checkRange_iff, VIRTQ_USED_ELEMENT_SIZE]

theorem addUsed_of_not_written (h : ¬ q.EntryWritten mem headIndex) (len : UInt32) :
    ∃ e mem' trace, addUsed headIndex len ⟨q, mem⟩ = ⟨.err e, ⟨q, mem'⟩, trace⟩ := by
  rw [entryWritten_iff] at h
  by_cases hhead : headIndex < q.size
  · rw [addUsed_of_lt hhead]
    by_cases hmax : q.usedRing + (4 + q.nextUsed.toNat % q.size.toNat * 8) ≤ U64_MAX
    · -- the first store fails
      have hmapped : ¬ mem.flat.Mapped (q.usedSlot q.nextUsed.toNat) 8 := fun hm =>
        h ⟨hhead, GuestMemory.flat_mapped_iff.1 hm⟩
      obtain ⟨hok, hpanic, _⟩ := GuestMemoryT.writeSlice_flat mem
        (VirtqUsedElem.mk headIndex.toUInt32 len).bytes (q.usedSlot q.nextUsed.toNat) ()
      rw [addressAt_of_le hmax]
      cases hwrite : mem.asT.writeSlice (VirtqUsedElem.mk headIndex.toUInt32 len).bytes
          (q.usedSlot q.nextUsed.toNat) () with
      | mk outcome st trace =>
        rw [hwrite] at hok hpanic
        cases outcome with
        | ok u => exact absurd (hok.1 rfl) hmapped
        | panic => exact absurd rfl hpanic
        | err e =>
          have haccess : access (fun mem => mem.asT.writeSlice
              (VirtqUsedElem.mk headIndex.toUInt32 len).bytes (q.usedSlot q.nextUsed.toNat)) ⟨q, mem⟩ =
              ⟨.err (.guestMemory e), ⟨q, mem.apply trace⟩, trace⟩ := by
            simp only [access, hwrite]
            rfl
          exact ⟨_, _, _, bind_of_err haccess _⟩
    · refine ⟨.addressOverflow, mem, [], ?_⟩
      rw [addressAt, checkedAdd_of_lt (by omega)]
      rfl
  · exact ⟨_, _, _, addUsed_of_large (UInt16.not_lt.1 hhead) len mem⟩

theorem addUsed_cases (q : Queue) (mem : GuestMemory) (headIndex : UInt16) (len : UInt32) :
    q.EntryWritten mem headIndex ∧
      (mem.Readable16 (q.usedRing + 2) ∧
        (∃ mem' trace, addUsed headIndex len ⟨q, mem⟩ = ⟨.ok (), ⟨q.countUsed, mem'⟩, trace⟩) ∨
      ¬ mem.Readable16 (q.usedRing + 2) ∧
        ∃ e mem' trace, addUsed headIndex len ⟨q, mem⟩ = ⟨.err e, ⟨q.countUsed, mem'⟩, trace⟩) ∨
    ¬ q.EntryWritten mem headIndex ∧
      ∃ e mem' trace, addUsed headIndex len ⟨q, mem⟩ = ⟨.err e, ⟨q, mem'⟩, trace⟩ := by
  by_cases h : q.EntryWritten mem headIndex
  · obtain ⟨hhead, hmapped⟩ := entryWritten_iff.1 h
    rcases addUsed_of_mapped hhead hmapped len with ⟨hread, hok⟩ | ⟨hread, e, hfail⟩
    · exact .inl ⟨h, .inl ⟨hread, _, hok⟩⟩
    · exact .inl ⟨h, .inr ⟨hread, e, _, hfail⟩⟩
  · exact .inr ⟨h, addUsed_of_not_written h len⟩

theorem addUsed_queue (q : Queue) (mem : GuestMemory) (headIndex : UInt16) (len : UInt32) :
    (addUsed headIndex len ⟨q, mem⟩).state.queue = if q.EntryWritten mem headIndex then q.countUsed else q := by
  rcases addUsed_cases q mem headIndex len with
    ⟨h, ⟨_, mem', trace, hadd⟩ | ⟨_, e, mem', trace, hadd⟩⟩ | ⟨h, e, mem', trace, hadd⟩
  · rw [hadd, if_pos h]
  · rw [hadd, if_pos h]
  · rw [hadd, if_neg h]

/-- **When a failed call leaves the counters alone**: unless the entry can be written to its slot while the
`idx` field, which is in front of the slots, cannot be stored. -/
theorem addUsed_keeps_counters_iff (q : Queue) (mem : GuestMemory) (headIndex : UInt16) (len : UInt32) :
    let r := addUsed headIndex len ⟨q, mem⟩
    ((∃ e, r.outcome = .err e) → r.state.queue.nextUsed = q.nextUsed ∧ r.state.queue.numAdded = q.numAdded) ↔
      (headIndex < q.size → mem.Mapped (q.usedSlot q.nextUsed.toNat) 8 → mem.Readable16 (q.usedRing + 2)) := by
  intro r
  have hne : q.countUsed.nextUsed ≠ q.nextUsed := by simp [countUsed]
  have hr : r = addUsed headIndex len ⟨q, mem⟩ := rfl
  rcases addUsed_cases q mem headIndex len with
    ⟨h, ⟨hread, mem', trace, hadd⟩ | ⟨hread, e, mem', trace, hadd⟩⟩ | ⟨h, e, mem', trace, hadd⟩
  · refine iff_of_true ?_ fun _ _ => hread
    rintro ⟨e, he⟩
    rw [hr, hadd] at he
    cases he
  · obtain ⟨hhead, hmapped⟩ := entryWritten_iff.1 h
    refine iff_of_false ?_ fun himp => hread (himp hhead hmapped)
    rw [hr, hadd]
    exact fun himp => hne (himp ⟨e, rfl⟩).1
  · refine iff_of_true ?_ fun hhead hmapped => absurd (entryWritten_iff.2 ⟨hhead, hmapped⟩) h
    rw [hr, hadd]
    exact fun _ => ⟨rfl, rfl⟩

/-- Memory that begins with the slots of a used ring at `0xffc`, so that `idx` is not mapped. -/
def slotsOnlyMemory : GuestMemory where
  regions := [⟨0x1000, 0x8000, 0, by decide, by decide⟩]
  sorted := List.pairwise_singleton _ _
  bytes _ := 0

theorem addUsed_err_counts : ∃ q₀, Queue.new 4 = .ok q₀ ∧
      let q := run QueueCall.next q₀ [.setUsedRingAddress (some 0xffc) none]
      let r := addUsed 0 16 ⟨q, slotsOnlyMemory⟩
      q.nextUsed = 0 ∧ q.numAdded = 0 ∧ r.outcome = .err (.guestMemory (.invalidGuestAddress 0xffe)) ∧
        r.state.queue.nextUsed = 1 ∧ r.state.queue.numAdded = 1 := by
  refine ⟨_, rfl, ?_⟩
  decide +kernel

end Queue

/-! ## Histories -/

/-- The two calls, each with the memory it is made on. -/
inductive NotifierCall where
  | addUsed (mem : GuestMemory) (headIndex : UInt16) (len : UInt32)
  | needsNotification (mem : GuestMemory)

/-- A queue, and what has happened since `needs_notification` last answered, or since the queue was made. -/
structure Notifier where
  queue : Queue
  /-- `next_used` at that time. -/
  old : UInt16
  /-- The used indices at which entries have been written. -/
  written : List UInt16
  /-- The calls of `add_used`. -/
  adds : Nat

namespace Notifier

def start (q : Queue) : Notifier := ⟨q, q.nextUsed, [], 0⟩

def step (s : Notifier) : NotifierCall → Notifier
  | .addUsed mem headIndex len =>
    { s with
      queue := (Queue.addUsed headIndex len ⟨s.queue, mem⟩).state.queue
      written := if s.queue.EntryWritten mem headIndex then s.written ++ [s.queue.nextUsed] else s.written
      adds := s.adds + 1 }
  | .needsNotification mem =>
    let r := Queue.needsNotification ⟨s.queue, mem⟩
    -- a call that cannot read `used_event` gives no answer
    if r.outcome.isOk then start r.state.queue else { s with queue := r.state.queue }

/-- At most 65535 calls of `add_used` before each call of `needs_notification`. -/
def Paced (s : Notifier) : NotifierCall → Prop
  | .addUsed _ _ _ => True
  | .needsNotification _ => s.adds ≤ 65535

def Answers (s : Notifier) : NotifierCall → Prop
  | .addUsed _ _ _ => True
  | .needsNotification mem =>
    (Queue.needsNotification ⟨s.queue, mem⟩).outcome =
        (fun event => decide (event ∈ s.written)) <$> s.queue.usedEvent mem ∧
      (∀ event, event ∈ s.written ↔ ∃ i < (s.queue.nextUsed - s.old).toNat, event = s.old + UInt16.ofNat i) ∧
      ∀ answer, (Queue.needsNotification ⟨s.queue, mem⟩).outcome = .ok answer →
        ∀ mem' again, (Queue.needsNotification ⟨(s.step (.needsNotification mem)).queue, mem'⟩).outcome = .ok again →
          again = false

structure Inv (s : Notifier) : Prop where
  enabled : s.queue.eventIdxEnabled = true
  written : s.written = (List.range s.written.length).map fun i => s.old + UInt16.ofNat i
  nextUsed : s.queue.nextUsed = s.old + UInt16.ofNat s.written.length
  numAdded : s.queue.numAdded = UInt16.ofNat s.written.length
  length_le : s.written.length ≤ s.adds

theorem inv_start {q : Queue} (henabled : q.eventIdxEnabled = true) (hzero : q.numAdded = 0) : (start q).Inv :=
  ⟨henabled, rfl, (UInt16.add_zero _).symm, hzero, Nat.le_refl _⟩

variable {s : Notifier}

theorem Inv.addUsed (h : s.Inv) (mem : GuestMemory) (headIndex : UInt16) (len : UInt32) :
    (s.step (.addUsed mem headIndex len)).Inv := by
  obtain ⟨henabled, hwritten, hnext, hadded, hle⟩ := h
  simp only [step, addUsed_queue]
  by_cases hentry : s.queue.EntryWritten mem headIndex
  · simp only [if_pos hentry]
    refine ⟨henabled, ?_, ?_, ?_, ?_⟩
    · rw [length_append, length_singleton, range_succ, map_append, ← hwritten, hnext]
      rfl
    · simp only [countUsed, length_append, length_singleton, hnext, ← Counter.ofNat_add_one, UInt16.add_assoc]
    · simp only [countUsed, length_append, length_singleton, hadded, ← Counter.ofNat_add_one]
    · simpa using hle
  · simp only [if_neg hentry]
    exact ⟨henabled, hwritten, hnext, hadded, Nat.le_succ_of_le hle⟩

theorem Inv.needsNotification (h : s.Inv) (mem : GuestMemory) : (s.step (.needsNotification mem)).Inv := by
  have hrun := needsNotification_eq s.queue mem h.enabled
  simp only [step]
  cases hevent : s.queue.usedEvent mem with
  | ok event =>
    rw [hevent] at hrun
    rw [hrun]
    exact inv_start h.enabled rfl
  | err e | panic =>
    rw [hevent] at hrun
    rw [hrun]
    exact h

theorem Inv.step (h : s.Inv) (call : NotifierCall) : (s.step call).Inv := by
  cases call with
  | addUsed mem headIndex len => exact h.addUsed mem headIndex len
  | needsNotification mem => exact h.needsNotification mem

theorem Inv.mem_written (h : s.Inv) {event : UInt16} :
    event ∈ s.written ↔ ∃ i < s.written.length, event = s.old + UInt16.ofNat i := by
  rw [h.written]
  simp [eq_comm]

theorem Inv.outcome (h : s.Inv) (hlen : s.written.length ≤ 65535) (mem : GuestMemory) :
    (Queue.needsNotification ⟨s.queue, mem⟩).outcome =
      (fun event => decide (event ∈ s.written)) <$> s.queue.usedEvent mem := by
  have htest : ∀ event, s.queue.nextUsed - event - 1 < s.queue.numAdded ↔ event ∈ s.written := by
    intro event
    rw [h.nextUsed, h.numAdded, Counter.window_iff (by omega), h.mem_written]
  rw [needsNotification_eq s.queue mem h.enabled]
  cases s.queue.usedEvent mem with
  | ok event => simp only [htest, Outcome.map_ok]
  | err e => rfl
  | panic => rfl

theorem written_of_answer {mem : GuestMemory} {answer : Bool}
    (h : (needsNotification ⟨s.queue, mem⟩).outcome = .ok answer) :
    (s.step (.needsNotification mem)).written = [] := by
  simp only [step, h]
  rfl

theorem Inv.answers (h : s.Inv) {call : NotifierCall} (hpaced : s.Paced call) : s.Answers call := by
  cases call with
  | addUsed mem headIndex len => trivial
  | needsNotification mem =>
    have hlen : s.written.length ≤ 65535 := Nat.le_trans h.length_le hpaced
    have hdiff : (s.queue.nextUsed - s.old).toNat = s.written.length := by
      have := s.old.toNat_lt
      rw [h.nextUsed, UInt16.toNat_sub, UInt16.toNat_add, UInt16.toNat_ofNat']
      omega
    refine ⟨h.outcome hlen mem, fun event => by rw [h.mem_written, hdiff], fun answer hanswer mem' again hagain => ?_⟩
    -- nothing has been written since the answer
    have hnil := written_of_answer hanswer
    have hnext := (h.needsNotification mem).outcome (by rw [hnil]; exact Nat.zero_le _) mem'
    rw [hagain, hnil] at hnext
    obtain ⟨event, _, hfalse⟩ := Outcome.map_eq_ok.1 hnext.symm
    simpa using hfalse.symm

/-- **Event-idx notification law.**  On every queue with event indices on and nothing added yet, along every
history of the two calls, each with whatever memory it finds: `needs_notification` answers whether the
`used_event` that it reads is one of the used indices written since its last answer. -/
theorem event_idx_notification {q : Queue} (henabled : q.eventIdxEnabled = true) (hzero : q.numAdded = 0)
    (calls : List NotifierCall) (hpaced : Along step Paced (start q) calls) :
    Along step Answers (start q) calls :=
  hpaced.of_invariant (fun _ call h _ => h.step call) (fun _ _ h hp => h.answers hp) (inv_start henabled hzero)

/-- A queue of four entries with event indices, at the end of its counters. -/
def lastIndex : Queue := { Queue.default with size := 4, maxSize := 4, eventIdxEnabled := true, nextUsed := 65535 }

theorem event_idx_notification_wraps : Along step Answers (start lastIndex)
        [.addUsed blankMemory 0 1, .addUsed blankMemory 1 2, .needsNotification blankMemory] ∧
      (run step (start lastIndex) [.addUsed blankMemory 0 1, .addUsed blankMemory 1 2]).written = [65535, 0] :=
  ⟨event_idx_notification rfl rfl _ ⟨trivial, trivial, by show 2 ≤ 65535; decide, trivial⟩, by decide +kernel⟩

end Notifier

end RustVmm.VirtioQueue
