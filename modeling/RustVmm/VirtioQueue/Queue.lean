import RustVmm.VirtioQueue.Chain
import RustVmm.VmMemory.Bytes

/-!
# The virtio queue

Model of the available-ring side of `virtio-queue/src/queue.rs`: a queue, and the ways to take chains from it.

* `loadField_of_readable`, `availIdx_cases` — loads of the fields of a ring.
* `iter_cases`, `AvailIter.next_cases` — what the iterator does on any memory.
* `RingReady.iter_eq`, `AvailIter.next_of_ready` — and on a ring that can be read.
-/

set_option autoImplicit false

namespace RustVmm.VirtioQueue

open Lib VmMemory GuestMemory Outcome Traced

variable {σ W : Type} [Records W]

def MAX_QUEUE_SIZE : UInt16 := 32768
def VIRTQ_AVAIL_RING_HEADER_SIZE : Nat := 4
def VIRTQ_AVAIL_ELEMENT_SIZE : Nat := 2
def DEFAULT_DESC_TABLE_ADDR : Nat := 0
def DEFAULT_AVAIL_RING_ADDR : Nat := 0
def DEFAULT_USED_RING_ADDR : Nat := 0

structure Queue where
  maxSize : UInt16
  nextAvail : UInt16
  nextUsed : UInt16
  eventIdxEnabled : Bool
  numAdded : UInt16
  size : UInt16
  ready : Bool
  descTable : Nat
  availRing : Nat
  usedRing : Nat
  deriving DecidableEq, Repr

/-- The iterator over the available chains; the `next_avail` it borrows stays in the queue. -/
structure AvailIter where
  descTable : Nat
  availRing : Nat
  queueSize : UInt16
  lastIndex : UInt16
  deriving DecidableEq, Repr

namespace Queue

def new (maxSize : UInt16) : Outcome Error Queue :=
  if maxSize = 0 ∨ maxSize > MAX_QUEUE_SIZE ∨ maxSize &&& (maxSize - 1) ≠ 0 then .err .invalidMaxSize
  else .ok
    { maxSize := maxSize
      nextAvail := 0
      nextUsed := 0
      eventIdxEnabled := false
      numAdded := 0
      size := maxSize
      ready := false
      descTable := DEFAULT_DESC_TABLE_ADDR
      availRing := DEFAULT_AVAIL_RING_ADDR
      usedRing := DEFAULT_USED_RING_ADDR }

def trySetSize (self : Queue) (size : UInt16) : Outcome Error Queue :=
  if size > self.maxSize ∨ size = 0 ∨ size &&& (size - 1) ≠ 0 then .err .invalidSize
  else .ok { self with size := size }

def trySetAvailRingAddress (self : Queue) (availRing : Nat) : Outcome Error Queue :=
  if availRing &&& 1 ≠ 0 then .err .invalidAvailRingAlign
  else .ok { self with availRing := availRing }

def setReady (self : Queue) (ready : Bool) : Queue := { self with ready := ready }

/-- A `u16` field of a ring. -/
def loadField (mem : GuestMemory) (base offset : Nat) : Traced σ W Error UInt16 := do
  let addr ← .lift (.okOr (checkedAdd base offset) .addressOverflow)
  (mem.load16W addr).mapErr .guestMemory

def availIdxW (self : Queue) (mem : GuestMemory) : Traced σ W Error UInt16 := loadField mem self.availRing 2

/-- `avail_idx`: the `idx` field of the available ring. -/
def availIdx (self : Queue) (mem : GuestMemory) : Outcome Error UInt16 := (self.availIdxW mem ()).outcome

end Queue

namespace AvailIter

/-- `AvailIter::new`: the driver may not offer more than the ring holds. -/
def new (idx : UInt16) (queue : Queue) : Outcome Error AvailIter :=
  if idx - queue.nextAvail > queue.size then .err .invalidAvailRingIndex
  else .ok ⟨queue.descTable, queue.availRing, queue.size, idx⟩

/-- `AvailIter::next`, on the `next_avail` that it borrows. -/
def nextW (self : AvailIter) (mem : GuestMemory) : Traced UInt16 W Error (Option DescriptorChain) := do
  let nextAvail ← .get
  if nextAvail = self.lastIndex then return none
  -- `checked_rem`
  else if self.queueSize = 0 then return none
  else
    let elemOff := (nextAvail % self.queueSize).toNat * VIRTQ_AVAIL_ELEMENT_SIZE
    match checkedAdd self.availRing (VIRTQ_AVAIL_RING_HEADER_SIZE + elemOff) with
    | none => return none
    | some addr => do
      match ← (mem.load16W addr).attempt with
      | .ok headIndex => do
        .modify (· + 1)
        return some (DescriptorChain.new self.descTable self.queueSize headIndex)
      | .error _ => return none

/-- `AvailIter::next`: a chain, and the new `next_avail`. -/
def next (self : AvailIter) (mem : GuestMemory) (nextAvail : UInt16) : Option DescriptorChain × UInt16 :=
  let r := self.nextW mem nextAvail
  (r.outcome.toOption.join, r.state)

end AvailIter

namespace Queue

/-- `iter`: a ready queue takes a snapshot of the `idx` field. -/
def iterW (self : Queue) (mem : GuestMemory) : Traced σ W Error AvailIter :=
  if !self.ready ∨ self.availRing = 0 then .lift (.err .queueNotReady)
  else do
    let idx ← self.availIdxW mem
    .lift (AvailIter.new idx self)

def iter (self : Queue) (mem : GuestMemory) : Outcome Error AvailIter := (self.iterW mem ()).outcome

/-! ## All that they can do -/

theorem keeps_loadField (I : σ → Prop) (mem : GuestMemory) (base offset : Nat) :
    (loadField mem base offset : Traced σ W Error UInt16).Keeps I := by
  refine .lift_bind fun addr _ => .mapErr ?_ _
  exact .lift_bind fun _ _ => .bind (fun _ h => h) fun _ => .pure _

theorem loadField_eq (mem : GuestMemory) (base offset : Nat) : (loadField mem base offset : Traced σ Effect _ _) =
    .lift (do
      let addr ← .okOr (checkedAdd base offset) .addressOverflow
      (mem.load16 addr).mapErr .guestMemory) := by
  rw [lift_bind_lift]
  refine congrArg (lift _ >>= ·) (funext fun addr => ?_)
  unfold load16W
  cases mem.load16 addr <;> rfl

theorem availIdxW_eq (self : Queue) (mem : GuestMemory) :
    (self.availIdxW mem : Traced σ Effect _ _) = .lift (self.availIdx mem) := by
  simp only [availIdx, availIdxW, loadField_eq, lift_apply]

theorem iter_eq (self : Queue) (mem : GuestMemory) : self.iter mem =
    if !self.ready ∨ self.availRing = 0 then .err .queueNotReady
    else self.availIdx mem >>= fun idx => AvailIter.new idx self := by
  unfold iter iterW
  split
  · rfl
  · rw [availIdxW_eq, ← lift_bind_lift]
    rfl

theorem availIdx_cases (self : Queue) (mem : GuestMemory) : (∃ e, self.availIdx mem = .err e) ∨
      self.availIdx mem = .ok (le16 mem.bytes (self.availRing + 2)) := by
  rw [availIdx, availIdxW, loadField_eq, lift_apply]
  unfold checkedAdd
  split
  · rcases mem.load16_cases (self.availRing + 2) with ⟨e, he⟩ | hok
    · exact .inl ⟨.guestMemory e, by rw [okOr_some, ok_bind, he]; rfl⟩
    · exact .inr (by rw [okOr_some, ok_bind, hok]; rfl)
  · exact .inl ⟨_, rfl⟩

theorem iter_cases (self : Queue) (mem : GuestMemory) : (∃ e, self.iter mem = .err e) ∨
      self.iter mem = .ok ⟨self.descTable, self.availRing, self.size, le16 mem.bytes (self.availRing + 2)⟩ := by
  rw [iter_eq]
  split
  · exact .inl ⟨_, rfl⟩
  · rcases self.availIdx_cases mem with ⟨e, he⟩ | hok
    · exact .inl ⟨e, by rw [he]; rfl⟩
    · rw [hok, ok_bind]
      unfold AvailIter.new
      split
      · exact .inl ⟨_, rfl⟩
      · exact .inr rfl

theorem iter_ne_panic (self : Queue) (mem : GuestMemory) : self.iter mem ≠ .panic := by
  rcases self.iter_cases mem with ⟨e, h⟩ | h <;> rw [h] <;> simp

/-- `pop_descriptor_chain`: the first chain of a new iterator. -/
def popDescriptorChain (self : Queue) (mem : GuestMemory) : Option DescriptorChain × Queue :=
  match h : self.iter mem with
  | .ok it => ((it.next mem self.nextAvail).1, { self with nextAvail := (it.next mem self.nextAvail).2 })
  | .err _ => (none, self)
  | .panic => absurd h (self.iter_ne_panic mem)

variable {self q : Queue} {mem : GuestMemory}

theorem popDescriptorChain_of_ok {it : AvailIter} (h : self.iter mem = .ok it) : self.popDescriptorChain mem =
      ((it.next mem self.nextAvail).1, { self with nextAvail := (it.next mem self.nextAvail).2 }) := by
  unfold popDescriptorChain
  split
  · rename_i it' hit
    rw [h] at hit
    cases hit
    rfl
  · rename_i e he
    rw [h] at he
    cases he
  · rename_i hp
    exact absurd hp (self.iter_ne_panic mem)

theorem popDescriptorChain_of_err {e : Error} (h : self.iter mem = .err e) :
    self.popDescriptorChain mem = (none, self) := by
  unfold popDescriptorChain
  split
  · rename_i it hit
    rw [h] at hit
    cases hit
  · rfl
  · rename_i hp
    exact absurd hp (self.iter_ne_panic mem)

/-! ## Sizes -/

variable {size maxSize : UInt16}

theorem size_eq_two_pow (hzero : size ≠ 0) (hand : size &&& (size - 1) = 0) (hmax : size ≤ MAX_QUEUE_SIZE) :
    ∃ k ≤ 15, size.toNat = 2 ^ k := by
  have hpos : 0 < size.toNat := by
    rw [Nat.pos_iff_ne_zero]
    exact fun h => hzero (UInt16.toNat_inj.1 h)
  have hone : (1 : UInt16) ≤ size := UInt16.le_iff_toNat_le.2 hpos
  have hnat : size.toNat &&& (size.toNat - 1) = 0 := by
    have := congrArg UInt16.toNat hand
    rwa [UInt16.toNat_and, UInt16.toNat_sub_of_le _ _ hone] at this
  obtain ⟨k, hk⟩ := (Nat.and_sub_one_eq_zero_iff_isPowerOfTwo hpos.ne').1 hnat
  refine ⟨k, ?_, hk⟩
  have hle : size.toNat ≤ 2 ^ 15 := UInt16.le_iff_toNat_le.1 hmax
  rw [hk] at hle
  exact (Nat.pow_le_pow_iff_right (by decide)).1 hle

/-! ## Chains that are taken -/

/-- The queue is ready, and the fields of its available ring can be read. -/
structure RingReady (q : Queue) (mem : GuestMemory) : Prop where
  ready : q.ready = true
  availRing_ne : q.availRing ≠ 0
  readable : ∀ offset, offset % 2 = 0 → offset < 4 + 2 * q.size.toNat →
    mem.Readable16 (q.availRing + offset)

theorem ringReady_of_mapped (hready : q.ready = true) (hne : q.availRing ≠ 0) (heven : q.availRing % 2 = 0)
    (hregions : mem.EvenRegions) (hmapped : mem.Mapped q.availRing (4 + 2 * q.size.toNat)) : q.RingReady mem where
  ready := hready
  availRing_ne := hne
  readable offset ho hlt :=
    readable16_of_mapped hregions hmapped (by omega) (by omega) (by omega)

theorem loadField_of_readable {base offset : Nat} (h : mem.Readable16 (base + offset)) :
    (loadField mem base offset : Traced σ Effect _ _) = .lift (.ok (le16 mem.bytes (base + offset))) := by
  have hlt := h.lt
  rw [loadField_eq, checkedAdd_of_le (by omega), okOr_some, ok_bind, load16_of_readable h]
  rfl

theorem RingReady.iter_eq (h : q.RingReady mem) : q.iter mem =
    if q.size < le16 mem.bytes (q.availRing + 2) - q.nextAvail then .err .invalidAvailRingIndex
    else .ok ⟨q.descTable, q.availRing, q.size, le16 mem.bytes (q.availRing + 2)⟩ := by
  have hready : ¬ ((!q.ready) = true ∨ q.availRing = 0) := by simp [h.ready, h.availRing_ne]
  rw [Queue.iter_eq, if_neg hready, availIdx, availIdxW, loadField_of_readable (h.readable 2 (by decide) (by omega))]
  rfl

theorem iter_of_ready (h : self.RingReady mem)
    (hidx : le16 mem.bytes (self.availRing + 2) - self.nextAvail ≤ self.size) :
    self.iter mem = .ok ⟨self.descTable, self.availRing, self.size, le16 mem.bytes (self.availRing + 2)⟩ := by
  rw [h.iter_eq, if_neg (UInt16.not_lt.2 hidx)]

end Queue

theorem toNat_mod_lt {size : UInt16} (hsize : size ≠ 0) (counter : UInt16) : (counter % size).toNat < size.toNat := by
  exact Nat.mod_lt _ (Nat.pos_of_ne_zero fun hz => hsize (UInt16.toNat_inj.1 hz))

namespace AvailIter

variable {self : AvailIter} {mem : GuestMemory} {nextAvail : UInt16}

/-- The address of the entry that is next. -/
def entryAddr (self : AvailIter) (nextAvail : UInt16) : Nat :=
  self.availRing + (VIRTQ_AVAIL_RING_HEADER_SIZE + (nextAvail % self.queueSize).toNat * VIRTQ_AVAIL_ELEMENT_SIZE)

theorem nextW_of_load {headIndex : UInt16} (hne : nextAvail ≠ self.lastIndex) (hsize : self.queueSize ≠ 0)
    (hle : self.entryAddr nextAvail ≤ U64_MAX) (hload : mem.load16 (self.entryAddr nextAvail) = .ok headIndex) :
    self.nextW mem nextAvail = ⟨.ok (some (DescriptorChain.new self.descTable self.queueSize headIndex)),
      nextAvail + 1, (Records.load (self.entryAddr nextAvail) 2 : List W)⟩ := by
  have hadd : checkedAdd self.availRing _ = some (self.entryAddr nextAvail) := checkedAdd_of_le hle
  rw [nextW, get_bind_apply, if_neg hne, if_neg hsize, hadd]
  exact bind_of_ok_of_silent (attempt_of_ok (load16W_of_ok hload nextAvail)) rfl

theorem nextW_cases (self : AvailIter) (mem : GuestMemory) (nextAvail : UInt16) :
    self.nextW (W := W) mem nextAvail = ⟨.ok none, nextAvail, []⟩ ∨
      nextAvail ≠ self.lastIndex ∧ self.queueSize ≠ 0 ∧ self.nextW (W := W) mem nextAvail =
        ⟨.ok (some (DescriptorChain.new self.descTable self.queueSize
          (le16 mem.bytes (self.entryAddr nextAvail)))), nextAvail + 1, Records.load (self.entryAddr nextAvail) 2⟩ := by
  by_cases hlast : nextAvail = self.lastIndex
  · left
    rw [nextW, get_bind_apply, if_pos hlast]
    rfl
  by_cases hsize : self.queueSize = 0
  · left
    rw [nextW, get_bind_apply, if_neg hlast, if_pos hsize]
    rfl
  by_cases hle : self.entryAddr nextAvail ≤ U64_MAX
  · rcases mem.load16_cases (self.entryAddr nextAvail) with ⟨e, he⟩ | hok
    · left
      have hadd : checkedAdd self.availRing _ = some (self.entryAddr nextAvail) := checkedAdd_of_le hle
      rw [nextW, get_bind_apply, if_neg hlast, if_neg hsize, hadd]
      exact bind_of_ok_of_silent (attempt_of_err (load16W_of_err he nextAvail)) rfl
    · exact .inr ⟨hlast, hsize, nextW_of_load hlast hsize hle hok⟩
  · left
    have hadd : checkedAdd self.availRing _ = none := checkedAdd_of_lt (Nat.lt_of_not_le hle)
    rw [nextW, get_bind_apply, if_neg hlast, if_neg hsize, hadd]
    rfl

theorem next_cases (self : AvailIter) (mem : GuestMemory) (nextAvail : UInt16) :
    self.next mem nextAvail = (none, nextAvail) ∨ nextAvail ≠ self.lastIndex ∧ self.next mem nextAvail =
        (some (DescriptorChain.new self.descTable self.queueSize
          (le16 mem.bytes (self.entryAddr nextAvail))), nextAvail + 1) := by
  unfold AvailIter.next
  rcases self.nextW_cases (W := Effect) mem nextAvail with hnone | ⟨hne, -, hsome⟩
  · rw [hnone]
    exact .inl rfl
  · rw [hsome]
    exact .inr ⟨hne, rfl⟩

theorem next_of_ready {queue : Queue} (h : queue.RingReady mem) (hring : self.availRing = queue.availRing)
    (hsize : self.queueSize = queue.size) (hpos : queue.size ≠ 0) (hne : nextAvail ≠ self.lastIndex) :
    (self.next mem nextAvail).1.isSome = true := by
  have hmod := toNat_mod_lt hpos nextAvail
  have hread := h.readable (4 + (nextAvail % queue.size).toNat * 2) (by omega) (by omega)
  rw [← hring, ← hsize] at hread
  have hrun := nextW_of_load (W := Effect) hne (hsize ▸ hpos) (Nat.le_of_lt (Nat.lt_of_succ_lt hread.lt))
    (load16_of_readable hread)
  rw [AvailIter.next, hrun]
  rfl

end AvailIter

end RustVmm.VirtioQueue
