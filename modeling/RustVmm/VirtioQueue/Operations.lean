import RustVmm.Lib.Counter
import RustVmm.VirtioQueue.Queue
import RustVmm.VmMemory.Flat

/-!
# The operations of a queue

The rest of `QueueT` and `QueueOwnedT` for `Queue`: the used ring, notifications and the configuration.

* `QueueOp`, `store16_spec` — a call on a queue and its memory, with its stores as trace.
* `QueueCall.perform`, `observations` — all calls as one interface, and all that a caller sees of them.
* `Queue.Configured` — what the checks of the setters keep up.
* `reconfigures_next`, `configured_run` — what a call can do to the configuration, and so any number of calls.
-/

set_option autoImplicit false

namespace RustVmm.VirtioQueue

open Lib VmMemory Classical Traced

def VIRTQ_USED_RING_HEADER_SIZE : Nat := 4
def VIRTQ_USED_RING_META_SIZE : Nat := VIRTQ_USED_RING_HEADER_SIZE + 2
def VIRTQ_USED_ELEMENT_SIZE : Nat := 8
def VIRTQ_AVAIL_RING_META_SIZE : Nat := VIRTQ_AVAIL_RING_HEADER_SIZE + 2
def VRING_USED_F_NO_NOTIFY : UInt16 := 1

def leBytes16 (v : UInt16) : List UInt8 := [v.toUInt8, (v >>> 8).toUInt8]

def leBytes32 (v : UInt32) : List UInt8 :=
  [v.toUInt8, (v >>> 8).toUInt8, (v >>> 16).toUInt8, (v >>> 24).toUInt8]

structure VirtqUsedElem where
  id : UInt32
  len : UInt32
  deriving DecidableEq, Repr

def VirtqUsedElem.bytes (self : VirtqUsedElem) : List UInt8 := leBytes32 self.id ++ leBytes32 self.len

/-- A queue, and the memory that a call on it is given. -/
structure Attached where
  queue : Queue
  mem : GuestMemory

abbrev QueueOp (α : Type) := Traced Attached Effect Error α

namespace QueueOp

/-- An access to memory, with `map_err(Error::GuestMemory)`. -/
def access {α : Type} (x : GuestMemory → Traced Unit Effect VmMemory.Error α) : QueueOp α := fun s =>
  let r := x s.mem ()
  ⟨r.outcome.mapErr .guestMemory, { s with mem := s.mem.apply r.trace }, r.trace⟩

/-- `store` of a `u16` in little-endian order. -/
def store16 (val : UInt16) (addr : Nat) : QueueOp Unit :=
  access fun mem => mem.asT.store ⟨leBytes16 val, .inr (.inl rfl)⟩ addr

/-- `checked_add(..).ok_or(Error::AddressOverflow)?`. -/
def addressAt (base offset : Nat) : QueueOp Nat :=
  .lift (.okOr (checkedAdd base offset) .addressOverflow)

end QueueOp

/-! ## Stores -/

variable {α : Type}

namespace QueueOp

variable {s : Attached} {addr : Nat}

theorem access_of_store {x : GuestMemory → Traced Unit Effect VmMemory.Error α} {a : α} {trace : List Effect}
    {data : List UInt8} (hx : x s.mem () = ⟨.ok a, (), trace⟩)
    (happly : ∀ b, applyBytes b trace = storeBytes b addr data) :
    access x s = ⟨.ok a, ⟨s.queue, s.mem.storeAt addr data⟩, trace⟩ := by
  simp only [access, hx, GuestMemory.apply_eq_storeAt happly, Outcome.mapErr]

theorem storeAt_leBytes16 (mem : GuestMemory) (addr : Nat) (val : UInt16) :
    mem.storeAt addr (leBytes16 val) = mem.write16 addr val := by
  unfold GuestMemory.storeAt GuestMemory.write16 storeBytes leBytes16
  congr 1
  funext a
  rcases Nat.lt_or_ge a addr with hlt | hge
  · simp [Nat.not_le.2 hlt, Nat.ne_of_lt hlt, show a ≠ addr + 1 by omega]
  · obtain ⟨i, rfl⟩ := Nat.exists_eq_add_of_le hge
    match i with
    | 0 => simp
    | 1 => simp
    | i + 2 => simp

theorem addressAt_of_le {base offset : Nat} (h : base + offset ≤ U64_MAX) :
    addressAt base offset = lift (.ok (base + offset)) := by
  rw [addressAt, checkedAdd_of_le h, Outcome.okOr_some]

theorem store16_spec (val : UInt16) (addr : Nat) (s : Attached) :
    (s.mem.Readable16 addr ∧
      ∃ trace, store16 val addr s = ⟨.ok (), ⟨s.queue, s.mem.write16 addr val⟩, trace⟩) ∨
    ¬ s.mem.Readable16 addr ∧ ∃ e, store16 val addr s = ⟨.err e, s, []⟩ := by
  rcases GuestMemoryT.store_cases s.mem ⟨leBytes16 val, .inr (.inl rfl)⟩ addr () with
    ⟨hat, trace, hstore, happly⟩ | ⟨hat, e, herr⟩
  · refine .inl ⟨hat, trace, (access_of_store hstore happly).trans ?_⟩
    rw [storeAt_leBytes16]
  · refine .inr ⟨hat, .guestMemory e, ?_⟩
    simp only [store16, access, herr]
    rfl

end QueueOp

open QueueOp

/-! ## The used ring and notifications -/

namespace Queue

def isValid (self : Queue) (mem : GuestMemory) : Bool :=
  let queueSize := self.size.toNat
  let descTableSize := DESCRIPTOR_SIZE * queueSize
  let availRingSize := VIRTQ_AVAIL_RING_META_SIZE + VIRTQ_AVAIL_ELEMENT_SIZE * queueSize
  let usedRingSize := VIRTQ_USED_RING_META_SIZE + VIRTQ_USED_ELEMENT_SIZE * queueSize
  if !self.ready then false
  else if !mem.asT.checkRange self.descTable descTableSize .read then false
  else if !mem.asT.checkRange self.availRing availRingSize .read then false
  else if !mem.asT.checkRange self.usedRing usedRingSize .write then false
  else true

variable {σ W : Type} [Records W]

def usedIdxW (self : Queue) (mem : GuestMemory) : Traced σ W Error UInt16 := loadField mem self.usedRing 2

/-- `used_idx`: the `idx` field of the used ring. -/
def usedIdx (self : Queue) (mem : GuestMemory) : Outcome Error UInt16 := (self.usedIdxW mem ()).outcome

def usedEventW (self : Queue) (mem : GuestMemory) : Traced σ W Error UInt16 :=
  loadField mem self.availRing (VIRTQ_AVAIL_RING_HEADER_SIZE + self.size.toNat * VIRTQ_AVAIL_ELEMENT_SIZE)

/-- `used_event`: the field behind the slots of the available ring. -/
def usedEvent (self : Queue) (mem : GuestMemory) : Outcome Error UInt16 := (self.usedEventW mem ()).outcome

/-- `set_avail_event`: the field behind the slots of the used ring. -/
def setAvailEvent (val : UInt16) : QueueOp Unit := do
  let s ← .get
  let availEventOffset := VIRTQ_USED_RING_HEADER_SIZE + VIRTQ_USED_ELEMENT_SIZE * s.queue.size.toNat
  let addr ← addressAt s.queue.usedRing availEventOffset
  store16 val addr

def setUsedFlags (val : UInt16) : QueueOp Unit := do
  let s ← .get
  store16 val s.queue.usedRing

def setNotification (enable : Bool) : QueueOp Unit := do
  let s ← .get
  if enable then
    if s.queue.eventIdxEnabled then setAvailEvent s.queue.nextAvail else setUsedFlags 0
  else if !s.queue.eventIdxEnabled then setUsedFlags VRING_USED_F_NO_NOTIFY
  else return ()

/-- The counters of `add_used`. -/
def countUsed (self : Queue) : Queue :=
  { self with nextUsed := self.nextUsed + 1, numAdded := self.numAdded + 1 }

def addUsed (headIndex : UInt16) (len : UInt32) : QueueOp Unit := do
  let s ← .get
  if headIndex ≥ s.queue.size then .lift (.err .invalidDescriptorIndex)
  else
    let nextUsedIndex := (s.queue.nextUsed % s.queue.size).toNat
    let addr ← addressAt s.queue.usedRing
      (VIRTQ_USED_RING_HEADER_SIZE + nextUsedIndex * VIRTQ_USED_ELEMENT_SIZE)
    access fun mem => mem.asT.writeSlice (VirtqUsedElem.mk headIndex.toUInt32 len).bytes addr
    .modify fun s => { s with queue := s.queue.countUsed }
    let s ← .get
    let addr ← addressAt s.queue.usedRing 2
    store16 s.queue.nextUsed addr

/-- The second half of `enable_notification`: is there more in the available ring? -/
def recheck : Traced Attached W Error Bool := do
  let s ← .get
  let idx ← s.queue.availIdxW s.mem
  return idx ≠ s.queue.nextAvail

/-- `enable_notification`: the `idx` field is read again after notifications are on. -/
def enableNotification : Traced Attached W Error Bool := do
  Records.storing (setNotification true)
  recheck

def disableNotification : QueueOp Unit := setNotification false

def needsNotification : Traced Attached W Error Bool := do
  let s ← .get
  let usedIdx := s.queue.nextUsed
  if s.queue.eventIdxEnabled then
    let usedEvent ← s.queue.usedEventW s.mem
    let old := usedIdx - s.queue.numAdded
    .modify fun s => { s with queue := { s.queue with numAdded := 0 } }
    return usedIdx - usedEvent - 1 < usedIdx - old
  else return true

theorem usedEventW_eq (self : Queue) (mem : GuestMemory) :
    (self.usedEventW mem : Traced σ Effect _ _) = .lift (self.usedEvent mem) := by
  simp only [usedEvent, usedEventW, loadField_eq, lift_apply]

theorem needsNotification_eq (q : Queue) (mem : GuestMemory) (h : q.eventIdxEnabled = true) :
    needsNotification ⟨q, mem⟩ =
      match q.usedEvent mem with
      | .ok event => ⟨.ok (decide (q.nextUsed - event - 1 < q.numAdded)), ⟨{ q with numAdded := 0 }, mem⟩, []⟩
      | .err e => ⟨.err e, ⟨q, mem⟩, []⟩
      | .panic => ⟨.panic, ⟨q, mem⟩, []⟩ := by
  unfold needsNotification
  rw [get_bind_apply, if_pos h, usedEventW_eq]
  cases q.usedEvent mem with
  | ok event =>
    rw [lift_ok_bind, modify_bind_apply]
    simp only [Counter.sub_sub_self, pure_apply]
  | err e => rfl
  | panic => rfl

/-! ## The configuration -/

def trySetDescTableAddress (self : Queue) (descTable : Nat) : Outcome Error Queue :=
  if descTable &&& 0xf ≠ 0 then .err .invalidDescTableAlign
  else .ok { self with descTable := descTable }

def trySetUsedRingAddress (self : Queue) (usedRing : Nat) : Outcome Error Queue :=
  if usedRing &&& 0x3 ≠ 0 then .err .invalidUsedRingAlign
  else .ok { self with usedRing := usedRing }

def reset (self : Queue) : Queue :=
  { self with
    ready := false
    size := self.maxSize
    descTable := DEFAULT_DESC_TABLE_ADDR
    availRing := DEFAULT_AVAIL_RING_ADDR
    usedRing := DEFAULT_USED_RING_ADDR
    nextAvail := 0
    nextUsed := 0
    numAdded := 0
    eventIdxEnabled := false }

/-- A setter that ignores what its fallible form refuses. -/
def orUnchanged (self : Queue) (r : Outcome Error Queue) : Queue := r.toOption.getD self

def setSize (self : Queue) (size : UInt16) : Queue := self.orUnchanged (self.trySetSize size)

/-- The address with its low and its high half replaced, if they are given. -/
def replaceHalves (address : Nat) (low high : Option UInt32) : Nat :=
  (high.getD (.ofNat (address >>> 32))).toNat <<< 32 ||| (low.getD (.ofNat address)).toNat

def setDescTableAddress (self : Queue) (low high : Option UInt32) : Queue :=
  self.orUnchanged (self.trySetDescTableAddress (replaceHalves self.descTable low high))

def setAvailRingAddress (self : Queue) (low high : Option UInt32) : Queue :=
  self.orUnchanged (self.trySetAvailRingAddress (replaceHalves self.availRing low high))

def setUsedRingAddress (self : Queue) (low high : Option UInt32) : Queue :=
  self.orUnchanged (self.trySetUsedRingAddress (replaceHalves self.usedRing low high))

def setEventIdx (self : Queue) (enabled : Bool) : Queue := { self with eventIdxEnabled := enabled }

def setNextAvail (self : Queue) (nextAvail : UInt16) : Queue := { self with nextAvail := nextAvail }

def setNextUsed (self : Queue) (nextUsed : UInt16) : Queue := { self with nextUsed := nextUsed }

def goToPreviousPosition (self : Queue) : Queue := { self with nextAvail := self.nextAvail - 1 }

def default : Queue := ⟨0, 0, 0, false, 0, 0, false, 0, 0, 0⟩

end Queue

/-! ## The interface -/

/-- What is done with an iterator; the memory is the one that the iterator finds at that time. -/
inductive IterStep where
  | next (mem : GuestMemory)
  | goToPreviousPosition

/-- The chains that an iterator yields, and the `next_avail` it leaves. -/
def AvailIter.use (self : AvailIter) (nextAvail : UInt16) :
    List IterStep → List (Option DescriptorChain) × UInt16
  | [] => ([], nextAvail)
  | .next mem :: steps =>
    let (chain, nextAvail) := self.next mem nextAvail
    let (chains, nextAvail) := self.use nextAvail steps
    (chain :: chains, nextAvail)
  | .goToPreviousPosition :: steps => self.use (nextAvail - 1) steps

/-- `iter`, and what is done with the iterator until it is dropped. -/
def Queue.iterate (self : Queue) (mem : GuestMemory) (steps : List IterStep) :
    Outcome Error (List (Option DescriptorChain)) × Queue :=
  match self.iter mem with
  | .ok it =>
    (.ok (it.use self.nextAvail steps).1,
      { self with nextAvail := (it.use self.nextAvail steps).2 })
  | .err e => (.err e, self)
  | .panic => (.panic, self)

inductive QueueCall where
  | isValid (mem : GuestMemory)
  | reset
  | maxSize
  | size
  | setSize (size : UInt16)
  | ready
  | setReady (ready : Bool)
  | setDescTableAddress (low high : Option UInt32)
  | setAvailRingAddress (low high : Option UInt32)
  | setUsedRingAddress (low high : Option UInt32)
  | setEventIdx (enabled : Bool)
  | availIdx (mem : GuestMemory)
  | usedIdx (mem : GuestMemory)
  | addUsed (mem : GuestMemory) (headIndex : UInt16) (len : UInt32)
  | enableNotification (mem : GuestMemory)
  | disableNotification (mem : GuestMemory)
  | needsNotification (mem : GuestMemory)
  | nextAvail
  | setNextAvail (nextAvail : UInt16)
  | nextUsed
  | setNextUsed (nextUsed : UInt16)
  | descTable
  | availRing
  | usedRing
  | eventIdxEnabled
  | popDescriptorChain (mem : GuestMemory)
  | iter (mem : GuestMemory) (steps : List IterStep)
  | goToPreviousPosition

inductive Reply where
  | unit
  | bool (b : Bool)
  | u16 (n : UInt16)
  | u64 (n : Nat)
  | unitResult (r : Outcome Error Unit)
  | boolResult (r : Outcome Error Bool)
  | u16Result (r : Outcome Error UInt16)
  | chain (chain : Option DescriptorChain)
  | chains (r : Outcome Error (List (Option DescriptorChain)))
  deriving DecidableEq

/-- What a caller sees of a call: its result, and its stores to guest memory. -/
structure Observation where
  reply : Reply
  writes : List Effect

namespace QueueCall

/-- A call that returns a value and changes nothing. -/
def returns (q : Queue) (reply : Reply) : Observation × Queue := (⟨reply, []⟩, q)

/-- A call that only changes the queue. -/
def becomes (q : Queue) : Observation × Queue := (⟨.unit, []⟩, q)

/-- A call that accesses memory. -/
def operates {α : Type} (q : Queue) (mem : GuestMemory) (wrap : Outcome Error α → Reply)
    (x : QueueOp α) : Observation × Queue :=
  let r := x ⟨q, mem⟩
  (⟨wrap r.outcome, r.trace⟩, r.state.queue)

def perform (q : Queue) : QueueCall → Observation × Queue
  | .isValid mem => returns q (.bool (q.isValid mem))
  | .reset => becomes q.reset
  | .maxSize => returns q (.u16 q.maxSize)
  | .size => returns q (.u16 q.size)
  | .setSize n => becomes (q.setSize n)
  | .ready => returns q (.bool q.ready)
  | .setReady b => becomes (q.setReady b)
  | .setDescTableAddress low high => becomes (q.setDescTableAddress low high)
  | .setAvailRingAddress low high => becomes (q.setAvailRingAddress low high)
  | .setUsedRingAddress low high => becomes (q.setUsedRingAddress low high)
  | .setEventIdx enabled => becomes (q.setEventIdx enabled)
  | .availIdx mem => returns q (.u16Result (q.availIdx mem))
  | .usedIdx mem => returns q (.u16Result (q.usedIdx mem))
  | .addUsed mem headIndex len => operates q mem .unitResult (Queue.addUsed headIndex len)
  | .enableNotification mem => operates q mem .boolResult Queue.enableNotification
  | .disableNotification mem => operates q mem .unitResult Queue.disableNotification
  | .needsNotification mem => operates q mem .boolResult Queue.needsNotification
  | .nextAvail => returns q (.u16 q.nextAvail)
  | .setNextAvail n => becomes (q.setNextAvail n)
  | .nextUsed => returns q (.u16 q.nextUsed)
  | .setNextUsed n => becomes (q.setNextUsed n)
  | .descTable => returns q (.u64 q.descTable)
  | .availRing => returns q (.u64 q.availRing)
  | .usedRing => returns q (.u64 q.usedRing)
  | .eventIdxEnabled => returns q (.bool q.eventIdxEnabled)
  | .popDescriptorChain mem =>
    (⟨.chain (q.popDescriptorChain mem).1, []⟩, (q.popDescriptorChain mem).2)
  | .iter mem steps => (⟨.chains (q.iterate mem steps).1, []⟩, (q.iterate mem steps).2)
  | .goToPreviousPosition => becomes q.goToPreviousPosition

def next (q : Queue) (c : QueueCall) : Queue := (c.perform q).2

end QueueCall

/-- All that a caller sees of a sequence of calls. -/
def observations (q : Queue) : List QueueCall → List Observation
  | [] => []
  | c :: cs => (c.perform q).1 :: observations (c.perform q).2 cs

/-! ## What the setters keep up -/

namespace Queue

structure Configured (q : Queue) : Prop where
  maxSize_le : q.maxSize ≤ MAX_QUEUE_SIZE
  maxSize_and : q.maxSize &&& (q.maxSize - 1) = 0
  size_le : q.size ≤ q.maxSize
  size_and : q.size &&& (q.size - 1) = 0
  size_eq_zero : q.size = 0 ↔ q.maxSize = 0
  descTable_and : q.descTable &&& 0xf = 0
  availRing_and : q.availRing &&& 1 = 0
  usedRing_and : q.usedRing &&& 0x3 = 0

/-- The queue has the sizes and addresses of another one. -/
structure SameConfig (q q' : Queue) : Prop where
  maxSize : q'.maxSize = q.maxSize
  size : q'.size = q.size
  descTable : q'.descTable = q.descTable
  availRing : q'.availRing = q.availRing
  usedRing : q'.usedRing = q.usedRing

theorem SameConfig.refl (q : Queue) : q.SameConfig q := ⟨rfl, rfl, rfl, rfl, rfl⟩

variable {q q' : Queue}

theorem Configured.of_same (h : q.Configured) (hs : q.SameConfig q') : q'.Configured := by
  obtain ⟨hmax, hsize, hdesc, havail, hused⟩ := hs
  constructor
  · rw [hmax]; exact h.maxSize_le
  · rw [hmax]; exact h.maxSize_and
  · rw [hmax, hsize]; exact h.size_le
  · rw [hsize]; exact h.size_and
  · rw [hmax, hsize]; exact h.size_eq_zero
  · rw [hdesc]; exact h.descTable_and
  · rw [havail]; exact h.availRing_and
  · rw [hused]; exact h.usedRing_and

theorem configured_new {maxSize : UInt16} (h : Queue.new maxSize = .ok q) : q.Configured ∧ q.maxSize ≠ 0 := by
  unfold Queue.new at h
  split at h
  · cases h
  · rename_i hcheck
    cases h
    rw [not_or, not_or] at hcheck
    obtain ⟨hzero, hle, hand⟩ := hcheck
    have hand := not_not.1 hand
    exact ⟨⟨UInt16.not_lt.1 hle, hand, UInt16.le_refl _, hand, Iff.rfl, Nat.zero_and _, Nat.zero_and _,
      Nat.zero_and _⟩, hzero⟩

theorem configured_default : Queue.default.Configured := by
  constructor <;> decide

theorem Configured.reset (h : q.Configured) : q.reset.Configured :=
  ⟨h.maxSize_le, h.maxSize_and, UInt16.le_refl _, h.maxSize_and, Iff.rfl, Nat.zero_and _,
    Nat.zero_and _, Nat.zero_and _⟩

theorem orUnchanged_ite {P : Queue → Prop} {c : Prop} [Decidable c] {e : Error} (hsame : P q) (hset : ¬ c → P q') :
    P (q.orUnchanged (if c then .err e else .ok q')) := by
  split
  · exact hsame
  · exact hset ‹_›

theorem Configured.setSize (h : q.Configured) (size : UInt16) : (q.setSize size).Configured := by
  refine orUnchanged_ite h fun hcheck => ?_
  rw [not_or, not_or] at hcheck
  obtain ⟨hle, hzero, hand⟩ := hcheck
  have hle := UInt16.not_lt.1 hle
  refine ⟨h.maxSize_le, h.maxSize_and, hle, not_not.1 hand, ?_, h.descTable_and,
    h.availRing_and, h.usedRing_and⟩
  constructor
  · exact fun hz => absurd hz hzero
  · intro hz
    rw [show q.maxSize = 0 from hz] at hle
    exact UInt16.le_antisymm hle (UInt16.zero_le)

/-! ## Operations change counters only -/

variable {q₀ : Queue}

theorem keeps_access (x : GuestMemory → Traced Unit Effect VmMemory.Error α)
    (I : Queue → Prop) : (access x).Keeps fun s => I s.queue :=
  fun _ h => h

variable (I : Queue → Prop)

theorem keeps_setNotification (enable : Bool) : (setNotification enable).Keeps fun s => I s.queue := by
  apply Traced.Keeps.get_bind
  intro s _
  have hevent : (setAvailEvent s.queue.nextAvail).Keeps fun s => I s.queue :=
    .get_bind fun _ _ => .bind (.lift _) fun _ => keeps_access _ I
  have hflags : ∀ val, (setUsedFlags val).Keeps fun s => I s.queue :=
    fun val => .get_bind fun _ _ => keeps_access _ I
  split
  · split
    · exact hevent
    · exact hflags _
  · split
    · exact hflags _
    · exact .pure _

theorem keeps_addUsed (headIndex : UInt16) (len : UInt32) :
    (addUsed headIndex len).Keeps fun s => q₀.SameConfig s.queue := by
  apply Traced.Keeps.get_bind
  intro s _
  split
  · exact .lift _
  · refine .bind (.lift _) fun addr => ?_
    refine .bind (keeps_access _ _) fun _ => ?_
    refine .bind (.modify fun s h => { h with }) fun _ => ?_
    exact .get_bind fun _ _ => .bind (.lift _) fun _ => keeps_access _ _

theorem keeps_enableNotification : enableNotification.Keeps fun s => I s.queue :=
  .bind (keeps_setNotification I true) fun _ => .get_bind fun _ _ => .bind (keeps_loadField _ _ _ _) fun _ => .pure _

theorem keeps_needsNotification : needsNotification.Keeps fun s => q₀.SameConfig s.queue := by
  apply Traced.Keeps.get_bind
  intro s _
  split
  · refine .bind (keeps_loadField _ _ _ _) fun usedEvent => ?_
    exact .bind (.modify fun s h => { h with }) fun _ => .pure _
  · exact .pure _

/-- All that a call can do to the sizes and addresses. -/
inductive Reconfigures (q : Queue) : Queue → Prop where
  | same {q' : Queue} (h : q.SameConfig q') : Reconfigures q q'
  | reset : Reconfigures q q.reset
  | setSize (size : UInt16) : Reconfigures q (q.setSize size)
  | setDescTableAddress (low high : Option UInt32) : Reconfigures q (q.setDescTableAddress low high)
  | setAvailRingAddress (low high : Option UInt32) : Reconfigures q (q.setAvailRingAddress low high)
  | setUsedRingAddress (low high : Option UInt32) : Reconfigures q (q.setUsedRingAddress low high)

theorem Reconfigures.configured (h : q.Reconfigures q') (hq : q.Configured) : q'.Configured := by
  cases h with
  | same hs => exact hq.of_same hs
  | reset => exact hq.reset
  | setSize size => exact hq.setSize size
  | setDescTableAddress => exact orUnchanged_ite hq fun hand => { hq with descTable_and := not_not.1 hand }
  | setAvailRingAddress => exact orUnchanged_ite hq fun hand => { hq with availRing_and := not_not.1 hand }
  | setUsedRingAddress => exact orUnchanged_ite hq fun hand => { hq with usedRing_and := not_not.1 hand }

theorem Reconfigures.maxSize_eq (h : q.Reconfigures q') : q'.maxSize = q.maxSize := by
  cases h with
  | same hs => exact hs.maxSize
  | reset => rfl
  | setSize | setDescTableAddress | setAvailRingAddress | setUsedRingAddress =>
    exact orUnchanged_ite (P := fun q' => q'.maxSize = q.maxSize) rfl fun _ => rfl

end Queue

namespace QueueCall

open Queue

theorem operates_same (q : Queue) (mem : GuestMemory) (wrap : Outcome Error α → Reply) {x : QueueOp α}
    (hx : x.Keeps fun s => q.SameConfig s.queue) : q.SameConfig (operates q mem wrap x).2 :=
  hx ⟨q, mem⟩ (.refl q)

theorem reconfigures_next (q : Queue) (c : QueueCall) : q.Reconfigures (next q c) := by
  cases c with
  | isValid | maxSize | size | ready | availIdx | usedIdx | nextAvail | nextUsed | descTable
  | availRing | usedRing | eventIdxEnabled => exact .same (.refl q)
  | setReady | setEventIdx | setNextAvail | setNextUsed | goToPreviousPosition =>
    exact .same { SameConfig.refl q with }
  | reset => exact .reset
  | setSize size => exact .setSize size
  | setDescTableAddress low high => exact .setDescTableAddress low high
  | setAvailRingAddress low high => exact .setAvailRingAddress low high
  | setUsedRingAddress low high => exact .setUsedRingAddress low high
  | addUsed mem headIndex len => exact .same (operates_same q mem _ (keeps_addUsed headIndex len))
  | enableNotification mem => exact .same (operates_same q mem _ (keeps_enableNotification _))
  | disableNotification mem => exact .same (operates_same q mem _ (keeps_setNotification _ false))
  | needsNotification mem => exact .same (operates_same q mem _ keeps_needsNotification)
  | popDescriptorChain mem =>
    show q.Reconfigures (q.popDescriptorChain mem).2
    rcases q.iter_cases mem with ⟨e, he⟩ | hok
    · rw [popDescriptorChain_of_err he]
      exact .same (.refl q)
    · rw [popDescriptorChain_of_ok hok]
      exact .same { SameConfig.refl q with }
  | iter mem steps =>
    show q.Reconfigures (q.iterate mem steps).2
    unfold iterate
    split
    · exact .same { SameConfig.refl q with }
    · exact .same (.refl q)
    · exact .same (.refl q)

theorem configured_run {q : Queue} (h : q.Configured) (cs : List QueueCall) : (run next q cs).Configured :=
  run_stays (fun q c hq => (reconfigures_next q c).configured hq) h cs

/-- A queue that was made by `new` or `default` and then used in any way. -/
def Reachable (q : Queue) : Prop :=
  ∃ q₀ cs, (q₀ = Queue.default ∨ ∃ maxSize, Queue.new maxSize = .ok q₀) ∧ q = run next q₀ cs

theorem Reachable.configured {q : Queue} (h : Reachable q) : q.Configured := by
  obtain ⟨q₀, cs, rfl | ⟨maxSize, hnew⟩, rfl⟩ := h
  · exact configured_run configured_default cs
  · exact configured_run (configured_new hnew).1 cs

theorem maxSize_run (q : Queue) (cs : List QueueCall) : (run next q cs).maxSize = q.maxSize := by
  have hstep : ∀ q' c, q'.maxSize = q.maxSize → (next q' c).maxSize = q.maxSize :=
    fun q' c hq => (reconfigures_next q' c).maxSize_eq.trans hq
  exact run_stays hstep rfl cs

end QueueCall

end RustVmm.VirtioQueue
