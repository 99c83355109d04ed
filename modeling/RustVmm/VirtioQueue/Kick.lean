import RustVmm.VirtioQueue.AvailRing
import RustVmm.VirtioQueue.Operations

/-!
# No kick is lost

The driver and the device of `AvailRing`, with kicks.  After it has published, the driver reads a field of the used ring
and kicks if the device has asked for it there; the device goes to sleep only when `enable_notification` has returned
`Ok(false)`.  That call is two steps, `set_notification` and `recheck`, between which the driver may go on.

* `KickedRing.step`, `KickedRing.Guard` — the steps, and in which order the two take them.
* `KickedRing.Inv` — while the device is about to sleep and has not been kicked, all that the driver has checked has
  been taken.
* `no_lost_kick` — a device that sleeps with entries pending is going to be kicked.
-/

set_option autoImplicit false

namespace RustVmm.VirtioQueue

open Lib VmMemory Queue GuestMemory

/-! ## Steps on the ring -/

namespace SharedRing

variable {heads : Nat → UInt16} {k : Nat} {s : SharedRing}

/-- The driver makes all entries visible that it has stored. -/
def publishStored (s : SharedRing) : SharedRing :=
  { s with mem := s.mem.write16 s.idxAddr (UInt16.ofNat s.stored), published := s.stored }

/-- The device calls an operation of its queue. -/
def operate (s : SharedRing) (x : QueueOp Unit) : SharedRing :=
  { s with
    queue := (x ⟨s.queue, s.mem⟩).state.queue
    mem := (x ⟨s.queue, s.mem⟩).state.mem }

theorem Inv.publishStored (hi : Inv heads k s) : Inv heads k s.publishStored :=
  hi.publishTo hi.published_le (Nat.le_refl _)

end SharedRing

/-! ## The system -/

inductive Phase where
  | running
  /-- In `enable_notification`, between its two steps. -/
  | enabling
  /-- `enable_notification` has just returned `Ok(false)`. -/
  | drained
  | asleep
  deriving DecidableEq, Repr

structure KickedRing where
  ring : SharedRing
  phase : Phase
  /-- The driver has kicked since the device last found nothing in the ring. -/
  kicked : Bool
  /-- How many entries were visible when the driver last checked. -/
  checked : Nat
  /-- The driver has made entries visible and not yet checked. -/
  unchecked : Bool

namespace KickedRing

inductive Step where
  /-- The driver stores the next head in its slot. -/
  | store
  /-- The driver sets the `idx` field to all it has stored. -/
  | publish
  /-- The driver reads the field of the used ring, and may kick. -/
  | check
  /-- A byte outside of all these fields is written. -/
  | write (addr : Nat) (v : UInt8)
  /-- The device calls `pop_descriptor_chain`. -/
  | pop
  /-- The device makes an iterator, the first of the two loads of `pop_descriptor_chain`. -/
  | iter
  /-- The device calls `next` on it, which is the other load. -/
  | next
  /-- The device calls `disable_notification`. -/
  | disable
  /-- The device calls `enable_notification`. -/
  | enable
  /-- The second step of `enable_notification`. -/
  | recheck
  | sleep
  | wake
  deriving DecidableEq, Repr

/-- The field of the used ring that the driver looks at: `avail_event` or `flags`. -/
def notifyField (q : Queue) : Nat :=
  if q.eventIdxEnabled then
    q.usedRing + (VIRTQ_USED_RING_HEADER_SIZE + VIRTQ_USED_ELEMENT_SIZE * q.size.toNat)
  else q.usedRing

def kicks (s : KickedRing) : Bool :=
  let new := UInt16.ofNat s.ring.published
  let old := UInt16.ofNat s.checked
  let field := GuestMemory.le16 s.ring.mem.bytes (notifyField s.ring.queue)
  if s.ring.queue.eventIdxEnabled then new - field - 1 < new - old
  else field &&& VRING_USED_F_NO_NOTIFY = 0

def step (heads : Nat → UInt16) (s : KickedRing) : Step → KickedRing
  | .store => { s with ring := s.ring.step heads .store }
  | .publish => { s with ring := s.ring.publishStored, unchecked := true }
  | .check =>
    { s with kicked := s.kicked || s.kicks, checked := s.ring.published, unchecked := false }
  | .write addr v => { s with ring := s.ring.step heads (.write addr v) }
  | .pop => { s with ring := s.ring.step heads .pop, phase := .running }
  | .iter => { s with ring := s.ring.step heads .iter, phase := .running }
  | .next => { s with ring := s.ring.step heads .next, phase := .running }
  | .disable => { s with ring := s.ring.operate Queue.disableNotification, phase := .running }
  | .enable =>
    let r := Queue.setNotification true ⟨s.ring.queue, s.ring.mem⟩
    { s with
      ring := s.ring.operate (Queue.setNotification true)
      phase := if r.outcome = .ok () then .enabling else .running }
  | .recheck =>
    if (Queue.recheck ⟨s.ring.queue, s.ring.mem⟩).outcome = .ok false then
      { s with phase := .drained, kicked := false }
    else { s with phase := .running }
  | .sleep => { s with phase := .asleep }
  | .wake => { s with phase := .running }

/-- The device is between two calls. -/
def Ready (s : KickedRing) : Prop := s.phase = .running ∨ s.phase = .drained

instance (s : KickedRing) : Decidable s.Ready := inferInstanceAs (Decidable (_ ∨ _))

/-- The order in which driver and device take their steps, and what they keep to. -/
def Guard (s : KickedRing) : Step → Prop
  | .store => s.ring.stored < s.ring.returned.length + s.ring.queue.size.toNat
  | .publish => s.unchecked = false
  | .check => s.unchecked = true
  | .write addr _ =>
    ¬ (s.ring.idxAddr ≤ addr ∧ addr < s.ring.queue.availRing + 4 + 2 * s.ring.queue.size.toNat) ∧
      addr ≠ notifyField s.ring.queue ∧ addr ≠ notifyField s.ring.queue + 1
  | .pop => s.Ready
  | .iter => s.Ready
  | .next => s.Ready
  | .disable => s.Ready
  | .enable => s.Ready
  | .recheck => s.phase = .enabling
  | .sleep => s.phase = .drained
  | .wake => s.phase = .asleep

instance (s : KickedRing) (i : Step) : Decidable (s.Guard i) :=
  match i with
  | .store => inferInstanceAs (Decidable (_ < _))
  | .publish => inferInstanceAs (Decidable (_ = _))
  | .check => inferInstanceAs (Decidable (_ = _))
  | .write _ _ => inferInstanceAs (Decidable (¬ (_ ∧ _) ∧ _ ≠ _ ∧ _ ≠ _))
  | .pop => inferInstanceAs (Decidable s.Ready)
  | .iter => inferInstanceAs (Decidable s.Ready)
  | .next => inferInstanceAs (Decidable s.Ready)
  | .disable => inferInstanceAs (Decidable s.Ready)
  | .enable => inferInstanceAs (Decidable s.Ready)
  | .recheck => inferInstanceAs (Decidable (_ = _))
  | .sleep => inferInstanceAs (Decidable (_ = _))
  | .wake => inferInstanceAs (Decidable (_ = _))

/-- The two rings do not overlap. -/
def Apart (q : Queue) : Prop :=
  q.usedRing + (6 + 8 * q.size.toNat) ≤ q.availRing ∨ q.availRing + (6 + 2 * q.size.toNat) ≤ q.usedRing

/-- Nothing has been published or taken. -/
structure Initial (s : KickedRing) : Prop where
  ring : s.ring.Initial
  apart : Apart s.ring.queue
  phase : s.phase = .running
  checked : s.checked = 0
  unchecked : s.unchecked = false

/-- Notifications are on: `avail_event` is the next entry to be taken, or `NO_NOTIFY` is not set. -/
def Armed (q : Queue) (mem : GuestMemory) : Prop :=
  if q.eventIdxEnabled then GuestMemory.le16 mem.bytes (notifyField q) = q.nextAvail
  else GuestMemory.le16 mem.bytes (notifyField q) &&& VRING_USED_F_NO_NOTIFY = 0

/-- Nothing has been in the ring when the device looked, and it has not been kicked since. -/
def Quiet (s : KickedRing) : Prop := (s.phase = .drained ∨ s.phase = .asleep) ∧ s.kicked = false

structure Inv (heads : Nat → UInt16) (k : Nat) (s : KickedRing) : Prop where
  ring : SharedRing.Inv heads k s.ring
  apart : Apart s.ring.queue
  checked_le : s.checked ≤ s.ring.published
  /-- The driver checks before it has published more than a round. -/
  published_le : s.ring.published ≤ s.checked + s.ring.queue.size.toNat
  checked_eq : s.unchecked = false → s.checked = s.ring.published
  armed : s.phase ≠ .running → Armed s.ring.queue s.ring.mem
  quiet_checked : s.Quiet → s.checked ≤ s.ring.returned.length
  quiet_taken : s.Quiet → s.unchecked = false → s.ring.published = s.ring.returned.length

variable {heads : Nat → UInt16} {k : Nat} {s : KickedRing}

theorem Initial.inv (h : s.Initial) (hk : k ≤ 15) (hsize : s.ring.queue.size.toNat = 2 ^ k) : Inv heads k s where
  ring := h.ring.inv hk hsize
  apart := h.apart
  checked_le := by rw [h.checked]; exact Nat.zero_le _
  published_le := by rw [h.ring.published]; exact Nat.zero_le _
  checked_eq _ := by rw [h.checked, h.ring.published]
  armed hne := absurd h.phase hne
  quiet_checked _ := by rw [h.checked]; exact Nat.zero_le _
  quiet_taken _ _ := by rw [h.ring.published, h.ring.returned]; rfl

/-! ## The field of the used ring -/

variable {q : Queue}

theorem Apart.notifyField (h : Apart q) {a : Nat} (hle : q.availRing ≤ a)
    (hlt : a < q.availRing + (4 + 2 * q.size.toNat)) :
    KickedRing.notifyField q + 1 < a ∨ a + 1 < KickedRing.notifyField q := by
  unfold Apart at h
  unfold KickedRing.notifyField VIRTQ_USED_RING_HEADER_SIZE VIRTQ_USED_ELEMENT_SIZE
  split <;> omega

theorem Armed.of_le16 {mem mem' : GuestMemory} (h : Armed q mem)
    (heq : le16 mem'.bytes (notifyField q) = le16 mem.bytes (notifyField q)) :
    Armed q mem' := by
  unfold Armed at h ⊢
  rw [heq]
  exact h

theorem setAvailEvent_cases (h : q.eventIdxEnabled = true) (val : UInt16) (mem : GuestMemory) :
    (∃ trace, setAvailEvent val ⟨q, mem⟩ = ⟨.ok (), ⟨q, mem.write16 (notifyField q) val⟩, trace⟩) ∨
      ¬ mem.Readable16 (notifyField q) ∧ ∃ e, setAvailEvent val ⟨q, mem⟩ = ⟨.err e, ⟨q, mem⟩, []⟩ := by
  have hfield : notifyField q =
      q.usedRing + (VIRTQ_USED_RING_HEADER_SIZE + VIRTQ_USED_ELEMENT_SIZE * q.size.toNat) := if_pos h
  unfold setAvailEvent
  rw [Traced.get_bind_apply]
  rw [QueueOp.addressAt, hfield]
  cases hadd : checkedAdd q.usedRing
      (VIRTQ_USED_RING_HEADER_SIZE + VIRTQ_USED_ELEMENT_SIZE * q.size.toNat) with
  | none =>
    refine .inr ⟨fun hread => ?_, _, rfl⟩
    rw [checkedAdd_of_le (Nat.le_of_lt (Nat.lt_of_succ_lt hread.lt))] at hadd
    cases hadd
  | some addr =>
    obtain ⟨_, rfl⟩ := checkedAdd_eq_some.1 hadd
    exact (QueueOp.store16_spec val _ ⟨q, mem⟩).imp_left And.right

theorem setNotification_cases (enable : Bool) (q : Queue) (mem : GuestMemory) :
    (enable = false ∧ setNotification enable ⟨q, mem⟩ = ⟨.ok (), ⟨q, mem⟩, []⟩) ∨
      ∃ v, (enable = true → v = if q.eventIdxEnabled then q.nextAvail else 0) ∧
        ((∃ trace, setNotification enable ⟨q, mem⟩ = ⟨.ok (), ⟨q, mem.write16 (notifyField q) v⟩, trace⟩) ∨
          ¬ mem.Readable16 (notifyField q) ∧ ∃ e, setNotification enable ⟨q, mem⟩ = ⟨.err e, ⟨q, mem⟩, []⟩) := by
  unfold setNotification
  rw [Traced.get_bind_apply]
  cases hevent : q.eventIdxEnabled with
  | true =>
    cases enable with
    | true => exact .inr ⟨q.nextAvail, fun _ => rfl, setAvailEvent_cases hevent q.nextAvail mem⟩
    | false => exact .inl ⟨rfl, rfl⟩
  | false =>
    have hfield : notifyField q = q.usedRing := if_neg (by rw [hevent]; decide)
    have hstore := fun val => (QueueOp.store16_spec val q.usedRing ⟨q, mem⟩).imp_left And.right
    rw [hfield]
    cases enable with
    | true => exact .inr ⟨0, fun _ => rfl, hstore 0⟩
    | false => exact .inr ⟨VRING_USED_F_NO_NOTIFY, (by cases ·), hstore _⟩

/-! ## Steps of the driver -/

theorem Inv.store (hi : Inv heads k s) (hroom : s.ring.stored < s.ring.returned.length + s.ring.queue.size.toNat) :
    Inv heads k (s.step heads .store) := by
  refine { hi with
    ring := hi.ring.store hroom
    armed := fun hne => ?_ }
  have hend := SharedRing.slotAddr_lt hi.ring.size_pos s.ring.stored
  have hstart : s.ring.queue.availRing ≤ s.ring.slotAddr s.ring.stored := by
    unfold SharedRing.slotAddr
    omega
  have hapart := hi.apart.notifyField hstart (by omega)
  exact (hi.armed hne).of_le16 (le16_write16_of_disjoint _ _ hapart)

theorem Inv.publish (hi : Inv heads k s) (hchecked : s.unchecked = false) : Inv heads k (s.step heads .publish) where
  ring := hi.ring.publishStored
  apart := hi.apart
  checked_le := hi.checked_le.trans hi.ring.published_le
  published_le := by
    have := hi.ring.stored_le
    have := hi.ring.returned_le
    have := hi.checked_eq hchecked
    show s.ring.stored ≤ s.checked + s.ring.queue.size.toNat
    omega
  checked_eq h := by cases h
  armed hne := by
    have hidx : s.ring.idxAddr = s.ring.queue.availRing + 2 := rfl
    have hapart := hi.apart.notifyField (show s.ring.queue.availRing ≤ s.ring.idxAddr by omega) (by omega)
    exact (hi.armed hne).of_le16 (le16_write16_of_disjoint _ _ hapart)
  quiet_checked := hi.quiet_checked
  quiet_taken _ h := by cases h

theorem Inv.write (hi : Inv heads k s) {addr : Nat} {v : UInt8}
    (hguard : s.Guard (.write addr v)) : Inv heads k (s.step heads (.write addr v)) :=
  { hi with
    ring := hi.ring.write hguard.1 v
    armed := fun hne => (hi.armed hne).of_le16 (le16_write8_of_ne _ _ hguard.2.1 hguard.2.2) }

theorem Inv.kicks_of_pending (hi : Inv heads k s) (harmed : Armed s.ring.queue s.ring.mem)
    (hchecked : s.checked ≤ s.ring.returned.length)
    (hpending : s.ring.returned.length < s.ring.published) : s.kicks = true := by
  have hsize := s.ring.queue.size.toNat_lt
  have hround := hi.published_le
  unfold Armed at harmed
  unfold kicks
  split
  · rename_i hevent
    rw [if_pos hevent, hi.ring.nextAvail] at harmed
    rw [harmed]
    -- `next_avail` lies in `[old, new)`, and the interval is shorter than 2^16
    have hnew := Counter.toNat_ofNat_sub hpending.le (by omega)
    have hold := Counter.toNat_ofNat_sub hi.checked_le (by omega)
    apply decide_eq_true
    rw [UInt16.lt_iff_toNat_lt, hold, UInt16.toNat_sub_of_le, hnew]
    · show s.ring.published - s.ring.returned.length - 1 < s.ring.published - s.checked
      omega
    · rw [UInt16.le_iff_toNat_le]
      show 1 ≤ _
      omega
  · rename_i hevent
    rw [if_neg hevent] at harmed
    exact decide_eq_true harmed

theorem Inv.taken_of_check (hi : Inv heads k s) (hquiet : (s.step heads .check).Quiet) :
    s.ring.published = s.ring.returned.length := by
  obtain ⟨hphase, hkicked⟩ := hquiet
  obtain ⟨hbefore, hnow⟩ := Bool.or_eq_false_iff.1 hkicked
  have hne : s.phase ≠ .running := by
    rcases hphase with h | h <;> exact fun hr => by cases hr.symm.trans h
  apply Nat.le_antisymm _ hi.ring.returned_le
  by_contra hlt
  have hkicks := hi.kicks_of_pending (hi.armed hne) (hi.quiet_checked ⟨hphase, hbefore⟩) (by omega)
  rw [hnow] at hkicks
  cases hkicks

theorem Inv.check (hi : Inv heads k s) : Inv heads k (s.step heads .check) :=
  { hi with
    checked_le := Nat.le_refl _
    published_le := Nat.le_add_right _ _
    checked_eq := fun _ => rfl
    quiet_checked := fun hquiet => (hi.taken_of_check hquiet).le
    quiet_taken := fun hquiet _ => hi.taken_of_check hquiet }

/-! ## Steps of the device -/

theorem Inv.run (hi : Inv heads k s) {ring : SharedRing} (hring : SharedRing.Inv heads k ring)
    (hsame : s.ring.SameDriver ring) : Inv heads k { s with ring := ring, phase := .running } where
  ring := hring
  apart := by
    unfold Apart
    rw [hsame.size, hsame.availRing, hsame.usedRing]
    exact hi.apart
  checked_le := hsame.published ▸ hi.checked_le
  published_le := by
    rw [hsame.published, hsame.size]
    exact hi.published_le
  checked_eq h := (hi.checked_eq h).trans hsame.published.symm
  armed hne := absurd rfl hne
  quiet_checked hquiet := by rcases hquiet.1 with h | h <;> cases h
  quiet_taken hquiet := by rcases hquiet.1 with h | h <;> cases h

theorem Inv.take (hi : Inv heads k s) {i : SharedRing.Step} (htakes : i.Takes) :
    Inv heads k { s with ring := s.ring.step heads i, phase := .running } := by
  have hguard : s.ring.Guard i := by
    cases i with
    | pop | iter | next => trivial
    | store | publish | write => cases htakes
  exact hi.run (hi.ring.step i hguard) (SharedRing.step_takes htakes)

theorem Inv.ring_notify (hi : Inv heads k s) (v : UInt16) : SharedRing.Inv heads k
      { s.ring with mem := s.ring.mem.write16 (notifyField s.ring.queue) v } := by
  apply hi.ring.of_bytes
  intro a hle hlt
  have hidx : s.ring.idxAddr = s.ring.queue.availRing + 2 := rfl
  have hapart := hi.apart.notifyField (show s.ring.queue.availRing ≤ a by omega) (by omega)
  exact bytes_write16_of_outside _ _ (by omega)

theorem Inv.stop (hi : Inv heads k s) : Inv heads k { s with phase := .running } :=
  hi.run hi.ring ⟨rfl, rfl, rfl, rfl, rfl, rfl, rfl⟩

theorem Inv.run_notify (hi : Inv heads k s) (v : UInt16) : Inv heads k { s with
    ring := { s.ring with mem := s.ring.mem.write16 (notifyField s.ring.queue) v }
    phase := .running } :=
  hi.run (hi.ring_notify v) ⟨rfl, rfl, rfl, rfl, rfl, rfl, rfl⟩

theorem Inv.disable (hi : Inv heads k s) : Inv heads k (s.step heads .disable) := by
  show Inv heads k { s with ring := s.ring.operate (setNotification false), phase := .running }
  unfold SharedRing.operate
  rcases setNotification_cases false s.ring.queue s.ring.mem with ⟨_, hok⟩ | ⟨v, _, ⟨trace, hok⟩ | ⟨_, e, he⟩⟩
  · rw [hok]
    exact hi.stop
  · rw [hok]
    exact hi.run_notify v
  · rw [he]
    exact hi.stop

theorem armed_write16 (mem : GuestMemory) {v : UInt16} (hv : v = if q.eventIdxEnabled then q.nextAvail else 0) :
    Armed q (mem.write16 (notifyField q) v) := by
  unfold Armed
  rw [le16_write16_same, hv]
  split
  · rfl
  · rfl

theorem Inv.enable (hi : Inv heads k s) : Inv heads k (s.step heads .enable) := by
  unfold step SharedRing.operate
  rcases setNotification_cases true s.ring.queue s.ring.mem with ⟨hfalse, _⟩ | ⟨v, hv, ⟨trace, hok⟩ | ⟨_, e, he⟩⟩
  · cases hfalse
  · rw [hok]
    dsimp only
    exact
      { hi.run_notify v with
        armed := fun _ => armed_write16 s.ring.mem (hv rfl)
        quiet_checked := by
          rintro ⟨h | h, _⟩ <;> cases h
        quiet_taken := by
          rintro ⟨h | h, _⟩ <;> cases h }
  · rw [he]
    exact hi.stop

theorem Inv.taken_of_recheck (hi : Inv heads k s) (h : (recheck ⟨s.ring.queue, s.ring.mem⟩).outcome = .ok false) :
    s.ring.published = s.ring.returned.length := by
  unfold recheck at h
  rw [Traced.get_bind_apply, availIdxW_eq] at h
  rcases s.ring.queue.availIdx_cases s.ring.mem with ⟨e, he⟩ | hok
  · rw [he] at h
    cases h
  · rw [hok] at h
    have hidx : le16 s.ring.mem.bytes s.ring.idxAddr = s.ring.queue.nextAvail := by
      have h : decide (le16 s.ring.mem.bytes s.ring.idxAddr ≠ s.ring.queue.nextAvail) = false :=
        Outcome.ok.inj h
      exact Classical.not_not.1 (of_decide_eq_false h)
    rw [hi.ring.idx, hi.ring.nextAvail] at hidx
    have := hi.ring.published_le
    have := hi.ring.stored_le
    have := s.ring.queue.size.toNat_lt
    exact ((Counter.ofNat_inj_of_close hi.ring.returned_le (by omega)).1 hidx.symm).symm

theorem Inv.recheck (hi : Inv heads k s) (hphase : s.phase = .enabling) : Inv heads k (s.step heads .recheck) := by
  rw [KickedRing.step]
  split
  · rename_i hempty
    have htaken := hi.taken_of_recheck hempty
    exact
      { hi with
        armed := fun _ => hi.armed (by rw [hphase]; decide)
        quiet_checked := fun _ => htaken ▸ hi.checked_le
        quiet_taken := fun _ _ => htaken }
  · exact hi.stop

theorem Inv.sleep (hi : Inv heads k s) (hphase : s.phase = .drained) : Inv heads k (s.step heads .sleep) :=
  { hi with
    armed := fun _ => hi.armed (by rw [hphase]; decide)
    quiet_checked := fun hquiet => hi.quiet_checked ⟨.inl hphase, hquiet.2⟩
    quiet_taken := fun hquiet => hi.quiet_taken ⟨.inl hphase, hquiet.2⟩ }

theorem Inv.step (hi : Inv heads k s) (i : Step) (hguard : s.Guard i) : Inv heads k (s.step heads i) := by
  cases i with
  | store => exact hi.store hguard
  | publish => exact hi.publish hguard
  | check => exact hi.check
  | write addr v => exact hi.write hguard
  | pop | iter | next => exact hi.take trivial
  | disable => exact hi.disable
  | enable => exact hi.enable
  | recheck => exact hi.recheck hguard
  | sleep => exact hi.sleep hguard
  | wake => exact hi.stop

/-- Entries are pending: the `idx` field is ahead of `next_avail`. -/
def Pending (s : KickedRing) : Prop :=
  GuestMemory.le16 s.ring.mem.bytes s.ring.idxAddr ≠ s.ring.queue.nextAvail

instance (s : KickedRing) : Decidable s.Pending := inferInstanceAs (Decidable (¬ _))

theorem Inv.pending_iff (hi : Inv heads k s) : s.Pending ↔ s.ring.returned.length < s.ring.published := by
  have := hi.ring.returned_le
  have := hi.ring.published_le
  have := hi.ring.stored_le
  have := s.ring.queue.size.toNat_lt
  unfold Pending
  rw [hi.ring.idx, hi.ring.nextAvail, ne_comm, ne_eq, Counter.ofNat_inj_of_close hi.ring.returned_le (by omega)]
  omega

end KickedRing

open KickedRing in
/-- **No kick is lost.**  For every queue size up to 32768 that is a power of two, with `EVENT_IDX` or
without, and every interleaving of a driver and a device as above, of any length: if the device is
asleep and has not been kicked since `enable_notification` looked into the ring, then the driver kicks
when it checks with entries pending, and if it is not about to check, no entries are pending. -/
theorem no_lost_kick (heads : Nat → UInt16) {k : Nat} (hk : k ≤ 15) (s₀ : KickedRing)
    (hinit : s₀.Initial) (hsize : s₀.ring.queue.size.toNat = 2 ^ k) (steps : List Step)
    (hguard : Along (step heads) Guard s₀ steps) :
    let s := run (step heads) s₀ steps
    s.phase = .asleep → s.kicked = false → (s.Pending → s.kicks = true) ∧ (s.unchecked = false → ¬ s.Pending) := by
  intro s hasleep hkicked
  have hstep : ∀ s i, Inv heads k s → Guard s i → Inv heads k (step heads s i) :=
    fun s i hi hg => hi.step i hg
  have hi : Inv heads k s := Along.run_invariant hstep (hinit.inv hk hsize) hguard
  have hquiet : s.Quiet := ⟨.inr hasleep, hkicked⟩
  rw [hi.pending_iff]
  constructor
  · exact hi.kicks_of_pending (hi.armed (by rw [hasleep]; decide)) (hi.quiet_checked hquiet)
  · intro hchecked hlt
    exact Nat.ne_of_gt hlt (hi.quiet_taken hquiet hchecked)

/-- The ring of four entries, with `EVENT_IDX`. -/
def eventRing : KickedRing where
  ring := { ringOfFour with queue := { ringOfFour.queue with eventIdxEnabled := true } }
  phase := .running
  kicked := false
  checked := 0
  unchecked := false

open KickedRing in
theorem no_lost_kick_first :
    (run (step fun _ => 0) eventRing [.enable, .recheck, .sleep, .store, .publish]).kicks = true := by
  have h := no_lost_kick (fun _ => 0) (k := 2) (by decide) eventRing
    ⟨⟨rfl, rfl, rfl, rfl, rfl, rfl⟩, .inr (by decide), rfl, rfl, rfl⟩ rfl
    [.enable, .recheck, .sleep, .store, .publish]
    ⟨.inl rfl, by decide +kernel, by decide +kernel, by decide +kernel, by decide +kernel, trivial⟩
  exact (h (by decide +kernel) (by decide +kernel)).1 (by decide +kernel)

end RustVmm.VirtioQueue
