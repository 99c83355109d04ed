import RustVmm.VmMemory.Accesses
import RustVmm.VirtioQueue.Operations

/-!
# What a queue accesses

The loads and stores of the calls on a queue, in one trace.

* `Queue.InRings` — the descriptor table and the two rings.
* `confines_addUsed`, `confines_setNotification`, `holds_iterTouches` — the calls stay in them.
* `QueueCall.touches_inRings` — so do all calls, whatever the guest has written.
-/

set_option autoImplicit false

namespace RustVmm.VirtioQueue

open Lib VmMemory Traced

/-! ## Where the calls access memory -/

namespace Queue

/-- The addresses of the descriptor table and the two rings. -/
def InRings (q : Queue) (a : Nat) : Prop := (q.descTable ≤ a ∧ a < q.descTable + 16 * q.size.toNat) ∨
  (q.availRing ≤ a ∧ a < q.availRing + (6 + 2 * q.size.toNat)) ∨
  (q.usedRing ≤ a ∧ a < q.usedRing + (6 + 8 * q.size.toNat))

/-- The access is to the table and the rings only. -/
def Holds (q : Queue) (t : Touch) : Prop := ∀ a, t.Touches a → q.InRings a

/-- All accesses of a call are to the table and the rings, as long as the queue is not set up anew. -/
abbrev Confines {α : Type} (q : Queue) (x : Traced Attached Touch Error α) : Prop :=
  x.AllFrom (fun s => q.SameConfig s.queue) q.Holds

variable {q q' : Queue}

theorem SameConfig.inRings (h : q.SameConfig q') {a : Nat} (ha : q'.InRings a) : q.InRings a := by
  unfold InRings at ha ⊢
  rwa [h.descTable, h.availRing, h.usedRing, h.size] at ha

theorem inRings_avail {offset a : Nat} (hle : q.availRing + offset ≤ a) (hlt : a < q.availRing + offset + 2)
    (hoffset : offset ≤ 4 + 2 * q.size.toNat) : q.InRings a :=
  .inr (.inl (by omega))

theorem inRings_used {offset count a : Nat} (hle : q.usedRing + offset ≤ a)
    (hlt : a < q.usedRing + offset + count) (hoffset : offset + count ≤ 6 + 8 * q.size.toNat) : q.InRings a :=
  .inr (.inr (by omega))

variable {σ : Type}

theorem all_loadField (mem : GuestMemory) {base offset : Nat}
    (h : ∀ a, base + offset ≤ a → a < base + offset + 2 → q.InRings a) :
    (loadField mem base offset : Traced σ Touch Error UInt16).All q.Holds := by
  refine .lift_bind fun addr haddr => ?_
  obtain ⟨-, rfl⟩ := checkedAdd_eq_some.1 (Outcome.okOr_eq_ok.1 haddr)
  refine All.mapErr (All.lift_bind fun _ _ => (all_loads fun a ha => ?_).bind fun _ => .pure _) _
  exact h a ha.1 ha.2

theorem all_availIdxW (q : Queue) (mem : GuestMemory) : (q.availIdxW mem : Traced σ Touch _ _).All q.Holds :=
  all_loadField mem fun _ hle hlt => inRings_avail hle hlt (by omega)

theorem all_usedIdxW (q : Queue) (mem : GuestMemory) : (q.usedIdxW mem : Traced σ Touch _ _).All q.Holds :=
  all_loadField mem fun _ hle hlt => inRings_used hle hlt (by omega)

theorem all_usedEventW (q : Queue) (mem : GuestMemory) : (q.usedEventW mem : Traced σ Touch _ _).All q.Holds := by
  refine all_loadField mem fun a hle hlt => inRings_avail hle hlt ?_
  simp only [VIRTQ_AVAIL_RING_HEADER_SIZE, VIRTQ_AVAIL_ELEMENT_SIZE]
  omega

theorem all_iterW (q : Queue) (mem : GuestMemory) : (q.iterW mem : Traced σ Touch _ _).All q.Holds := by
  unfold iterW
  split
  · exact .lift _
  · exact (all_availIdxW q mem).bind fun _ => .lift _

variable {it : AvailIter} {mem : GuestMemory}

theorem iter_config (h : q.iter mem = .ok it) : it.availRing = q.availRing ∧ it.queueSize = q.size := by
  rcases q.iter_cases mem with ⟨e, he⟩ | hok
  · rw [he] at h
    cases h
  · rw [hok] at h
    cases h
    exact ⟨rfl, rfl⟩

theorem all_nextW (hit : it.availRing = q.availRing ∧ it.queueSize = q.size) (mem : GuestMemory) :
    (it.nextW mem).All q.Holds := by
  intro nextAvail t ht
  rcases it.nextW_cases (W := Touch) mem nextAvail with hnone | ⟨-, hsize, hsome⟩
  · rw [hnone] at ht
    cases ht
  · have hslot := toNat_mod_lt hsize nextAvail
    rw [hsome] at ht
    obtain rfl := List.mem_singleton.1 ht
    rintro a ⟨hle, hlt⟩
    rw [hit.2] at hslot
    rw [AvailIter.entryAddr, hit.1, hit.2] at hle hlt
    refine inRings_avail hle hlt ?_
    simp only [VIRTQ_AVAIL_RING_HEADER_SIZE, VIRTQ_AVAIL_ELEMENT_SIZE]
    omega

end Queue

/-- The accesses of what is done with an iterator. -/
def AvailIter.touches (self : AvailIter) (nextAvail : UInt16) : List IterStep → List Touch
  | [] => []
  | .next mem :: steps => (self.nextW (W := Touch) mem nextAvail).trace ++ self.touches (self.next mem nextAvail).2 steps
  | .goToPreviousPosition :: steps => self.touches (nextAvail - 1) steps

/-- The accesses of `iter`, and of what is done with the iterator. -/
def Queue.iterTouches (q : Queue) (mem : GuestMemory) (steps : List IterStep) : List Touch :=
  (q.iterW (W := Touch) mem ()).trace ++
    match q.iter mem with
    | .ok it => it.touches q.nextAvail steps
    | _ => []

namespace Queue

variable {q q' : Queue}

theorem holds_touches {it : AvailIter} (hit : it.availRing = q.availRing ∧ it.queueSize = q.size)
    (steps : List IterStep) (nextAvail : UInt16) : ∀ t ∈ it.touches nextAvail steps, q.Holds t := by
  induction steps generalizing nextAvail with
  | nil => exact nofun
  | cons step steps ih =>
    intro t ht
    cases step with
    | goToPreviousPosition => exact ih _ t ht
    | next mem =>
      rcases List.mem_append.1 ht with hnext | hrest
      · exact all_nextW hit mem nextAvail t hnext
      · exact ih _ t hrest

theorem holds_iterTouches (q : Queue) (mem : GuestMemory) (steps : List IterStep) :
    ∀ t ∈ q.iterTouches mem steps, q.Holds t := by
  intro t ht
  rcases List.mem_append.1 ht with hiter | hsteps
  · exact all_iterW q mem () t hiter
  · split at hsteps
    · rename_i it hit
      exact holds_touches (iter_config hit) steps _ t hsteps
    · cases hsteps

/-! ## Stores -/

theorem all_access {α : Type} {x : GuestMemory → Traced Unit Effect VmMemory.Error α} {P : Effect → Prop}
    (h : ∀ mem, (x mem).All P) : (QueueOp.access x).All P :=
  fun s => h s.mem ()

theorem confines_store16 (h : q.SameConfig q') (val : UInt16) (offset : Nat)
    (hoffset : offset + 2 ≤ 6 + 8 * q'.size.toNat) :
    (QueueOp.store16 val (q'.usedRing + offset)).All fun e => q.Holds (.store e) := by
  refine all_access fun mem => (GuestMemoryT.all_store mem _ _).mono fun e he a ha => ?_
  obtain ⟨hle, hlt⟩ := he.range ha
  exact h.inRings (inRings_used hle hlt hoffset)

theorem confines_setNotification (enable : Bool) : q.Confines (Records.storing (setNotification enable)) := by
  have hflags : ∀ val, (setUsedFlags val).AllFrom (fun s => q.SameConfig s.queue) fun e => q.Holds (.store e) :=
    fun val => .get_bind fun s hs => .of_all (confines_store16 hs val 0 (by omega))
  have hevent : ∀ val, (setAvailEvent val).AllFrom (fun s => q.SameConfig s.queue) fun e => q.Holds (.store e) := by
    refine fun val => .get_bind fun s hs => .lift_bind fun addr haddr => ?_
    obtain ⟨-, rfl⟩ := checkedAdd_eq_some.1 (Outcome.okOr_eq_ok.1 haddr)
    refine .of_all (confines_store16 hs val _ ?_)
    simp only [VIRTQ_USED_RING_HEADER_SIZE, VIRTQ_USED_ELEMENT_SIZE]
    omega
  refine allFrom_storing (.get_bind fun s _ => ?_)
  split
  · split
    · exact hevent _
    · exact hflags _
  · split
    · exact hflags _
    · exact .of_all (.pure _)

theorem confines_addUsed (headIndex : UInt16) (len : UInt32) : q.Confines (Records.storing (addUsed headIndex len)) := by
  refine allFrom_storing (.get_bind fun s hs => ?_)
  split
  · exact .of_all (.lift _)
  · rename_i hhead
    have hsize : s.queue.size ≠ 0 := by
      intro hz
      rw [hz] at hhead
      exact hhead (UInt16.zero_le)
    have hslot := toNat_mod_lt hsize s.queue.nextUsed
    refine .lift_bind fun addr haddr => ?_
    obtain ⟨-, rfl⟩ := checkedAdd_eq_some.1 (Outcome.okOr_eq_ok.1 haddr)
    refine .bind (.of_all (all_access fun mem => ?_)) (keeps_access _ _) fun _ => ?_
    · refine (GuestMemoryT.all_writeSlice mem _ _).mono fun e he a ha => ?_
      obtain ⟨hle, hlt⟩ := he.range ha
      refine hs.inRings (inRings_used hle hlt ?_)
      show VIRTQ_USED_RING_HEADER_SIZE + _ * VIRTQ_USED_ELEMENT_SIZE + 8 ≤ _
      simp only [VIRTQ_USED_RING_HEADER_SIZE, VIRTQ_USED_ELEMENT_SIZE]
      omega
    · refine .bind (.of_all (.modify _)) (.modify fun s hs => { hs with }) fun _ => ?_
      refine .get_bind fun s hs => .lift_bind fun addr haddr => ?_
      obtain ⟨-, rfl⟩ := checkedAdd_eq_some.1 (Outcome.okOr_eq_ok.1 haddr)
      exact .of_all (confines_store16 hs _ 2 (by omega))

theorem SameConfig.holds (h : q.SameConfig q') {t : Touch} (ht : q'.Holds t) : q.Holds t :=
  fun a ha => h.inRings (ht a ha)

theorem confines_enableNotification : q.Confines enableNotification := by
  refine (confines_setNotification true).bind (keeps_setNotification _ true) fun _ => ?_
  refine .get_bind fun s hs => .of_all ?_
  exact ((all_availIdxW s.queue s.mem).mono fun _ => hs.holds).bind fun _ => .pure _

theorem confines_needsNotification : q.Confines needsNotification := by
  refine .get_bind fun s hs => .of_all ?_
  split
  · refine ((all_usedEventW s.queue s.mem).mono fun _ => hs.holds).bind fun _ => ?_
    exact (All.modify _).bind fun _ => .pure _
  · exact .pure _

end Queue

/-! ## All calls -/

namespace QueueCall

/-- The accesses of a call to guest memory.  The others do not access it. -/
def touches (q : Queue) : QueueCall → List Touch
  | .availIdx mem => (q.availIdxW mem ()).trace
  | .usedIdx mem => (q.usedIdxW mem ()).trace
  | .addUsed mem headIndex len => (Records.storing (Queue.addUsed headIndex len) ⟨q, mem⟩ : Result _ Touch _ _).trace
  | .enableNotification mem => (Queue.enableNotification ⟨q, mem⟩).trace
  | .disableNotification mem => (Records.storing Queue.disableNotification ⟨q, mem⟩ : Result _ Touch _ _).trace
  | .needsNotification mem => (Queue.needsNotification ⟨q, mem⟩).trace
  | .popDescriptorChain mem => q.iterTouches mem [.next mem]
  | .iter mem steps => q.iterTouches mem steps
  | _ => []

theorem touches_inRings (q : Queue) (c : QueueCall) : ∀ t ∈ c.touches q, q.Holds t := by
  have hsame : ∀ mem, q.SameConfig (Attached.mk q mem).queue := fun _ => .refl q
  cases c with
  | availIdx mem => exact Queue.all_availIdxW q mem ()
  | usedIdx mem => exact Queue.all_usedIdxW q mem ()
  | addUsed mem headIndex len => exact Queue.confines_addUsed headIndex len _ (hsame mem)
  | enableNotification mem => exact Queue.confines_enableNotification _ (hsame mem)
  | disableNotification mem => exact Queue.confines_setNotification false _ (hsame mem)
  | needsNotification mem => exact Queue.confines_needsNotification _ (hsame mem)
  | popDescriptorChain mem => exact q.holds_iterTouches mem _
  | iter mem steps => exact q.holds_iterTouches mem steps
  | _ => exact nofun

end QueueCall

end RustVmm.VirtioQueue
