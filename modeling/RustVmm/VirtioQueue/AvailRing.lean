import RustVmm.Lib.Counter
import RustVmm.VirtioQueue.Queue

/-!
# The available ring is a queue

A driver publishes `heads 0`, `heads 1`, …: each head goes into the slot of its number, then `idx` is set.  A device
takes chains with `pop_descriptor_chain`, or with `iter` and `next`, and the two interleave.

* `SharedRing.step`, `SharedRing.Guard` — the steps, and what the driver keeps to.
* `SharedRing.Inv`, `Inv.step` — the numbers behind the 16-bit indices, and that every step keeps them.
* `SharedRing.step_takes` — the steps of the device leave what the driver has done as it is.
* `avail_ring_fifo` — heads come out in the order they were published, none lost and none twice.
-/

set_option autoImplicit false

namespace RustVmm.VirtioQueue

open Lib VmMemory GuestMemory Counter List Queue DescriptorChain

/-- Driver and device, with counts of what each has done. -/
structure SharedRing where
  mem : GuestMemory
  queue : Queue
  /-- The iterator that is in use. -/
  iter : Option AvailIter
  /-- The heads of all chains that the device has got. -/
  returned : List UInt16
  /-- The heads the driver has stored in the ring. -/
  stored : Nat
  /-- The heads the driver has made visible by the `idx` field. -/
  published : Nat
  /-- The heads that were published when the iterator was made. -/
  snapshot : Nat

namespace SharedRing

inductive Step where
  /-- The driver stores the next head in its slot. -/
  | store
  /-- The driver increments the `idx` field. -/
  | publish
  /-- A byte outside of the `idx` field and the slots is written. -/
  | write (addr : Nat) (v : UInt8)
  /-- The device calls `pop_descriptor_chain`. -/
  | pop
  /-- The device calls `iter`. -/
  | iter
  /-- The device calls `next` on its iterator. -/
  | next
  deriving DecidableEq, Repr

def idxAddr (s : SharedRing) : Nat := s.queue.availRing + 2

def slotAddr (s : SharedRing) (k : Nat) : Nat := s.queue.availRing + (4 + k % s.queue.size.toNat * 2)

/-- The device has called `next`: it has got a chain or nothing, and `next_avail` is new. -/
def took (s : SharedRing) (r : Option DescriptorChain × UInt16) : SharedRing :=
  { s with
    queue := { s.queue with nextAvail := r.2 }
    returned := s.returned ++ (r.1.map DescriptorChain.headIndex).toList }

def step (heads : Nat → UInt16) (s : SharedRing) : Step → SharedRing
  | .store =>
    { s with mem := s.mem.write16 (s.slotAddr s.stored) (heads s.stored), stored := s.stored + 1 }
  | .publish =>
    { s with
      mem := s.mem.write16 s.idxAddr (UInt16.ofNat (s.published + 1))
      published := s.published + 1 }
  | .write addr v => { s with mem := s.mem.write8 addr v }
  | .pop =>
    let (chain, queue) := s.queue.popDescriptorChain s.mem
    { s with
      queue := queue
      iter := none
      returned := s.returned ++ (chain.map DescriptorChain.headIndex).toList }
  | .iter =>
    match s.queue.iter s.mem with
    | .ok it => { s with iter := some it, snapshot := s.published }
    | _ => { s with iter := none }
  | .next =>
    match s.iter with
    | some it => s.took (it.next s.mem s.queue.nextAvail)
    | none => s

/-- What the driver, and all others that write to memory, keep to. -/
def Guard (s : SharedRing) : Step → Prop
  | .store => s.stored < s.returned.length + s.queue.size.toNat
  | .publish => s.published < s.stored
  | .write addr _ => ¬ (s.idxAddr ≤ addr ∧ addr < s.queue.availRing + 4 + 2 * s.queue.size.toNat)
  | _ => True

instance (s : SharedRing) (i : Step) : Decidable (s.Guard i) :=
  match i with
  | .store => inferInstanceAs (Decidable (_ < _))
  | .publish => inferInstanceAs (Decidable (_ < _))
  | .write _ _ => inferInstanceAs (Decidable (¬ (_ ∧ _)))
  | .pop => isTrue trivial
  | .iter => isTrue trivial
  | .next => isTrue trivial

/-- Nothing has been published or taken. -/
structure Initial (s : SharedRing) : Prop where
  nextAvail : s.queue.nextAvail = 0
  idx : GuestMemory.le16 s.mem.bytes s.idxAddr = 0
  iter : s.iter = none
  returned : s.returned = []
  stored : s.stored = 0
  published : s.published = 0

/-- An iterator of the queue that ends before the head of number `last`. -/
structure IterTo (s : SharedRing) (last : Nat) (it : AvailIter) : Prop where
  availRing : it.availRing = s.queue.availRing
  queueSize : it.queueSize = s.queue.size
  lastIndex : it.lastIndex = UInt16.ofNat last
  returned_le : s.returned.length ≤ last
  le_published : last ≤ s.published

/-- The numbers behind the indices. -/
structure Inv (heads : Nat → UInt16) (k : Nat) (s : SharedRing) : Prop where
  exponent : k ≤ 15
  size : s.queue.size.toNat = 2 ^ k
  fifo : s.returned = (List.range s.returned.length).map heads
  nextAvail : s.queue.nextAvail = UInt16.ofNat s.returned.length
  returned_le : s.returned.length ≤ s.published
  published_le : s.published ≤ s.stored
  stored_le : s.stored ≤ s.returned.length + s.queue.size.toNat
  idx : GuestMemory.le16 s.mem.bytes s.idxAddr = UInt16.ofNat s.published
  slots : ∀ j, s.returned.length ≤ j → j < s.stored →
    GuestMemory.le16 s.mem.bytes (s.slotAddr j) = heads j
  iter : ∀ it, s.iter = some it → s.IterTo s.snapshot it

variable {heads : Nat → UInt16} {k : Nat} {s : SharedRing}

variable {last : Nat} {it : AvailIter}

theorem IterTo.of_eq {s' : SharedRing} (h : s.IterTo last it) (hring : s'.queue.availRing = s.queue.availRing)
    (hsize : s'.queue.size = s.queue.size) (hreturned : s'.returned = s.returned)
    (hpublished : s.published ≤ s'.published) : s'.IterTo last it where
  availRing := by rw [hring, h.availRing]
  queueSize := by rw [hsize, h.queueSize]
  lastIndex := h.lastIndex
  returned_le := by rw [hreturned]; exact h.returned_le
  le_published := h.le_published.trans hpublished

theorem Initial.inv (h : s.Initial) (hk : k ≤ 15) (hsize : s.queue.size.toNat = 2 ^ k) : Inv heads k s where
  exponent := hk
  size := hsize
  fifo := by rw [h.returned]; rfl
  nextAvail := by rw [h.nextAvail, h.returned]; rfl
  returned_le := by rw [h.returned]; exact Nat.zero_le _
  published_le := by rw [h.published]; exact Nat.zero_le _
  stored_le := by rw [h.stored]; exact Nat.zero_le _
  idx := by rw [h.idx, h.published]; rfl
  slots j _ hj := by
    rw [h.stored] at hj
    cases hj
  iter it hit := by
    rw [h.iter] at hit
    cases hit

theorem Inv.size_pos (hi : Inv heads k s) : 0 < s.queue.size.toNat := by
  rw [hi.size]
  exact Nat.two_pow_pos k

/-! ## Steps of the driver -/

theorem slotAddr_lt (hpos : 0 < s.queue.size.toNat) (j : Nat) :
    s.slotAddr j + 1 < s.queue.availRing + 4 + 2 * s.queue.size.toNat := by
  have := Nat.mod_lt j hpos
  unfold slotAddr
  omega

theorem Inv.store (hi : Inv heads k s) (hroom : s.stored < s.returned.length + s.queue.size.toNat) :
    Inv heads k (s.step heads .store) := by
  refine { hi with
    published_le := Nat.le_succ_of_le hi.published_le
    stored_le := hroom
    idx := ?_
    slots := fun j hle hlt => ?_
    iter := fun it hit => (hi.iter it hit).of_eq rfl rfl rfl (Nat.le_refl _) }
  · have hdisjoint : s.idxAddr + 1 < s.slotAddr s.stored := by
      unfold idxAddr slotAddr
      omega
    exact (le16_write16_of_disjoint _ _ (.inl hdisjoint)).trans hi.idx
  · rcases Nat.lt_succ_iff_lt_or_eq.1 hlt with hlt | rfl
    · -- entries that have not been taken are less than a round behind
      have htaken : s.returned.length ≤ j := hle
      have hne := mod_ne_of_close hlt (show s.stored < j + s.queue.size.toNat by omega)
      have hdisjoint : s.slotAddr j + 1 < s.slotAddr s.stored ∨ s.slotAddr s.stored + 1 < s.slotAddr j := by
        unfold slotAddr
        omega
      exact (le16_write16_of_disjoint _ _ hdisjoint).trans (hi.slots j hle hlt)
    · exact le16_write16_same _ _ _

theorem Inv.publishTo (hi : Inv heads k s) {n : Nat} (hle : s.published ≤ n) (hn : n ≤ s.stored) :
    Inv heads k { s with mem := s.mem.write16 s.idxAddr (UInt16.ofNat n), published := n } := by
  refine { hi with
    returned_le := hi.returned_le.trans hle
    published_le := hn
    idx := le16_write16_same _ _ _
    slots := fun j hle hlt => ?_
    iter := fun it hit => (hi.iter it hit).of_eq rfl rfl rfl hle }
  have hdisjoint : s.idxAddr + 1 < s.slotAddr j := by
    unfold idxAddr slotAddr
    omega
  exact (le16_write16_of_disjoint _ _ (.inr hdisjoint)).trans (hi.slots j hle hlt)

theorem Inv.publish (hi : Inv heads k s) (hstored : s.published < s.stored) :
    Inv heads k (s.step heads .publish) := hi.publishTo (Nat.le_succ _) hstored

theorem Inv.of_bytes (hi : Inv heads k s) {mem : GuestMemory}
    (hsame : ∀ a, s.idxAddr ≤ a → a < s.queue.availRing + 4 + 2 * s.queue.size.toNat →
      mem.bytes a = s.mem.bytes a) : Inv heads k { s with mem := mem } := by
  have hle16 : ∀ a, s.idxAddr ≤ a → a + 1 < s.queue.availRing + 4 + 2 * s.queue.size.toNat →
      le16 mem.bytes a = le16 s.mem.bytes a := by
    intro a hle hlt
    rw [le16, hsame a hle (by omega), hsame (a + 1) (by omega) hlt]
    rfl
  refine { hi with
    idx := (hle16 _ (Nat.le_refl _) ?_).trans hi.idx
    slots := fun j hle hlt => (hle16 _ ?_ (slotAddr_lt hi.size_pos j)).trans (hi.slots j hle hlt)
    iter := fun it hit => (hi.iter it hit).of_eq rfl rfl rfl (Nat.le_refl _) }
  · unfold idxAddr
    have := hi.size_pos
    omega
  · unfold idxAddr slotAddr
    omega

theorem Inv.write (hi : Inv heads k s) {addr : Nat}
    (hout : ¬ (s.idxAddr ≤ addr ∧ addr < s.queue.availRing + 4 + 2 * s.queue.size.toNat))
    (v : UInt8) : Inv heads k (s.step heads (.write addr v)) := by
  refine hi.of_bytes fun a hle hlt => ?_
  have hne : a ≠ addr := by
    rintro rfl
    exact hout ⟨hle, hlt⟩
  exact if_neg hne

/-! ## Steps of the device -/

theorem Inv.next_cases (hi : Inv heads k s) (hit : s.IterTo last it) :
    it.next s.mem s.queue.nextAvail = (none, s.queue.nextAvail) ∨ s.returned.length < last ∧ ∃ chain : DescriptorChain,
        chain.headIndex = heads s.returned.length ∧
        it.next s.mem s.queue.nextAvail = (some chain, UInt16.ofNat (s.returned.length + 1)) := by
  obtain ⟨hring, hsize, hlast, hle, hpub⟩ := hit
  have hstored := hi.published_le
  rcases it.next_cases s.mem s.queue.nextAvail with hnone | ⟨hne, hsome⟩
  · exact .inl hnone
  · have hlt : s.returned.length < last := by
      apply Nat.lt_of_le_of_ne hle
      rintro rfl
      exact hne (hi.nextAvail.trans hlast.symm)
    have hslot : it.entryAddr s.queue.nextAvail = s.slotAddr s.returned.length := by
      rw [AvailIter.entryAddr, hring, hsize, hi.nextAvail, toNat_ofNat_mod (Nat.le_succ_of_le hi.exponent) hi.size]
      rfl
    have hnext : s.queue.nextAvail + 1 = UInt16.ofNat (s.returned.length + 1) := by
      rw [hi.nextAvail, ofNat_add_one]
    rw [hslot, hi.slots _ (Nat.le_refl _) (by omega), hnext] at hsome
    exact .inr ⟨hlt, _, rfl, hsome⟩

theorem Inv.take (hi : Inv heads k s) (hs : s.iter = some it) (hlt : s.returned.length < s.snapshot)
    {chain : DescriptorChain} (hhead : chain.headIndex = heads s.returned.length) :
    Inv heads k (s.took (some chain, UInt16.ofNat (s.returned.length + 1))) := by
  have hreturned : (s.took (some chain, UInt16.ofNat (s.returned.length + 1))).returned =
      s.returned ++ [heads s.returned.length] := by
    rw [← hhead]
    rfl
  have hlen : (s.took (some chain, UInt16.ofNat (s.returned.length + 1))).returned.length = s.returned.length + 1 := by
    rw [hreturned, length_append, length_singleton]
  have hpub := (hi.iter it hs).le_published
  have hroom := hi.stored_le
  exact
    { hi with
      fifo := by
        rw [hlen, range_succ, map_append, ← hi.fifo, hreturned]
        rfl
      nextAvail := by
        rw [hlen]
        rfl
      returned_le := by
        rw [hlen]
        exact Nat.le_trans hlt hpub
      stored_le := by
        rw [hlen]
        exact hroom.trans (Nat.add_le_add_right (Nat.le_succ _) _)
      slots := by
        intro j hle hj
        rw [hlen] at hle
        exact hi.slots j (Nat.le_of_succ_le hle) hj
      iter := by
        intro it' hit
        obtain ⟨hring, hsize, hlast, _, hpub⟩ := hi.iter it' hit
        exact ⟨hring, hsize, hlast, by rw [hlen]; exact hlt, hpub⟩ }

theorem Inv.next (hi : Inv heads k s) (hs : s.iter = some it) :
    Inv heads k (s.took (it.next s.mem s.queue.nextAvail)) := by
  rcases hi.next_cases (hi.iter it hs) with hnone | ⟨hlt, chain, hhead, hsome⟩
  · have hsame : s.took (none, s.queue.nextAvail) = s := by
      unfold took
      simp
    rw [hnone, hsame]
    exact hi
  · rw [hsome]
    exact hi.take hs hlt hhead

theorem Inv.replaceIter (hi : Inv heads k s) {iter : Option AvailIter}
    (hiter : ∀ it, iter = some it → s.IterTo last it) : Inv heads k { s with iter := iter, snapshot := last } :=
  { hi with iter := fun it hit => (hiter it hit).of_eq rfl rfl rfl (Nat.le_refl _) }

theorem Inv.drop (hi : Inv heads k s) (last : Nat) : Inv heads k { s with iter := none, snapshot := last } :=
  hi.replaceIter fun _ hit => by cases hit

theorem Inv.iterTo (hi : Inv heads k s) (hit : s.queue.iter s.mem = .ok it) : s.IterTo s.published it := by
  rcases s.queue.iter_cases s.mem with ⟨e, he⟩ | hok
  · rw [he] at hit
    cases hit
  · rw [hok] at hit
    cases hit
    exact ⟨rfl, rfl, hi.idx, hi.returned_le, Nat.le_refl _⟩

theorem Inv.newIter (hi : Inv heads k s) (hit : s.queue.iter s.mem = .ok it) :
    Inv heads k { s with iter := some it, snapshot := s.published } :=
  hi.replaceIter fun _ hit' => Option.some.inj hit' ▸ hi.iterTo hit

theorem step_pop_of_ok (hit : s.queue.iter s.mem = .ok it) :
    s.step heads .pop = { s.took (it.next s.mem s.queue.nextAvail) with iter := none } := by
  simp only [step, popDescriptorChain_of_ok hit]
  rfl

theorem Inv.step (hi : Inv heads k s) (i : Step) (hguard : s.Guard i) : Inv heads k (s.step heads i) := by
  cases i with
  | store => exact hi.store hguard
  | publish => exact hi.publish hguard
  | write addr v => exact hi.write hguard v
  | pop =>
    rcases s.queue.iter_cases s.mem with ⟨e, he⟩ | hok
    · simp only [SharedRing.step, popDescriptorChain_of_err he, Option.map_none, Option.toList_none, append_nil]
      exact hi.drop s.snapshot
    · rw [step_pop_of_ok hok]
      exact ((hi.newIter hok).next rfl).drop s.snapshot
  | iter =>
    rcases s.queue.iter_cases s.mem with ⟨e, he⟩ | hok
    · simp only [SharedRing.step, he]
      exact hi.drop s.snapshot
    · simp only [SharedRing.step, hok]
      exact hi.newIter hok
  | next =>
    cases hs : s.iter with
    | none =>
      simp only [SharedRing.step, hs]
      exact hi
    | some it =>
      simp only [SharedRing.step, hs]
      exact hi.next hs

/-! ## Progress of the device -/

/-- The device takes chains: what the driver has done stays as it is. -/
structure SameDriver (s s' : SharedRing) : Prop where
  published : s'.published = s.published
  stored : s'.stored = s.stored
  size : s'.queue.size = s.queue.size
  availRing : s'.queue.availRing = s.queue.availRing
  usedRing : s'.queue.usedRing = s.queue.usedRing
  ready : s'.queue.ready = s.queue.ready
  regions : s'.mem.regions = s.mem.regions

/-- The steps with which the device takes chains. -/
def Step.Takes : Step → Prop
  | .pop | .iter | .next => True
  | .store | .publish | .write _ _ => False

theorem step_takes {i : Step} (hi : i.Takes) : s.SameDriver (s.step heads i) := by
  cases i with
  | store | publish | write => cases hi
  | pop =>
    rcases s.queue.iter_cases s.mem with ⟨e, he⟩ | hok
    · simp only [SharedRing.step, popDescriptorChain_of_err he]
      exact ⟨rfl, rfl, rfl, rfl, rfl, rfl, rfl⟩
    · rw [step_pop_of_ok hok]
      exact ⟨rfl, rfl, rfl, rfl, rfl, rfl, rfl⟩
  | iter =>
    rcases s.queue.iter_cases s.mem with ⟨e, he⟩ | hok
    · simp only [SharedRing.step, he]
      exact ⟨rfl, rfl, rfl, rfl, rfl, rfl, rfl⟩
    · simp only [SharedRing.step, hok]
      exact ⟨rfl, rfl, rfl, rfl, rfl, rfl, rfl⟩
  | next =>
    cases hs : s.iter with
    | none | some it =>
      simp only [SharedRing.step, hs]
      exact ⟨rfl, rfl, rfl, rfl, rfl, rfl, rfl⟩

theorem SameDriver.ringReady {s' : SharedRing} (hsame : s.SameDriver s') (h : s.queue.RingReady s.mem) :
    s'.queue.RingReady s'.mem := by
  obtain ⟨hready, hne, hreadable⟩ := h
  refine ⟨hsame.ready.trans hready, hsame.availRing ▸ hne, ?_⟩
  unfold Readable16
  rw [hsame.size, hsame.availRing, hsame.regions]
  exact hreadable

theorem RingReady.step (h : s.queue.RingReady s.mem) (i : Step) :
    (s.step heads i).queue.RingReady (s.step heads i).mem := by
  cases i with
  | store | publish | write =>
    obtain ⟨hready, hne, hreadable⟩ := h
    exact ⟨hready, hne, hreadable⟩
  | pop | iter | next => exact SameDriver.ringReady (step_takes trivial) h

theorem Inv.next_head (hi : Inv heads k s) (hready : s.queue.RingReady s.mem) (hit : s.IterTo last it) :
    (it.next s.mem s.queue.nextAvail).1.map headIndex =
      if s.returned.length < last then some (heads s.returned.length) else none := by
  have hpos : s.queue.size ≠ 0 := by
    intro hz
    have := hi.size_pos
    rw [hz] at this
    exact Nat.lt_irrefl _ this
  rcases hi.next_cases hit with hnone | ⟨hlt, chain, hhead, hsome⟩
  · have hend : s.queue.nextAvail = it.lastIndex := by
      by_contra hne
      have hsome := AvailIter.next_of_ready hready hit.availRing hit.queueSize hpos hne
      rw [hnone] at hsome
      cases hsome
    -- the indices are equal, and less than a round apart, so the numbers are equal
    rw [hi.nextAvail, hit.lastIndex] at hend
    have hclose : last - s.returned.length < 65536 := by
      have := hit.le_published
      have := hi.published_le
      have := hi.stored_le
      have := s.queue.size.toNat_lt
      omega
    have heq := (ofNat_inj_of_close hit.returned_le hclose).1 hend
    rw [hnone, if_neg (by omega)]
    rfl
  · rw [hsome, if_pos hlt, ← hhead]
    rfl

theorem Inv.iter_ok (hi : Inv heads k s) (hready : s.queue.RingReady s.mem) : ∃ it, s.queue.iter s.mem = .ok it := by
  refine ⟨_, iter_of_ready hready ?_⟩
  have := hi.published_le
  have := hi.stored_le
  have hlt := s.queue.size.toNat_lt
  have hidx := hi.idx
  unfold idxAddr at hidx
  rw [hidx, hi.nextAvail, UInt16.le_iff_toNat_le, toNat_ofNat_sub hi.returned_le (by omega)]
  omega

theorem Inv.pop_head (hi : Inv heads k s) (hready : s.queue.RingReady s.mem) :
    (s.queue.popDescriptorChain s.mem).1.map headIndex =
      if s.returned.length < s.published then some (heads s.returned.length) else none := by
  obtain ⟨it, hit⟩ := hi.iter_ok hready
  rw [popDescriptorChain_of_ok hit]
  exact hi.next_head hready (hi.iterTo hit)

end SharedRing

open SharedRing in
/-- **The available ring is a queue.**  For every queue size up to 32768 that is a power of two,
and every interleaving of a driver that publishes `heads` with a device that takes chains: the
heads returned are `heads 0`, `heads 1`, ... in order, and have all been published.  If the queue
is ready and the fields of its ring can be read, none is lost either: `pop_descriptor_chain` returns
the next head whenever one is published, `iter` succeeds, and `next` returns the next head
until all that was published when the iterator was made has been taken. -/
theorem avail_ring_fifo (heads : Nat → UInt16) {k : Nat} (hk : k ≤ 15) (s₀ : SharedRing)
    (hinit : s₀.Initial) (hsize : s₀.queue.size.toNat = 2 ^ k) (steps : List Step)
    (hguard : Along (step heads) Guard s₀ steps) :
    let s := run (step heads) s₀ steps
    s.returned = (List.range s.returned.length).map heads ∧
    s.returned.length ≤ s.published ∧
    (s₀.queue.RingReady s₀.mem → (s.queue.popDescriptorChain s.mem).1.map DescriptorChain.headIndex =
        (if s.returned.length < s.published then some (heads s.returned.length) else none) ∧
      (∃ it, s.queue.iter s.mem = .ok it) ∧
      ∀ it, s.iter = some it → (it.next s.mem s.queue.nextAvail).1.map DescriptorChain.headIndex =
          if s.returned.length < s.snapshot then some (heads s.returned.length) else none) := by
  intro s
  have hstep : ∀ s i, Inv heads k s → Guard s i → Inv heads k (step heads s i) :=
    fun s i hi hg => hi.step i hg
  have hi := Along.run_invariant hstep (hinit.inv hk hsize) hguard
  refine ⟨hi.fifo, hi.returned_le, fun hready => ?_⟩
  have hkept : ∀ s i, s.queue.RingReady s.mem → (step heads s i).queue.RingReady (step heads s i).mem :=
    fun s i h => RingReady.step h i
  have hr : s.queue.RingReady s.mem := run_stays hkept hready steps
  exact ⟨hi.pop_head hr, hi.iter_ok hr, fun it hit => hi.next_head hr (hi.iter it hit)⟩

/-- A ring of four entries in one page of memory. -/
def ringOfFour : SharedRing where
  mem := ⟨[⟨0, 4096, 0, by decide, by decide⟩], List.pairwise_singleton _ _, fun _ => 0⟩
  queue := ⟨4, 0, 0, false, 0, 4, true, 0, 256, 512⟩
  iter := none
  returned := []
  stored := 0
  published := 0
  snapshot := 0

theorem ringOfFour_ready : ringOfFour.queue.RingReady ringOfFour.mem := by
  apply ringReady_of_mapped
  · rfl
  · decide
  · rfl
  · intro r hr
    rw [mem_singleton.1 hr]
    decide
  · intro a hle hlt
    refine ⟨_, mem_singleton_self _, Nat.zero_le a, ?_⟩
    have hlt : a < 256 + (4 + 2 * 4) := hlt
    show a < 0 + 4096
    omega

open SharedRing in
theorem avail_ring_fifo_four :
    let s := run (step fun k => UInt16.ofNat (3 - k)) ringOfFour
      [.store, .publish, .store, .store, .publish, .publish, .pop, .iter, .next]
    s.returned = [3, 2] ∧ (s.queue.popDescriptorChain s.mem).1.map DescriptorChain.headIndex = some 1 := by
  intro s
  have h := avail_ring_fifo (fun k => UInt16.ofNat (3 - k)) (k := 2) (by decide) ringOfFour
    ⟨rfl, rfl, rfl, rfl, rfl, rfl⟩ rfl [.store, .publish, .store, .store, .publish, .publish, .pop, .iter, .next]
    ⟨by decide, by decide, by decide, by decide, by decide, by decide, trivial, trivial, trivial, trivial⟩
  have hreturned : s.returned = [3, 2] := by decide
  have hpop := (h.2.2 ringOfFour_ready).1
  rw [show (run _ ringOfFour _).returned = [3, 2] from hreturned] at hpop
  exact ⟨hreturned, hpop⟩

end RustVmm.VirtioQueue
