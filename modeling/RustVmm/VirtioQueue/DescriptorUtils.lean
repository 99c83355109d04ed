import RustVmm.VirtioQueue.Chain
import RustVmm.VmMemory.Effects

/-!
# Readers and writers over a descriptor chain

Model of `virtio-queue/src/descriptor_utils.rs`.

* `consume_spec`, `read_spec`, `write_spec` — a transfer handles as many bytes as there are, in order of address.
* `splitAt_spec` — the two parts are the bytes before the offset and those after it.
* `gather_spec` — a constructor collects the fragments of the descriptors that its iterator yields.
-/

set_option autoImplicit false

namespace RustVmm.VirtioQueue

open Lib VmMemory GuestSlice Outcome
open List hiding splitAt

namespace DescriptorUtils

/-- `virtio_queue::Error`: the errors of readers and writers. -/
inductive Error where
  | descriptorChainOverflow
  | guestMemoryError (error : VmMemory.Error)
  | volatileMemoryError (error : VmMemory.Error)
  | splitOutOfBounds (offset : Nat)
  deriving DecidableEq, Repr

/-- The `io::Error` of a transfer. -/
inductive IoError where
  | invalidData (error : Error)
  deriving DecidableEq, Repr

/-! ## The consumer -/

structure DescriptorChainConsumer where
  buffers : List GuestSlice
  bytesConsumed : Nat

namespace DescriptorChainConsumer

def availableBytes (self : DescriptorChainConsumer) : Nat := self.buffers.foldl (fun count vs => count + vs.len) 0

/-- The first loop of `consume`: the fragments for `count` bytes, of which `buflen` are there. -/
def selectBufs (count : Nat) : Nat → List GuestSlice → List GuestSlice
  | _, [] => []
  | buflen, vs :: buffers =>
    if buflen ≥ count then []
    else
      let rem := count - buflen
      vs :: selectBufs count (buflen + if rem < vs.len then rem else vs.len) buffers

/-- The second loop of `consume`: `rem` bytes are taken from the front. -/
def popConsumed : Nat → List GuestSlice → Outcome IoError (List GuestSlice)
  | _, [] => .ok []
  | rem, vs :: buffers =>
    if rem < vs.len then do
      let rest ← (vs.offset rem).unwrapResult
      return rest :: buffers
    else popConsumed (rem - vs.len) buffers

def consume {W : Type} (count : Nat) (f : List GuestSlice → Traced DescriptorChainConsumer W IoError Nat) :
    Traced DescriptorChainConsumer W IoError Nat := do
  let self ← .get
  let bufs := selectBufs count 0 self.buffers
  if bufs.isEmpty then return 0
  else do
    let bytesConsumed ← f bufs
    let totalBytesConsumed ← .lift (.okOr (checkedAdd self.bytesConsumed bytesConsumed)
      (.invalidData .descriptorChainOverflow))
    let buffers ← .lift (popConsumed bytesConsumed self.buffers)
    .modify fun _ => ⟨buffers, totalBytesConsumed⟩
    return bytesConsumed

/-- `position` in `split_at`: the first fragment that `offset` falls into, with what is left of
the offset there. -/
def position : Nat → List GuestSlice → Option Nat × Nat
  | rem, [] => (none, rem)
  | rem, vs :: buffers =>
    if rem < vs.len then (some 0, rem)
    else ((position (rem - vs.len) buffers).1.map (· + 1), (position (rem - vs.len) buffers).2)

def splitAt (offset : Nat) : Exec DescriptorChainConsumer Error DescriptorChainConsumer := do
  let self ← .get
  match position offset self.buffers with
  | (some pos, rem) => do
    let other := self.buffers.drop pos
    .set { self with buffers := self.buffers.take pos }
    if rem > 0 then do
      let front ← .lift (.unwrap other.head?)
      let first ← .lift ((front.subslice 0 rem).mapErr .volatileMemoryError)
      .set { self with buffers := self.buffers.take pos ++ [first] }
      let second ← .lift ((front.offset rem).mapErr .volatileMemoryError)
      return ⟨second :: other.tail, 0⟩
    else return ⟨other, 0⟩
  | (none, rem) => if rem = 0 then return ⟨[], 0⟩ else .lift (.err (.splitOutOfBounds offset))

/-! ## Transfers -/

/-- The loop of `Reader::read`: chunks are copied into what is left of the buffer. -/
def copyOut {σ : Type} (bytes : Nat → UInt8) : Nat → Nat → List GuestSlice → Traced σ (List UInt8) IoError Nat
  | _, total, [] => return total
  | rem, total, vs :: bufs => do
    let copyLen := min rem vs.len
    .tell (bytesAt bytes vs.guestAddr copyLen)
    copyOut bytes (rem - copyLen) (total + copyLen) bufs

/-- `Reader::read` into a buffer of a length; `bytes` are the contents of the guest memory. -/
def read (bytes : Nat → UInt8) (len : Nat) : Traced DescriptorChainConsumer (List UInt8) IoError Nat :=
  consume len (copyOut bytes len 0)

/-- The loop of `Writer::write`: chunks of what is left of the buffer are stored, and marked. -/
def copyIn {σ : Type} : List UInt8 → Nat → List GuestSlice → Traced σ Effect IoError Nat
  | _, total, [] => return total
  | rem, total, vs :: bufs => do
    let copyLen := min rem.length vs.len
    .tell ⟨vs, rem.take copyLen, copyLen⟩
    copyIn (rem.drop copyLen) (total + copyLen) bufs

def write (buf : List UInt8) : Traced DescriptorChainConsumer Effect IoError Nat := consume buf.length (copyIn buf 0)

/-! ## What is left, byte by byte -/

/-- The guest addresses of the bytes that are left. -/
def remaining (self : DescriptorChainConsumer) : List Nat := self.buffers.flatMap GuestSlice.addresses

end DescriptorChainConsumer

open DescriptorChainConsumer

@[simp] theorem length_addresses (s : GuestSlice) : s.addresses.length = s.len := by
  simp [addresses]

theorem availableBytes_eq (self : DescriptorChainConsumer) : self.availableBytes = self.remaining.length := by
  have hfold : ∀ (buffers : List GuestSlice) (count : Nat),
      buffers.foldl (fun count vs => count + vs.len) count = count + (buffers.flatMap addresses).length := by
    intro buffers
    induction buffers with
    | nil => simp
    | cons vs buffers ih =>
      simp only [foldl_cons, flatMap_cons, length_append, length_addresses, ih]
      omega
  simp [availableBytes, remaining, hfold]

variable (bytes : Nat → UInt8)

theorem map_take_addresses (s : GuestSlice) (n : Nat) :
    (s.addresses.take n).map bytes = bytesAt bytes s.guestAddr (min n s.len) := by
  rw [addresses, ← map_take, take_range, map_map]
  rfl

variable {n count : Nat}

theorem offset_of_le {s : GuestSlice} (h : n ≤ s.len) :
    ∃ s', s.offset n = .ok s' ∧ s'.addresses = s.addresses.drop n := by
  refine ⟨_, by rw [offset, checkedSub_of_le h]; rfl, ?_⟩
  apply ext_getElem
  · simp
  · simp [addresses, Nat.add_assoc]

theorem subslice_of_le {s : GuestSlice} (h : n ≤ s.len) (hmax : n ≤ U64_MAX) :
    ∃ s', s.subslice 0 n = .ok s' ∧ s'.addresses = s.addresses.take n := by
  refine ⟨⟨⟨s.guestAddr + 0, s.hostAddr + 0, n⟩, s.bitmap.sliceAt 0⟩, ?_, ?_⟩
  · rw [subslice, checkedAdd_of_le (by omega), okOr_some, ok_bind, if_neg (by omega)]
    rfl
  · apply ext_getElem
    · simp [h]
    · simp [addresses]

/-! ## The loops -/

theorem take_selectBufs {buflen : Nat} (buffers : List GuestSlice) (h : buflen ≤ count) :
    ((selectBufs count buflen buffers).flatMap addresses).take (count - buflen) =
      (buffers.flatMap addresses).take (count - buflen) := by
  induction buffers generalizing buflen with
  | nil => rfl
  | cons vs buffers ih =>
    rw [selectBufs]
    split
    · simp [Nat.sub_eq_zero_of_le, *]
    · simp only [flatMap_cons, take_append, length_addresses]
      congr 1
      by_cases hrem : count - buflen < vs.len
      · simp [Nat.sub_eq_zero_of_le (Nat.le_of_lt hrem)]
      · rw [if_neg hrem, Nat.sub_sub]
        exact ih (by omega)

theorem popConsumed_spec (rem : Nat) (buffers : List GuestSlice) : ∃ buffers', popConsumed rem buffers = .ok buffers' ∧
      buffers'.flatMap addresses = (buffers.flatMap addresses).drop rem := by
  induction buffers generalizing rem with
  | nil => exact ⟨[], rfl, by simp⟩
  | cons vs buffers ih =>
    rw [popConsumed]
    split
    · rename_i hlt
      obtain ⟨rest, hrest, haddr⟩ := offset_of_le (Nat.le_of_lt hlt)
      refine ⟨rest :: buffers, by rw [hrest]; rfl, ?_⟩
      rw [flatMap_cons, flatMap_cons, haddr, drop_append, length_addresses,
        Nat.sub_eq_zero_of_le (Nat.le_of_lt hlt), drop_zero]
    · obtain ⟨buffers', hpop, haddr⟩ := ih (rem - vs.len)
      have hdrop : vs.addresses.drop rem = [] := drop_eq_nil_of_le (by rw [length_addresses]; omega)
      refine ⟨buffers', hpop, ?_⟩
      rw [haddr, flatMap_cons, drop_append, length_addresses, hdrop, nil_append]

theorem copyOut_spec {σ : Type} (rem total : Nat) (bufs : List GuestSlice) (st : σ) :
    let locs := bufs.flatMap addresses
    ∃ chunks, copyOut bytes rem total bufs st = ⟨.ok (total + min rem locs.length), st, chunks⟩ ∧
      chunks.flatten = (locs.take rem).map bytes := by
  induction bufs generalizing rem total with
  | nil => exact ⟨[], by simp [copyOut], by simp⟩
  | cons vs bufs ih =>
    obtain ⟨chunks, hcopy, hchunks⟩ := ih (rem - min rem vs.len) (total + min rem vs.len)
    refine ⟨bytesAt bytes vs.guestAddr (min rem vs.len) :: chunks, ?_, ?_⟩
    · have htotal : total + min rem vs.len + min (rem - min rem vs.len) (bufs.flatMap addresses).length =
            total + min rem (vs.len + (bufs.flatMap addresses).length) := by
        omega
      rw [copyOut, Traced.tell_bind_apply, hcopy, htotal, flatMap_cons, length_append, length_addresses]
    · rw [flatten_cons, hchunks, flatMap_cons, take_append, map_append, map_take_addresses, length_addresses]
      congr 3
      omega

/-- Bytes stored one after the other, each at its own address. -/
def storeEach (bytes : Nat → UInt8) (locs : List Nat) (data : List UInt8) : Nat → UInt8 :=
  (locs.zip data).foldl (fun b p => Function.update b p.1 p.2) bytes

theorem storeEach_append {first : List Nat} {data : List UInt8} (second : List Nat) (rest : List UInt8)
    (h : first.length = data.length) : storeEach bytes (first ++ second) (data ++ rest) =
      storeEach (storeEach bytes first data) second rest := by
  rw [storeEach, zip_append h, foldl_append]
  rfl

theorem storeBytes_eq_storeEach (addr : Nat) (data : List UInt8) : storeBytes bytes addr data =
      storeEach bytes ((range data.length).map fun i => addr + i) data := by
  induction data generalizing bytes addr with
  | nil => simp [storeEach]
  | cons x data ih =>
    have hlocs : (range (x :: data).length).map (fun i => addr + i) =
        addr :: (range data.length).map fun i => addr + 1 + i := by
      rw [length_cons, range_succ_eq_map, map_cons]
      simp [Function.comp_def, Nat.add_assoc, Nat.add_comm 1]
    have hone : storeBytes bytes addr [x] = Function.update bytes addr x := by
      funext a
      by_cases ha : a = addr
      · simp [storeBytes, ha]
      · rw [storeBytes_of_outside bytes (by simp; omega), Function.update_of_ne ha]
    rw [hlocs]
    show _ = storeEach (Function.update bytes addr x) _ data
    rw [← ih, ← hone, storeBytes_append bytes addr (length_singleton : [x].length = 1)]
    rfl

theorem copyIn_spec {σ : Type} (rem : List UInt8) (total : Nat) (bufs : List GuestSlice) (st : σ) :
    let locs := bufs.flatMap addresses
    ∃ trace, copyIn rem total bufs st = ⟨.ok (total + min rem.length locs.length), st, trace⟩ ∧
      ∀ bytes, applyBytes bytes trace = storeEach bytes (locs.take rem.length) rem := by
  induction bufs generalizing rem total with
  | nil => exact ⟨[], by simp [copyIn], fun bytes => by simp [storeEach]⟩
  | cons vs bufs ih =>
    obtain ⟨trace, hcopy, hstore⟩ := ih (rem.drop (min rem.length vs.len)) (total + min rem.length vs.len)
    refine ⟨⟨vs, rem.take (min rem.length vs.len), min rem.length vs.len⟩ :: trace, ?_, ?_⟩
    · have htotal : total + min rem.length vs.len +
          min (rem.length - min rem.length vs.len) (bufs.flatMap addresses).length =
            total + min rem.length (vs.len + (bufs.flatMap addresses).length) := by
        omega
      rw [copyIn, Traced.tell_bind_apply, hcopy, length_drop, htotal, flatMap_cons, length_append, length_addresses]
    · intro bytes
      have hlen : (rem.take (min rem.length vs.len)).length = min rem.length vs.len := by
        rw [length_take]
        omega
      have hlocs : (range (min rem.length vs.len)).map (fun i => vs.guestAddr + i) =
          vs.addresses.take rem.length := by
        rw [addresses, ← map_take, take_range]
      rw [applyBytes_cons, hstore, storeBytes_eq_storeEach, hlen, hlocs, flatMap_cons, take_append, length_addresses]
      rw [← storeEach_append _ _ _ (by rw [hlen, length_take, length_addresses]), take_append_drop, length_drop]
      congr 3
      omega

/-! ## A transfer -/

variable {self : DescriptorChainConsumer}

theorem consume_spec {W : Type} {f : List GuestSlice → Traced DescriptorChainConsumer W IoError Nat}
    (Q : List Nat → List W → Prop) (hnil : Q [] []) (hf : ∀ bufs st, ∃ w,
      f bufs st = ⟨.ok (min count (bufs.flatMap addresses).length), st, w⟩ ∧ Q ((bufs.flatMap addresses).take count) w)
    (hfit : self.bytesConsumed + self.remaining.length ≤ U64_MAX) :
    let n := min count self.remaining.length
    ∃ self' w, consume count f self = ⟨.ok n, self', w⟩ ∧ Q (self.remaining.take n) w ∧
      self'.remaining = self.remaining.drop n ∧ self'.bytesConsumed = self.bytesConsumed + n := by
  intro n
  have htake : ((selectBufs count 0 self.buffers).flatMap addresses).take count = self.remaining.take n := by
    have h := take_selectBufs self.buffers (Nat.zero_le count)
    rw [Nat.sub_zero] at h
    rw [h, take_eq_take_min]
    rfl
  have hlen : min count ((selectBufs count 0 self.buffers).flatMap addresses).length = n := by
    have h := congrArg length htake
    rw [length_take, length_take] at h
    omega
  unfold consume
  rw [Traced.get_bind_apply]
  split
  · -- no fragment, or nothing to transfer
    rename_i hempty
    rw [isEmpty_iff.1 hempty] at htake hlen
    have hn : n = 0 := by simpa using hlen.symm
    refine ⟨self, [], by rw [hn]; rfl, ?_, by rw [hn]; rfl, by rw [hn]; rfl⟩
    rw [← htake]
    simpa using hnil
  · obtain ⟨w, hw, hQ⟩ := hf (selectBufs count 0 self.buffers) self
    obtain ⟨buffers', hpop, haddr⟩ := popConsumed_spec n self.buffers
    rw [hlen] at hw
    rw [htake] at hQ
    have hadd : checkedAdd self.bytesConsumed n = some (self.bytesConsumed + n) := checkedAdd_of_le (by omega)
    refine ⟨⟨buffers', self.bytesConsumed + n⟩, w, ?_, hQ, haddr, rfl⟩
    refine Traced.bind_of_ok_of_silent hw ?_
    rw [hadd, okOr_some, hpop]
    rfl

theorem read_spec (hfit : self.bytesConsumed + self.remaining.length ≤ U64_MAX) (bytes : Nat → UInt8) (len : Nat) :
    let n := min len self.remaining.length
    ∃ self' chunks, self.read bytes len = ⟨.ok n, self', chunks⟩ ∧ chunks.flatten = (self.remaining.take n).map bytes ∧
      self'.remaining = self.remaining.drop n ∧ self'.bytesConsumed = self.bytesConsumed + n := by
  refine consume_spec (fun locs chunks => chunks.flatten = locs.map bytes) rfl ?_ hfit
  intro bufs st
  obtain ⟨chunks, hcopy, hchunks⟩ := copyOut_spec bytes len 0 bufs st
  exact ⟨chunks, by rw [hcopy, Nat.zero_add], hchunks⟩

theorem write_spec (hfit : self.bytesConsumed + self.remaining.length ≤ U64_MAX) (buf : List UInt8) :
    let n := min buf.length self.remaining.length
    ∃ self' trace, self.write buf = ⟨.ok n, self', trace⟩ ∧
      (∀ bytes, applyBytes bytes trace = storeEach bytes (self.remaining.take n) buf) ∧
      self'.remaining = self.remaining.drop n ∧ self'.bytesConsumed = self.bytesConsumed + n := by
  refine consume_spec (fun locs trace => ∀ bytes, applyBytes bytes trace = storeEach bytes locs buf)
    (fun bytes => rfl) ?_ hfit
  intro bufs st
  obtain ⟨trace, hcopy, hstore⟩ := copyIn_spec buf 0 bufs st
  exact ⟨trace, by rw [hcopy, Nat.zero_add], hstore⟩

/-! ## Splitting -/

theorem position_spec (rem : Nat) (buffers : List GuestSlice) :
    (∃ before front after r, buffers = before ++ front :: after ∧
      position rem buffers = (some before.length, r) ∧ r < front.len ∧ rem = (before.flatMap addresses).length + r) ∨
    (∃ r, position rem buffers = (none, r) ∧ rem = (buffers.flatMap addresses).length + r) := by
  induction buffers generalizing rem with
  | nil => exact .inr ⟨rem, rfl, by simp⟩
  | cons vs buffers ih =>
    rw [position]
    split
    · rename_i hlt
      exact .inl ⟨[], vs, buffers, rem, rfl, rfl, hlt, by simp⟩
    · rcases ih (rem - vs.len) with ⟨before, front, after, r, rfl, hpos, hlt, hrem⟩ | ⟨r, hpos, hrem⟩
      · refine .inl ⟨vs :: before, front, after, r, rfl, by rw [hpos]; rfl, hlt, ?_⟩
        rw [flatMap_cons, length_append, length_addresses]
        omega
      · refine .inr ⟨r, by rw [hpos]; rfl, ?_⟩
        rw [flatMap_cons, length_append, length_addresses]
        omega

theorem splitAt_spec (hmax : self.remaining.length ≤ U64_MAX) (offset : Nat) :
    (offset ≤ self.remaining.length → ∃ self' other, self.splitAt offset = (.ok other, self') ∧
      self'.remaining = self.remaining.take offset ∧ other.remaining = self.remaining.drop offset ∧
      self'.bytesConsumed = self.bytesConsumed ∧ other.bytesConsumed = 0) ∧
    (self.remaining.length < offset → self.splitAt offset = (.err (.splitOutOfBounds offset), self)) := by
  obtain ⟨buffers, bytesConsumed⟩ := self
  unfold splitAt
  rw [Exec.bind_of_ok (Exec.get_apply _)]
  rcases position_spec offset buffers with
    ⟨before, front, after, r, rfl, hpos, hlt, rfl⟩ | ⟨r, hpos, rfl⟩
  · -- the offset falls into `front`
    rw [hpos]
    simp only [remaining, flatMap_append, flatMap_cons, length_append, length_addresses] at hmax ⊢
    have htake : (before ++ front :: after).take before.length = before := take_left
    have hdrop : (before ++ front :: after).drop before.length = front :: after := drop_left
    refine ⟨fun _ => ?_, fun h => by omega⟩
    rw [htake, hdrop]
    split
    · obtain ⟨first, hfirst, haddr₁⟩ := subslice_of_le (Nat.le_of_lt hlt) (by omega)
      obtain ⟨second, hsecond, haddr₂⟩ := offset_of_le (Nat.le_of_lt hlt)
      refine ⟨⟨before ++ [first], bytesConsumed⟩, ⟨second :: after, 0⟩, ?_, ?_, ?_, rfl, rfl⟩
      · show (Exec.lift ((front.subslice 0 r).mapErr Error.volatileMemoryError) >>= _) _ = _
        rw [hfirst]
        rw [hsecond]
        rfl
      · rw [take_length_add_append, take_append_of_le_length (by rw [length_addresses]; omega), ← haddr₁]
        simp
      · rw [drop_length_add_append, drop_append_of_le_length (by rw [length_addresses]; omega), ← haddr₂]
        exact flatMap_cons
    · have hr : r = 0 := by omega
      subst hr
      exact ⟨⟨before, bytesConsumed⟩, ⟨front :: after, 0⟩, rfl, take_left.symm, drop_left.symm, rfl, rfl⟩
  · -- the fragments end before the offset, or at it
    rw [hpos]
    simp only [remaining]
    refine ⟨fun h => ?_, fun h => ?_⟩
    · have hr : r = 0 := by omega
      subst hr
      exact ⟨⟨buffers, bytesConsumed⟩, ⟨[], 0⟩, rfl, take_length.symm, drop_length.symm, rfl, rfl⟩
    · rw [if_neg (by omega)]
      rfl

/-! ## From a chain to its fragments -/

variable {mem : HostileMemory}

theorem budget_rwNext {writable : Bool} {w w' : Walk} {desc : Descriptor}
    (h : w.rwNext mem writable = (some desc, w')) :
    Walk.budget w'.chain < Walk.budget w.chain := by
  fun_induction Walk.rwNext mem writable w with
  | case1 w w₁ hnext => cases h
  | case2 w v w₁ hnext hv =>
    cases h
    exact Walk.budget_next hnext
  | case3 w v w₁ hnext hv ih => exact Nat.lt_trans (ih h) (Walk.budget_next hnext)

/-- The descriptors that `readable()` or `writable()` yields. -/
def rwDescriptors (mem : HostileMemory) (writable : Bool) (w : Walk) : List Descriptor :=
  match _h : w.rwNext mem writable with
  | (none, _) => []
  | (some desc, w') => desc :: rwDescriptors mem writable w'
termination_by Walk.budget w.chain
decreasing_by exact budget_rwNext _h

/-- The loop of the constructors. -/
def gather (M : GuestMemoryT) (access : Permissions) (mem : HostileMemory) (writable : Bool)
    (totalLen : Nat) (buffers : List GuestSlice) (w : Walk) : Outcome Error DescriptorChainConsumer :=
  match _h : w.rwNext mem writable with
  | (none, _) => .ok ⟨buffers, 0⟩
  | (some desc, w') => do
    let totalLen ← .okOr (checkedAdd totalLen desc.len.toNat) .descriptorChainOverflow
    let items ← (M.getSlices desc.addr.toNat desc.len.toNat access).mapErr .guestMemoryError
    let slices ← items.mapM fun item => item.mapErr Error.guestMemoryError
    gather M access mem writable totalLen (buffers ++ slices) w'
termination_by Walk.budget w.chain
decreasing_by exact budget_rwNext _h

def Reader.new (M : GuestMemoryT) (mem : HostileMemory) (descChain : Walk) : Outcome Error DescriptorChainConsumer :=
  gather M .read mem false 0 [] descChain

def Writer.new (M : GuestMemoryT) (mem : HostileMemory) (descChain : Walk) : Outcome Error DescriptorChainConsumer :=
  gather M .write mem true 0 [] descChain

def CoversRanges (M : GuestMemoryT) : Prop :=
  ∀ addr count access slices, M.getSlices addr count access = .ok (slices.map .ok) → totalLen slices = count

theorem coversRanges_asT (mem : GuestMemory) : CoversRanges mem.asT := by
  intro addr count access slices h
  obtain ⟨ss, hss⟩ := items_spec mem (GuestMemory.getSlices addr count)
  have hitems : (GuestMemory.getSlices addr count).items mem = slices.map .ok := ok.inj h
  rcases hss.ends with ⟨hok, hlen⟩ | ⟨herr, _⟩
  · rw [hitems] at hok
    rw [(map_inj_right fun _ _ => ok.inj).1 hok]
    exact hlen
  · rw [hitems] at herr
    have hmem : err (VmMemory.Error.invalidGuestAddress (addr + totalLen ss)) ∈ slices.map ok := by
      rw [herr]
      exact mem_append_right _ mem_cons_self
    simp at hmem

def fragments (M : GuestMemoryT) (access : Permissions) (desc : Descriptor) : List GuestSlice :=
  match M.getSlices desc.addr.toNat desc.len.toNat access with
  | .ok items => items.filterMap Outcome.toOption
  | _ => []

theorem mapM_mapErr_eq_ok {items : List (Outcome VmMemory.Error GuestSlice)} {slices : List GuestSlice}
    (h : (items.mapM fun item => item.mapErr Error.guestMemoryError) = .ok slices) :
    items = slices.map .ok := by
  induction items generalizing slices with
  | nil =>
    cases h
    rfl
  | cons item items ih =>
    rw [mapM_cons] at h
    obtain ⟨s, hs, h⟩ := bind_eq_ok.1 h
    obtain ⟨ss, hss, h⟩ := bind_eq_ok.1 h
    cases h
    rw [mapErr_eq_ok.1 hs, ih hss]
    rfl

theorem gather_spec {M : GuestMemoryT} (hM : CoversRanges M) {access : Permissions} {writable : Bool} {total : Nat}
    {buffers : List GuestSlice} {w : Walk} {c : DescriptorChainConsumer} (htotal : totalLen buffers = total)
    (hmax : total ≤ U64_MAX) (h : gather M access mem writable total buffers w = .ok c) :
    c.buffers = buffers ++ (rwDescriptors mem writable w).flatMap (fragments M access) ∧
      c.bytesConsumed = 0 ∧ totalLen c.buffers ≤ U64_MAX := by
  fun_induction gather M access mem writable total buffers w with
  | case1 total buffers w w' hnext =>
    cases h
    rw [rwDescriptors, hnext]
    exact ⟨by simp, rfl, by rw [htotal]; exact hmax⟩
  | case2 total buffers w desc w' hnext ih =>
    obtain ⟨total', hadd, h⟩ := bind_eq_ok.1 h
    obtain ⟨items, hitems, h⟩ := bind_eq_ok.1 h
    obtain ⟨slices, hslices, h⟩ := bind_eq_ok.1 h
    obtain ⟨hle, rfl⟩ := checkedAdd_eq_some.1 (okOr_eq_ok.1 hadd)
    have hget := mapErr_eq_ok.1 hitems
    rw [mapM_mapErr_eq_ok hslices] at hget
    have hfrag : fragments M access desc = slices := by
      rw [fragments, hget]
      exact filterMap_toOption_map_ok slices
    have hlen := hM _ _ _ _ hget
    obtain ⟨hbuf, hrest⟩ := ih _ slices (by rw [totalLen_append, htotal, hlen]) hle h
    rw [rwDescriptors, hnext]
    refine ⟨?_, hrest⟩
    rw [hbuf, flatMap_cons, hfrag, append_assoc]

end DescriptorUtils

end RustVmm.VirtioQueue
