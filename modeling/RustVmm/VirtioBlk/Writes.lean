import Mathlib.Data.Vector.Defs
import RustVmm.VirtioBlk.Executor

/-!
# Where a block request writes

The parser looks at the marks of the buffers that the device may write; what is written is decided by the executor.

* `all_execute` — apart from the device id, only reads of the disk store data, in the data buffers.
* `blk_writes_writable_iff` — when all that is stored lies in buffers that the device may write.
* `get_id_writes_read_only_buffer` — the device id is stored in a buffer that it must not write.
-/

set_option autoImplicit false

namespace RustVmm.VirtioBlk

open Lib VmMemory VirtioQueue Traced GuestMemoryT
open List hiding Vector

/-! ## The device id -/

def InBuffer (d : UInt64 × UInt32) (a : Nat) : Prop := d.1.toNat ≤ a ∧ a < d.1.toNat + d.2.toNat

def Reached (mem : GuestMemory) : List (UInt64 × UInt32) → Nat → Prop
  | [], _ => False
  | d :: ds, a => (InBuffer d a ∧ mem.Mapped d.1.toNat (a + 1 - d.1.toNat)) ∨
      (mem.Mapped d.1.toNat d.2.toNat ∧ Reached mem ds a)

variable {mem : GuestMemory} {data : List (UInt64 × UInt32)} {a : Nat}

theorem Reached.exists_mem (h : Reached mem data a) : ∃ d ∈ data, InBuffer d a := by
  induction data with
  | nil => exact absurd h id
  | cons d ds ih =>
    rcases h with ⟨hin, _⟩ | ⟨_, h⟩
    · exact ⟨d, mem_cons_self, hin⟩
    · obtain ⟨d', hd', hin⟩ := ih h
      exact ⟨d', mem_cons_of_mem _ hd', hin⟩

variable {σ B : Type}
variable {read : Traced σ Effect VmMemory.Error Unit}

theorem countRead_apply (bytesToMem dataLen : UInt32) {s s' : σ}
    {trace : List Effect} : (read s = ⟨.ok (), s', trace⟩ → countRead bytesToMem dataLen read s =
      ⟨addU32 bytesToMem dataLen, s', trace⟩) ∧
    ∀ e, read s = ⟨.err e, s', trace⟩ → countRead bytesToMem dataLen read s =
      ⟨countBytes bytesToMem dataLen (.error e), s', trace⟩ := by
  constructor
  · intro h
    simp [countRead, attempt, bind_apply, h, countBytes]
  · intro e h
    simp [countRead, attempt, bind_apply, h]

variable {b bytesToMem : UInt32}

theorem addU32_of_lt {ε : Type} {a : UInt32} (h : a.toNat + b.toNat < 4294967296) :
    (addU32 a b : Outcome ε UInt32) = .ok (a + b) := by
  rw [addU32, checkedAddU32, if_pos h]
  rfl

theorem toNat_add_of_lt {a : UInt32} (h : a.toNat + b.toNat < 4294967296) : (a + b).toNat = a.toNat + b.toNat := by
  rw [UInt32.toNat_add, Nat.mod_eq_of_lt h]

variable {deviceId : List UInt8} {d : UInt64 × UInt32}

theorem readId_eq (mem : GuestMemory) (hlen : deviceId.length < 4294967296)
    (hfit : bytesToMem.toNat + d.2.toNat ≤ deviceId.length) : ∃ source : List UInt8, source.length = d.2.toNat ∧
      (readId mem deviceId bytesToMem d : Traced σ Effect Error UInt32) =
        countRead bytesToMem d.2 (.runOn source (mem.asT.readExactVolatileFrom d.1.toNat d.2.toNat)) := by
  have hlt : d.2.toNat + bytesToMem.toNat < 4294967296 := by omega
  have hstop : (d.2 + bytesToMem).toNat = d.2.toNat + bytesToMem.toNat := toNat_add_of_lt hlt
  let source := (deviceId.take (d.2 + bytesToMem).toNat).drop bytesToMem.toNat
  have hslice : (sliceOf deviceId bytesToMem.toNat (d.2 + bytesToMem).toNat : Outcome Error _) =
      .ok source := if_pos (by omega)
  refine ⟨source, ?_, ?_⟩
  · simp only [source, length_drop, length_take]
    omega
  · rw [readId, addU32_of_lt hlt, lift_ok_bind, hslice, lift_ok_bind]

theorem readId_apply (mem : GuestMemory) (hlen : deviceId.length < 4294967296)
    (hfit : bytesToMem.toNat + d.2.toNat ≤ deviceId.length) (s : σ) :
    ∃ o trace, readId mem deviceId bytesToMem d s = ⟨o, s, trace⟩ ∧
      (mem.Mapped d.1.toNat d.2.toNat → o = .ok (bytesToMem + d.2)) ∧
      (¬ mem.Mapped d.1.toNat d.2.toNat → ∀ n, o ≠ .ok n) ∧
      ∀ a, Stored trace a ↔ InBuffer d a ∧ mem.Mapped d.1.toNat (a + 1 - d.1.toNat) := by
  obtain ⟨source, hsource, heq⟩ := readId_eq mem hlen hfit
  obtain ⟨hok, herr, hstored⟩ := readExactVolatileFrom_buffer mem d.1.toNat source
  rw [hsource] at hok herr hstored
  let result := mem.asT.readExactVolatileFrom d.1.toNat d.2.toNat source
  let read : Traced σ Effect VmMemory.Error Unit :=
    .runOn source (mem.asT.readExactVolatileFrom d.1.toNat d.2.toNat)
  rw [heq]
  by_cases hm : mem.Mapped d.1.toNat d.2.toNat
  · have hrun : read s = ⟨.ok (), s, result.trace⟩ := by rw [← hok hm]; rfl
    refine ⟨_, _, (countRead_apply bytesToMem d.2).1 hrun, fun _ => ?_, fun h => absurd hm h, hstored⟩
    exact addU32_of_lt (by omega)
  · obtain ⟨e, he⟩ := herr hm
    have hrun : read s = ⟨.err e, s, result.trace⟩ := by rw [← he]; rfl
    exact ⟨_, _, (countRead_apply bytesToMem d.2).2 e hrun, fun h => absurd h hm,
      fun _ n => countBytes_error bytesToMem d.2 n e, hstored⟩

theorem foldlM_readId (mem : GuestMemory) (hlen : deviceId.length < 4294967296)
    (hfit : bytesToMem.toNat + (data.map fun d => d.2.toNat).sum ≤ deviceId.length) (s : σ) (a : Nat) :
    Stored (data.foldlM (readId mem deviceId) bytesToMem s).trace a ↔ Reached mem data a := by
  induction data generalizing bytesToMem with
  | nil => simp [Reached]
  | cons d ds ih =>
    rw [map_cons, sum_cons] at hfit
    have hhead : bytesToMem.toNat + d.2.toNat ≤ deviceId.length := by omega
    obtain ⟨o, trace, hrun, hok, herr, hstored⟩ := readId_apply mem hlen hhead s
    rw [foldlM_cons, Reached, ← hstored]
    by_cases hm : mem.Mapped d.1.toNat d.2.toNat
    · have hsum : (bytesToMem + d.2).toNat = bytesToMem.toNat + d.2.toNat := toNat_add_of_lt (by omega)
      rw [hok hm] at hrun
      rw [bind_of_ok hrun, stored_append, ih (by omega)]
      simp [hm]
    · have hstop : ((readId mem deviceId bytesToMem d >>= fun n => ds.foldlM (readId mem deviceId) n) s).trace
          = trace := by
        rw [bind_apply, hrun]
        cases o with
        | ok n => exact absurd rfl (herr hm n)
        | err e => rfl
        | panic => rfl
      rw [hstop]
      simp [hm]

theorem checkRequest_getDeviceID (b : StdIoBackend B) :
    b.checkRequest .getDeviceID = if b.hasFeature VIRTIO_BLK_F_RO then .err .readOnly else .ok () := by
  simp [StdIoBackend.checkRequest]

theorem executeGetDeviceID_stored (mem : GuestMemory) (request : Request) (b : StdIoBackend B) (a : Nat) :
    Stored (executeGetDeviceID mem request request.dataLen b).trace a ↔
      b.deviceId.isSome = true ∧ request.dataLen = VIRTIO_BLK_ID_BYTES ∧ Reached mem request.data a := by
  unfold executeGetDeviceID
  rw [get_bind_apply]
  cases hid : b.deviceId with
  | none => simp
  | some id =>
    rw [Outcome.okOr_some, lift_ok_bind]
    by_cases hlen : request.dataLen = VIRTIO_BLK_ID_BYTES
    · have hlt : id.toList.length < 4294967296 := by
        rw [Vector.length_toList]
        decide
      have hfit : (0 : UInt32).toNat + (request.data.map fun d => d.2.toNat).sum ≤ id.toList.length := by
        have hlen : (request.data.map fun d => d.2.toNat).sum = VIRTIO_BLK_ID_BYTES := hlen
        simp [hlen]
      rw [if_neg (fun hne => hne hlen), foldlM_readId mem hlt hfit]
      simp [hlen]
    · simp [hlen]

theorem silent_readSegment (mem : GuestMemory) (addr : Nat) :
    (readSegment mem addr : BlkOp B DiscardWriteZeroes).Silent := by
  obtain ⟨o, hread, _⟩ := readSegment_eq (B := B) mem addr
  rw [hread]
  exact All.lift o

theorem silent_executeOut [WriteVolatile B] (mem : GuestMemory) (request : Request) (totalLen : Nat) :
    (executeOut mem request totalLen : BlkOp B UInt32).Silent := by
  refine Traced.All.get.bind fun self => All.lift_bind fun _ _ => ?_
  refine (All.zoom (All.foldlM (fun _ d _ => ?_) ()) _ _).bind fun _ => All.pure _
  exact (silent_writeAllVolatileTo mem.asT mem.bytes d.1.toNat d.2.toNat).mapErr _

theorem all_countRead {P : Effect → Prop} (h : read.All P)
    (bytesToMem dataLen : UInt32) : (countRead bytesToMem dataLen read).All P :=
  h.attempt.bind fun _ => All.lift _

/-- The effect is on the memory of one of the data buffers. -/
def IntoData (mem : GuestMemory) (request : Request) (e : Effect) : Prop :=
  ∃ d ∈ request.data, e.Within mem d.1.toNat d.2.toNat

theorem all_executeIn [ReadVolatile B] (mem : GuestMemory) (request : Request) (totalLen : Nat) :
    (executeIn mem request totalLen : BlkOp B UInt32).All (IntoData mem request) := by
  refine Traced.All.get.bind fun self => All.lift_bind fun _ _ => ?_
  split
  · exact All.lift _
  · refine All.zoom (All.foldlM (fun n d hd => all_countRead ?_ n d.2) 0) _ _
    exact (all_readExactVolatileFrom mem d.1.toNat d.2.toNat).mono fun e he => ⟨d, hd, he⟩

variable [ReadVolatile B] [WriteVolatile B] [Backend B]

/-- The executor gets as far as writing the device id. -/
structure ServesId (b : StdIoBackend B) (request : Request) : Prop where
  type : request.requestType = .getDeviceID
  seek : ∃ pos, (Backend.seek (.start (request.sector <<< 9)) b.inner).1 = .ok pos
  writable : b.hasFeature VIRTIO_BLK_F_RO = false
  deviceId : b.deviceId.isSome = true
  length : request.dataLen = VIRTIO_BLK_ID_BYTES

variable {request : Request}

theorem executeAt_stored_of_getDeviceID (mem : GuestMemory) (htype : request.requestType = .getDeviceID)
    (b : StdIoBackend B) (a : Nat) : Stored (executeAt mem request b).trace a ↔ b.hasFeature VIRTIO_BLK_F_RO = false ∧
      b.deviceId.isSome = true ∧ request.dataLen = VIRTIO_BLK_ID_BYTES ∧ Reached mem request.data a := by
  unfold executeAt
  rw [get_bind_apply, htype, checkRequest_getDeviceID, Request.totalDataLen_eq]
  cases hro : b.hasFeature VIRTIO_BLK_F_RO with
  | true => simp
  | false =>
    rw [if_neg Bool.false_ne_true, lift_ok_bind]
    by_cases hmax : request.dataLen ≤ U64_MAX
    · have hcheck : checkDataLength .getDeviceID request.dataLen = .ok () := by simp [checkDataLength]
      rw [if_pos hmax, lift_ok_bind, hcheck, lift_ok_bind]
      simp only [executeType, htype, storing_effect, executeGetDeviceID_stored, true_and]
    · have hne : request.dataLen ≠ VIRTIO_BLK_ID_BYTES := by
        intro h
        rw [h] at hmax
        exact hmax (by decide)
      rw [if_neg hmax]
      simp [hne, bind_apply]

theorem execute_stored_of_getDeviceID (mem : GuestMemory) (htype : request.requestType = .getDeviceID)
    (b : StdIoBackend B) (a : Nat) :
    Stored (execute mem request b).trace a ↔ ServesId b request ∧ Reached mem request.data a := by
  rcases execute_cases mem request b with ⟨pos, inner, hseek, heq⟩ | ⟨hfail, o, heq⟩ <;> rw [heq]
  · rw [executeAt_stored_of_getDeviceID mem htype]
    constructor
    · rintro ⟨hro, hid, hlen, hreached⟩
      exact ⟨⟨htype, ⟨pos, by rw [hseek]⟩, hro, hid, hlen⟩, hreached⟩
    · rintro ⟨h, hreached⟩
      exact ⟨h.writable, h.deviceId, h.length, hreached⟩
  · simp only [stored_nil, false_iff, not_and]
    rintro ⟨_, ⟨pos, hpos⟩, _⟩
    exact absurd hpos (hfail pos)

/-! ## The other requests -/

theorem silent_punchHole (offset length : UInt64) : (punchHole offset length : BlkOp B Bool).Silent := by
  refine All.bind ?_ fun result => ?_
  · exact ((All.exec _).zoom _ _).attempt
  · cases result <;> exact All.pure _

theorem silent_zeroRange (offset length : UInt64) : (zeroRange offset length : BlkOp B Unit).Silent :=
  ((All.exec _).zoom _ _).mapErr _

theorem silent_writeZeroes (flags : UInt32) (offset length : UInt64) :
    (writeZeroes flags offset length : BlkOp B Unit).Silent := by
  unfold writeZeroes
  split
  · exact silent_zeroRange offset length
  · refine (silent_punchHole offset length).bind fun punched => ?_
    split
    · exact All.pure _
    · exact silent_zeroRange offset length

theorem silent_handleDiscardWriteZeroes (segment : DiscardWriteZeroes) (requestType : RequestType) :
    (handleDiscardWriteZeroes segment requestType : BlkOp B UInt32).Silent := by
  unfold handleDiscardWriteZeroes
  split
  · exact All.lift _
  · refine All.lift_bind fun offset _ => All.lift_bind fun length _ => ?_
    refine Traced.All.get.bind fun self => All.lift_bind fun _ _ => ?_
    split
    · exact (silent_punchHole offset length).bind fun _ => All.pure _
    · exact (silent_writeZeroes _ offset length).bind fun _ => All.pure _

theorem silent_handleSegments (mem : GuestMemory) (requestType : RequestType) (addr available : Nat) :
    (handleSegments mem requestType addr available : BlkOp B Unit).Silent := by
  fun_induction handleSegments (B := B) mem requestType addr available with
  | case1 addr available h => exact All.pure _
  | case2 addr available h ih =>
    refine (silent_readSegment mem addr).bind fun segment => ?_
    refine (silent_handleDiscardWriteZeroes segment requestType).bind fun _ => ?_
    exact All.lift_bind fun addr' _ => ih addr'

theorem silent_executeDiscardWriteZeroes (mem : GuestMemory) (request : Request) :
    (executeDiscardWriteZeroes mem request : BlkOp B UInt32).Silent := by
  refine (All.foldlM (fun _ d _ => ?_) ()).bind fun _ => All.pure _
  unfold handleBuffer
  split
  · exact All.lift _
  · exact All.lift_bind fun _ _ => silent_handleSegments mem _ _ _

theorem all_execute (mem : GuestMemory) (htype : request.requestType ≠ .getDeviceID) :
    (execute mem request : BlkOp B UInt32).All fun e =>
      request.requestType = .in_ ∧ IntoData mem request e := by
  refine (((All.exec _).zoom _ _).mapErr _).bind fun _ => ?_
  refine Traced.All.get.bind fun self => All.lift_bind fun _ _ => ?_
  refine All.lift_bind fun totalLen _ => All.lift_bind fun _ _ => ?_
  unfold executeType
  split
  · rename_i hin
    exact (all_executeIn mem request totalLen).mono fun e he => ⟨hin, he⟩
  · exact (silent_executeOut mem request totalLen).all
  · exact (((All.exec _).zoom _ _).mapErr _).bind fun _ => All.pure _
  · exact absurd ‹_› htype
  · exact (silent_executeDiscardWriteZeroes mem request).all
  · exact (silent_executeDiscardWriteZeroes mem request).all
  · exact All.lift _

/-! ## Buffers that the device may write to -/

instance (d : UInt64 × UInt32) (a : Nat) : Decidable (InBuffer d a) := inferInstanceAs (Decidable (_ ∧ _))

/-- The address lies in the buffer of a descriptor with the device-writable flag. -/
def Writable (descs : List Descriptor) (a : Nat) : Prop :=
  ∃ d ∈ descs, d.isWriteOnly = true ∧ InBuffer (Request.buffer d) a

instance (descs : List Descriptor) (a : Nat) : Decidable (Writable descs a) :=
  inferInstanceAs (Decidable (∃ d ∈ descs, _))

variable {e : Effect}

theorem inBuffer_of_within (h : e.Within mem d.1.toNat d.2.toNat) (hstores : e.Stores a) :
    InBuffer d a := h.range hstores

variable {descs : List Descriptor}

theorem writable_of_in (h : Request.Parsed descs request) (hin : request.requestType = .in_)
    (he : IntoData mem request e) (hstores : e.Stores a) : Writable descs a := by
  obtain ⟨head, data, status, rfl, _, hdata, _, _, _, hwrite⟩ := h.chain
  obtain ⟨d, hd, hwithin⟩ := he
  rw [hdata] at hd
  obtain ⟨desc, hdesc, rfl⟩ := mem_map.1 hd
  exact ⟨desc, by simp [hdesc], hwrite hin desc hdesc, inBuffer_of_within hwithin hstores⟩

theorem writable_of_status (h : Request.Parsed descs request) (he : e.Within mem request.statusAddr.toNat 1)
    (hstores : e.Stores a) : Writable descs a := by
  obtain ⟨head, data, status, rfl, _, _, haddr, hwrite, hlen, _⟩ := h.chain
  obtain ⟨⟨_, hle, hend⟩, hdata, hmarked⟩ := he
  obtain ⟨hstart, hlt⟩ := hstores
  have hlen : 1 ≤ status.len.toNat := UInt32.le_iff_toNat_le.1 hlen
  rw [haddr] at hle hend
  exact ⟨status, by simp, hwrite, ⟨by show status.addr.toNat ≤ a; omega,
    by show a < status.addr.toNat + status.len.toNat; omega⟩⟩

theorem mem_trace_processRequest {b : StdIoBackend B} (h : e ∈ (processRequest mem request b).trace) :
    e ∈ (execute mem request b).trace ∨ e.Within mem request.statusAddr.toNat 1 := by
  have hstatus : ∀ result, (do
      (mem.asT.writeSlice [(statusOf result).1] request.statusAddr.toNat).mapErr .guestMemory
      .lift (.okOr (checkedAddU32 (statusOf result).2 1) .overflow) :
        Traced (StdIoBackend B) Effect ProcessReqError UInt32).All
      (Effect.Within mem request.statusAddr.toNat 1) := fun result =>
    ((all_writeSlice mem [_] request.statusAddr.toNat).mapErr _).bind fun _ =>
      All.lift _
  have := All.mem_trace_bind hstatus h
  rwa [trace_attempt] at this

/-- **Where a block request writes.**  Let the parser accept a chain, against a guest that answers as it
likes, and let the request be processed on any backend and memory.  All bytes that are stored in guest
memory lie in buffers of the chain with the device-writable flag, if and only if this is so for the
bytes that are reached when the id is written, in case the request is for the device id and the executor
serves it. -/
theorem blk_writes_writable_iff (g : Guest) (chain : DescriptorChain) {request : Request} {w : Walk}
    (hparse : Request.parse g ⟨chain, []⟩ = (.ok request, w)) (mem : GuestMemory) (b : StdIoBackend B) :
    (∀ a, Stored (processRequest mem request b).trace a → Writable (Walk.yields w.trace) a) ↔
      (ServesId b request → ∀ a, Reached mem request.data a → Writable (Walk.yields w.trace) a) := by
  obtain ⟨descs, _, hyields, hparsed⟩ := Request.parse_spec hparse
  rw [hyields]
  by_cases htype : request.requestType = .getDeviceID
  · have hexec := execute_stored_of_getDeviceID mem htype b
    constructor
    · intro h hserves a hreached
      obtain ⟨e, he, hstores⟩ := (hexec a).2 ⟨hserves, hreached⟩
      refine h a ⟨e, ?_, hstores⟩
      exact mem_trace_bind_left (by rwa [trace_attempt]) _
    · rintro h a ⟨e, he, hstores⟩
      rcases mem_trace_processRequest he with he | he
      · obtain ⟨hserves, hreached⟩ := (hexec a).1 ⟨e, he, hstores⟩
        exact h hserves a hreached
      · exact writable_of_status hparsed he hstores
  · refine iff_of_true ?_ fun hserves => absurd hserves.type htype
    rintro a ⟨e, he, hstores⟩
    rcases mem_trace_processRequest he with he | he
    · obtain ⟨hin, hdata⟩ := all_execute mem htype b e he
      exact writable_of_in hparsed hin hdata hstores
    · exact writable_of_status hparsed he hstores

/-! ## A request for the device id -/

def serialDisk : StdIoBackend MemFile where
  inner := ⟨[], 0⟩
  numSectors := 0
  features := 0
  deviceId := some (.replicate 20 0x61)
  numSectors_le := by decide

def idRequestMemory (flags : UInt8) : GuestMemory where
  regions := [⟨0, 0x5000, 0x10000, by decide, by decide⟩]
  sorted := by decide
  bytes a := ([(0x1001, 0x20), (0x1008, 16), (0x100c, 1), (0x100e, 1), (0x1011, 0x30), (0x1018, 20),
    (0x101c, flags), (0x101e, 2), (0x1021, 0x40), (0x1028, 1), (0x102c, 2), (0x2000, 8)].lookup a).getD 0

def idRequest : Request := ⟨.getDeviceID, [(0x3000, 20)], 0, 0x4000⟩

/-- What the parser does with it. -/
def parseId (flags : UInt8) : Outcome ParseError Request × Walk :=
  Request.parse (asGuest (idRequestMemory flags)) ⟨.new 0x1000 3 0, []⟩

theorem totalDataLen_of_parse_id : (idRequest.totalDataLen : Outcome Empty Nat) = .ok 20 :=
  have hok : (parseId 3).1 = .ok idRequest := by decide +kernel
  (Request.totalDataLen_of_parse (Prod.ext hok rfl)).1

theorem blk_writes_writable_id : (parseId 3).1 = .ok idRequest ∧
    ∀ a, Stored (processRequest (idRequestMemory 3) idRequest serialDisk).trace a →
      Writable (Walk.yields (parseId 3).2.trace) a :=
  have hok : (parseId 3).1 = .ok idRequest := by decide +kernel
  have hdesc : ⟨0x3000, 20, 3, 2⟩ ∈ Walk.yields (parseId 3).2.trace := by decide +kernel
  ⟨hok, (blk_writes_writable_iff _ _ (Prod.ext hok rfl) (idRequestMemory 3) serialDisk).2 fun _ _ hreached => by
      obtain ⟨d, hd, hin⟩ := hreached.exists_mem
      rw [mem_singleton.1 hd] at hin
      exact ⟨_, hdesc, rfl, hin⟩⟩

/-- **A device id in a buffer that the device must not write**: the driver offers the buffer for the
id as one to be read; the chain is accepted, and the byte at its start is overwritten. -/
theorem get_id_writes_read_only_buffer : (parseId 1).1 = .ok idRequest ∧
    (processRequest (idRequestMemory 1) idRequest serialDisk).outcome = .ok 21 ∧
    (idRequestMemory 1).bytes 0x3000 = 0 ∧
    ((idRequestMemory 1).apply (processRequest (idRequestMemory 1) idRequest serialDisk).trace).bytes
      0x3000 = 0x61 ∧
    ¬ Writable (Walk.yields (parseId 1).2.trace) 0x3000 := by
  decide +kernel

end RustVmm.VirtioBlk
