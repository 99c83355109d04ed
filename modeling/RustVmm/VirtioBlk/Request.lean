import RustVmm.VmMemory.Flat
import RustVmm.VirtioQueue.Chain

/-!
# Block requests

Model of `virtio-blk/src/request.rs`: the head of a descriptor chain holds the header, the last descriptor is for the
status, and those between them are for the data.  What the guest answers is up to it (`Guest`).

* `parse_spec` — what a chain that is accepted looks like (`Parsed`).
* `totalDataLen_of_parse` — the length of its data does not overflow.
-/

set_option autoImplicit false

namespace RustVmm.VirtioBlk

open Lib VmMemory VirtioQueue List Traced
open Walk hiding next

/-! ## Types -/

def VIRTIO_BLK_T_IN : UInt32 := 0
def VIRTIO_BLK_T_OUT : UInt32 := 1
def VIRTIO_BLK_T_FLUSH : UInt32 := 4
def VIRTIO_BLK_T_GET_ID : UInt32 := 8
def VIRTIO_BLK_T_DISCARD : UInt32 := 11
def VIRTIO_BLK_T_WRITE_ZEROES : UInt32 := 13

/-- `request::Error`. -/
inductive ParseError where
  | descriptorChainTooShort
  | descriptorLengthTooSmall
  | guestMemory (error : VmMemory.Error)
  | invalidFlushSector
  | unexpectedReadOnlyDescriptor
  | unexpectedWriteOnlyDescriptor
  deriving DecidableEq, Repr

inductive RequestType where
  | in_
  | out
  | flush
  | getDeviceID
  | discard
  | writeZeroes
  | unsupported (t : UInt32)
  deriving DecidableEq, Repr

def RequestType.ofUInt32 (value : UInt32) : RequestType :=
  if value = VIRTIO_BLK_T_IN then in_
  else if value = VIRTIO_BLK_T_OUT then out
  else if value = VIRTIO_BLK_T_FLUSH then flush
  else if value = VIRTIO_BLK_T_GET_ID then getDeviceID
  else if value = VIRTIO_BLK_T_DISCARD then discard
  else if value = VIRTIO_BLK_T_WRITE_ZEROES then writeZeroes
  else unsupported value

/-- The header, without the field that is reserved. -/
structure RequestHeader where
  requestType : UInt32
  sector : UInt64
  deriving DecidableEq, Repr

structure Request where
  requestType : RequestType
  data : List (UInt64 × UInt32)
  sector : UInt64
  statusAddr : UInt64
  deriving DecidableEq, Repr

/-- The integer that bytes stand for, the lowest byte first. -/
def leNat : List UInt8 → Nat
  | [] => 0
  | b :: bs => b.toNat + 256 * leNat bs

def RequestHeader.ofBytes (bytes : List UInt8) : RequestHeader where
  requestType := .ofNat (leNat (bytes.take 4))
  sector := .ofNat (leNat ((bytes.drop 8).take 8))

def descriptorOfBytes (bytes : List UInt8) : Descriptor where
  addr := .ofNat (leNat (bytes.take 8))
  len := .ofNat (leNat ((bytes.drop 8).take 4))
  flags := .ofNat (leNat ((bytes.drop 12).take 2))
  next := .ofNat (leNat ((bytes.drop 14).take 2))

/-! ## The guest -/

structure Guest where
  descriptors : HostileMemory
  header : List Event → Nat → Outcome VmMemory.Error RequestHeader
  layout : GuestMemory

/-- Memory that nobody writes to while the chain is parsed. -/
def asGuest (mem : GuestMemory) : Guest where
  descriptors _ addr := (mem.asT.readSlice mem.bytes DESCRIPTOR_SIZE addr ()).outcome.toOption.map descriptorOfBytes
  header _ addr := RequestHeader.ofBytes <$> (mem.asT.readSlice mem.bytes 16 addr ()).outcome
  layout := mem

/-! ## The parser -/

namespace Request

def totalDataLen {ε : Type} (self : Request) : Outcome ε Nat :=
  self.data.foldlM (fun total d => .unwrap (checkedAdd total d.2.toNat)) 0

def dataLen (self : Request) : Nat := (self.data.map fun d => d.2.toNat).sum

theorem totalDataLen_eq {ε : Type} (self : Request) :
    (self.totalDataLen : Outcome ε Nat) = if self.dataLen ≤ U64_MAX then .ok self.dataLen else .panic := by
  have hloop : ∀ (data : List (UInt64 × UInt32)) (total : Nat), total ≤ U64_MAX →
      (data.foldlM (fun total d => .unwrap (checkedAdd total d.2.toNat)) total : Outcome ε Nat) =
        if total + (data.map fun d => d.2.toNat).sum ≤ U64_MAX then
          .ok (total + (data.map fun d => d.2.toNat).sum) else .panic := by
    intro data
    induction data with
    | nil => simp +contextual
    | cons d data ih =>
      intro total htotal
      rw [foldlM_cons, map_cons, sum_cons, ← Nat.add_assoc]
      by_cases hle : total + d.2.toNat ≤ U64_MAX
      · rw [checkedAdd_of_le hle]
        exact ih _ hle
      · rw [checkedAdd_of_lt (Nat.lt_of_not_le hle), if_neg (by omega)]
        rfl
  have := hloop self.data 0 (Nat.zero_le _)
  rwa [Nat.zero_add] at this

def checkStatusDesc (mem : GuestMemory) (desc : Descriptor) : Outcome ParseError Unit :=
  if !desc.isWriteOnly then .err .unexpectedReadOnlyDescriptor
  else if desc.len < 1 then .err .descriptorLengthTooSmall
  else if !mem.asT.checkRange desc.addr.toNat 1 .write then
    .err (.guestMemory (.invalidGuestAddress desc.addr.toNat))
  else .ok ()

def checkDataDesc (desc : Descriptor) (requestType : RequestType) : Outcome ParseError Unit :=
  if !desc.isWriteOnly ∧ requestType = .in_ then .err .unexpectedReadOnlyDescriptor else .ok ()

/-- `desc_chain.next().ok_or(Error::DescriptorChainTooShort)`. -/
def nextDesc (g : Guest) : Exec Walk ParseError Descriptor := fun w =>
  (.okOr (w.next g.descriptors).1 .descriptorChainTooShort, (w.next g.descriptors).2)

variable {g : Guest} {w w' : Walk} {desc : Descriptor}

theorem nextDesc_eq_ok (h : nextDesc g w = (.ok desc, w')) : w.next g.descriptors = (some desc, w') := by
  obtain ⟨hdesc, rfl⟩ := Prod.mk.inj h
  exact Prod.ext (Outcome.okOr_eq_ok.1 hdesc) rfl

def parseData (g : Guest) (requestType : RequestType) (desc : Descriptor) (data : List (UInt64 × UInt32)) (w : Walk) :
    Outcome ParseError (List (UInt64 × UInt32) × Descriptor) × Walk :=
  if desc.hasNext then
    match checkDataDesc desc requestType with
    | .ok () =>
      match _h : nextDesc g w with
      | (.ok next, w') => parseData g requestType next (data ++ [(desc.addr, desc.len)]) w'
      | (.err e, w') => (.err e, w')
      | (.panic, w') => (.panic, w')
    | .err e => (.err e, w)
    | .panic => (.panic, w)
  else (.ok (data, desc), w)
termination_by Walk.budget w.chain
decreasing_by exact Walk.budget_next (nextDesc_eq_ok _h)

/-- `parse`.  What it finds in the header is up to the guest. -/
def parseW {W : Type} [Records W] (g : Guest) : Traced Walk W ParseError Request := do
  let chainHead ← .exec (nextDesc g)
  if chainHead.isWriteOnly then .lift (.err .unexpectedWriteOnlyDescriptor)
  else do
    let w ← .get
    .emit (g.layout.asT.readSlice g.layout.bytes 16 chainHead.addr.toNat ()).trace
    let header ← .lift ((g.header w.trace chainHead.addr.toNat).mapErr .guestMemory)
    if header.requestType = VIRTIO_BLK_T_FLUSH ∧ header.sector ≠ 0 then .lift (.err .invalidFlushSector)
    else do
      let requestType := RequestType.ofUInt32 header.requestType
      let desc ← .exec (nextDesc g)
      let (data, statusDesc) ← .exec (parseData g requestType desc [])
      .lift (checkStatusDesc g.layout statusDesc)
      return ⟨requestType, data, header.sector, statusDesc.addr⟩

/-- `parse`, as its caller sees it. -/
def parse (g : Guest) : Exec Walk ParseError Request := fun w =>
  let r : Traced.Result Walk Effect ParseError Request := parseW g w
  (r.outcome, r.state)

/-! ## What is accepted -/

def buffer (d : Descriptor) : UInt64 × UInt32 := (d.addr, d.len)

structure Parsed (descs : List Descriptor) (request : Request) : Prop where
  chain : ∃ head data status, descs = head :: (data ++ [status]) ∧ head.isWriteOnly = false ∧
    request.data = data.map buffer ∧ request.statusAddr = status.addr ∧
    status.isWriteOnly = true ∧ 1 ≤ status.len ∧
    (request.requestType = .in_ → ∀ d ∈ data, d.isWriteOnly = true)

theorem checkStatusDesc_eq_ok {mem : GuestMemory} (h : checkStatusDesc mem desc = .ok ()) :
    desc.isWriteOnly = true ∧ 1 ≤ desc.len := by
  unfold checkStatusDesc at h
  split at h
  · cases h
  · rename_i hwrite
    split at h
    · cases h
    · rename_i hlen
      exact ⟨by simpa using hwrite, UInt32.not_lt.1 hlen⟩

variable {requestType : RequestType}

theorem checkDataDesc_eq_ok (h : checkDataDesc desc requestType = .ok ()) (hin : requestType = .in_) :
    desc.isWriteOnly = true := by
  unfold checkDataDesc at h
  split at h
  · cases h
  · rename_i hnot
    simpa [hin] using hnot

theorem yields_nextDesc (h : nextDesc g w = (.ok desc, w')) : yields w'.trace = yields w.trace ++ [desc] := by
  have := yields_next g.descriptors w
  rw [nextDesc_eq_ok h] at this
  exact this

theorem steps_nextDesc (h : nextDesc g w = (.ok desc, w')) : w.Steps w' := by
  have := next_steps g.descriptors w
  rwa [nextDesc_eq_ok h] at this

theorem parseData_spec {status : Descriptor} {before data : List (UInt64 × UInt32)}
    (h : parseData g requestType desc before w = (.ok (data, status), w')) :
    ∃ taken more, w.Steps w' ∧ yields w'.trace = yields w.trace ++ taken ∧
      desc :: taken = more ++ [status] ∧ data = before ++ more.map buffer ∧
      (requestType = .in_ → ∀ d ∈ more, d.isWriteOnly = true) := by
  fun_induction parseData g requestType desc before w with
  | case1 desc before w hnext hcheck next w₁ hw ih =>
    obtain ⟨taken, more, hsteps, hyields, hmore, hdata, hin⟩ := ih h
    refine ⟨next :: taken, desc :: more, (steps_nextDesc hw).trans hsteps, ?_, ?_, ?_, fun hrt d hd => ?_⟩
    · rw [hyields, yields_nextDesc hw, append_assoc, singleton_append]
    · rw [hmore, cons_append]
    · rw [hdata, append_assoc]
      rfl
    · rcases mem_cons.1 hd with rfl | hd
      · exact checkDataDesc_eq_ok hcheck hrt
      · exact hin hrt d hd
  | case6 desc before w hnext =>
    cases h
    exact ⟨[], [], .refl, by simp, rfl, by simp, fun _ => nofun⟩
  | _ => cases h

variable {request : Request}

theorem parseW_eq_ok {W : Type} [Records W] {trace : List W} (h : parseW g w = ⟨.ok request, w', trace⟩) :
    ∃ head w₁ desc w₂ status, nextDesc g w = (.ok head, w₁) ∧ head.isWriteOnly = false ∧
      nextDesc g w₁ = (.ok desc, w₂) ∧
      parseData g request.requestType desc [] w₂ = (.ok (request.data, status), w') ∧
      checkStatusDesc g.layout status = .ok () ∧ request.statusAddr = status.addr := by
  obtain ⟨head, w₁, hhead, h⟩ := exec_bind_eq_ok h
  split at h
  · cases h
  · rename_i hro
    obtain ⟨_, _, _, _, hget, h, -⟩ := bind_eq_ok h
    cases hget
    obtain ⟨_, _, _, _, hloads, h, -⟩ := bind_eq_ok h
    cases hloads
    obtain ⟨header, -, h⟩ := lift_bind_eq_ok h
    split at h
    · cases h
    · obtain ⟨desc, w₂, hdesc, h⟩ := exec_bind_eq_ok h
      obtain ⟨⟨data, status⟩, w₃, hdata, h⟩ := exec_bind_eq_ok h
      obtain ⟨_, hstatus, h⟩ := lift_bind_eq_ok h
      cases h
      exact ⟨head, w₁, desc, w₂, status, hhead, by simpa using hro, hdesc, hdata, hstatus, rfl⟩

theorem parseW_of_parse (h : parse g w = (.ok request, w')) :
    parseW g w = ⟨.ok request, w', (parseW g w : Traced.Result Walk Effect ParseError Request).trace⟩ := by
  obtain ⟨houtcome, hstate⟩ := Prod.mk.inj h
  rw [← houtcome, ← hstate]

theorem parse_spec (h : parse g w = (.ok request, w')) :
    ∃ descs, w.Steps w' ∧ yields w'.trace = yields w.trace ++ descs ∧ Parsed descs request := by
  obtain ⟨head, w₁, desc, w₂, status, hhead, hro, hdesc, hdata, hstatus, haddr⟩ := parseW_eq_ok (parseW_of_parse h)
  obtain ⟨taken, more, hsteps, hyields, hmore, hbuffers, hin⟩ := parseData_spec hdata
  obtain ⟨hwrite, hlen⟩ := checkStatusDesc_eq_ok hstatus
  refine ⟨head :: desc :: taken, (steps_nextDesc hhead).trans ((steps_nextDesc hdesc).trans hsteps), ?_,
    ⟨head, more, status, by rw [hmore], hro, hbuffers, haddr, hwrite, hlen, hin⟩⟩
  rw [hyields, yields_nextDesc hdesc, yields_nextDesc hhead]
  simp

theorem Parsed.dataLen_le {descs : List Descriptor} (h : Parsed descs request) :
    request.dataLen ≤ (descs.map fun d => d.len.toNat).sum := by
  obtain ⟨head, data, status, rfl, _, hdata, _⟩ := h.chain
  have hlens : ((fun d : UInt64 × UInt32 => d.2.toNat) ∘ buffer) = fun d => d.len.toNat := rfl
  simp only [dataLen, hdata, map_map, hlens, map_cons, map_append, sum_cons, sum_append]
  omega

/-- **The data of an accepted request is shorter than 2^32 bytes**, so `total_data_len` does not
overflow. -/
theorem totalDataLen_of_parse {ε : Type} (h : parse g w = (.ok request, w')) :
    (request.totalDataLen : Outcome ε Nat) = .ok request.dataLen ∧ request.dataLen < 4294967296 := by
  obtain ⟨descs, hsteps, hyields, hparsed⟩ := parse_spec h
  have hsum := hsteps.yielded_sum
  have hlt := w'.chain.yieldedBytes.toNat_lt
  have hle := hparsed.dataLen_le
  rw [hyields, map_append, sum_append] at hsum
  have hbound : request.dataLen < 4294967296 := by omega
  refine ⟨?_, hbound⟩
  rw [totalDataLen_eq, if_pos (by rw [U64_MAX_eq]; omega)]

end Request

end RustVmm.VirtioBlk
