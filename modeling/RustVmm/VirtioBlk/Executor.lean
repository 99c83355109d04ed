import RustVmm.VirtioBlk.Request

/-!
# Execution of block requests

Model of `virtio-blk/src/stdio_executor.rs`, on any backend.  The trace of a call is what it stores in guest memory;
what happens to the backend is in its state.

* `StdIoBackend` — the byte offset of a sector on the disk fits in 64 bits; this is a field.
* `execute_cases`, `executeAt_cases` — a request that fails to be positioned or checked does nothing.
-/

set_option autoImplicit false

namespace RustVmm.VirtioBlk

open Lib VmMemory Traced

def SECTOR_SHIFT : UInt32 := 9
def SECTOR_SIZE : Nat := 512

def VIRTIO_BLK_F_RO : UInt64 := 5
def VIRTIO_BLK_F_FLUSH : UInt64 := 9
def VIRTIO_BLK_F_DISCARD : UInt64 := 13
def VIRTIO_BLK_F_WRITE_ZEROES : UInt64 := 14
def VIRTIO_BLK_ID_BYTES : Nat := 20
def VIRTIO_BLK_S_OK : UInt8 := 0
def VIRTIO_BLK_S_IOERR : UInt8 := 1
def VIRTIO_BLK_S_UNSUPP : UInt8 := 2

/-! ## Backends -/

inductive SeekFrom where
  | start (offset : UInt64)
  | fromEnd (offset : Int)
  deriving DecidableEq, Repr

/-- The trait `Backend`.  As for the other calls, `write_zeroes_at` is not interrupted forever. -/
class Backend (B : Type) [ReadVolatile B] [WriteVolatile B] where
  seek : SeekFrom → Exec B ErrorKind UInt64
  fsync : Exec B ErrorKind Unit
  punchHole : (offset length : Nat) → Exec B ErrorKind Unit
  writeZeroesAt : B → (offset length : Nat) → WriteAnswer × B
  zeroesPatience : B → Nat
  zeroesPatience_lt : ∀ {b b' : B} {offset length : Nat},
    writeZeroesAt b offset length = (.interrupted, b') → zeroesPatience b' < zeroesPatience b

structure MemFile where
  data : List UInt8
  pos : Nat

instance : ReadVolatile MemFile where
  readVolatile f len :=
    let data := (f.data.drop f.pos).take len
    (.bytes data, { f with pos := f.pos + data.length })
  patience _ := 0
  bytes_le h := by
    cases h
    exact List.length_take_le _ _
  touched_le h := by cases h
  patience_lt h := by cases h

/-- The contents after bytes have been written at an offset.  Behind the end of the file they follow
zeroes. -/
def MemFile.overwrite (f : MemFile) (offset : Nat) (data : List UInt8) : List UInt8 :=
  if data = [] then f.data
  else f.data.take offset ++ .replicate (offset - f.data.length) 0 ++ data ++ f.data.drop (offset + data.length)

instance : WriteVolatile MemFile where
  writeVolatile f data := (.wrote data.length, ⟨f.overwrite f.pos data, f.pos + data.length⟩)
  patience _ := 0
  patience_lt h := by cases h

instance : Backend MemFile where
  seek
    | .start offset => fun f => (.ok offset, { f with pos := offset.toNat })
    | .fromEnd _ => fun f => (.ok (.ofNat f.data.length), { f with pos := f.data.length })
  fsync f := (.ok (), f)
  punchHole offset length f := (.ok (), { f with data := f.overwrite offset (.replicate length 0) })
  writeZeroesAt f offset length := (.wrote length, { f with data := f.overwrite offset (.replicate length 0) })
  zeroesPatience _ := 0
  zeroesPatience_lt h := by cases h

variable {B : Type} [ReadVolatile B] [WriteVolatile B] [Backend B]

def writeAllZeroesAt (offset length : Nat) (b : B) : Outcome ErrorKind Unit × B :=
  if _hpos : length = 0 then (.ok (), b)
  else
    match _h : Backend.writeZeroesAt b offset length with
    | (.wrote n, b') =>
      if _hn : n = 0 then (.err .writeZero, b')
      else
        match _hsub : checkedSub length n with
        | none => (.err .other, b')
        | some length' =>
          match checkedAdd offset n with
          | none => (.err .other, b')
          | some offset' => writeAllZeroesAt offset' length' b'
    | (.interrupted, b') => writeAllZeroesAt offset length b'
    | (.error kind, b') => (.err kind, b')
termination_by (length, Backend.zeroesPatience b)
decreasing_by
  · obtain ⟨hle, heq⟩ := checkedSub_eq_some.1 _hsub
    exact Prod.Lex.left _ _ (by omega)
  · exact Prod.Lex.right _ (Backend.zeroesPatience_lt _h)

/-! ## Errors -/

inductive Error where
  | discardWriteZeroes (kind : ErrorKind)
  | flush (kind : ErrorKind)
  | guestMemory (error : VmMemory.Error)
  | invalidAccess
  | invalidFlags
  | invalidDataLength
  | overflow
  | read (error : VmMemory.Error) (bytesToMem : UInt32)
  | readOnly
  | write (error : VmMemory.Error)
  | seek (kind : ErrorKind)
  | unsupported (t : UInt32)
  deriving DecidableEq, Repr

def Error.status : Error → UInt8
  | discardWriteZeroes _ => VIRTIO_BLK_S_IOERR
  | flush _ => VIRTIO_BLK_S_IOERR
  | guestMemory _ => VIRTIO_BLK_S_IOERR
  | invalidAccess => VIRTIO_BLK_S_IOERR
  | invalidFlags => VIRTIO_BLK_S_UNSUPP
  | invalidDataLength => VIRTIO_BLK_S_IOERR
  | overflow => VIRTIO_BLK_S_IOERR
  | read _ _ => VIRTIO_BLK_S_IOERR
  | readOnly => VIRTIO_BLK_S_IOERR
  | write _ => VIRTIO_BLK_S_IOERR
  | seek _ => VIRTIO_BLK_S_IOERR
  | unsupported _ => VIRTIO_BLK_S_UNSUPP

inductive ProcessReqError where
  | guestMemory (error : VmMemory.Error)
  | overflow
  deriving DecidableEq, Repr

/-! ## The executor -/

structure StdIoBackend (B : Type) where
  inner : B
  numSectors : UInt64
  features : UInt64
  deviceId : Option (Vector UInt8 VIRTIO_BLK_ID_BYTES)
  numSectors_le : numSectors.toNat * SECTOR_SIZE ≤ U64_MAX

/-- `u64::checked_shl`, which drops the bits that are shifted out. -/
def checkedShl (value : UInt64) (rhs : UInt32) : Option UInt64 :=
  if rhs < 64 then some (value <<< rhs.toUInt64) else none

def addU32 {ε : Type} (a b : UInt32) : Outcome ε UInt32 := .unwrap (VirtioQueue.checkedAddU32 a b)

namespace StdIoBackend

theorem sectors_of_size (size : UInt64) : (size >>> 9).toNat * SECTOR_SIZE ≤ U64_MAX := by
  have hlt := size.toNat_lt
  rw [SECTOR_SIZE, U64_MAX_eq]
  simp [Nat.shiftRight_eq_div_pow]
  omega

def new (inner : B) (features : UInt64) : Outcome Error (StdIoBackend B) :=
  match Backend.seek (.fromEnd 0) inner with
  | (.ok diskSize, inner) => .ok ⟨inner, diskSize >>> 9, features, none, sectors_of_size diskSize⟩
  | (.err kind, _) => .err (.seek kind)
  | (.panic, _) => .panic

def withDeviceId (self : StdIoBackend B) (deviceId : Vector UInt8 VIRTIO_BLK_ID_BYTES) : StdIoBackend B :=
  { self with deviceId := some deviceId }

def hasFeature (self : StdIoBackend B) (featurePos : UInt64) : Bool := self.features &&& (1 <<< featurePos) ≠ 0

def checkAccess (self : StdIoBackend B) (sectorsCount sector : Nat) : Outcome Error Unit := do
  let sectorsCount ← .okOr (checkedAdd sectorsCount sector) .invalidAccess
  if sectorsCount > self.numSectors.toNat then .err .invalidAccess else return ()

def checkRequest (self : StdIoBackend B) (requestType : RequestType) : Outcome Error Unit :=
  if self.hasFeature VIRTIO_BLK_F_RO ∧ requestType ≠ .in_ then .err .readOnly
  else if requestType = .flush ∧ !self.hasFeature VIRTIO_BLK_F_FLUSH then
    .err (.unsupported VIRTIO_BLK_T_FLUSH)
  else if requestType = .discard ∧ !self.hasFeature VIRTIO_BLK_F_DISCARD then
    .err (.unsupported VIRTIO_BLK_T_DISCARD)
  else if requestType = .writeZeroes ∧ !self.hasFeature VIRTIO_BLK_F_WRITE_ZEROES then
    .err (.unsupported VIRTIO_BLK_T_WRITE_ZEROES)
  else .ok ()

end StdIoBackend

/-- A method of the executor. -/
abbrev BlkOp (B : Type) := Traced (StdIoBackend B) Effect Error

variable {W : Type} [Records W]

def onInner {ε α : Type} (x : Traced B W ε α) : Traced (StdIoBackend B) W ε α :=
  x.zoom (fun s => s.inner) fun s inner => { s with inner := inner }

/-- The bytes that are in memory after a read: also a read that fails may have written some. -/
def countBytes (bytesToMem dataLen : UInt32) : Except VmMemory.Error Unit → Outcome Error UInt32
  | .ok () => addU32 bytesToMem dataLen
  | .error (.partialBuffer expected completed) => do
    let bytesToMem ← addU32 bytesToMem completed.toUInt32
    .err (.read (.partialBuffer expected completed) bytesToMem)
  | .error e => .err (.read e bytesToMem)

theorem countBytes_error (bytesToMem dataLen n : UInt32) (e : VmMemory.Error) :
    countBytes bytesToMem dataLen (.error e) ≠ .ok n := by
  cases e with
  | partialBuffer expected completed =>
    rw [countBytes]
    cases addU32 bytesToMem completed.toUInt32 <;> exact nofun
  | _ => exact nofun

/-- A read into guest memory, with its `map_err`. -/
def countRead {σ : Type} (bytesToMem dataLen : UInt32) (read : Traced σ Effect VmMemory.Error Unit) :
    Traced σ Effect Error UInt32 := do
  let result ← read.attempt
  .lift (countBytes bytesToMem dataLen result)

/-- One pass of the loop for `In`. -/
def readData (mem : GuestMemory) (bytesToMem : UInt32) (d : UInt64 × UInt32) : Traced B Effect Error UInt32 :=
  countRead bytesToMem d.2 (mem.asT.readExactVolatileFrom d.1.toNat d.2.toNat)

/-- One pass of the loop for `Out`. -/
def writeData (mem : GuestMemory) (_ : Unit) (d : UInt64 × UInt32) : Traced B W Error Unit :=
  (mem.asT.writeAllVolatileTo mem.bytes d.1.toNat d.2.toNat).mapErr .write

/-- `&data[start..end]`, which panics if that is not a range of the data. -/
def sliceOf {ε : Type} (data : List UInt8) (start stop : Nat) : Outcome ε (List UInt8) :=
  if start ≤ stop ∧ stop ≤ data.length then .ok ((data.take stop).drop start) else .panic

/-- One pass of the loop for `GetDeviceID`. -/
def readId {σ : Type} (mem : GuestMemory) (deviceId : List UInt8) (bytesToMem : UInt32)
    (d : UInt64 × UInt32) : Traced σ Effect Error UInt32 := do
  let stop ← .lift (addU32 d.2 bytesToMem)
  let source ← .lift (sliceOf deviceId bytesToMem.toNat stop.toNat)
  countRead bytesToMem d.2 (.runOn source (mem.asT.readExactVolatileFrom d.1.toNat d.2.toNat))

/-- `DiscardWriteZeroes`: a segment of a discard or write zeroes request. -/
structure DiscardWriteZeroes where
  sector : UInt64
  numSectors : UInt32
  flags : UInt32
  deriving DecidableEq, Repr

namespace DiscardWriteZeroes

def UNMAP : UInt32 := 1

def LEN : Nat := 16

def ofBytes (bytes : List UInt8) : DiscardWriteZeroes where
  sector := .ofNat (leNat (bytes.take 8))
  numSectors := .ofNat (leNat ((bytes.drop 8).take 4))
  flags := .ofNat (leNat ((bytes.drop 12).take 4))

end DiscardWriteZeroes

open DiscardWriteZeroes

/-- `self.inner.punch_hole(..).is_ok()`. -/
def punchHole (offset length : UInt64) : BlkOp B Bool := do
  match ← (onInner (.exec (Backend.punchHole offset.toNat length.toNat))).attempt with
  | .ok () => return true
  | .error _ => return false

/-- `self.inner.write_all_zeroes_at(..)`. -/
def zeroRange (offset length : UInt64) : BlkOp B Unit :=
  (onInner (.exec (writeAllZeroesAt offset.toNat length.toNat))).mapErr .discardWriteZeroes

def validFlags (requestType : RequestType) : UInt32 := if requestType = .writeZeroes then UNMAP else 0

/-- A write zeroes segment: if it is not unmapped, zeroes are written. -/
def writeZeroes (flags : UInt32) (offset length : UInt64) : BlkOp B Unit :=
  if flags &&& UNMAP = 0 then zeroRange offset length
  else do
    let punched ← punchHole offset length
    if punched then pure () else zeroRange offset length

def handleDiscardWriteZeroes (segment : DiscardWriteZeroes) (requestType : RequestType) : BlkOp B UInt32 :=
  if segment.flags &&& ~~~validFlags requestType ≠ 0 then .lift (.err .invalidFlags)
  else do
    let offset ← .lift (.okOr (checkedShl segment.sector SECTOR_SHIFT) .invalidAccess)
    let length ← .lift (.okOr (checkedShl segment.numSectors.toUInt64 SECTOR_SHIFT) .invalidAccess)
    let self ← .get
    .lift (self.checkAccess segment.numSectors.toNat segment.sector.toNat)
    if requestType = .discard then do
      let _ ← punchHole offset length
      return 0
    else do
      writeZeroes segment.flags offset length
      return 0

/-- `mem.read_obj` for a segment. -/
def readSegment (mem : GuestMemory) (addr : Nat) : Traced (StdIoBackend B) W Error DiscardWriteZeroes := do
  let bytes ← (mem.asT.readSlice mem.bytes LEN addr).mapErr .guestMemory
  return ofBytes bytes

def handleSegments (mem : GuestMemory) (requestType : RequestType) (crtAddr availableBytes : Nat) :
    Traced (StdIoBackend B) W Error Unit :=
  if availableBytes < LEN then pure ()
  else do
    let segment ← readSegment mem crtAddr
    let _ ← Records.storing (handleDiscardWriteZeroes segment requestType)
    let crtAddr ← .lift (.unwrap (checkedAdd crtAddr LEN))
    handleSegments mem requestType crtAddr (availableBytes - LEN)
termination_by availableBytes
decreasing_by
  rename_i h
  have : LEN = 16 := rfl
  omega

/-- One pass of the loop for `Discard` and `WriteZeroes`. -/
def handleBuffer (mem : GuestMemory) (requestType : RequestType) (_ : Unit) (d : UInt64 × UInt32) :
    Traced (StdIoBackend B) W Error Unit :=
  if d.2.toNat % LEN ≠ 0 then .lift (.err .invalidDataLength)
  else do
    let _ ← .lift (.okOr (checkedAdd d.1.toNat d.2.toNat) .overflow)
    handleSegments mem requestType d.1.toNat d.2.toNat

def executeIn (mem : GuestMemory) (request : Request) (totalLen : Nat) : BlkOp B UInt32 := do
  let self ← .get
  .lift (self.checkAccess (totalLen / SECTOR_SIZE) request.sector.toNat)
  if totalLen > 4294967295 then .lift (.err .invalidDataLength)
  else onInner (request.data.foldlM (readData mem) 0)

def executeOut (mem : GuestMemory) (request : Request) (totalLen : Nat) : Traced (StdIoBackend B) W Error UInt32 := do
  let self ← .get
  .lift (self.checkAccess (totalLen / SECTOR_SIZE) request.sector.toNat)
  onInner (request.data.foldlM (writeData mem) ())
  return 0

def executeFlush : BlkOp B UInt32 := do
  (onInner (.exec Backend.fsync)).mapErr .flush
  return 0

def executeGetDeviceID (mem : GuestMemory) (request : Request) (totalLen : Nat) : BlkOp B UInt32 := do
  let self ← .get
  let deviceId ← .lift (.okOr self.deviceId (.unsupported VIRTIO_BLK_T_GET_ID))
  if totalLen ≠ VIRTIO_BLK_ID_BYTES then .lift (.err .invalidDataLength)
  else request.data.foldlM (readId mem deviceId.toList) 0

def executeDiscardWriteZeroes (mem : GuestMemory) (request : Request) : Traced (StdIoBackend B) W Error UInt32 := do
  request.data.foldlM (handleBuffer mem request.requestType) ()
  return 0

/-- The part of `execute` that depends on the type of the request. -/
def executeType (mem : GuestMemory) (request : Request) (totalLen : Nat) : Traced (StdIoBackend B) W Error UInt32 :=
  match request.requestType with
  | .in_ => Records.storing (executeIn mem request totalLen)
  | .out => executeOut mem request totalLen
  | .flush => Records.storing executeFlush
  | .getDeviceID => Records.storing (executeGetDeviceID mem request totalLen)
  | .discard => executeDiscardWriteZeroes mem request
  | .writeZeroes => executeDiscardWriteZeroes mem request
  | .unsupported t => .lift (.err (.unsupported t))

/-- `In` and `Out` are for whole sectors. -/
def checkDataLength (requestType : RequestType) (totalLen : Nat) : Outcome Error Unit :=
  if (requestType = .in_ ∨ requestType = .out) ∧ totalLen % SECTOR_SIZE ≠ 0 then .err .invalidDataLength
  else .ok ()

/-- `execute`, once the backend is positioned. -/
def executeAt (mem : GuestMemory) (request : Request) : Traced (StdIoBackend B) W Error UInt32 := do
  let self ← .get
  .lift (self.checkRequest request.requestType)
  let totalLen ← .lift request.totalDataLen
  .lift (checkDataLength request.requestType totalLen)
  executeType mem request totalLen

def execute (mem : GuestMemory) (request : Request) : Traced (StdIoBackend B) W Error UInt32 := do
  let offset ← .lift (.okOr (checkedShl request.sector SECTOR_SHIFT) .invalidAccess)
  let _ ← (onInner (.exec (Backend.seek (.start offset)))).mapErr .seek
  executeAt mem request

variable (mem : GuestMemory)
variable (request : Request)

theorem execute_eq : (execute mem request : BlkOp B UInt32) =
      (onInner (.exec (Backend.seek (.start (request.sector <<< 9))))).mapErr .seek >>= fun _ =>
        executeAt mem request := rfl

theorem execute_of_seek {request : Request} {b : StdIoBackend B} {pos : UInt64} {inner : B}
    (h : Backend.seek (.start (request.sector <<< 9)) b.inner = (.ok pos, inner)) :
    execute mem request b = executeAt mem request { b with inner := inner } := by
  have hseek : (onInner (.exec (Backend.seek (.start (request.sector <<< 9))))).mapErr Error.seek b =
      ⟨.ok pos, { b with inner := inner }, ([] : List Effect)⟩ := by
    simp only [mapErr, onInner, zoom, exec, h]
    rfl
  rw [execute_eq, bind_of_ok hseek]
  rfl

theorem execute_cases (b : StdIoBackend B) :
    (∃ pos inner, Backend.seek (.start (request.sector <<< 9)) b.inner = (.ok pos, inner) ∧
      execute mem request b = executeAt mem request { b with inner := inner }) ∨
    ((∀ pos, (Backend.seek (.start (request.sector <<< 9)) b.inner).1 ≠ .ok pos) ∧ ∃ o, execute mem request b =
      ⟨o, { b with inner := (Backend.seek (.start (request.sector <<< 9)) b.inner).2 }, []⟩) := by
  rcases hseek : Backend.seek (.start (request.sector <<< 9)) b.inner with ⟨o, inner⟩
  cases o with
  | ok pos => exact .inl ⟨pos, inner, rfl, execute_of_seek mem hseek⟩
  | _ =>
    refine .inr ⟨by simp, ?_⟩
    rw [execute_eq, bind_apply]
    simp only [mapErr, onInner, zoom, exec, hseek]
    exact ⟨_, rfl⟩

/-- A check has failed: nothing is done, and no bytes are counted. -/
def Refused {B α : Type} (b : StdIoBackend B) (r : Traced.Result (StdIoBackend B) Effect Error α) : Prop :=
  ∃ o, r = ⟨o, b, []⟩ ∧ (∀ a, o ≠ .ok a) ∧ ∀ e n, o ≠ .err (.read e n)

namespace Refused

variable {B α β : Type} {b : StdIoBackend B}

theorem err {e : Error} (h : ∀ e' n, e ≠ .read e' n) : Refused b ((.lift (.err e) : BlkOp B α) b) :=
  ⟨.err e, rfl, nofun, fun e' n heq => h e' n (Outcome.err.inj heq)⟩

theorem not_ok {r : Result (StdIoBackend B) Effect Error α} (h : Refused b r) (a : α) : r.outcome ≠ .ok a := by
  obtain ⟨o, rfl, hok, _⟩ := h
  exact hok a

theorem check {o : Outcome Error α} (h : ∀ e n, o ≠ .err (.read e n)) (f : α → BlkOp B β) :
    Refused b ((.lift o >>= f) b) ∨ ∃ a, o = .ok a ∧ (.lift o >>= f) b = f a b := by
  cases o with
  | ok a => exact .inr ⟨a, rfl, rfl⟩
  | err e => exact .inl ⟨.err e, rfl, nofun, fun e' n heq => h e' n (congrArg _ (Outcome.err.inj heq))⟩
  | panic => exact .inl ⟨.panic, rfl, nofun, nofun⟩

end Refused

theorem checkRequest_ne_read {B : Type} (b : StdIoBackend B) (requestType : RequestType)
    (e : VmMemory.Error) (n : UInt32) : b.checkRequest requestType ≠ .err (.read e n) := by
  unfold StdIoBackend.checkRequest
  split_ifs <;> exact nofun

theorem checkDataLength_ne_read (requestType : RequestType) (totalLen : Nat) (e : VmMemory.Error)
    (n : UInt32) : checkDataLength requestType totalLen ≠ .err (.read e n) := by
  unfold checkDataLength
  split <;> exact nofun

theorem totalDataLen_ne_read (e : VmMemory.Error) (n : UInt32) : request.totalDataLen ≠ .err (Error.read e n) := by
  rw [Request.totalDataLen_eq]
  split <;> exact nofun

theorem executeAt_cases (b : StdIoBackend B) : Refused b (executeAt mem request b) ∨
      b.checkRequest request.requestType = .ok () ∧
      checkDataLength request.requestType request.dataLen = .ok () ∧
      executeAt mem request b = executeType mem request request.dataLen b := by
  unfold executeAt
  rw [get_bind_apply]
  rcases Refused.check (checkRequest_ne_read b request.requestType) _ with
    hrefused | ⟨_, hreq, heq⟩
  · exact .inl hrefused
  rw [heq]
  rcases Refused.check (totalDataLen_ne_read request) _ with hrefused | ⟨totalLen, hlen, heq⟩
  · exact .inl hrefused
  rw [heq]
  rcases Refused.check (checkDataLength_ne_read request.requestType totalLen) _ with
    hrefused | ⟨_, hsectors, heq⟩
  · exact .inl hrefused
  rw [heq]
  rw [Request.totalDataLen_eq] at hlen
  split at hlen <;> cases hlen
  exact .inr ⟨hreq, hsectors, rfl⟩

theorem readSegment_eq {B : Type} (mem : GuestMemory) (addr : Nat) :
    ∃ o, (readSegment mem addr : BlkOp B DiscardWriteZeroes) = .lift o ∧
      ∀ segment, o = .ok segment → segment = .ofBytes (bytesAt mem.bytes addr DiscardWriteZeroes.LEN) := by
  unfold readSegment
  obtain ⟨o, hread, hok, hfail⟩ := GuestMemoryT.readSlice_flat mem mem.bytes DiscardWriteZeroes.LEN addr
  rw [hread]
  by_cases hmapped : mem.flat.Mapped addr DiscardWriteZeroes.LEN
  · rw [hok hmapped]
    exact ⟨_, rfl, fun _ h => (Outcome.ok.inj h).symm⟩
  · obtain ⟨e, rfl⟩ := hfail hmapped
    exact ⟨_, rfl, nofun⟩

/-- The status and the number of bytes that are reported. -/
def statusOf : Except Error UInt32 → UInt8 × UInt32
  | .ok length => (VIRTIO_BLK_S_OK, length)
  | .error (.read e bytesToMem) => ((Error.read e bytesToMem).status, bytesToMem)
  | .error e => (e.status, 0)

def processRequest (mem : GuestMemory) (request : Request) : Traced (StdIoBackend B) W ProcessReqError UInt32 := do
  let result ← (execute mem request).attempt
  let (status, length) := statusOf result
  Records.storing ((mem.asT.writeSlice [status] request.statusAddr.toNat).mapErr .guestMemory)
  .lift (.okOr (VirtioQueue.checkedAddU32 length 1) .overflow)

end RustVmm.VirtioBlk
