import RustVmm.Lib.Traced
import RustVmm.VmMemory.Slices

/-!
# Accesses to guest memory

Model of the accesses of `Bytes<GuestAddress>`, which are implemented once for everything that is a `GuestMemory`:
memory with its regions, and memory behind an IOMMU.  `GuestMemoryT` is the trait, `GuestMemory.asT` the first of
the two.

An access is a `Traced` call.  Its trace holds the stores (`Effect`) or, where `Records` is instantiated with
`Touch`, the loads as well; the call itself is the same definition in both cases.
-/

set_option autoImplicit false

namespace RustVmm.VmMemory

open Lib

/-! ## The trait -/

inductive Permissions where
  | no
  | read
  | write
  | readWrite
  deriving DecidableEq, Repr

namespace Permissions

def toRepr : Permissions → Nat
  | no => 0b00
  | read => 0b01
  | write => 0b10
  | readWrite => 0b11

/-- `from_repr`, which panics for other numbers. -/
def fromRepr (raw : Nat) : Option Permissions :=
  if raw = 0b00 then some no
  else if raw = 0b01 then some read
  else if raw = 0b10 then some write
  else if raw = 0b11 then some readWrite
  else none

/-- `allow`: the access is a subset of the permissions. -/
def allow (self access : Permissions) : Bool := fromRepr (self.toRepr &&& access.toRepr) = some access

end Permissions

/-- The trait `GuestMemory`; the items of `get_slices` are listed. -/
structure GuestMemoryT where
  checkRange : (addr count : Nat) → Permissions → Bool
  getSlices : (addr count : Nat) → Permissions → Outcome Error (List (Outcome Error GuestSlice))
  physicalMemory : Option GuestMemory

/-- Memory without an IOMMU: the intended access does not matter. -/
def GuestMemory.asT (mem : GuestMemory) : GuestMemoryT where
  checkRange addr count _ := mem.checkRange addr count
  getSlices addr count _ := .ok ((getSlices addr count).items mem)
  physicalMemory := some mem

/-- `stop_on_error`: an error of the first item is returned; a later one ends the iteration. -/
def stopOnError : List (Outcome Error GuestSlice) → Outcome Error (List GuestSlice)
  | .err e :: _ => .err e
  | .panic :: _ => .panic
  | items => .ok (items.filterMap Outcome.toOption)

/-! ## Effects -/

/-- Bytes that are stored at the start of a slice, and how much of the slice is then marked. -/
structure Effect where
  slice : GuestSlice
  data : List UInt8
  marked : Nat

/-- An access to guest memory. -/
inductive Touch where
  | load (addr len : Nat)
  | store (e : Effect)

/-- A trace of the accesses to guest memory: of its stores, and of its loads if it records them. -/
class Records (W : Type) where
  load : Nat → Nat → List W
  storing : {σ ε α : Type} → Traced σ Effect ε α → Traced σ W ε α

/-- A trace of the stores, which are what others see of a call. -/
@[default_instance] instance : Records Effect where
  load _ _ := []
  storing x := x

instance : Records Touch where
  load addr len := [.load addr len]
  storing x := x.mapTrace fun e => [.store e]

@[simp] theorem storing_effect {σ ε α : Type} (x : Traced σ Effect ε α) : Records.storing x = x := rfl

/-- A load of bytes. -/
def loads {σ W ε : Type} [Records W] (addr len : Nat) : Traced σ W ε Unit := .emit (Records.load addr len)

/-- `load` of a `u16`, which fails before it loads. -/
def GuestMemory.load16W {σ W : Type} [Records W] (mem : GuestMemory) (addr : Nat) : Traced σ W Error UInt16 := do
  let v ← .lift (mem.load16 addr)
  loads addr 2
  return v

namespace GuestMemory

variable {σ W : Type} [Records W] {mem : GuestMemory} {addr : Nat}

theorem load16W_of_ok {v : UInt16} (h : mem.load16 addr = .ok v) (s : σ) :
    mem.load16W addr s = ⟨.ok v, s, (Records.load addr 2 : List W)⟩ := by
  rw [load16W, h, Traced.lift_ok_bind]
  exact Traced.bind_of_ok_of_silent rfl rfl

theorem load16W_of_err {e : Error} (h : mem.load16 addr = .err e) (s : σ) :
    mem.load16W addr s = ⟨.err e, s, ([] : List W)⟩ := by
  rw [load16W, h]
  rfl

end GuestMemory

/-- The contents after bytes have been stored at an address. -/
def storeBytes (bytes : Nat → UInt8) (addr : Nat) (data : List UInt8) : Nat → UInt8 := fun a =>
  if addr ≤ a then (data[a - addr]?).getD (bytes a) else bytes a

def applyBytes (bytes : Nat → UInt8) (trace : List Effect) : Nat → UInt8 :=
  trace.foldl (fun b e => storeBytes b e.slice.guestAddr e.data) bytes

def bytesAt (bytes : Nat → UInt8) (addr count : Nat) : List UInt8 := (List.range count).map fun i => bytes (addr + i)

def GuestMemory.apply (mem : GuestMemory) (trace : List Effect) : GuestMemory :=
  { mem with bytes := applyBytes mem.bytes trace }

namespace GuestSlice

/-- `offset`: without the first bytes.  The address cannot overflow before the size is exceeded. -/
def offset (s : GuestSlice) (count : Nat) : Outcome Error GuestSlice := do
  let newSize ← .okOr (checkedSub s.len count) .invalidBackendAddress
  return ⟨⟨s.guestAddr + count, s.hostAddr + count, newSize⟩, s.bitmap.sliceAt count⟩

/-- `subslice`, which is also `get_slice` of a slice. -/
def subslice (s : GuestSlice) (offset count : Nat) : Outcome Error GuestSlice := do
  let memEnd ← .okOr (checkedAdd offset count) .invalidBackendAddress
  if memEnd > s.len then .err .invalidBackendAddress
  else return ⟨⟨s.guestAddr + offset, s.hostAddr + offset, count⟩, s.bitmap.sliceAt offset⟩

end GuestSlice

/-! ## Sources and sinks -/

inductive ReadAnswer where
  | bytes (data : List UInt8)
  | interrupted
  | error (kind : ErrorKind) (touched : List UInt8)
  deriving DecidableEq, Repr

class ReadVolatile (σ : Type) where
  readVolatile : σ → Nat → ReadAnswer × σ
  patience : σ → Nat
  bytes_le : ∀ {src src' : σ} {len : Nat} {data : List UInt8},
    readVolatile src len = (.bytes data, src') → data.length ≤ len
  touched_le : ∀ {src src' : σ} {len : Nat} {kind : ErrorKind} {touched : List UInt8},
    readVolatile src len = (.error kind touched, src') → touched.length ≤ len
  patience_lt : ∀ {src src' : σ} {len : Nat},
    readVolatile src len = (.interrupted, src') → patience src' < patience src

/-- `&[u8]` as a source. -/
instance : ReadVolatile (List UInt8) where
  readVolatile src len := (.bytes (src.take len), src.drop len)
  patience _ := 0
  bytes_le h := by
    cases h
    exact List.length_take_le _ _
  touched_le h := by cases h
  patience_lt h := by cases h

structure Cursor where
  data : List UInt8
  pos : Nat

/-- A cursor as a source: a position behind the end has nothing left. -/
instance : ReadVolatile Cursor where
  readVolatile c len :=
    let data := (c.data.drop c.pos).take len
    (.bytes data, { c with pos := c.pos + data.length })
  patience _ := 0
  bytes_le h := by
    cases h
    exact List.length_take_le _ _
  touched_le h := by cases h
  patience_lt h := by cases h

/-- What one call of `write_volatile` does. -/
inductive WriteAnswer where
  | wrote (count : Nat)
  | interrupted
  | error (kind : ErrorKind)
  deriving DecidableEq, Repr

/-- A sink for `write_volatile` calls. -/
class WriteVolatile (τ : Type) where
  writeVolatile : τ → List UInt8 → WriteAnswer × τ
  patience : τ → Nat
  patience_lt : ∀ {dst dst' : τ} {data : List UInt8},
    writeVolatile dst data = (.interrupted, dst') → patience dst' < patience dst

/-- `Vec<u8>` as a sink. -/
instance : WriteVolatile (List UInt8) where
  writeVolatile dst data := (.wrote data.length, dst ++ data)
  patience _ := 0
  patience_lt h := by cases h

def writeAllVolatile {τ : Type} [WriteVolatile τ] (data : List UInt8) (dst : τ) : Traced.Result τ Effect Error Unit :=
  if _hdata : data = [] then ⟨.ok (), dst, []⟩
  else
    match _h : WriteVolatile.writeVolatile dst data with
    | (.wrote n, dst') =>
      if _hn : n = 0 then ⟨.err (.ioError .writeZero), dst', []⟩
      -- `offset(bytes_written)` fails if the sink claims to have written more than it was given
      else if data.length < n then ⟨.err .invalidBackendAddress, dst', []⟩
      else writeAllVolatile (data.drop n) dst'
    | (.interrupted, dst') => writeAllVolatile data dst'
    | (.error kind, dst') => ⟨.err (.ioError kind), dst', []⟩
termination_by (data.length, WriteVolatile.patience dst)
decreasing_by
  · have := List.length_pos_iff.2 _hdata
    exact Prod.Lex.left _ _ (by rw [List.length_drop]; omega)
  · exact Prod.Lex.right _ (WriteVolatile.patience_lt _h)

namespace GuestSlice

variable {σ τ W : Type}

/-- `retry_eintr!(src.read_volatile(buf))`.  A failed call, and so an interrupted one, marks the
whole buffer. -/
def readVolatile [ReadVolatile σ] (buf : GuestSlice) (src : σ) : Traced.Result σ Effect Error Nat :=
  match _h : ReadVolatile.readVolatile src buf.len with
  | (.bytes data, src') => ⟨.ok data.length, src', [⟨buf, data, data.length⟩]⟩
  | (.error kind touched, src') => ⟨.err (.ioError kind), src', [⟨buf, touched, buf.len⟩]⟩
  | (.interrupted, src') =>
    let r := readVolatile buf src'
    ⟨r.outcome, r.state, ⟨buf, [], buf.len⟩ :: r.trace⟩
termination_by ReadVolatile.patience src
decreasing_by exact ReadVolatile.patience_lt _h

/-- `write`: the buffer is read as a source, as far as the slice goes. -/
def write (s : GuestSlice) (buf : List UInt8) (addr : Nat) : Traced σ Effect Error Nat :=
  if buf = [] then pure 0
  else if s.len ≤ addr then .lift (.err .invalidBackendAddress)
  else do
    let slice ← .lift (s.offset addr)
    let data := buf.take slice.len
    .tell ⟨slice, data, data.length⟩
    return data.length

/-- `read` into a buffer of a length: the bytes that are copied. -/
def read [Records W] (bytes : Nat → UInt8) (s : GuestSlice) (len addr : Nat) : Traced σ W Error (List UInt8) :=
  if len = 0 then pure []
  else if s.len ≤ addr then .lift (.err .invalidBackendAddress)
  else do
    let slice ← .lift (s.offset addr)
    loads slice.guestAddr (min slice.len len)
    return bytesAt bytes slice.guestAddr (min slice.len len)

def readVolatileFrom [ReadVolatile σ] (s : GuestSlice) (addr count : Nat) : Traced σ Effect Error Nat := do
  let slice ← .lift (s.offset addr)
  let slice ← .lift (slice.subslice 0 (min slice.len count)).unwrapResult
  slice.readVolatile

def writeAllVolatileTo [WriteVolatile τ] [Records W] (bytes : Nat → UInt8) (s : GuestSlice) (addr count : Nat) :
    Traced τ W Error Unit := do
  let slice ← .lift (s.subslice addr count)
  loads slice.guestAddr slice.len
  Records.storing (writeAllVolatile (bytesAt bytes slice.guestAddr slice.len))

/-- `get_atomic_ref` for an integer of a size, which is also its alignment. -/
def getAtomicRef (s : GuestSlice) (addr size : Nat) : Outcome Error GuestSlice := do
  let slice ← s.subslice addr size
  if slice.hostAddr % size ≠ 0 then .err .invalidBackendAddress else return slice

/-- `store`: the value is given as its bytes. -/
def store (s : GuestSlice) (val : List UInt8) (addr : Nat) : Traced σ Effect Error Unit := do
  let ref ← .lift (s.getAtomicRef addr val.length)
  .tell ⟨ref, val, val.length⟩

def load [Records W] (bytes : Nat → UInt8) (s : GuestSlice) (addr size : Nat) : Traced σ W Error (List UInt8) := do
  let ref ← .lift (s.getAtomicRef addr size)
  loads ref.guestAddr size
  return bytesAt bytes ref.guestAddr size

end GuestSlice

/-! ## `Bytes<GuestAddress>` -/

/-- An integer that is accessed atomically, as bytes. -/
structure AtomicValue where
  data : List UInt8
  size : data.length = 1 ∨ data.length = 2 ∨ data.length = 4 ∨ data.length = 8

namespace GuestMemoryT

variable {σ τ W : Type} [Records W] (M : GuestMemoryT)

/-- The slice of the whole range, if it lies in one region of memory without an IOMMU. -/
def fastSlice (addr count : Nat) : Option GuestSlice :=
  M.physicalMemory.bind fun memory => (memory.getSlice addr count).toOption

/-- `get_slices(..)?.stop_on_error()?`. -/
def slices (addr count : Nat) (access : Permissions) : Outcome Error (List GuestSlice) := do
  let items ← M.getSlices addr count access
  stopOnError items

/-- `get_slices(..)?.next().unwrap()?`. -/
def firstSlice (addr count : Nat) (access : Permissions) : Outcome Error GuestSlice := do
  let items ← M.getSlices addr count access
  let item ← .unwrap items.head?
  item

/-- One pass of the loop of `write`. -/
def writeNext (buf : List UInt8) (acc : Nat) (slice : GuestSlice) : Traced σ Effect Error Nat := do
  let n ← slice.write (buf.drop acc) 0
  return acc + n

def write (buf : List UInt8) (addr : Nat) : Traced σ Effect Error Nat :=
  match M.fastSlice addr buf.length with
  | some slice => slice.write buf 0
  | none => do
    let slices ← .lift (M.slices addr buf.length .write)
    slices.foldlM (writeNext buf) 0

def read (bytes : Nat → UInt8) (len addr : Nat) : Traced σ W Error (List UInt8) :=
  match M.fastSlice addr len with
  | some slice => slice.read bytes len 0
  | none => do
    let slices ← .lift (M.slices addr len .read)
    slices.foldlM (fun acc slice => do
      let data ← slice.read bytes (len - acc.length) 0
      return acc ++ data) []

/-- `write_slice`, which is `write_obj` for the bytes of the object. -/
def writeSlice (buf : List UInt8) (addr : Nat) : Traced σ Effect Error Unit := do
  let res ← M.write buf addr
  if res ≠ buf.length then .lift (.err (.partialBuffer buf.length res)) else return ()

/-- `read_slice`, which is `read_obj` for the size of the object. -/
def readSlice (bytes : Nat → UInt8) (len addr : Nat) : Traced σ W Error (List UInt8) := do
  let res ← M.read bytes len addr
  if res.length ≠ len then .lift (.err (.partialBuffer len res.length)) else return res

/-- One pass of the loop of `read_volatile_from`. -/
def readVolatileNext [ReadVolatile σ] (acc : Nat) (slice : GuestSlice) : Traced σ Effect Error Nat := do
  let n ← slice.readVolatileFrom 0 slice.len
  return acc + n

def readVolatileFrom [ReadVolatile σ] (addr count : Nat) : Traced σ Effect Error Nat := do
  let slices ← .lift (M.slices addr count .write)
  slices.foldlM readVolatileNext 0

def readExactVolatileFrom [ReadVolatile σ] (addr count : Nat) : Traced σ Effect Error Unit := do
  let res ← M.readVolatileFrom addr count
  if res ≠ count then .lift (.err (.partialBuffer count res)) else return ()

def writeVolatileTo [WriteVolatile τ] (bytes : Nat → UInt8) (addr count : Nat) : Traced τ W Error Nat := do
  let slices ← .lift (M.slices addr count .read)
  slices.foldlM (fun acc slice => do
    slice.writeAllVolatileTo bytes 0 slice.len
    return acc + slice.len) 0

def writeAllVolatileTo [WriteVolatile τ] (bytes : Nat → UInt8) (addr count : Nat) : Traced τ W Error Unit := do
  let res ← M.writeVolatileTo bytes addr count
  if res ≠ count then .lift (.err (.partialBuffer count res)) else return ()

def store (val : AtomicValue) (addr : Nat) : Traced σ Effect Error Unit := do
  let slice ← .lift (M.firstSlice addr val.data.length .write)
  slice.store val.data 0

def load (bytes : Nat → UInt8) (size addr : Nat) : Traced σ W Error (List UInt8) := do
  let slice ← .lift (M.firstSlice addr size .read)
  slice.load bytes 0 size

end GuestMemoryT

end RustVmm.VmMemory
