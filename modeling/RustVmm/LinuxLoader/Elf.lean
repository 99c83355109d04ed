import Mathlib.Data.Nat.Digits.Defs
import RustVmm.VmMemory.Bytes

/-!
# The ELF loader

Model of `linux-loader/src/loader/elf/mod.rs` for x86_64.  The image is anything that can be read and seeked
(`KernelImage`), and what `load` does to the guest is in its trace: `loadPhdr` is its work on one program header, and
`findPvhNote` the loop over the notes of a segment.
-/

set_option autoImplicit false

namespace RustVmm.LinuxLoader.Elf

open Lib VmMemory

inductive Error where
  | align
  | bigEndianElfOnLittle
  | invalidElfMagicNumber
  | invalidProgramHeaderSize
  | invalidProgramHeaderOffset
  | invalidProgramHeaderAddress
  | invalidEntryAddress
  | littleEndianElfOnBig
  | overflow
  | readElfHeader
  | readKernelImage
  | readProgramHeader
  | seekKernelStart
  | seekElfStart
  | seekProgramHeader
  | seekNoteHeader
  | readNoteHeader
  | invalidPvhNote
  deriving DecidableEq, Repr

/-- `loader::Error`, with the errors that the ELF loader returns. -/
inductive KernelLoaderError where
  | elf (error : Error)
  | memoryOverflow
  deriving DecidableEq, Repr

inductive PvhBootCapability where
  | pvhEntryPresent (addr : UInt64)
  | pvhEntryNotPresent
  | pvhEntryIgnored
  deriving DecidableEq, Repr

/-- `KernelLoaderResult`.  The default is all zeroes, and an entry point that is ignored. -/
structure KernelLoaderResult where
  kernelLoad : Nat := 0
  kernelEnd : Nat := 0
  pvhBootCap : PvhBootCapability := .pvhEntryIgnored
  deriving DecidableEq, Repr

/-! ## The image -/

inductive SeekFrom where
  | start (offset : Nat)
  | current (offset : Int)
  /-- `SeekFrom::End(0)`. -/
  | fromEnd

/-- `Seek`.  The loaders look at no error of it. -/
class Seek (F : Type) where
  seek : SeekFrom → Exec F Unit Nat

/-- `Read + ReadVolatile + Seek`. -/
class KernelImage (F : Type) [ReadVolatile F] extends Seek F where
  readExact : Nat → Exec F Unit (List UInt8)

instance : Seek Cursor where
  seek
    | .start offset => fun c => (.ok offset, { c with pos := offset })
    | .current offset => fun c =>
      let pos : Int := c.pos + offset
      if 0 ≤ pos ∧ pos ≤ U64_MAX then (.ok pos.toNat, { c with pos := pos.toNat }) else (.err (), c)
    | .fromEnd => fun c => (.ok c.data.length, { c with pos := c.data.length })

instance : KernelImage Cursor where
  readExact len c :=
    if len ≤ (c.data.drop c.pos).length then
      (.ok ((c.data.drop c.pos).take len), { c with pos := c.pos + len })
    else (.err (), { c with pos := c.data.length })

/-! ## Headers -/

/-- The little-endian number in a range of bytes. -/
def leField (bytes : List UInt8) (offset size : Nat) : Nat :=
  .ofDigits 256 (((bytes.drop offset).take size).map UInt8.toNat)

/-- `Elf64_Ehdr`, as far as the loader looks at it. -/
structure Elf64Ehdr where
  eIdent : List UInt8
  eEntry : UInt64
  ePhoff : UInt64
  ePhentsize : UInt16
  ePhnum : UInt16

/-- `Elf64_Phdr`, as far as the loader looks at it. -/
structure Elf64Phdr where
  pType : UInt32
  pOffset : UInt64
  pPaddr : UInt64
  pFilesz : UInt64
  pMemsz : UInt64
  deriving DecidableEq

structure Elf64Nhdr where
  nNamesz : UInt32 := 0
  nDescsz : UInt32 := 0
  nType : UInt32 := 0

def EHDR_SIZE : Nat := 64

def PHDR_SIZE : Nat := 56

def NHDR_SIZE : Nat := 12

def Elf64Ehdr.ofBytes (bytes : List UInt8) : Elf64Ehdr where
  eIdent := bytes.take 16
  eEntry := .ofNat (leField bytes 24 8)
  ePhoff := .ofNat (leField bytes 32 8)
  ePhentsize := .ofNat (leField bytes 54 2)
  ePhnum := .ofNat (leField bytes 56 2)

def Elf64Phdr.ofBytes (bytes : List UInt8) : Elf64Phdr where
  pType := .ofNat (leField bytes 0 4)
  pOffset := .ofNat (leField bytes 8 8)
  pPaddr := .ofNat (leField bytes 24 8)
  pFilesz := .ofNat (leField bytes 32 8)
  pMemsz := .ofNat (leField bytes 40 8)

def Elf64Nhdr.ofBytes (bytes : List UInt8) : Elf64Nhdr where
  nNamesz := .ofNat (leField bytes 0 4)
  nDescsz := .ofNat (leField bytes 4 4)
  nType := .ofNat (leField bytes 8 4)

def ELFMAG : List UInt8 := [0x7f, 0x45, 0x4c, 0x46]

def EI_DATA : Nat := 5

def ELFDATA2LSB : UInt8 := 1

def PT_LOAD : UInt32 := 1

def PT_NOTE : UInt32 := 4

/-- `validate_header`, on a little-endian machine. -/
def validateHeader (ehdr : Elf64Ehdr) : Outcome Error Unit := do
  .ensure (ehdr.eIdent.take ELFMAG.length == ELFMAG) .invalidElfMagicNumber
  .ensure (ehdr.eIdent[EI_DATA]? == some ELFDATA2LSB) .bigEndianElfOnLittle
  .ensure (ehdr.ePhentsize.toNat == PHDR_SIZE) .invalidProgramHeaderSize
  .ensure (EHDR_SIZE ≤ ehdr.ePhoff.toNat) .invalidProgramHeaderOffset

variable {F : Type} [ReadVolatile F] [KernelImage F]

/-- `read_exact` with the error that stands for its own. -/
def readExact (len : Nat) (error : Error) : Exec F KernelLoaderError (List UInt8) :=
  (KernelImage.readExact len).mapErr fun _ => .elf error

/-- `seek` with the error that stands for its own. -/
def seek (pos : SeekFrom) (error : Error) : Exec F KernelLoaderError Nat :=
  (Seek.seek pos).mapErr fun _ => .elf error

/-! ## Notes -/

def alignUp (addr align : Nat) : Outcome Error Nat := do
  .ensure (align.isPowerOfTwo) .align
  let alignMask := align - 1
  if addr &&& alignMask = 0 then .ok addr
  else .unwrap (checkedAdd (addr ||| alignMask) 1)

def PVH_NOTE_STR_SZ : Nat := 4

def XEN_ELFNOTE_PHYS32_ENTRY : UInt32 := 18

def ELFNOTE_ALIGN : Nat := 4

def PVH_NOTE_STR : List UInt8 := [0x58, 0x65, 0x6e, 0]

def U32_MAX : Nat := 4294967295

/-- The offset behind a note.  It is a larger one, so that the search ends. -/
def skipNote (nhdr : Elf64Nhdr) (readSize : Nat) : Outcome Error {next : Nat // readSize < next} := do
  let nameszAligned ← alignUp nhdr.nNamesz.toNat ELFNOTE_ALIGN
  let descszAligned ← alignUp nhdr.nDescsz.toNat ELFNOTE_ALIGN
  .ensure (nameszAligned ≤ U32_MAX && descszAligned ≤ U32_MAX) .overflow
  match h : (checkedAdd readSize NHDR_SIZE).bind fun n =>
      (checkedAdd n nameszAligned).bind fun n => checkedAdd n descszAligned with
  | some next => .ok ⟨next, by
      simp only [Option.bind_eq_some_iff, checkedAdd_eq_some, NHDR_SIZE] at h
      omega⟩
  | none => .err .overflow

/-- The name is only read if type and length are those of the note that is looked for. -/
def isPvhNote (nhdr : Elf64Nhdr) : Exec F KernelLoaderError Bool :=
  if nhdr.nType = XEN_ELFNOTE_PHYS32_ENTRY ∧ nhdr.nNamesz.toNat = PVH_NOTE_STR_SZ then do
    let buf ← readExact PVH_NOTE_STR_SZ .readNoteHeader
    return buf == PVH_NOTE_STR
  else pure false

def findPvhNote (phdr : Elf64Phdr) (nhdr : Elf64Nhdr) (readSize : Nat) : Exec F KernelLoaderError (Elf64Nhdr × Nat) :=
  if _h : readSize < phdr.pFilesz.toNat then do
    let nhdr := .ofBytes (← readExact NHDR_SIZE .readNoteHeader)
    let found ← isPvhNote nhdr
    if found then return (nhdr, readSize)
    else do
      let ⟨next, _hnext⟩ ← .lift ((skipNote nhdr readSize).mapErr .elf)
      let offset ← .lift (.unwrap (checkedAdd phdr.pOffset.toNat next))
      let _ ← seek (.start offset) .seekNoteHeader
      findPvhNote phdr nhdr next
  else return (nhdr, readSize)
termination_by phdr.pFilesz.toNat - readSize
decreasing_by exact Nat.sub_lt_sub_left _h _hnext

/-- The end of `parse_elf_note`: the entry point is in the descriptor. -/
def readPvhEntry (nhdr : Elf64Nhdr) : Exec F KernelLoaderError PvhBootCapability := do
  let namesz ← .lift ((alignUp nhdr.nNamesz.toNat ELFNOTE_ALIGN).mapErr .elf)
  let _ ← seek (.current ((namesz : Int) - PVH_NOTE_STR_SZ)) .seekNoteHeader
  .lift (.ensure (4 ≤ nhdr.nDescsz.toNat) (.elf .invalidPvhNote))
  let pvhAddrBytes ← readExact 4 .readNoteHeader
  return .pvhEntryPresent (.ofNat (leField pvhAddrBytes 0 4))

def parseElfNote (phdr : Elf64Phdr) : Exec F KernelLoaderError PvhBootCapability := do
  let _ ← seek (.start phdr.pOffset.toNat) .seekNoteHeader
  let (nhdr, readSize) ← findPvhNote phdr {} 0
  if readSize ≥ phdr.pFilesz.toNat then return .pvhEntryNotPresent
  else readPvhEntry nhdr

/-! ## Loading -/

variable (mem : GuestMemoryT) (kernelOffset : Option UInt64)

/-- The body of the loop over the program headers. -/
def loadPhdr (result : KernelLoaderResult) (phdr : Elf64Phdr) : Traced F Effect KernelLoaderError KernelLoaderResult :=
  if phdr.pType ≠ PT_LOAD ∨ phdr.pFilesz = 0 then
    if phdr.pType = PT_NOTE then
      match kernelOffset with
      | some _ => pure { result with pvhBootCap := .pvhEntryIgnored }
      | none => do
        let pvhBootCap ← .exec (parseElfNote phdr)
        return { result with pvhBootCap }
    else pure result
  else do
    let _ ← .exec (seek (.start phdr.pOffset.toNat) .seekKernelStart)
    let memOffset ← .lift (match kernelOffset with
      | some kOffset =>
        .okOr (checkedAdd kOffset.toNat phdr.pPaddr.toNat) (.elf .invalidProgramHeaderAddress)
      | none => .ok phdr.pPaddr.toNat)
    (mem.readExactVolatileFrom memOffset phdr.pFilesz.toNat).mapErr fun _ => .elf .readKernelImage
    let kernelEnd ← .lift (.okOr (checkedAdd memOffset phdr.pMemsz.toNat) .memoryOverflow)
    return { result with kernelEnd := max result.kernelEnd kernelEnd }

def readPhdrs (phnum : Nat) : Traced F Effect KernelLoaderError (List Elf64Phdr) :=
  (List.range phnum).foldlM (fun phdrs _ => do
    let bytes ← .exec (readExact PHDR_SIZE .readProgramHeader)
    return phdrs ++ [.ofBytes bytes]) []

/-- The entry point may not be below the start of high memory. -/
def checkEntry (ehdr : Elf64Ehdr) : Option UInt64 → Outcome Error Unit
  | some addr => .ensure (addr ≤ ehdr.eEntry) .invalidEntryAddress
  | none => .ok ()

/-- Where the kernel is entered. -/
def kernelLoad (ehdr : Elf64Ehdr) : Outcome Error Nat :=
  match kernelOffset with
  | some kOffset => .okOr (checkedAdd kOffset.toNat ehdr.eEntry.toNat) .overflow
  | none => .ok ehdr.eEntry.toNat

def load (highmemStartAddress : Option UInt64) : Traced F Effect KernelLoaderError KernelLoaderResult := do
  let _ ← .exec (seek (.start 0) .seekElfStart)
  let ehdr := .ofBytes (← .exec (readExact EHDR_SIZE .readElfHeader))
  .lift ((validateHeader ehdr).mapErr .elf)
  .lift ((checkEntry ehdr highmemStartAddress).mapErr .elf)
  let kernelLoad ← .lift ((kernelLoad kernelOffset ehdr).mapErr .elf)
  let _ ← .exec (seek (.start ehdr.ePhoff.toNat) .seekProgramHeader)
  let phdrs ← readPhdrs ehdr.ePhnum.toNat
  phdrs.foldlM (loadPhdr mem kernelOffset) { kernelLoad }

end RustVmm.LinuxLoader.Elf
