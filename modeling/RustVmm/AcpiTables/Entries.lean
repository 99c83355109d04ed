import RustVmm.AcpiTables.Table

/-!
# XSDT, MCFG and HMAT

Tables that are a header, a reserved part and entries.  Each has a theorem `run_wellFormed`; the length that an entry
of HMAT announces is computed apart from its bytes, and agrees (`length_toAmlBytes`).
-/

set_option autoImplicit false

namespace RustVmm.AcpiTables

open Lib
open List hiding Vector

section

variable (oemId : Vector UInt8 6) (oemTableId : Vector UInt8 8) (oemRevision : UInt32)

/-! ## XSDT -/

abbrev Xsdt := NodeTable UInt64

def Xsdt.new : Xsdt :=
  NodeTable.new (.new (ascii #v['X', 'S', 'D', 'T']) (UInt32.ofNat TableHeader.LEN) oemId oemTableId oemRevision) []

def Xsdt.addEntry (self : Xsdt) (entry : UInt64) : Outcome Empty Xsdt :=
  self.push 8 (fun c => c.append (qword entry)) entry

def Xsdt.toAmlBytes (self : Xsdt) : List UInt8 := self.header.asBytes ++ self.structures.flatMap qword

theorem Xsdt.announces_addEntry (entries : List UInt64) :
    NodeTable.Announces addEntry (fun entry => (qword entry).length) (fun entry => (qword entry).sum) entries :=
  fun entry _ t => ⟨fun c => c.append (qword entry), by dsimp only; rw [length_qword]; rfl, fun c => c.rawValue_append _⟩

theorem Xsdt.run_wellFormed (entries : List UInt64) (hfit : 36 + (entries.flatMap qword).length < 2 ^ 32) :
    ∃ t, entries.foldlM addEntry (new oemId oemTableId oemRevision) = .ok t ∧ WellFormed t.toAmlBytes := by
  have hnew : (new oemId oemTableId oemRevision).Tracks ([] : List UInt8).length ([] : List UInt8).sum :=
    Table.tracks_new rfl rfl []
  obtain ⟨t, hok, hsts, hwf⟩ := (announces_addEntry entries).wellFormed hnew rfl
    (by rw [length_nil, TableHeader.LEN]; omega)
  exact ⟨t, hok, by rw [toAmlBytes, hsts]; exact hwf⟩

/-! ## MCFG -/

structure EcamEntry where
  baseAddr : UInt64
  segment : UInt16
  startBus : UInt8
  endBus : UInt8
  deriving DecidableEq, Repr

def EcamEntry.asBytes (self : EcamEntry) : List UInt8 :=
  qword self.baseAddr ++ word self.segment ++ [self.startBus, self.endBus] ++ [0, 0, 0, 0]

abbrev Mcfg := NodeTable EcamEntry

def Mcfg.new : Mcfg :=
  NodeTable.new (.new (ascii #v['M', 'C', 'F', 'G']) (UInt32.ofNat (TableHeader.LEN + 8)) oemId oemTableId oemRevision) []

def Mcfg.addEcam (self : Mcfg) (entry : EcamEntry) : Outcome Empty Mcfg :=
  self.push (UInt32.ofNat entry.asBytes.length) (fun c => c.append entry.asBytes) entry

def Mcfg.toAmlBytes (self : Mcfg) : List UInt8 :=
  self.header.asBytes ++ qword 0 ++ self.structures.flatMap EcamEntry.asBytes

theorem Mcfg.announces_addEcam (entries : List EcamEntry) :
    NodeTable.Announces addEcam (fun entry => entry.asBytes.length) (fun entry => entry.asBytes.sum) entries :=
  fun _ _ _ => ⟨_, rfl, fun c => c.rawValue_append _⟩

theorem Mcfg.run_wellFormed (entries : List EcamEntry)
    (hfit : 44 + (entries.flatMap EcamEntry.asBytes).length < 2 ^ 32) :
    ∃ t, entries.foldlM addEcam (new oemId oemTableId oemRevision) = .ok t ∧ WellFormed t.toAmlBytes := by
  -- The reserved bytes are zero, so that the running sum need not count them.
  have hnew : (new oemId oemTableId oemRevision).Tracks (qword 0).length (qword 0).sum := Table.tracks_new rfl rfl []
  obtain ⟨t, hok, hsts, hwf⟩ := (announces_addEcam entries).wellFormed hnew rfl
    (by rw [length_qword, TableHeader.LEN]; omega)
  exact ⟨t, hok, by rw [toAmlBytes, hsts, append_assoc]; exact hwf⟩

/-! ## HMAT -/

structure MemoryProximityDomain where
  type : UInt16
  reserved0 : UInt16
  length : UInt32
  flags : UInt16
  reserved1 : UInt16
  proximityDomainInitiator : UInt32
  proximityDomainMemory : UInt32
  reserved2 : Vector UInt8 20
  deriving DecidableEq, Repr

namespace MemoryProximityDomain

/-- `size_of::<Self>()`. -/
def LEN : Nat := 40

def DOMAIN_VALID : UInt16 := 1

def new (proximityDomainInitiator proximityDomainMemory : UInt32) : MemoryProximityDomain where
  type := 0
  reserved0 := 0
  length := UInt32.ofNat LEN
  flags := DOMAIN_VALID
  reserved1 := 0
  proximityDomainInitiator := proximityDomainInitiator
  proximityDomainMemory := proximityDomainMemory
  reserved2 := Vector.replicate 20 0

def asBytes (self : MemoryProximityDomain) : List UInt8 :=
  word self.type ++ word self.reserved0 ++ dword self.length ++ word self.flags ++ word self.reserved1 ++
    dword self.proximityDomainInitiator ++ dword self.proximityDomainMemory ++ self.reserved2.toList

@[simp] theorem length_asBytes (self : MemoryProximityDomain) : self.asBytes.length = LEN := by
  simp [asBytes, LEN]

end MemoryProximityDomain

/-- The discriminants are `0`, `1`, and so on, as for the next type. -/
inductive DataType where
  | accessLatency | readLatency | writeLatency | accessBandwidth | readBandwidth | writeBandwidth
  deriving DecidableEq, Repr

inductive MinTransferSize where
  | sizeByteAligned | size64b | size128b | size256b | size512b | size1k | size2k | size4k | size8k | size16k
  | size32k | size64k
  deriving DecidableEq, Repr

structure SystemLocality where
  flags : UInt8
  dataType : DataType
  minTransferSize : MinTransferSize
  entryBaseUnit : UInt64
  initiators : List UInt32
  targets : List UInt32
  entries : List UInt16
  deriving DecidableEq, Repr

namespace SystemLocality

def len (self : SystemLocality) : Nat :=
  4 * self.initiators.length + 4 * self.targets.length + 2 * self.entries.length + 32

def toAmlBytes (self : SystemLocality) : List UInt8 := word 1 ++ word 0 ++ dword (UInt32.ofNat self.len) ++
    [self.flags, UInt8.ofNat self.dataType.ctorIdx, UInt8.ofNat self.minTransferSize.ctorIdx, 0] ++
    dword (UInt32.ofNat self.initiators.length) ++ dword (UInt32.ofNat self.targets.length) ++ dword 0 ++
    qword self.entryBaseUnit ++ self.initiators.flatMap dword ++ self.targets.flatMap dword ++
    self.entries.flatMap word

theorem length_toAmlBytes (self : SystemLocality) : self.toAmlBytes.length = self.len := by
  simp only [toAmlBytes, len, length_append, length_word, length_dword, length_qword, length_cons,
    length_nil, length_flatMap_const length_word, length_flatMap_const length_dword]
  omega

end SystemLocality

structure MemorySideCache where
  proximityDomain : UInt32
  cacheSize : UInt64
  attributes : UInt32
  smbiosHandles : List UInt16
  deriving DecidableEq, Repr

namespace MemorySideCache

def len (self : MemorySideCache) : Nat := 32 + self.smbiosHandles.length * 2

def toAmlBytes (self : MemorySideCache) : List UInt8 :=
  word 2 ++ word 0 ++ dword (UInt32.ofNat self.len) ++ dword self.proximityDomain ++ dword 0 ++
    qword self.cacheSize ++ dword self.attributes ++ word 0 ++ word (UInt16.ofNat self.smbiosHandles.length) ++
    self.smbiosHandles.flatMap word

theorem length_toAmlBytes (self : MemorySideCache) : self.toAmlBytes.length = self.len := by
  simp only [toAmlBytes, len, length_append, length_word, length_dword, length_qword, length_flatMap_const length_word]
  omega

end MemorySideCache

inductive HmatEntry where
  | memoryProximity (m : MemoryProximityDomain)
  | systemLocality (s : SystemLocality)
  | memorySideCache (c : MemorySideCache)
  deriving DecidableEq, Repr

namespace HmatEntry

def toAmlBytes : HmatEntry → List UInt8
  | memoryProximity m => m.asBytes
  | systemLocality s => s.toAmlBytes
  | memorySideCache c => c.toAmlBytes

def len : HmatEntry → Nat
  | memoryProximity _ => MemoryProximityDomain.LEN
  | systemLocality s => s.len
  | memorySideCache c => c.len

theorem length_toAmlBytes (self : HmatEntry) : self.toAmlBytes.length = self.len := by
  cases self with
  | memoryProximity m => exact m.length_asBytes
  | systemLocality s => exact s.length_toAmlBytes
  | memorySideCache c => exact c.length_toAmlBytes

end HmatEntry

abbrev Hmat := NodeTable HmatEntry

namespace Hmat

def HEADER_LEN : Nat := TableHeader.LEN + 4

def new : Hmat :=
  NodeTable.new (.new (ascii #v['H', 'M', 'A', 'T']) (UInt32.ofNat HEADER_LEN) oemId oemTableId oemRevision) []

/-- `add_memory_proximity`, `add_system_locality` and `add_memory_side_cache`. -/
def add (self : Hmat) (entry : HmatEntry) : Outcome Empty Hmat :=
  self.push (UInt32.ofNat entry.len) (fun c => c.add (u8sum entry.toAmlBytes)) entry

def toAmlBytes (self : Hmat) : List UInt8 :=
  self.header.asBytes ++ dword 0 ++ self.structures.flatMap HmatEntry.toAmlBytes

theorem announces_add (entries : List HmatEntry) :
    NodeTable.Announces add (fun entry => entry.toAmlBytes.length) (fun entry => entry.toAmlBytes.sum) entries := by
  intro entry _ t
  refine ⟨fun c => c.add (u8sum entry.toAmlBytes), ?_, fun c => ?_⟩
  · dsimp only
    rw [entry.length_toAmlBytes, add]
  · rw [Checksum.rawValue_add, u8sum_eq]

theorem run_wellFormed (entries : List HmatEntry) (hfit : 40 + (entries.flatMap HmatEntry.toAmlBytes).length < 2 ^ 32) :
    ∃ t, entries.foldlM add (new oemId oemTableId oemRevision) = .ok t ∧ WellFormed t.toAmlBytes := by
  have hnew : (new oemId oemTableId oemRevision).Tracks (dword 0).length (dword 0).sum := Table.tracks_new rfl rfl []
  obtain ⟨t, hok, hsts, hwf⟩ := (announces_add entries).wellFormed hnew rfl
    (by rw [length_dword, TableHeader.LEN]; omega)
  exact ⟨t, hok, by rw [toAmlBytes, hsts, append_assoc]; exact hwf⟩

end Hmat

end

end RustVmm.AcpiTables
