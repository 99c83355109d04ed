import RustVmm.AcpiTables.Table

/-!
# MADT

The interrupt controllers of the machine: packed records, added with their bytes.  `Madt.run_spec` covers every
sequence of additions; a second IMSIC panics.
-/

set_option autoImplicit false

namespace RustVmm.AcpiTables

open Lib
open List hiding Vector

/-! ## Interrupt controllers -/

/-- The structures of the crate, with the fields of each in order. -/
inductive InterruptController where
  | processorLocalApic (type length processorUid apicId : UInt8) (flags : UInt32)
  | ioApic (type length ioApicId reserved : UInt8) (ioApicAddr gsiBase : UInt32)
  | interruptSourceOverride (type length bus source : UInt8) (gsi : UInt32) (flags : UInt16)
  | processorLocalApicNmi (type length acpiProcessorUid : UInt8) (flags : UInt16) (localApicLintNum : UInt8)
  | gicc (type length : UInt8) (reserved0 : UInt16)
      (cpuInterfaceNumber acpiProcessorUid flags parkingProtocolVersion performanceInterrupt : UInt32)
      (parkedAddress baseAddress virtualRegisters controlBlockRegisters : UInt64) (maintenanceInterrupt : UInt32)
      (redistributorBase mpidr : UInt64) (powerEfficiencyClass reserved1 : UInt8)
      (overflowInterrupt trbeInterrupt : UInt16)
  | gicd (type length : UInt8) (reserved0 : UInt16) (gicId : UInt32) (baseAddr : UInt64) (vectorBase : UInt32)
      (gicVersion : UInt8) (reserved1 : Vector UInt8 3)
  | gicMsi (type length : UInt8) (reserved : UInt16) (gicMsiFrameId : UInt32) (baseAddr : UInt64) (flags : UInt32)
      (spiCount spiBase : UInt16)
  | gicr (type length : UInt8) (reserved : UInt16) (discoveryRangeBase : UInt64) (discoveryRangeLength : UInt32)
  | gicIts (type length : UInt8) (reserved0 : UInt16) (gicItsId : UInt32) (baseAddr : UInt64) (reserved1 : UInt32)
  | rintc (type length version reserved : UInt8) (flags : UInt32) (hartId : UInt64)
      (acpiProcessorUid extIntCtrlId : UInt32) (imsicBaseAddr : UInt64) (imsicSize : UInt32)
  | imsic (type length version : UInt8) (reserved : Vector UInt8 5)
      (numSupervisorInterruptIdentities numGuestInterruptIdentities : UInt16)
      (guestIndexBits hartIndexBits groupIndexBits groupIndexShift : UInt8)
  | aplic (type length version aplicId : UInt8) (flags : UInt32) (hardwareId : Vector UInt8 8)
      (numberOfIdcs totalExternalInterruptSources : UInt16) (globalSystemInterruptBase : UInt32)
      (aplicAddress : UInt64) (aplicSize : UInt32)
  | plic (type length version plicId : UInt8) (hardwareId : Vector UInt8 8)
      (totalExternalInterruptSources maxPriority : UInt16) (flags plicSize : UInt32) (plicAddress : UInt64)
      (globalSystemInterruptBase : UInt32)
  deriving DecidableEq, Repr

/-- `as_bytes`, which is also what `aml_as_bytes!` emits. -/
def InterruptController.asBytes : InterruptController → List UInt8
  | processorLocalApic type length uid apicId flags => [type, length, uid, apicId] ++ dword flags
  | ioApic type length id reserved addr gsiBase => [type, length, id, reserved] ++ dword addr ++ dword gsiBase
  | interruptSourceOverride type length bus source gsi flags => [type, length, bus, source] ++ dword gsi ++ word flags
  | processorLocalApicNmi type length uid flags lint => [type, length, uid] ++ word flags ++ [lint]
  | gicc type length reserved0 cpu uid flags parking performance parked base virtual control maintenance redistributor
      mpidr power reserved1 overflow trbe =>
    [type, length] ++ word reserved0 ++ dword cpu ++ dword uid ++ dword flags ++ dword parking ++ dword performance ++
      qword parked ++ qword base ++ qword virtual ++ qword control ++ dword maintenance ++ qword redistributor ++
      qword mpidr ++ [power, reserved1] ++ word overflow ++ word trbe
  | gicd type length reserved0 id base vector version reserved1 =>
    [type, length] ++ word reserved0 ++ dword id ++ qword base ++ dword vector ++ [version] ++ reserved1.toList
  | gicMsi type length reserved id base flags count spiBase =>
    [type, length] ++ word reserved ++ dword id ++ qword base ++ dword flags ++ word count ++ word spiBase
  | gicr type length reserved base size => [type, length] ++ word reserved ++ qword base ++ dword size
  | gicIts type length reserved0 id base reserved1 =>
    [type, length] ++ word reserved0 ++ dword id ++ qword base ++ dword reserved1
  | rintc type length version reserved flags hart uid ctrl base size =>
    [type, length, version, reserved] ++ dword flags ++ qword hart ++ dword uid ++ dword ctrl ++ qword base ++ dword size
  | imsic type length version reserved supervisor guest guestBits hartBits groupBits shift =>
    [type, length, version] ++ reserved.toList ++ word supervisor ++ word guest ++
      [guestBits, hartBits, groupBits, shift]
  | aplic type length version id flags hardware idcs sources gsi address size =>
    [type, length, version, id] ++ dword flags ++ hardware.toList ++ word idcs ++ word sources ++ dword gsi ++
      qword address ++ dword size
  | plic type length version id hardware sources priority flags size address gsi =>
    [type, length, version, id] ++ hardware.toList ++ word sources ++ word priority ++ dword flags ++ dword size ++
      qword address ++ dword gsi

/-! ## The table -/

inductive LocalInterruptController where
  | riscv
  | address (addr : UInt32)
  deriving DecidableEq, Repr

/-- The header of a MADT is `header` and the two fields after it. -/
structure Madt extends NodeTable InterruptController where
  localInterruptControllerAddress : UInt32
  flags : UInt32
  hasImsic : Bool

namespace Madt

def PC_AT_COMPAT : UInt32 := 1

def HEADER_LEN : Nat := 44

def new (oemId : Vector UInt8 6) (oemTableId : Vector UInt8 8) (oemRevision : UInt32)
    (int : LocalInterruptController) : Madt :=
  let address := match int with
    | .riscv => 0
    | .address addr => addr
  { toNodeTable := NodeTable.new
      (.new (ascii #v['A', 'P', 'I', 'C']) (UInt32.ofNat HEADER_LEN) oemId oemTableId oemRevision)
      (dword address ++ dword 0)
    localInterruptControllerAddress := address
    flags := 0
    hasImsic := false }

/-- `set_flag` with `MadtFlags::PcAtCompat`. -/
def pcAtCompat (self : Madt) : Madt :=
  let oldFlags := self.flags
  let flags := oldFlags ||| PC_AT_COMPAT
  { self with
    toTable := self.toTable.adjust fun c => (c.delete (dword oldFlags)).append (dword flags)
    flags := flags }

def addStructure (self : Madt) (st : InterruptController) : Outcome Empty Madt := do
  let table ← self.push (UInt32.ofNat st.asBytes.length) (fun c => c.append st.asBytes) st
  return { self with toNodeTable := table }

/-- `add_imsic`, where `imsic` is the structure of type `IMSIC`. -/
def addImsic (self : Madt) (imsic : InterruptController) : Outcome Empty Madt :=
  -- `assert!(!self.has_imsic)`
  if self.hasImsic then .panic
  else do
    let self ← self.addStructure imsic
    return { self with hasImsic := true }

def body (self : Madt) : List UInt8 :=
  dword self.localInterruptControllerAddress ++ dword self.flags ++
    self.structures.flatMap InterruptController.asBytes

def toAmlBytes (self : Madt) : List UInt8 := self.header.asBytes ++ self.body

/-! ## Calls -/

inductive Call where
  | pcAtCompat
  | addStructure (st : InterruptController)
  | addImsic (imsic : InterruptController)
  deriving DecidableEq, Repr

def step (self : Madt) : Call → Outcome Empty Madt
  | .pcAtCompat => .ok self.pcAtCompat
  | .addStructure st => self.addStructure st
  | .addImsic imsic => self.addImsic imsic

def Call.bytes : Call → List UInt8
  | pcAtCompat => []
  | addStructure st => st.asBytes
  | addImsic imsic => imsic.asBytes

def Call.isAddImsic : Call → Bool
  | pcAtCompat => false
  | addStructure _ => false
  | addImsic _ => true

/-- The header accounts for what follows it. -/
def Accounts (self : Madt) : Prop := self.Tracks self.body.length self.body.sum

variable (oemId : Vector UInt8 6) (oemTableId : Vector UInt8 8) (oemRevision : UInt32) (int : LocalInterruptController)

theorem accounts_new : (new oemId oemTableId oemRevision int).Accounts := Table.tracks_new rfl rfl _

variable {self t : Madt}

theorem accounts_pcAtCompat (h : self.Accounts) : self.pcAtCompat.Accounts := by
  have hadjust := Table.Tracks.adjust h
    (fun c => (c.delete (dword self.flags)).append (dword (self.flags ||| PC_AT_COMPAT)))
    ((dword (self.flags ||| PC_AT_COMPAT)).sum - (dword self.flags).sum) fun c => by
      rw [Checksum.rawValue_append, Checksum.rawValue_delete]
      grind
  have hsum : self.pcAtCompat.body.sum =
      self.body.sum + ((dword (self.flags ||| PC_AT_COMPAT)).sum - (dword self.flags).sum) := by
    simp only [body, pcAtCompat, sum_append]
    grind
  have hlen : self.pcAtCompat.body.length = self.body.length := by
    simp only [body, pcAtCompat, length_append, length_dword]
  rw [Accounts, hsum, hlen]
  exact hadjust

theorem addStructure_eq_ok (h : self.Accounts) (st : InterruptController)
    (hfit : TableHeader.LEN + (self.body.length + st.asBytes.length) < 2 ^ 32) :
    ∃ self', self.addStructure st = .ok self' ∧ self'.Accounts ∧ self'.hasImsic = self.hasImsic ∧
      self'.body.length = self.body.length + st.asBytes.length := by
  obtain ⟨table, hok, htracks, hsts⟩ := NodeTable.push_eq_ok h
    (fun c => c.rawValue_append st.asBytes) hfit st
  have hbody : ({ self with toNodeTable := table } : Madt).body = self.body ++ st.asBytes := by
    simp only [body, hsts, flatMap_append, flatMap_singleton, append_assoc]
  refine ⟨{ self with toNodeTable := table }, by rw [addStructure, hok]; rfl, ?_, rfl, ?_⟩
  · rw [Accounts, hbody, length_append, sum_append]
    exact htracks
  · rw [hbody, length_append]

structure After (done : List Call) (t : Madt) : Prop where
  accounts : t.Accounts
  length : t.body.length = 8 + (done.flatMap Call.bytes).length
  imsic : t.hasImsic = true ↔ 0 < done.countP Call.isAddImsic

variable {done : List Call} {call : Call}

theorem step_eq_ok (h : After done t) (hcount : (done ++ [call]).countP Call.isAddImsic ≤ 1)
    (hfit : HEADER_LEN + ((done ++ [call]).flatMap Call.bytes).length < 2 ^ 32) :
    ∃ t', t.step call = .ok t' ∧ After (done ++ [call]) t' := by
  have hlen := h.length
  have himsics := h.imsic
  rw [flatMap_append, flatMap_singleton, length_append, HEADER_LEN] at hfit
  rw [countP_append, countP_singleton] at hcount
  cases call with
  | pcAtCompat =>
    refine ⟨_, rfl, accounts_pcAtCompat h.accounts, ?_, by simpa [Call.isAddImsic, pcAtCompat] using himsics⟩
    rw [flatMap_append, flatMap_singleton, Call.bytes, append_nil, ← hlen]
    simp only [body, pcAtCompat, length_append, length_dword]
  | addStructure st =>
    obtain ⟨t', hok, hacc, himsic, hbody⟩ := addStructure_eq_ok h.accounts st (by
      rw [Call.bytes] at hfit
      rw [TableHeader.LEN]
      omega)
    refine ⟨t', hok, hacc, ?_, by simpa [Call.isAddImsic, himsic] using himsics⟩
    rw [hbody, flatMap_append, flatMap_singleton, length_append, Call.bytes, hlen, Nat.add_assoc]
  | addImsic imsic =>
    have hnone : ¬t.hasImsic = true := by
      rw [himsics]
      rw [Call.isAddImsic, if_pos rfl] at hcount
      omega
    obtain ⟨t', hok, hacc, himsic, hbody⟩ := addStructure_eq_ok h.accounts imsic (by
      rw [Call.bytes] at hfit
      rw [TableHeader.LEN]
      omega)
    refine ⟨{ t' with hasImsic := true }, by rw [step, Madt.addImsic, if_neg hnone, hok]; rfl, hacc, ?_,
      by simp [Call.isAddImsic]⟩
    rw [flatMap_append, flatMap_singleton, length_append, ← Nat.add_assoc, ← hlen]
    exact hbody

theorem step_eq_panic (h : After done t) (hdone : done.countP Call.isAddImsic ≤ 1)
    (hcount : ¬(done ++ [call]).countP Call.isAddImsic ≤ 1) : t.step call = .panic := by
  rw [countP_append, countP_singleton] at hcount
  cases call with
  | addImsic imsic =>
    have hsome : t.hasImsic = true := h.imsic.2 (by
      rw [Call.isAddImsic, if_pos rfl] at hcount
      omega)
    rw [step, Madt.addImsic, if_pos hsome]
  | _ => exact absurd hdone hcount

theorem run_spec (calls : List Call) (hfit : 44 + (calls.flatMap Call.bytes).length < 2 ^ 32) :
    (calls.countP Call.isAddImsic ≤ 1 →
      ∃ t, calls.foldlM step (new oemId oemTableId oemRevision int) = .ok t ∧ WellFormed t.toAmlBytes) ∧
    (¬calls.countP Call.isAddImsic ≤ 1 → calls.foldlM step (new oemId oemTableId oemRevision int) = .panic) := by
  have hnew : After [] (new oemId oemTableId oemRevision int) :=
    ⟨accounts_new oemId oemTableId oemRevision int, rfl, by simp [new]⟩
  obtain ⟨hok, hpanic⟩ := Outcome.foldlM_admits (fun calls => calls.countP Call.isAddImsic ≤ 1) After calls
    (fun done call h => by rw [countP_append] at h; omega)
    (fun done t call hpre h hcount => step_eq_ok h hcount
      (Nat.lt_of_le_of_lt (Nat.add_le_add_left (length_flatMap_le hpre) _) hfit))
    (fun _ _ _ _ h hdone hcount => step_eq_panic h hdone hcount) (Nat.zero_le 1) hnew
  refine ⟨fun hcount => ?_, hpanic⟩
  obtain ⟨t, hrun, hafter⟩ := hok hcount
  exact ⟨t, hrun, hafter.accounts.wellFormed⟩

end Madt

end RustVmm.AcpiTables
