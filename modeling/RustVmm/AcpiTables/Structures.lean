import RustVmm.AcpiTables.Counted

/-!
# CEDT and RQSC

Tables whose structures hold their lengths in 16 bits.

* `cedt_walk_iff` — the structures of CEDT whose `len` and bytes agree.
* `rqsc_length_short` — the header of RQSC forgets the count of the controllers.
-/

set_option autoImplicit false

namespace RustVmm.AcpiTables

open Lib Lib.Parser Outcome TableHeader
open List hiding Vector

/-! ## CEDT -/

inductive CxlVersion where
  | cxl1_1 | cxl2
  deriving DecidableEq, Repr

def CxlVersion.len : CxlVersion → UInt64
  | cxl1_1 => 0x2000
  | cxl2 => 0x10000

inductive InterleaveArithmetic where
  | modulo | moduloXor
  deriving DecidableEq, Repr

inductive InterleaveGranularity where
  | granularity256b | granularity512b | granularity1kb | granularity2kb | granularity4kb | granularity8kb
  | granularity16kb
  deriving DecidableEq, Repr

inductive InterleaveWays where
  | ways1 | ways2 | ways4 | ways8 | ways16 | ways3 | ways6 | ways12
  deriving DecidableEq, Repr

def InterleaveWays.toUInt8 : InterleaveWays → UInt8
  | ways1 => 0
  | ways2 => 1
  | ways4 => 2
  | ways8 => 3
  | ways16 => 4
  | ways3 => 8
  | ways6 => 9
  | ways12 => 10

/-- `num_interleaved_ways`. -/
def InterleaveWays.num : InterleaveWays → Nat
  | ways1 => 1
  | ways2 => 2
  | ways4 => 4
  | ways8 => 8
  | ways16 => 16
  | ways3 => 3
  | ways6 => 6
  | ways12 => 12

inductive ProtocolType where
  | cxlIo | cxlMem
  deriving DecidableEq, Repr

inductive CedtStructure where
  | hostBridge (hostBridgeUid : UInt32) (cxlVersion : CxlVersion) (portBase : UInt64)
  | fixedMemory (baseAddr size : UInt64) (arithmetic : InterleaveArithmetic) (granularity : InterleaveGranularity)
      (ways : InterleaveWays) (windowRestrictions qtgId : UInt16) (targets : List (Vector UInt8 4))
  | xorInterleaveMath (granularity : InterleaveGranularity) (bitmaps : List UInt64)
  | portAssociation (device : PciDevice) (protocol : ProtocolType) (baseAddr : UInt64)
  deriving DecidableEq, Repr

variable {st : CedtStructure}

namespace CedtStructure

def len : CedtStructure → Nat
  | hostBridge _ _ _ => 32
  | fixedMemory _ _ _ _ ways _ _ _ => 0x24 + 4 * ways.num
  | xorInterleaveMath _ bitmaps => 8 + 8 * bitmaps.length
  | portAssociation _ _ _ => 16

/-- A memory window has as many targets as it says; `to_aml_bytes` asserts this. -/
def Encodes : CedtStructure → Prop
  | fixedMemory _ _ _ _ ways _ _ targets => ways.num = targets.length
  | _ => True

instance : DecidablePred Encodes := fun st => by cases st <;> unfold Encodes <;> infer_instance

def asBytes (self : CedtStructure) : List UInt8 :=
  match self with
  | hostBridge uid version portBase =>
    [0, 0, 32] ++ dword uid ++ dword (UInt32.ofNat version.ctorIdx) ++ qword portBase ++ qword version.len
  | fixedMemory base size arithmetic granularity ways restrictions qtgId targets =>
    [1, 0] ++ word (UInt16.ofNat self.len) ++ (dword 0 ++ qword base ++ qword size ++
      [ways.toUInt8, UInt8.ofNat arithmetic.ctorIdx] ++ word 0 ++ dword (UInt32.ofNat granularity.ctorIdx) ++
      word restrictions ++ word qtgId ++ targets.flatMap Vector.toList)
  | xorInterleaveMath granularity bitmaps =>
    [2, 0] ++ word (UInt16.ofNat self.len) ++ (word 0 ++
      [UInt8.ofNat granularity.ctorIdx, UInt8.ofNat bitmaps.length] ++ bitmaps.flatMap qword)
  | portAssociation device protocol base =>
    [3, 0] ++ word (UInt16.ofNat self.len) ++ (word device.segment ++ word device.asBdf ++
      [UInt8.ofNat protocol.ctorIdx] ++ qword base)

def toAmlBytes (self : CedtStructure) : Outcome Empty (List UInt8) := if self.Encodes then .ok self.asBytes else .panic

/-- The length in the structure is that of its bytes. -/
def Truthful : CedtStructure → Prop
  | hostBridge _ _ _ => False
  | fixedMemory _ _ _ _ ways _ _ targets => ways.num = targets.length
  | xorInterleaveMath _ bitmaps => bitmaps.length ≤ 8190
  | portAssociation _ _ _ => False

instance : DecidablePred Truthful := fun st => by cases st <;> unfold Truthful <;> infer_instance

theorem Truthful.encodes (h : st.Truthful) : st.Encodes := by
  cases st with
  | fixedMemory base size arithmetic granularity ways restrictions qtgId targets => exact h
  | _ => trivial

theorem le_length_asBytes (st : CedtStructure) : 4 ≤ st.asBytes.length := by
  cases st <;> simp [asBytes]

theorem fieldAt_word (a b : UInt8) (n : Nat) (rest : List UInt8) :
    fieldAt ([a, b] ++ word (UInt16.ofNat n) ++ rest) 2 2 = some (n % 2 ^ 16) :=
  fieldAt_of_eq [a, b] rest (by rw [word, UInt16.toNat_ofNat']) rfl (Nat.mod_lt _ (by decide))

theorem fieldAt_asBytes_iff (h : st.Encodes) : fieldAt st.asBytes 2 2 = some st.asBytes.length ↔ st.Truthful := by
  cases st with
  | hostBridge uid version portBase =>
    -- The length is one byte, and the field reaches into the number that follows.
    refine iff_of_false (fun heq => ?_) id
    simp [asBytes, fieldAt, dword, leBytes, ofLeBytes] at heq
    omega
  | fixedMemory base size arithmetic granularity ways restrictions qtgId targets =>
    have hnum : ways.num = targets.length := h
    have hlt : ways.num ≤ 16 := by cases ways <;> decide
    refine iff_of_true ?_ h
    rw [asBytes, fieldAt_word]
    simp [len]
    omega
  | xorInterleaveMath granularity bitmaps =>
    rw [asBytes, fieldAt_word, Truthful]
    simp [len, length_flatMap_const length_qword]
    omega
  | portAssociation device protocol base =>
    refine iff_of_false ?_ id
    rw [asBytes, fieldAt_word]
    simp [len]

theorem length_asBytes (h : st.Truthful) : st.asBytes.length = st.len := by
  cases st with
  | fixedMemory base size arithmetic granularity ways restrictions qtgId targets =>
    have hnum : ways.num = targets.length := h
    simp [asBytes, len, hnum]
    omega
  | xorInterleaveMath granularity bitmaps =>
    simp [asBytes, len, length_flatMap_const length_qword]
    omega
  | _ => exact h.elim

end CedtStructure

abbrev Cedt := NodeTable CedtStructure

namespace Cedt

variable (oemId : Vector UInt8 6) (oemTableId : Vector UInt8 8) (oemRevision : UInt32)

def new : Cedt := NodeTable.new (.new (ascii #v['C', 'E', 'D', 'T']) 36 oemId oemTableId oemRevision) []

/-- `add_host_bridge`, `add_fixed_memory`, `add_xor_interleave_math` and `add_port_association`. -/
def add (self : Cedt) (st : CedtStructure) : Outcome Empty Cedt := do
  let bytes ← st.toAmlBytes
  self.push (UInt32.ofNat st.len) (fun c => c.add (u8sum bytes)) st

def toAmlBytes (self : Cedt) : Outcome Empty (List UInt8) := do
  let structures ← self.structures.mapM CedtStructure.toAmlBytes
  return self.header.asBytes ++ structures.flatten

theorem add_eq_ok {self t : Cedt} (h : self.add st = .ok t) :
    st.Encodes ∧ t.structures = self.structures ++ [st] := by
  obtain ⟨bytes, hbytes, hpush⟩ := bind_eq_ok.1 h
  obtain ⟨table, _, hret⟩ := bind_eq_ok.1 hpush
  cases hret
  refine ⟨?_, rfl⟩
  by_contra henc
  rw [CedtStructure.toAmlBytes, if_neg henc] at hbytes
  cases hbytes

theorem foldlM_add_eq_ok {sts : List CedtStructure} {t : Cedt}
    (h : sts.foldlM add (new oemId oemTableId oemRevision) = .ok t) :
    t.structures = sts ∧ t.toAmlBytes = .ok (t.header.asBytes ++ sts.flatMap CedtStructure.asBytes) ∧
      ∀ st ∈ sts, st.Encodes := by
  obtain ⟨hsts, hall⟩ : t.structures = [] ++ sts ∧ ∀ st ∈ [] ++ sts, st.Encodes :=
    foldlM_invariant (fun done (t : Cedt) => t.structures = done ∧ ∀ st ∈ done, st.Encodes)
      (fun done t st t' ⟨hsts, hall⟩ hadd => by
        obtain ⟨henc, hsts'⟩ := add_eq_ok hadd
        exact ⟨by rw [hsts', hsts], forall_mem_append.2 ⟨hall, forall_mem_singleton.2 henc⟩⟩)
      ⟨rfl, nofun⟩ h
  have hmap := mapM_of_ok (f := CedtStructure.toAmlBytes)
    fun st hst => if_pos (hall st hst)
  exact ⟨hsts, by rw [toAmlBytes, hsts, hmap]; rfl, hall⟩

/-- **When the structures are found by their lengths.**  A host bridge says 32 and has 27 bytes, a port association
says 16 and has 17; the length of many XOR maps does not fit; and a window without its targets cannot be added. -/
theorem cedt_walk_iff (sts : List CedtStructure)
    (hfit : 36 + (sts.flatMap CedtStructure.asBytes).length < 2 ^ 32) :
    (∃ t bytes, sts.foldlM add (new oemId oemTableId oemRevision) = .ok t ∧ t.toAmlBytes = .ok bytes ∧
      StatesLength bytes ∧ walk (fieldAt · 2 2) (bytes.drop 36) = some (sts.map CedtStructure.asBytes)) ↔
      ∀ st ∈ sts, st.Truthful := by
  have hwalk : ∀ header : TableHeader, (∀ st ∈ sts, st.Encodes) →
      (walk (fieldAt · 2 2) ((header.asBytes ++ sts.flatMap CedtStructure.asBytes).drop 36) =
        some (sts.map CedtStructure.asBytes) ↔ ∀ st ∈ sts, st.Truthful) := by
    intro header hall
    rw [drop_left' header.length_asBytes, flatMap_def, walk_fieldAt_iff (by decide), forall_mem_map]
    · exact forall₂_congr fun st hst => CedtStructure.fieldAt_asBytes_iff (hall st hst)
    · exact forall_mem_map.2 fun st _ => st.le_length_asBytes
  constructor
  · rintro ⟨t, bytes, hrun, hbytes, _, h⟩
    obtain ⟨_, hemit, hall⟩ := foldlM_add_eq_ok oemId oemTableId oemRevision hrun
    rw [hemit] at hbytes
    cases hbytes
    exact (hwalk t.header hall).1 h
  · intro htrue
    have hadd : NodeTable.Announces add (fun st => st.asBytes.length) (fun st => st.asBytes.sum) sts := by
      intro st hst t
      refine ⟨fun c => c.add (u8sum st.asBytes), ?_, fun c => by simp⟩
      dsimp only
      rw [add, CedtStructure.toAmlBytes, if_pos (htrue st hst).encodes, CedtStructure.length_asBytes (htrue st hst)]
      rfl
    have hnew : (new oemId oemTableId oemRevision).Tracks ([] : List UInt8).length ([] : List UInt8).sum :=
      Table.tracks_new rfl rfl []
    obtain ⟨t, hrun, _, _, hlen⟩ := hadd.wellFormed hnew rfl (by rw [LEN, length_nil]; omega)
    obtain ⟨_, hemit, hall⟩ := foldlM_add_eq_ok oemId oemTableId oemRevision hrun
    exact ⟨t, _, hrun, hemit, hlen, (hwalk t.header hall).2 htrue⟩

theorem cedt_walk_two :
    let sts : List CedtStructure := [.fixedMemory 0 0 .modulo .granularity4kb .ways2 0 0
      [Vector.replicate 4 1, Vector.replicate 4 2], .xorInterleaveMath .granularity256b [5]]
    36 + (sts.flatMap CedtStructure.asBytes).length < 2 ^ 32 ∧
    ∃ t bytes, sts.foldlM add (new (Vector.replicate 6 0) (Vector.replicate 8 0) 0) = .ok t ∧ t.toAmlBytes = .ok bytes ∧
      StatesLength bytes ∧ walk (fieldAt · 2 2) (bytes.drop 36) = some (sts.map CedtStructure.asBytes) := by
  intro sts
  have hfit : 36 + (sts.flatMap CedtStructure.asBytes).length < 2 ^ 32 := by decide
  exact ⟨hfit, (cedt_walk_iff (Vector.replicate 6 0) (Vector.replicate 8 0) 0 sts hfit).2 (by decide)⟩

theorem host_bridge_length :
    ∃ t bytes, [.hostBridge 7 .cxl2 0x1000].foldlM add (new (Vector.replicate 6 0) (Vector.replicate 8 0) 0) = .ok t ∧
      t.toAmlBytes = .ok bytes ∧ bytes.length = 63 ∧ fieldAt bytes 4 4 = some 68 ∧
      walk (fieldAt · 2 2) (bytes.drop 36) = none :=
  ⟨_, _, rfl, rfl, by decide +kernel, by decide +kernel, by decide +kernel⟩

end Cedt

/-! ## RQSC -/

inductive Gas.AddressSpace where
  | systemMemory | systemIo | pciConfigSpace | embeddedController | smbus | systemCmos | pciBarTarget | ipmi
  | generalPursposeIo | genericSerialBus | platformCommunicationsChannel | platformRuntimeMechanism
  | functionalFixedHardware
  deriving DecidableEq, Repr

def Gas.AddressSpace.toU8 : AddressSpace → UInt8
  | functionalFixedHardware => 0x7f
  | space => UInt8.ofNat space.ctorIdx

inductive Gas.AccessSize where
  | undefined | byteAccess | wordAccess | dwordAccess | qwordAccess
  deriving DecidableEq, Repr

structure Gas where
  addressSpaceId : Gas.AddressSpace
  registerBitWidth : UInt8
  registerBitOffset : UInt8
  accessSize : Gas.AccessSize
  address : UInt64
  deriving DecidableEq, Repr

def Gas.default : Gas := ⟨.systemMemory, 0, 0, .undefined, 0⟩

def Gas.toAmlBytes (self : Gas) : List UInt8 :=
  [self.addressSpaceId.toU8, self.registerBitWidth, self.registerBitOffset, UInt8.ofNat self.accessSize.ctorIdx] ++
    qword self.address

/-- `ResourceID`, with the fields of its variants. -/
inductive ResourceId where
  | cache (cacheId : UInt32)
  | memoryAffinityStructure (proximityDomain : UInt32) (rawBandwidthPerBlock : UInt64)
  | acpiDevice (acpiHardwareId : UInt64) (acpiUniqueId : UInt32)
  | pciDevice (bdf : UInt32)
  | vendorSpecific (type : UInt8) (data : List UInt8)
  deriving DecidableEq, Repr

def ResourceId.len : ResourceId → Nat
  | cache _ => 1 + 12
  | memoryAffinityStructure _ _ => 1 + 20
  | acpiDevice _ _ => 1 + 12
  | pciDevice _ => 1 + 12
  | vendorSpecific _ data => 1 + data.length

def ResourceId.toAmlBytes : ResourceId → List UInt8
  | cache cacheId => [0] ++ dword cacheId ++ dword 0 ++ dword 0
  | memoryAffinityStructure domain bandwidth => [1] ++ dword domain ++ dword 0 ++ dword 0 ++ qword bandwidth
  | acpiDevice hid uid => [2] ++ qword hid ++ dword uid
  | pciDevice bdf => [3] ++ dword bdf ++ dword 0 ++ dword 0
  | vendorSpecific type data => [type] ++ data

inductive ResourceType where
  | cache | memory
  deriving DecidableEq, Repr

structure ResourceStructure where
  resourceType : ResourceType
  resourceFlags : UInt16
  resourceId : ResourceId
  deriving DecidableEq, Repr

/-- The field that `new` computes. -/
def ResourceStructure.length (self : ResourceStructure) : UInt16 := UInt16.ofNat (1 * 3 + 2 * 2 + self.resourceId.len)

def ResourceStructure.toAmlBytes (self : ResourceStructure) : List UInt8 :=
  [UInt8.ofNat self.resourceType.ctorIdx, 0] ++ word self.length ++ word self.resourceFlags ++ [0] ++
    self.resourceId.toAmlBytes

inductive ControllerType where
  | capacity | bandwidth
  deriving DecidableEq, Repr

structure QosController where
  controllerType : UInt8
  length : UInt16
  register : Gas
  rcidCount : UInt32
  mcidCount : UInt32
  controllerFlags : UInt16
  numberOfResources : UInt16
  resourceStructure : List ResourceStructure
  deriving DecidableEq, Repr

namespace QosController

def new (controllerType : ControllerType) (register : Gas) (rcidCount mcidCount : UInt32) (controllerFlags : UInt16) :
    QosController := ⟨UInt8.ofNat controllerType.ctorIdx, 28, register, rcidCount, mcidCount, controllerFlags, 0, []⟩

def default : QosController := ⟨0, 0, .default, 0, 0, 0, 0, []⟩

def addResource (self : QosController) (resource : ResourceStructure) : Outcome Empty QosController :=
  if self.numberOfResources.toNat + 1 < 2 ^ 16 ∧ self.length.toNat + resource.length.toNat < 2 ^ 16 then
    .ok { self with
      numberOfResources := self.numberOfResources + 1
      length := self.length + resource.length
      resourceStructure := self.resourceStructure ++ [resource] }
  else .panic

def toAmlBytes (self : QosController) : List UInt8 :=
  [self.controllerType, 0] ++ word self.length ++ self.register.toAmlBytes ++ dword self.rcidCount ++
    dword self.mcidCount ++ word self.controllerFlags ++ word self.numberOfResources ++
    self.resourceStructure.flatMap ResourceStructure.toAmlBytes

/-- The controllers that calls lead to. -/
inductive Built : QosController → Prop
  | new (controllerType register rcidCount mcidCount controllerFlags) :
      Built (new controllerType register rcidCount mcidCount controllerFlags)
  | default : Built default
  | addResource {self self'} (resource) (h : Built self) (hadd : self.addResource resource = .ok self') : Built self'

theorem length_resource (resource : ResourceStructure) : resource.length.toNat ≤ resource.toAmlBytes.length := by
  obtain ⟨type, flags, id⟩ := resource
  cases id <;> simp [ResourceStructure.length, ResourceStructure.toAmlBytes, ResourceId.len, ResourceId.toAmlBytes]
  omega

theorem Built.length_le {self : QosController} (h : Built self) : self.length.toNat ≤ self.toAmlBytes.length := by
  induction h with
  | new controllerType register rcidCount mcidCount controllerFlags => simp [QosController.new, toAmlBytes, Gas.toAmlBytes]
  | default => exact Nat.zero_le _
  | @addResource self self' resource h hadd ih =>
    have hres := length_resource resource
    unfold QosController.addResource at hadd
    split at hadd
    · rename_i hfit
      cases hadd
      have hlen : (self.length + resource.length).toNat = self.length.toNat + resource.length.toNat := by
        rw [UInt16.toNat_add, Nat.mod_eq_of_lt hfit.2]
      simp only [toAmlBytes, flatMap_append, flatMap_singleton, length_append, length_word, hlen] at ih ⊢
      omega
    · cases hadd

end QosController

/-- A table whose checksum is computed anew. -/
structure Rqsc where
  header : TableHeader
  structures : List QosController

namespace Rqsc

variable (oemId : Vector UInt8 6) (oemTableId : Vector UInt8 8) (oemRevision : UInt32)

def new : Rqsc :=
  let header := TableHeader.new (ascii #v['R', 'Q', 'S', 'C']) 36 oemId oemTableId oemRevision
  ⟨{ header with checksum := (Checksum.default.append header.asBytes).value }, []⟩

def toAmlBytes (self : Rqsc) : List UInt8 :=
  self.header.asBytes ++ (dword (UInt32.ofNat self.structures.length) ++
    self.structures.flatMap QosController.toAmlBytes)

def addController (self : Rqsc) (q : QosController) : Outcome Empty Rqsc := do
  let newLen ← addU32 q.length.toUInt32 self.header.length
  let self : Rqsc := ⟨{ self.header with length := newLen, checksum := 0 }, self.structures ++ [q]⟩
  return { self with header := { self.header with checksum := (Checksum.default.append self.toAmlBytes).value } }

structure After (controllers : List QosController) (t : Rqsc) : Prop where
  structures : t.structures = controllers
  sum : t.toAmlBytes.sum = 0
  length : t.header.length.toNat ≤ 36 + (controllers.flatMap QosController.toAmlBytes).length

theorem sum_with_checksum (header : TableHeader) (hzero : header.checksum = 0) (rest : List UInt8) :
    { header with checksum := (Checksum.default.append (header.asBytes ++ rest)).value }.asBytes.sum + rest.sum = 0 := by
  have hvalue := (Checksum.default.append (header.asBytes ++ rest)).rawValue_add_value
  rw [Checksum.rawValue_append] at hvalue
  simp only [sum_append, sum_asBytes, openSum_checksum, Checksum.default, hzero] at hvalue ⊢
  grind

theorem after_new : After [] (new oemId oemTableId oemRevision) := by
  refine ⟨rfl, ?_, Nat.le_refl _⟩
  have hsum := sum_with_checksum (.new (ascii #v['R', 'Q', 'S', 'C']) 36 oemId oemTableId oemRevision) rfl []
  rw [append_nil, sum_nil, UInt8.add_zero] at hsum
  have hcount : (dword 0 ++ []).sum = 0 := by decide
  rw [toAmlBytes, sum_append, new, hsum, UInt8.zero_add]
  exact hcount

theorem addController_eq_ok {controllers : List QosController} {q : QosController} {t : Rqsc} (h : After controllers t)
    (hq : q.Built) (hfit : 40 + ((controllers ++ [q]).flatMap QosController.toAmlBytes).length < 2 ^ 32) :
    ∃ t', t.addController q = .ok t' ∧ After (controllers ++ [q]) t' := by
  have hle := hq.length_le
  have hlen := h.length
  simp only [flatMap_append, flatMap_singleton, length_append] at hfit ⊢
  obtain ⟨newLen, hadd, hnew⟩ := addU32_of_lt (a := q.length.toUInt32) (b := t.header.length) (by
    rw [UInt16.toNat_toUInt32]
    omega)
  rw [UInt16.toNat_toUInt32] at hnew
  refine ⟨_, by rw [addController, hadd]; rfl, by rw [h.structures], ?_, ?_⟩
  · rw [toAmlBytes, sum_append]
    exact sum_with_checksum { t.header with length := newLen, checksum := 0 } rfl _
  simp only [flatMap_append, flatMap_singleton, length_append]
  omega

/-- **The length is never right**: the four bytes of the count are not in it.  The checksum is. -/
theorem rqsc_length_short (controllers : List QosController) (hbuilt : ∀ q ∈ controllers, q.Built)
    (hfit : 40 + (controllers.flatMap QosController.toAmlBytes).length < 2 ^ 32) :
    ∃ t, controllers.foldlM addController (new oemId oemTableId oemRevision) = .ok t ∧ t.structures = controllers ∧
      SumsToZero t.toAmlBytes ∧ ¬StatesLength t.toAmlBytes := by
  obtain ⟨t, hrun, h⟩ := foldlM_total After controllers
    (fun done t q hpre h => addController_eq_ok h (hbuilt q (hpre.subset (by simp)))
      (Nat.lt_of_le_of_lt (Nat.add_le_add_left (length_flatMap_le hpre) _) hfit))
    (after_new oemId oemTableId oemRevision)
  refine ⟨t, hrun, h.structures, (sum_eq_zero_iff _).1 h.sum, ?_⟩
  have hlen := h.length
  rw [toAmlBytes, StatesLength, fieldAt_asBytes, Option.some.injEq, h.structures]
  simp only [length_append, length_asBytes, length_dword]
  omega

theorem rqsc_length_short_one :
    ∃ q, (QosController.new .bandwidth .default 1 1 0).addResource ⟨.cache, 0, .cache 7⟩ = .ok q ∧
      ∃ t, [q].foldlM addController (new (Vector.replicate 6 0) (Vector.replicate 8 0) 0) = .ok t ∧ t.structures = [q] ∧
        SumsToZero t.toAmlBytes ∧ ¬StatesLength t.toAmlBytes :=
  ⟨_, rfl, rqsc_length_short _ _ _ _
    (forall_mem_singleton.2 ((QosController.Built.new ..).addResource ⟨.cache, 0, .cache 7⟩ rfl)) (by decide)⟩

theorem empty_rqsc_length :
    let bytes := (new (Vector.replicate 6 0) (Vector.replicate 8 0) 0).toAmlBytes
    bytes.length = 40 ∧ fieldAt bytes 4 4 = some 36 := by
  decide +kernel

end Rqsc

end RustVmm.AcpiTables
