import RustVmm.AcpiTables.Table

/-!
# RIMT, VIOT and HEST

Tables that emit the number of their structures, which they do not keep: the running sum takes one more for each.

* `sumsToZero_counted_iff`, `counted_tables_iff` — when this is right.
-/

set_option autoImplicit false

namespace RustVmm.AcpiTables

open Lib Lib.Parser TableHeader
open List hiding Vector

def flagIf (b : Bool) (flag : UInt32) : UInt32 := if b then flag else 0

structure PciDevice where
  segment : UInt16
  bus : UInt8
  device : UInt8
  function : UInt8
  device_lt : device < 32
  function_lt : function < 8
  deriving DecidableEq, Repr

def PciDevice.asBdf (self : PciDevice) : UInt16 :=
  (self.bus.toUInt16 <<< 8) ||| (self.device.toUInt16 <<< 3) ||| self.function.toUInt16

/-! ## RIMT -/

structure InterruptWire where
  num : UInt32
  levelTrig : Bool
  polarityHigh : Bool
  aplicId : UInt16
  deriving DecidableEq, Repr

def InterruptWire.toAmlBytes (self : InterruptWire) : List UInt8 :=
  dword self.num ++ word (flagIf self.levelTrig 1 ||| flagIf self.polarityHigh 2).toUInt16 ++ word self.aplicId

structure IdMapping where
  srcId : UInt32
  dstId : UInt32
  numIds : UInt32
  dstIommuOffset : UInt32
  ats : Bool
  pri : Bool
  rciep : Bool
  deriving DecidableEq, Repr

def IdMapping.toAmlBytes (self : IdMapping) : List UInt8 :=
  dword self.srcId ++ dword self.dstId ++ dword self.numIds ++ dword self.dstIommuOffset ++
    dword (flagIf self.ats 1 ||| flagIf self.pri 2 ||| flagIf self.rciep 4)

inductive RimtDevice where
  | iommu (id : UInt16) (baseAddr : Option UInt64) (pciDevice : Option PciDevice) (proximityDomain : Option UInt32)
      (intWires : Option (List InterruptWire))
  | pcieRootComplex (id pciSegment : UInt16) (ats pri : Bool) (idMappings : Option (List IdMapping))
  | platform (id : UInt16) (name : List UInt8) (idMappings : Option (List IdMapping))
  deriving DecidableEq, Repr

namespace RimtDevice

def len : RimtDevice → Nat
  | iommu _ _ _ _ intWires => 32 + 8 * (intWires.getD []).length
  | pcieRootComplex _ _ _ _ idMappings => 16 + 20 * (idMappings.getD []).length
  | platform _ name idMappings => 12 + name.length + 1 + 20 * (idMappings.getD []).length

def toAmlBytes (self : RimtDevice) : List UInt8 :=
  match self with
  | iommu id baseAddr pciDevice proximityDomain intWires =>
    [0, 1] ++ word (UInt16.ofNat self.len) ++ word id ++ word 0 ++ qword (baseAddr.getD 0) ++
      dword (flagIf pciDevice.isSome 1 ||| flagIf proximityDomain.isSome 2) ++
      word ((pciDevice.map PciDevice.segment).getD 0) ++ word ((pciDevice.map PciDevice.asBdf).getD 0) ++
      dword (proximityDomain.getD 0) ++ word (UInt16.ofNat (intWires.getD []).length) ++ word 32 ++
      (intWires.getD []).flatMap InterruptWire.toAmlBytes
  | pcieRootComplex id pciSegment ats pri idMappings =>
    [1, 1] ++ word (UInt16.ofNat self.len) ++ word id ++ word pciSegment ++ dword (flagIf ats 1 ||| flagIf pri 2) ++
      word 16 ++ word (UInt16.ofNat (idMappings.getD []).length) ++ (idMappings.getD []).flatMap IdMapping.toAmlBytes
  | platform id name idMappings =>
    [2, 1] ++ word (UInt16.ofNat self.len) ++ word id ++ word 0 ++ word (UInt16.ofNat (12 + name.length + 1)) ++
      word (UInt16.ofNat (idMappings.getD []).length) ++ name ++ [0] ++
      (idMappings.getD []).flatMap IdMapping.toAmlBytes

theorem length_toAmlBytes (self : RimtDevice) : self.toAmlBytes.length = self.len := by
  have hwire : ∀ wire : InterruptWire, wire.toAmlBytes.length = 8 := fun wire => by simp [InterruptWire.toAmlBytes]
  have hmapping : ∀ mapping : IdMapping, mapping.toAmlBytes.length = 20 := fun mapping => by simp [IdMapping.toAmlBytes]
  cases self <;>
    simp only [toAmlBytes, len, length_append, length_cons, length_nil, length_word, length_dword,
      length_qword, length_flatMap_const hwire, length_flatMap_const hmapping]

end RimtDevice

abbrev Rimt := HandleTable RimtDevice

section

variable (oemId : Vector UInt8 6) (oemTableId : Vector UInt8 8) (oemRevision : UInt32)

/-- The running sum counts `DEVICE_OFFSET`. -/
def Rimt.new : Rimt where
  toNodeTable := NodeTable.new (.new (ascii #v['R', 'I', 'M', 'T']) 48 oemId oemTableId oemRevision) (dword 48)
  handleOffset := 48

/-- `add_iommu`, which returns the offset, `add_pcie_root_complex` and `add_platform`. -/
def Rimt.add (self : Rimt) (dev : RimtDevice) : Outcome Empty (Nat × Rimt) :=
  self.place 64 dev.len (fun c => (c.add (u8sum dev.toAmlBytes)).add 1) dev

def Rimt.toAmlBytes (self : Rimt) : List UInt8 :=
  self.header.asBytes ++ (dword (UInt32.ofNat self.structures.length) ++ dword 48 ++ dword 0 ++
    self.structures.flatMap RimtDevice.toAmlBytes)

/-! ## VIOT -/

inductive ViotNode where
  | pciRange (first last : PciDevice) (translationOffset : UInt16)
  | mmioEndpoint (endpoint : UInt32) (baseAddr : UInt64) (translationOffset : UInt16)
  | virtIoPciIommu (device : PciDevice)
  | virtIoMmioIommu (baseAddr : UInt64)
  deriving DecidableEq, Repr

def ViotNode.len : ViotNode → Nat
  | pciRange _ _ _ => 24
  | mmioEndpoint _ _ _ => 24
  | virtIoPciIommu _ => 16
  | virtIoMmioIommu _ => 16

def ViotNode.toAmlBytes : ViotNode → List UInt8
  | pciRange first last translationOffset =>
    [1, 0] ++ word 24 ++ dword first.asBdf.toUInt32 ++ word first.segment ++ word last.segment ++ word first.asBdf ++
      word last.asBdf ++ word translationOffset ++ word 0 ++ dword 0
  | mmioEndpoint endpoint baseAddr translationOffset =>
    [2, 0] ++ word 24 ++ dword endpoint ++ qword baseAddr ++ word translationOffset ++ word 0 ++ dword 0
  | virtIoPciIommu device => [3, 0] ++ word 16 ++ word device.segment ++ word device.asBdf ++ qword 0
  | virtIoMmioIommu baseAddr => [4, 0] ++ word 16 ++ dword 0 ++ qword baseAddr

theorem ViotNode.length_toAmlBytes (self : ViotNode) : self.toAmlBytes.length = self.len := by
  cases self <;> simp [toAmlBytes, len]

abbrev Viot := HandleTable ViotNode

/-- The running sum counts `NODE_OFFSET`. -/
def Viot.new : Viot where
  toNodeTable := NodeTable.new (.new (ascii #v['V', 'I', 'O', 'T']) 48 oemId oemTableId oemRevision) (word 48)
  handleOffset := 48

/-- `add_pci_range` and `add_mmio_endpoint`, and the two calls for IOMMUs, which return the offset. -/
def Viot.add (self : Viot) (node : ViotNode) : Outcome Empty (Nat × Viot) :=
  self.place 16 node.len (fun c => (c.add (u8sum node.toAmlBytes)).add 1) node

def Viot.toAmlBytes (self : Viot) : List UInt8 :=
  self.header.asBytes ++ (word (UInt16.ofNat self.structures.length) ++ word 48 ++ qword 0 ++
    self.structures.flatMap ViotNode.toAmlBytes)

/-! ## HEST -/

/-- The structures are any types that emit their `as_bytes`: they are given by these bytes. -/
abbrev Hest := NodeTable (List UInt8)

def Hest.new : Hest := NodeTable.new (.new (ascii #v['H', 'E', 'S', 'T']) 40 oemId oemTableId oemRevision) []

def Hest.addStructure (self : Hest) (t : List UInt8) : Outcome Empty Hest :=
  self.push (UInt32.ofNat t.length) (fun c => (c.append t).add 1) t

def Hest.toAmlBytes (self : Hest) : List UInt8 :=
  self.header.asBytes ++ (dword (UInt32.ofNat self.structures.length) ++ self.structures.flatten)

/-! ## The count -/

/-- The bytes of a count above the lowest one sum to zero. -/
def HighBytesCancel (n : Nat) : Prop := (n / 2 ^ 8 % 2 ^ 8 + n / 2 ^ 16 % 2 ^ 8 + n / 2 ^ 24 % 2 ^ 8) % 2 ^ 8 = 0

instance : DecidablePred HighBytesCancel := fun n => by unfold HighBytesCancel; infer_instance

theorem sum_dword_iff {n : Nat} (h : n < 2 ^ 32) :
    (dword (UInt32.ofNat n)).sum = UInt8.ofNat n ↔ HighBytesCancel n := by
  rw [← UInt8.toNat_inj, dword, UInt32.toNat_ofNat_of_lt' h, HighBytesCancel]
  simp [leBytes, Nat.div_div_eq_div_mul]
  omega

theorem sum_word_iff {n : Nat} (h : n < 2 ^ 16) : (word (UInt16.ofNat n)).sum = UInt8.ofNat n ↔ n < 256 := by
  rw [← UInt8.toNat_inj, word, UInt16.toNat_ofNat_of_lt' h]
  simp [leBytes]
  omega

variable {α : Type}

theorem sum_map_add_one (emit : α → List UInt8) (sts : List α) :
    (sts.map fun st => (emit st).sum + 1).sum = (sts.flatMap emit).sum + UInt8.ofNat sts.length := by
  induction sts with
  | nil => rfl
  | cons st sts ih =>
    have hofNat : UInt8.ofNat (sts.length + 1) = UInt8.ofNat sts.length + 1 := UInt8.ofNat_add _ _
    grind

variable {offset : List UInt8}
variable {emit : α → List UInt8} {sts : List α}

theorem sumsToZero_counted_iff {t : Table} {size : Nat}
    (h : t.Tracks size (offset.sum + (sts.map fun st => (emit st).sum + 1).sum)) (count : List UInt8)
    {reserved : List UInt8} (hreserved : reserved.sum = 0) :
    SumsToZero (t.header.asBytes ++ (count ++ offset ++ reserved ++ sts.flatMap emit)) ↔
      count.sum = UInt8.ofNat sts.length := by
  rw [h.sumsToZero_iff, sum_map_add_one]
  simp only [sum_append, hreserved]
  constructor
  · grind
  · grind

theorem HandleTable.counted_spec (width : Nat) {len : α → Nat}
    (hlen : ∀ st, (emit st).length = len st) {t₀ : HandleTable α} (htracks : t₀.Tracks 12 offset.sum)
    (hoffset : t₀.handleOffset = 48) (hnil : t₀.structures = []) (hstart : 48 < 2 ^ width)
    (hsmall : ∀ st ∈ sts, len st < 2 ^ width) (hfit : 48 + (sts.flatMap emit).length < 2 ^ 32) :
    let run := sts.foldlM
      (fun t st => Prod.snd <$> t.place width (len st) (fun c => (c.add (u8sum (emit st))).add 1) st) t₀
    (48 + (sts.flatMap emit).length < 2 ^ width → ∃ t, run = .ok t ∧ t.structures = sts ∧
      ∀ count reserved : List UInt8, count.length + offset.length + reserved.length = 12 → reserved.sum = 0 →
        StatesLength (t.header.asBytes ++ (count ++ offset ++ reserved ++ sts.flatMap emit)) ∧
        (SumsToZero (t.header.asBytes ++ (count ++ offset ++ reserved ++ sts.flatMap emit)) ↔
          count.sum = UInt8.ofNat sts.length)) ∧
    (¬48 + (sts.flatMap emit).length < 2 ^ width → run = .panic) := by
  have hflat : (sts.flatMap emit).length = (sts.map len).sum := by rw [length_flatMap, funext hlen]
  have hsum : LEN + (12 + (sts.map len).sum) = 48 + (sts.flatMap emit).length := by
    rw [LEN]
    omega
  have hdata : ∀ (st : α) (c : Checksum), ((c.add (u8sum (emit st))).add 1).rawValue =
      c.rawValue + ((emit st).sum + 1) := fun st c => by simp; grind
  obtain ⟨hok, hpanic⟩ := foldlM_place hdata htracks hoffset hstart hsmall (by rw [hsum]; exact hfit)
  rw [hsum] at hok hpanic
  refine ⟨fun hroom => ?_, hpanic⟩
  obtain ⟨t, hrun, hend, hsts, _⟩ := hok hroom
  refine ⟨t, hrun, by rw [hsts, hnil, nil_append], fun count reserved hwidth hzero => ⟨?_, ?_⟩⟩
  · rw [hend.statesLength_iff]
    simp only [length_append, hflat]
    omega
  · exact sumsToZero_counted_iff hend count hzero

theorem Rimt.run_spec (devices : List RimtDevice)
    (hfit : 48 + (devices.flatMap RimtDevice.toAmlBytes).length < 2 ^ 32) :
    ∃ t, devices.foldlM (fun t dev => Prod.snd <$> add t dev) (new oemId oemTableId oemRevision) = .ok t ∧
      StatesLength t.toAmlBytes ∧ (SumsToZero t.toAmlBytes ↔ HighBytesCancel devices.length) := by
  have hcount := length_le_of_ne_nil (f := RimtDevice.toAmlBytes) (fun dev => by cases dev <;> nofun) devices
  have htracks : (new oemId oemTableId oemRevision).Tracks 12 (dword 48).sum := Table.tracks_new rfl rfl (dword 48)
  obtain ⟨t, hrun, hsts, hspec⟩ := (HandleTable.counted_spec 64 RimtDevice.length_toAmlBytes htracks rfl rfl (by decide)
    (fun dev hdev => by
      have hle := length_le_length_flatMap (f := RimtDevice.toAmlBytes) hdev
      rw [dev.length_toAmlBytes] at hle
      omega) hfit).1 (by omega)
  obtain ⟨hlength, hsum⟩ := hspec (dword (UInt32.ofNat devices.length)) (dword 0) rfl rfl
  rw [sum_dword_iff (by omega)] at hsum
  exact ⟨t, hrun, by rw [toAmlBytes, hsts]; exact hlength, by rw [toAmlBytes, hsts]; exact hsum⟩

theorem Viot.run_spec (nodes : List ViotNode) (hcount : nodes.length < 2 ^ 16)
    (hfit : 48 + (nodes.flatMap ViotNode.toAmlBytes).length < 2 ^ 32) :
    let run := nodes.foldlM (fun t node => Prod.snd <$> add t node) (new oemId oemTableId oemRevision)
    (48 + (nodes.flatMap ViotNode.toAmlBytes).length < 2 ^ 16 → ∃ t, run = .ok t ∧
      StatesLength t.toAmlBytes ∧ (SumsToZero t.toAmlBytes ↔ nodes.length < 256)) ∧
    (¬48 + (nodes.flatMap ViotNode.toAmlBytes).length < 2 ^ 16 → run = .panic) := by
  have htracks : (new oemId oemTableId oemRevision).Tracks 12 (word 48).sum := Table.tracks_new rfl rfl (word 48)
  obtain ⟨hok, hpanic⟩ := HandleTable.counted_spec 16 ViotNode.length_toAmlBytes htracks rfl rfl (by decide)
    (fun node _ => by cases node <;> simp [ViotNode.len]) hfit
  refine ⟨fun hroom => ?_, hpanic⟩
  obtain ⟨t, hrun, hsts, hspec⟩ := hok hroom
  obtain ⟨hlength, hsum⟩ := hspec (word (UInt16.ofNat nodes.length)) (qword 0) rfl rfl
  rw [sum_word_iff hcount] at hsum
  exact ⟨t, hrun, by rw [toAmlBytes, hsts]; exact hlength, by rw [toAmlBytes, hsts]; exact hsum⟩

theorem Hest.run_spec (structures : List (List UInt8)) (hcount : structures.length < 2 ^ 32)
    (hfit : 40 + structures.flatten.length < 2 ^ 32) :
    ∃ t, structures.foldlM addStructure (new oemId oemTableId oemRevision) = .ok t ∧
      StatesLength t.toAmlBytes ∧ (SumsToZero t.toAmlBytes ↔ HighBytesCancel structures.length) := by
  have hadd : NodeTable.Announces addStructure List.length (fun st => st.sum + 1) structures :=
    fun _ _ _ => ⟨_, rfl, fun c => by simp; grind⟩
  have hlen : LEN + (4 + (structures.map List.length).sum) = 40 + structures.flatten.length := by
    rw [length_flatten, LEN]
    omega
  have hnew : (new oemId oemTableId oemRevision).Tracks 4 [].sum := Table.tracks_new rfl rfl []
  obtain ⟨t, hrun, htracks, hsts⟩ := hadd.foldlM hnew (by rw [hlen]; exact hfit)
  have hsts : t.structures = structures := hsts
  refine ⟨t, hrun, ?_, ?_⟩
  · rw [toAmlBytes, htracks.statesLength_iff, hsts, length_append, length_dword, length_flatten]
  · have hsum : SumsToZero (t.header.asBytes ++ (dword (UInt32.ofNat structures.length) ++ [] ++ [] ++
        structures.flatMap id)) ↔ _ := sumsToZero_counted_iff htracks _ rfl
    rw [sum_dword_iff hcount, flatMap_id] at hsum
    rw [toAmlBytes, hsts]
    exact hsum

/-- **When the checksum is right.**  The length always is; the sum of the bytes is zero exactly if the bytes of the
count above the lowest one cancel, for the 16 bits of VIOT if they are zero. -/
theorem counted_tables_iff :
    (∀ devices : List RimtDevice, 48 + (devices.flatMap RimtDevice.toAmlBytes).length < 2 ^ 32 →
      ((∃ t, devices.foldlM (fun t dev => Prod.snd <$> Rimt.add t dev) (Rimt.new oemId oemTableId oemRevision) = .ok t ∧
        WellFormed t.toAmlBytes) ↔ HighBytesCancel devices.length)) ∧
    (∀ nodes : List ViotNode, nodes.length < 2 ^ 16 → 48 + (nodes.flatMap ViotNode.toAmlBytes).length < 2 ^ 32 →
      ((∃ t, nodes.foldlM (fun t node => Prod.snd <$> Viot.add t node) (Viot.new oemId oemTableId oemRevision) = .ok t ∧
        WellFormed t.toAmlBytes) ↔ nodes.length < 256)) ∧
    (∀ structures : List (List UInt8), structures.length < 2 ^ 32 → 40 + structures.flatten.length < 2 ^ 32 →
      ((∃ t, structures.foldlM Hest.addStructure (Hest.new oemId oemTableId oemRevision) = .ok t ∧
        WellFormed t.toAmlBytes) ↔ HighBytesCancel structures.length)) := by
  refine ⟨fun devices hfit => ?_, fun nodes hcount hfit => ?_, fun structures hcount hfit => ?_⟩
  · obtain ⟨t, hrun, hlength, hsum⟩ := Rimt.run_spec oemId oemTableId oemRevision devices hfit
    simp [hrun, WellFormed, hlength, hsum]
  · obtain ⟨hok, hpanic⟩ := Viot.run_spec oemId oemTableId oemRevision nodes hcount hfit
    by_cases hroom : 48 + (nodes.flatMap ViotNode.toAmlBytes).length < 2 ^ 16
    · obtain ⟨t, hrun, hlength, hsum⟩ := hok hroom
      simp [hrun, WellFormed, hlength, hsum]
    · -- More bytes than `handle_offset` can say are more than 255 nodes.
      have hlong : (nodes.flatMap ViotNode.toAmlBytes).length ≤ 24 * nodes.length := by
        rw [length_flatMap, Nat.mul_comm, ← length_map]
        refine sum_le_card_nsmul _ _ fun n hn => ?_
        obtain ⟨node, _, rfl⟩ := mem_map.1 hn
        cases node <;> simp [ViotNode.toAmlBytes]
      simp [hpanic hroom]
      omega
  · obtain ⟨t, hrun, hlength, hsum⟩ := Hest.run_spec oemId oemTableId oemRevision structures hcount hfit
    simp [hrun, WellFormed, hlength, hsum]

end

theorem counted_tables_iff_three :
    let id : Vector UInt8 6 := Vector.replicate 6 0
    let tableId : Vector UInt8 8 := Vector.replicate 8 0
    let bridge : PciDevice := ⟨0, 1, 2, 0, by decide, by decide⟩
    let devices : List RimtDevice := [.iommu 1 (some 0x10000000) (some bridge) none (some [⟨33, true, false, 0⟩]),
      .pcieRootComplex 2 0 true false (some [⟨0, 0, 256, 48, true, false, false⟩]), .platform 3 [0x75, 0x61] none]
    let nodes : List ViotNode := [.virtIoPciIommu bridge, .pciRange bridge bridge 48, .mmioEndpoint 7 0xa000000 48]
    (∃ t, devices.foldlM (fun t dev => Prod.snd <$> Rimt.add t dev) (Rimt.new id tableId 0) = .ok t ∧
      WellFormed t.toAmlBytes) ∧
    (∃ t, nodes.foldlM (fun t node => Prod.snd <$> Viot.add t node) (Viot.new id tableId 0) = .ok t ∧
      WellFormed t.toAmlBytes) ∧
    ∃ t, [[6, 0], [9, 0, 1], [7]].foldlM Hest.addStructure (Hest.new id tableId 0) = .ok t ∧ WellFormed t.toAmlBytes := by
  intro id tableId bridge devices nodes
  obtain ⟨hrimt, hviot, hhest⟩ := counted_tables_iff id tableId 0
  exact ⟨(hrimt _ (by decide)).2 (by decide), (hviot _ (by decide) (by decide)).2 (by decide),
    (hhest _ (by decide) (by decide)).2 (by decide)⟩

theorem viot_count_carries : ∃ t, (List.replicate 256 (.virtIoMmioIommu 0)).foldlM
    (fun t node => Prod.snd <$> Viot.add t node) (Viot.new (Vector.replicate 6 0) (Vector.replicate 8 0) 0) = .ok t ∧
      StatesLength t.toAmlBytes ∧ ¬SumsToZero t.toAmlBytes := by
  have hlen : ((List.replicate 256 (ViotNode.virtIoMmioIommu 0)).flatMap ViotNode.toAmlBytes).length = 4096 := by
    rw [length_flatMap, map_replicate, sum_replicate]
    rfl
  obtain ⟨t, hrun, hlength, hsum⟩ := (Viot.run_spec (Vector.replicate 6 0) (Vector.replicate 8 0) 0
    (List.replicate 256 (.virtIoMmioIommu 0)) (by rw [length_replicate]; decide) (by rw [hlen]; decide)).1
    (by rw [hlen]; decide)
  exact ⟨t, hrun, hlength, by rw [hsum, length_replicate]; decide⟩

end RustVmm.AcpiTables
