import RustVmm.AcpiTables.Entries
import RustVmm.AcpiTables.Madt
import RustVmm.AcpiTables.Sdt

/-!
# RHCT

Model of `rhct.rs`.  Handles are sums of lengths that `len` computes, and the bytes are written by `to_aml_bytes`.

* `rhct_walk_and_handles` — the nodes are found by their lengths, and at their handles.
* `tables_wellFormed` — length and checksum of this table and of five others.
-/

set_option autoImplicit false

namespace RustVmm.AcpiTables

open Lib Lib.Parser Outcome
open List hiding Vector

/-! ## Nodes -/

inductive VirtualAddressScheme where
  | sv39 | sv48 | sv57
  deriving DecidableEq, Repr

inductive RhctNode where
  | isaString (string : List UInt8)
  | cmo (cbomBlockSize cbopBlockSize cbozBlockSize : UInt8)
  | mmu (scheme : VirtualAddressScheme)
  | hartInfo (processorUid : UInt32) (handles : List UInt32)
  deriving DecidableEq, Repr

namespace RhctNode

def nodeType : RhctNode → UInt16
  | isaString _ => 0
  | cmo _ _ _ => 1
  | mmu _ => 2
  | hartInfo _ _ => 65535

def len : RhctNode → Nat
  | isaString string =>
    let len := 8 + string.length + 1
    if len % 2 = 0 then len else len + 1
  | cmo _ _ _ => 10
  | mmu _ => 8
  | hartInfo _ handles => 12 + 4 * handles.length

/-- The length of a string with its terminator, `self.string.len() as u16 + 1`. -/
def strlen (string : List UInt8) : UInt16 := UInt16.ofNat string.length + 1

/-- This addition does not overflow. -/
def Encodes : RhctNode → Prop
  | isaString string => string.length % 2 ^ 16 + 1 < 2 ^ 16
  | _ => True

instance : DecidablePred Encodes := fun node => by cases node <;> unfold Encodes <;> infer_instance

def payload : RhctNode → List UInt8
  | isaString string => word (strlen string) ++ string ++ [0] ++ if strlen string % 2 = 1 then [0] else []
  | cmo cbom cbop cboz => [0, cbom, cbop, cboz]
  | mmu scheme => [0, UInt8.ofNat scheme.ctorIdx]
  | hartInfo uid handles => word (UInt16.ofNat handles.length) ++ dword uid ++ handles.flatMap dword

def asBytes (self : RhctNode) : List UInt8 :=
  word self.nodeType ++ word (UInt16.ofNat self.len) ++ word 1 ++ self.payload

def toAmlBytes (self : RhctNode) : Outcome Empty (List UInt8) := if self.Encodes then .ok self.asBytes else .panic

theorem strlen_odd_iff (string : List UInt8) : strlen string % 2 = 1 ↔ string.length % 2 = 0 := by
  rw [strlen, ← UInt16.toNat_inj]
  simp
  omega

variable (self : RhctNode)

theorem length_asBytes : self.asBytes.length = self.len := by
  cases self with
  | isaString string =>
    simp only [asBytes, payload, len, length_append, length_word, length_singleton]
    by_cases hodd : strlen string % 2 = 1
    · have hlen := (strlen_odd_iff string).1 hodd
      rw [if_pos hodd, if_neg (by omega), length_singleton]
      omega
    · have hlen := mt (strlen_odd_iff string).2 hodd
      rw [if_neg hodd, if_pos (by omega), length_nil]
      omega
  | cmo cbom cbop cboz => rfl
  | mmu scheme => rfl
  | hartInfo uid handles =>
    simp only [asBytes, payload, len, length_append, length_word, length_dword, length_flatMap_const length_dword]
    omega

theorem len_pos : 4 ≤ self.len := by
  rw [← length_asBytes]
  simp [asBytes]
  omega

theorem even_len : self.len % 2 = 0 := by
  cases self with
  | isaString string =>
    unfold len
    dsimp only
    split <;> omega
  | hartInfo uid handles =>
    rw [len]
    omega
  | _ => rw [len]

theorem fieldAt_asBytes (h : self.len < 2 ^ 16) : fieldAt self.asBytes 2 2 = some self.asBytes.length := by
  have hnat : (UInt16.ofNat self.len).toNat = self.len := UInt16.toNat_ofNat_of_lt' h
  refine fieldAt_of_eq (word self.nodeType) (word 1 ++ self.payload) ?_ (length_word _) ?_
  · rw [length_asBytes, asBytes, append_assoc, word, word, hnat]
  · rw [length_asBytes]
    exact h

end RhctNode

/-! ## The table -/

structure Rhct extends HandleTable RhctNode where
  timebaseFrequency : UInt64
  rhctNodes : UInt32

namespace Rhct

section

variable (oemId : Vector UInt8 6) (oemTableId : Vector UInt8 8) (oemRevision : UInt32) (timebaseFrequency : UInt64)

/-- The fields of `Header` after the common one. -/
def fixed (self : Rhct) : List UInt8 := dword 0 ++ qword self.timebaseFrequency ++ dword self.rhctNodes ++ dword 56

def new : Rhct where
  toNodeTable := NodeTable.new (.new (ascii #v['R', 'H', 'C', 'T']) 56 oemId oemTableId oemRevision)
    (dword 0 ++ qword timebaseFrequency ++ dword 0 ++ dword 56)
  handleOffset := 56
  timebaseFrequency := timebaseFrequency
  rhctNodes := 0

/-- What the four calls below have in common; `update_header` also counts the node. -/
def add (self : Rhct) (node : RhctNode) : Outcome Empty (Nat × Rhct) := do
  let bytes ← node.toAmlBytes
  let rhctNodes ← addU32 self.rhctNodes 1
  let (handle, table) ← self.place 32 node.len
    (fun c => ((c.delete (dword self.rhctNodes)).append (dword rhctNodes)).add (u8sum bytes)) node
  return (handle, { self with toHandleTable := table, rhctNodes := rhctNodes })

def addIsaString (self : Rhct) (string : List UInt8) : Outcome Empty (Nat × Rhct) := self.add (.isaString string)

def addMmuNode (self : Rhct) (scheme : VirtualAddressScheme) : Outcome Empty Rhct := Prod.snd <$> self.add (.mmu scheme)

def addCmo (self : Rhct) (cbom cbop cboz : UInt8) : Outcome Empty (Nat × Rhct) := self.add (.cmo cbom cbop cboz)

def addHartInfo (self : Rhct) (uid : UInt32) (handles : List UInt32) : Outcome Empty Rhct :=
  Prod.snd <$> self.add (.hartInfo uid handles)

def toAmlBytes (self : Rhct) : Outcome Empty (List UInt8) := do
  let nodes ← self.structures.mapM RhctNode.toAmlBytes
  return self.header.asBytes ++ self.fixed ++ nodes.flatten

/-- One call, and the handles so far.  Those of the calls that return none are kept as well. -/
def step (s : List Nat × Rhct) (node : RhctNode) : Outcome Empty (List Nat × Rhct) := do
  let (handle, t) ← s.2.add node
  return (s.1 ++ [handle], t)

structure After (nodes : List RhctNode) (s : List Nat × Rhct) : Prop where
  tracks : s.2.Tracks (20 + (nodes.flatMap RhctNode.asBytes).length)
    (s.2.fixed.sum + (nodes.flatMap RhctNode.asBytes).sum)
  structures : s.2.structures = nodes
  count : s.2.rhctNodes.toNat = nodes.length
  offset : s.2.handleOffset = TableHeader.LEN + (20 + (nodes.flatMap RhctNode.asBytes).length)
  handles : s.1 = (List.range nodes.length).map fun i => 56 + ((nodes.take i).flatMap RhctNode.asBytes).length

theorem after_new : After [] ([], new oemId oemTableId oemRevision timebaseFrequency) where
  tracks := by
    rw [flatMap_nil, sum_nil, UInt8.add_zero]
    exact Table.tracks_new rfl rfl _
  structures := rfl
  count := rfl
  offset := rfl
  handles := rfl

variable {nodes : List RhctNode} {node : RhctNode} {s : List Nat × Rhct}

theorem step_eq_ok (h : After nodes s) (hnode : node.Encodes)
    (hfit : 56 + ((nodes ++ [node]).flatMap RhctNode.asBytes).length < 2 ^ 32) :
    ∃ s', step s node = .ok s' ∧ After (nodes ++ [node]) s' := by
  have hcount := length_le_of_ne_nil (fun node : RhctNode => by
    rw [← length_pos_iff, node.length_asBytes]
    exact Nat.lt_of_lt_of_le (by decide) node.len_pos) (nodes ++ [node])
  rw [length_append, ← h.count] at hcount
  rw [flatMap_append, flatMap_singleton, length_append] at hfit hcount
  obtain ⟨rhctNodes, hadd, hnodes⟩ := addU32_of_lt (a := s.2.rhctNodes) (by
    rw [UInt32.toNat_one]
    omega)
  have hdata : ∀ c : Checksum,
      (((c.delete (dword s.2.rhctNodes)).append (dword rhctNodes)).add (u8sum node.asBytes)).rawValue =
        c.rawValue + ((dword rhctNodes).sum - (dword s.2.rhctNodes).sum + node.asBytes.sum) :=
    fun c => by simp; grind
  have hroom : TableHeader.LEN + (20 + (nodes.flatMap RhctNode.asBytes).length + node.asBytes.length) < 2 ^ 32 := by
    rw [TableHeader.LEN]
    omega
  obtain ⟨table, hplace, htracks, hsts, hoffset⟩ :=
    HandleTable.place_eq_ok h.tracks h.offset hdata hroom hroom node
  rw [node.length_asBytes] at hplace
  refine ⟨(s.1 ++ [s.2.handleOffset], { s.2 with toHandleTable := table, rhctNodes := rhctNodes }), ?_, ?_⟩
  · rw [step, add, RhctNode.toAmlBytes, if_pos hnode, ok_bind, hadd, ok_bind, hplace]
    rfl
  · refine ⟨?_, by rw [hsts, h.structures], ?_, by simpa [Nat.add_assoc] using hoffset, ?_⟩
    · have hsum : s.2.fixed.sum + (nodes.flatMap RhctNode.asBytes).sum +
          ((dword rhctNodes).sum - (dword s.2.rhctNodes).sum + node.asBytes.sum) =
          ({ s.2 with toHandleTable := table, rhctNodes := rhctNodes } : Rhct).fixed.sum +
            ((nodes ++ [node]).flatMap RhctNode.asBytes).sum := by
        simp only [fixed, flatMap_append, flatMap_singleton, List.sum_append]
        grind
      rw [← hsum, flatMap_append, flatMap_singleton, length_append, ← Nat.add_assoc]
      exact htracks
    · rw [hnodes, h.count, length_append]
      rfl
    · rw [positions_append, ← h.handles, h.offset, ← Nat.add_assoc]
      rfl

theorem step_eq_panic (hnode : ¬node.Encodes) : step s node = .panic := by
  rw [step, add, RhctNode.toAmlBytes, if_neg hnode]
  rfl

theorem run_spec (nodes : List RhctNode) (hfit : 56 + (nodes.flatMap RhctNode.asBytes).length < 2 ^ 32) :
    ((∀ node ∈ nodes, node.Encodes) →
      ∃ s, nodes.foldlM step ([], new oemId oemTableId oemRevision timebaseFrequency) = .ok s ∧ After nodes s) ∧
    (¬(∀ node ∈ nodes, node.Encodes) →
      nodes.foldlM step ([], new oemId oemTableId oemRevision timebaseFrequency) = .panic) := by
  refine foldlM_admits (fun nodes => ∀ node ∈ nodes, node.Encodes) After nodes
    (fun done node h n hn => h n (mem_append_left _ hn)) (fun done s node hpre h hall => ?_)
    (fun done s node hpre _ hdone hall => ?_) nofun (after_new oemId oemTableId oemRevision timebaseFrequency)
  · exact step_eq_ok h (hall node (by simp)) (Nat.lt_of_le_of_lt (Nat.add_le_add_left (length_flatMap_le hpre) _) hfit)
  · exact step_eq_panic fun hnode => hall (forall_mem_append.2 ⟨hdone, forall_mem_singleton.2 hnode⟩)

end

variable {nodes : List RhctNode} {s : List Nat × Rhct}

theorem toAmlBytes_eq (h : After nodes s) (hall : ∀ node ∈ nodes, node.Encodes) :
    s.2.toAmlBytes = .ok (s.2.header.asBytes ++ (s.2.fixed ++ nodes.flatMap RhctNode.asBytes)) := by
  have hmap := mapM_of_ok (f := RhctNode.toAmlBytes) fun node hn => if_pos (hall node hn)
  rw [toAmlBytes, h.structures, hmap, ok_bind, append_assoc]
  rfl

theorem wellFormed (h : After nodes s) :
    WellFormed (s.2.header.asBytes ++ (s.2.fixed ++ nodes.flatMap RhctNode.asBytes)) := by
  refine Table.Tracks.wellFormed ?_
  rw [length_append, List.sum_append]
  exact h.tracks

/-! ## Walks and handles -/

def Small : RhctNode → Prop
  | .isaString string => string.length < 65520
  | .hartInfo _ handles => handles.length ≤ 16000
  | _ => True

instance : DecidablePred Small := fun node => by cases node <;> unfold Small <;> infer_instance

theorem Small.encodes {node : RhctNode} (h : Small node) : node.Encodes ∧ node.len < 2 ^ 16 := by
  cases node with
  | isaString string =>
    have hlt : string.length < 65520 := h
    simp only [RhctNode.Encodes, RhctNode.len]
    split <;> omega
  | hartInfo uid handles =>
    have hle : handles.length ≤ 16000 := h
    exact ⟨trivial, by rw [RhctNode.len]; omega⟩
  | _ => exact ⟨trivial, by rw [RhctNode.len]; decide⟩

theorem fieldAt_handle {uid : UInt32} {offsets : List UInt32} {k : Nat} {offset : UInt32}
    (hk : offsets[k]? = some offset) (before after : List UInt8) :
    fieldAt (before ++ (RhctNode.hartInfo uid offsets).asBytes ++ after) (before.length + 12 + 4 * k) 4 =
      some offset.toNat := by
  obtain ⟨hlt, rfl⟩ := List.getElem?_eq_some_iff.1 hk
  have hflat := split_at_record [] dword hlt
  rw [nil_append] at hflat
  refine fieldAt_of_eq (before ++ (word 65535 ++ word (UInt16.ofNat (RhctNode.hartInfo uid offsets).len) ++
    word 1 ++ word (UInt16.ofNat offsets.length) ++ dword uid ++ (offsets.take k).flatMap dword))
    ((offsets.drop (k + 1)).flatMap dword ++ after) ?_ ?_ offsets[k].toNat_lt
  · simp only [RhctNode.asBytes, RhctNode.payload, RhctNode.nodeType, hflat, append_assoc]
    rfl
  · simp [length_flatMap_const length_dword, Nat.min_eq_left hlt.le]
    omega

/-- **The nodes are found again.**  A walk by the lengths in the nodes meets them in order and ends with the table;
the header counts them; and a handle is the position of the node that it was returned for, also where it is stored
in another node. -/
theorem rhct_walk_and_handles (oemId : Vector UInt8 6) (oemTableId : Vector UInt8 8) (oemRevision : UInt32)
    (timebaseFrequency : UInt64) (nodes : List RhctNode) (hsmall : ∀ node ∈ nodes, Small node)
    (hfit : 56 + (nodes.flatMap RhctNode.asBytes).length < 2 ^ 32) :
    ∃ handles t bytes, nodes.foldlM step ([], new oemId oemTableId oemRevision timebaseFrequency) = .ok (handles, t) ∧
      t.toAmlBytes = .ok bytes ∧
      walk (fieldAt · 2 2) (bytes.drop 56) = some (nodes.map RhctNode.asBytes) ∧
      fieldAt bytes 48 4 = some nodes.length ∧ (∀ node ∈ nodes, node.asBytes.length % 2 = 0) ∧
      handles.length = nodes.length ∧ ∀ i (hi : i < nodes.length),
        let handle := 56 + ((nodes.take i).flatMap RhctNode.asBytes).length
        handles[i]? = some handle ∧ (bytes.drop handle).take nodes[i].asBytes.length = nodes[i].asBytes ∧
        ∀ uid offsets k offset, nodes[i] = .hartInfo uid offsets → offsets[k]? = some offset →
          fieldAt bytes (handle + 12 + 4 * k) 4 = some offset.toNat := by
  have hall : ∀ node ∈ nodes, node.Encodes := fun node hn => (hsmall node hn).encodes.1
  obtain ⟨⟨handles, t⟩, hrun, hafter⟩ := (run_spec oemId oemTableId oemRevision timebaseFrequency nodes hfit).1 hall
  have hhandles : handles = _ := hafter.handles
  have hbefore : (t.header.asBytes ++ t.fixed).length = 56 := by simp [fixed]
  refine ⟨handles, t, _, hrun, toAmlBytes_eq hafter hall, ?_, ?_, fun node _ => ?_, ?_, fun i hi => ?_⟩
  · rw [← append_assoc, drop_left' hbefore, flatMap_def, walk_fieldAt_iff (by decide)]
    · rintro _ hr
      obtain ⟨node, hn, rfl⟩ := mem_map.1 hr
      exact node.fieldAt_asBytes (hsmall node hn).encodes.2
    · rintro _ hr
      obtain ⟨node, hn, rfl⟩ := mem_map.1 hr
      rw [node.length_asBytes]
      exact node.len_pos
  · refine fieldAt_of_eq (t.header.asBytes ++ dword 0 ++ qword t.timebaseFrequency)
      (dword 56 ++ nodes.flatMap RhctNode.asBytes) ?_ (by simp) ?_
    · rw [← hafter.count]
      simp only [fixed, dword, append_assoc]
    · rw [← hafter.count]
      exact t.rhctNodes.toNat_lt
  · rw [node.length_asBytes]
    exact node.even_len
  · rw [hhandles, length_map, length_range]
  · have hpos : (t.header.asBytes ++ t.fixed ++ (nodes.take i).flatMap RhctNode.asBytes).length =
        56 + ((nodes.take i).flatMap RhctNode.asBytes).length := by rw [length_append, hbefore]
    refine ⟨by rw [hhandles, getElem?_map, getElem?_range hi]; rfl, ?_, ?_⟩
    · rw [← append_assoc, ← hpos]
      exact take_drop_record _ _ hi
    · intro uid offsets k offset hnode hk
      rw [← append_assoc, split_at_record _ _ hi, ← hpos, hnode]
      exact fieldAt_handle hk _ _

theorem rhct_walk_and_handles_two :
    let nodes : List RhctNode := [.isaString [114, 118], .mmu .sv48, .isaString [105], .hartInfo 7 [76]]
    (∀ node ∈ nodes, Small node) ∧ 56 + (nodes.flatMap RhctNode.asBytes).length < 2 ^ 32 ∧
    ∃ handles t bytes, nodes.foldlM step
        ([], new (Vector.replicate 6 0) (Vector.replicate 8 0) 0 0) = .ok (handles, t) ∧ t.toAmlBytes = .ok bytes ∧
      walk (fieldAt · 2 2) (bytes.drop 56) = some (nodes.map RhctNode.asBytes) := by
  intro nodes
  have hsmall : ∀ node ∈ nodes, Small node := by decide
  have hfit : 56 + (nodes.flatMap RhctNode.asBytes).length < 2 ^ 32 := by decide
  obtain ⟨handles, t, bytes, hrun, hbytes, hwalk, _⟩ :=
    rhct_walk_and_handles (Vector.replicate 6 0) (Vector.replicate 8 0) 0 0 nodes hsmall hfit
  exact ⟨hsmall, hfit, handles, t, bytes, hrun, hbytes, hwalk⟩

end Rhct

/-! ## Six tables -/

/-- **Length and checksum are right**, whatever is added to these tables.  An addition that does not return is the
second `add_imsic` of a MADT, or that of a string whose length with its terminator does not fit in RHCT. -/
theorem tables_wellFormed (oemId : Vector UInt8 6) (oemTableId : Vector UInt8 8) (oemRevision : UInt32) :
    (∀ int (calls : List Madt.Call), 44 + (calls.flatMap Madt.Call.bytes).length < 2 ^ 32 →
      (calls.countP Madt.Call.isAddImsic ≤ 1 →
        ∃ t, calls.foldlM Madt.step (Madt.new oemId oemTableId oemRevision int) = .ok t ∧ WellFormed t.toAmlBytes) ∧
      (¬calls.countP Madt.Call.isAddImsic ≤ 1 →
        calls.foldlM Madt.step (Madt.new oemId oemTableId oemRevision int) = .panic)) ∧
    (∀ entries : List UInt64, 36 + (entries.flatMap qword).length < 2 ^ 32 →
      ∃ t, entries.foldlM Xsdt.addEntry (Xsdt.new oemId oemTableId oemRevision) = .ok t ∧ WellFormed t.toAmlBytes) ∧
    (∀ entries : List EcamEntry, 44 + (entries.flatMap EcamEntry.asBytes).length < 2 ^ 32 →
      ∃ t, entries.foldlM Mcfg.addEcam (Mcfg.new oemId oemTableId oemRevision) = .ok t ∧ WellFormed t.toAmlBytes) ∧
    (∀ entries : List HmatEntry, 40 + (entries.flatMap HmatEntry.toAmlBytes).length < 2 ^ 32 →
      ∃ t, entries.foldlM Hmat.add (Hmat.new oemId oemTableId oemRevision) = .ok t ∧ WellFormed t.toAmlBytes) ∧
    (∀ timebaseFrequency (nodes : List RhctNode), 56 + (nodes.flatMap RhctNode.asBytes).length < 2 ^ 32 →
      ((∀ node ∈ nodes, node.Encodes) → ∃ s bytes,
        nodes.foldlM Rhct.step ([], Rhct.new oemId oemTableId oemRevision timebaseFrequency) = .ok s ∧
          s.2.toAmlBytes = .ok bytes ∧ WellFormed bytes) ∧ (¬(∀ node ∈ nodes, node.Encodes) →
        nodes.foldlM Rhct.step ([], Rhct.new oemId oemTableId oemRevision timebaseFrequency) = .panic)) ∧
    (∀ signature length revision (calls : List Sdt.Call), 36 ≤ length.toNat →
      length.toNat + (calls.map fun c => c.bytes.length).sum < 2 ^ 32 →
      ∃ s t, Sdt.new signature length revision oemId oemTableId oemRevision = .ok s ∧
        calls.foldlM Sdt.step s = .ok t ∧ WellFormed t.toAmlBytes) := by
  refine ⟨Madt.run_spec oemId oemTableId oemRevision, Xsdt.run_wellFormed oemId oemTableId oemRevision,
    Mcfg.run_wellFormed oemId oemTableId oemRevision, Hmat.run_wellFormed oemId oemTableId oemRevision,
    fun timebaseFrequency nodes hfit => ?_, fun signature length revision calls hlen hfit => ?_⟩
  · obtain ⟨hok, hpanic⟩ := Rhct.run_spec oemId oemTableId oemRevision timebaseFrequency nodes hfit
    refine ⟨fun hall => ?_, hpanic⟩
    obtain ⟨s, hrun, hafter⟩ := hok hall
    exact ⟨s, _, hrun, Rhct.toAmlBytes_eq hafter hall, Rhct.wellFormed hafter⟩
  · obtain ⟨s, hnew, hholds, hlength⟩ := Sdt.new_holds signature revision oemId oemTableId oemRevision hlen
    obtain ⟨t, hrun, hsum, hstates⟩ := Sdt.run_holds hholds calls (by rw [hlength]; exact hfit)
    exact ⟨s, t, hnew, hrun, (sum_eq_zero_iff _).1 hsum, hstates⟩

theorem tables_wellFormed_several :
    let id : Vector UInt8 6 := Vector.replicate 6 0
    let tableId : Vector UInt8 8 := Vector.replicate 8 0
    let calls : List Madt.Call := [.addStructure (.rintc 24 36 1 0 1 0 7 0 0x28000000 4096), .pcAtCompat,
      .addImsic (.imsic 25 16 1 (Vector.replicate 5 0) 255 255 1 2 0 24), .addStructure (.ioApic 1 12 2 0 0xfec00000 0)]
    let entries : List HmatEntry := [.memoryProximity (.new 0 1), .memorySideCache ⟨1, 4096, 0, [3, 4]⟩,
      .systemLocality ⟨0, .readLatency, .size4k, 100, [0], [0, 1], [10, 20]⟩]
    let nodes : List RhctNode := [.isaString [114, 118], .cmo 6 6 6, .mmu .sv39, .hartInfo 0 [56, 68]]
    let appends : List Sdt.Call := [.append [1, 2, 3, 4], .byte 5, .appendSlice [6, 7], .vec [8, 9, 10]]
    (∃ t, calls.foldlM Madt.step (Madt.new id tableId 0 .riscv) = .ok t ∧ WellFormed t.toAmlBytes) ∧
    (∃ t, [4096, 8192, 12288].foldlM Xsdt.addEntry (Xsdt.new id tableId 0) = .ok t ∧ WellFormed t.toAmlBytes) ∧
    (∃ t, [⟨0xe8000000, 0, 0, 127⟩, ⟨0xf0000000, 0, 128, 255⟩].foldlM Mcfg.addEcam (Mcfg.new id tableId 0) = .ok t ∧
      WellFormed t.toAmlBytes) ∧
    (∃ t, entries.foldlM Hmat.add (Hmat.new id tableId 0) = .ok t ∧ WellFormed t.toAmlBytes) ∧
    (∃ s bytes, nodes.foldlM Rhct.step ([], Rhct.new id tableId 0 0) = .ok s ∧
      s.2.toAmlBytes = .ok bytes ∧ WellFormed bytes) ∧
    ∃ s t, Sdt.new (ascii #v['T', 'E', 'S', 'T']) 36 1 id tableId 0 = .ok s ∧
      appends.foldlM Sdt.step s = .ok t ∧ WellFormed t.toAmlBytes := by
  intro id tableId calls entries nodes appends
  obtain ⟨hmadt, hxsdt, hmcfg, hhmat, hrhct, hsdt⟩ := tables_wellFormed id tableId 0
  exact ⟨(hmadt _ _ (by decide)).1 (by decide), hxsdt _ (by decide), hmcfg _ (by decide), hhmat _ (by decide +kernel),
    (hrhct _ _ (by decide)).1 (by decide), hsdt _ _ _ _ (by decide) (by decide)⟩

-- The table would have 65600 bytes.
theorem isa_string_overflows :
    let string : List UInt8 := List.replicate 65535 114
    let t := Rhct.new (Vector.replicate 6 0) (Vector.replicate 8 0) 0 0
    56 + (RhctNode.isaString string).asBytes.length = 65600 ∧ t.addIsaString string = .panic := by
  intro string t
  have hlen : string.length = 65535 := length_replicate
  refine ⟨?_, ?_⟩
  · rw [RhctNode.length_asBytes, RhctNode.len, hlen]
    rfl
  · have hnot : ¬(RhctNode.isaString string).Encodes := by
      rw [RhctNode.Encodes, hlen]
      decide
    rw [Rhct.addIsaString, Rhct.add, RhctNode.toAmlBytes, if_neg hnot]
    rfl

end RustVmm.AcpiTables
