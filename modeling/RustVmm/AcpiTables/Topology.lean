import RustVmm.AcpiTables.Entries
import RustVmm.AcpiTables.Numa

/-!
# Matrices of HMAT, and PPTT

The values of a matrix after any sequence of calls that set them, and the nodes of a processor topology.

* `locality_matrix_iff` — rows have the length of the wrong list; when this does no harm.
* `pptt_wellFormed_iff` — an empty table has no checksum, and a long node no length.
-/

set_option autoImplicit false

namespace RustVmm.AcpiTables

open Lib Lib.Parser
open List hiding Vector

/-! ## Matrices of HMAT -/

inductive LocalityType where
  | memory | firstLevelCache | secondLevelCache | thirdLevelCache
  deriving DecidableEq, Repr

/-- The arguments of a call of `set_entry_value`. -/
structure SetEntry where
  initiatorIdx : Nat
  targetIdx : Nat
  value : UInt16
  deriving DecidableEq, Repr

namespace SystemLocality

def UNREACHABLE_DOMAIN : UInt16 := 0xffff

def new (locType : LocalityType) (dataType : DataType) (minTransferSize : MinTransferSize) (entryBaseUnit : UInt64)
    (numInitiators numTargets : Nat) : Outcome Empty SystemLocality :=
  if numInitiators * numTargets < 2 ^ 64 then
    .ok { flags := UInt8.ofNat locType.ctorIdx
          dataType := dataType
          minTransferSize := minTransferSize
          entryBaseUnit := entryBaseUnit
          initiators := replicate numInitiators 0
          targets := replicate numTargets 0
          entries := replicate (numInitiators * numTargets) UNREACHABLE_DOMAIN }
  else .panic

/-- The rows have the length of the list of *initiators*.  An index that does not fit is out of range, too. -/
def setEntryValue (self : SystemLocality) (call : SetEntry) : Outcome Empty SystemLocality :=
  let idx := call.initiatorIdx * self.initiators.length + call.targetIdx
  if idx < self.entries.length then .ok { self with entries := self.entries.set idx call.value } else .panic

/-- The value of the last call with `p`. -/
def lastValue (p : SetEntry → Bool) (calls : List SetEntry) : UInt16 :=
  calls.foldl (fun v call => if p call then call.value else v) UNREACHABLE_DOMAIN

/-- The call is for the pair. -/
def names (i j : Nat) (call : SetEntry) : Bool := call.initiatorIdx == i && call.targetIdx == j

/-- The call writes to position `k` of a matrix with `m` initiators. -/
def hits (m k : Nat) (call : SetEntry) : Bool := call.initiatorIdx * m + call.targetIdx == k

/-- No call panics, and every entry of the emitted structure is the last value that was set for its pair. -/
def KeepsLast (start : SystemLocality) (m n : Nat) (calls : List SetEntry) : Prop :=
  ∃ s, calls.foldlM setEntryValue start = .ok s ∧ ∀ i < m, ∀ j < n,
    fieldAt s.toAmlBytes (32 + 4 * m + 4 * n + 2 * (i * n + j)) 2 = some (lastValue (names i j) calls).toNat

variable {m n : Nat} {calls : List SetEntry}

structure After (m n : Nat) (calls : List SetEntry) (s : SystemLocality) : Prop where
  initiators : s.initiators.length = m
  targets : s.targets.length = n
  length : s.entries.length = m * n
  entries : ∀ k < m * n, s.entries[k]? = some (lastValue (hits m k) calls)

theorem lastValue_append (p : SetEntry → Bool) (calls : List SetEntry) (call : SetEntry) :
    lastValue p (calls ++ [call]) = if p call then call.value else lastValue p calls := by
  rw [lastValue, foldl_append]
  rfl

variable {start : SystemLocality}

theorem After.run (hstart : After m n [] start) (calls : List SetEntry) :
    ((∀ call ∈ calls, call.initiatorIdx * m + call.targetIdx < m * n) →
      ∃ s, calls.foldlM setEntryValue start = .ok s ∧ After m n calls s) ∧
    (¬(∀ call ∈ calls, call.initiatorIdx * m + call.targetIdx < m * n) →
      calls.foldlM setEntryValue start = .panic) := by
  refine Outcome.foldlM_admits (fun calls => ∀ call ∈ calls, call.initiatorIdx * m + call.targetIdx < m * n) (After m n)
    calls (fun done call h c hc => h c (mem_append_left _ hc)) (fun done s call _ h hall => ?_)
    (fun done s call _ h hdone hall => ?_) nofun hstart
  · have hlt := hall call (by simp)
    refine ⟨_, if_pos (by rw [h.initiators, h.length]; exact hlt), h.initiators, h.targets, by simp [h.length],
      fun k hk => ?_⟩
    simp only [getElem?_set, h.initiators, h.length, hlt, if_true, h.entries k hk, lastValue_append, hits, beq_iff_eq]
    split <;> rfl
  · refine if_neg fun hlt => hall (forall_mem_append.2 ⟨hdone, forall_mem_singleton.2 ?_⟩)
    rwa [h.initiators, h.length] at hlt

theorem After.fieldAt_entry {s : SystemLocality} (h : After m n calls s) {k : Nat} (hk : k < m * n) :
    fieldAt s.toAmlBytes (32 + 4 * m + 4 * n + 2 * k) 2 = some (lastValue (hits m k) calls).toNat := by
  have hlt : k < s.entries.length := by rw [h.length]; exact hk
  have hentry := h.entries k hk
  rw [getElem?_eq_getElem hlt, Option.some.injEq] at hentry
  rw [← hentry]
  refine fieldAt_of_eq _ _ (split_at_record _ word hlt) ?_ s.entries[k].toNat_lt
  simp [length_flatMap_const length_word, length_flatMap_const length_dword, h.initiators, h.targets,
    Nat.min_eq_left hlt.le]
  omega

theorem position_lt {i j : Nat} (hi : i < m) (hj : j < n) : i * n + j < m * n :=
  calc i * n + j < (i + 1) * n := by rw [Nat.succ_mul]; omega
    _ ≤ m * n := Nat.mul_le_mul_right n hi

theorem keepsLast_iff (hstart : After m n [] start) (calls : List SetEntry) :
    KeepsLast start m n calls ↔ (∀ call ∈ calls, call.initiatorIdx * m + call.targetIdx < m * n) ∧
      ∀ i < m, ∀ j < n, lastValue (hits m (i * n + j)) calls = lastValue (names i j) calls := by
  obtain ⟨hok, hpanic⟩ := hstart.run calls
  by_cases hall : ∀ call ∈ calls, call.initiatorIdx * m + call.targetIdx < m * n
  · obtain ⟨s, hrun, hafter⟩ := hok hall
    have hentry : (∀ i < m, ∀ j < n, fieldAt s.toAmlBytes (32 + 4 * m + 4 * n + 2 * (i * n + j)) 2 =
        some (lastValue (names i j) calls).toNat) ↔
        ∀ i < m, ∀ j < n, lastValue (hits m (i * n + j)) calls = lastValue (names i j) calls := by
      refine forall₂_congr fun i hi => forall₂_congr fun j hj => ?_
      rw [hafter.fieldAt_entry (position_lt hi hj), Option.some.injEq, UInt16.toNat_inj]
    rw [KeepsLast, hrun, and_iff_right hall, ← hentry]
    constructor
    · rintro ⟨_, heq, h⟩
      cases heq
      exact h
    · exact fun h => ⟨s, rfl, h⟩
  · refine iff_of_false ?_ fun h => hall h.1
    rintro ⟨s, hrun, _⟩
    rw [hpanic hall] at hrun
    cases hrun

theorem keepsLast_of_hits (hstart : After m n [] start)
    (hcalls : ∀ call ∈ calls, call.initiatorIdx < m ∧ call.targetIdx < n)
    (hsame : ∀ call ∈ calls, call.initiatorIdx * m = call.initiatorIdx * n) : KeepsLast start m n calls := by
  refine (keepsLast_iff hstart calls).2 ⟨fun call hc => ?_, fun i hi j hj => ?_⟩
  · rw [hsame call hc]
    exact position_lt (hcalls call hc).1 (hcalls call hc).2
  · refine foldl_ext _ _ _ fun v call hc => ?_
    have hiff : call.initiatorIdx * m + call.targetIdx = i * n + j ↔ call.initiatorIdx = i ∧ call.targetIdx = j := by
      rw [hsame call hc, Nat.add_comm, Nat.mul_comm, Nat.add_comm (i * n), Nat.mul_comm i,
        Slit.index_inj (hcalls call hc).2 hj, and_comm]
    simp only [hits, names, beq_iff_eq, Bool.and_eq_true, hiff]

theorem new_after {locType : LocalityType} {dataType : DataType} {minTransferSize : MinTransferSize}
    {entryBaseUnit : UInt64}
    (hnew : new locType dataType minTransferSize entryBaseUnit m n = .ok start) : After m n [] start := by
  unfold new at hnew
  split at hnew
  · cases hnew
    refine ⟨length_replicate, length_replicate, length_replicate, fun k hk => ?_⟩
    rw [getElem?_replicate, if_pos hk]
    rfl
  · cases hnew

/-- **When the matrix holds the last values.**  The rows are as long as there are initiators, not targets: a call
has to stay inside, and the last call that hits the position of a pair has to agree with the last one for this pair.
All sequences of calls do so exactly if the matrix is square, or has one row, or is empty. -/
theorem locality_matrix_iff (locType : LocalityType) (dataType : DataType) (minTransferSize : MinTransferSize)
    (entryBaseUnit : UInt64) (m n : Nat) (start : SystemLocality)
    (hnew : new locType dataType minTransferSize entryBaseUnit m n = .ok start) :
    (∀ calls : List SetEntry, (∀ call ∈ calls, call.initiatorIdx < m ∧ call.targetIdx < n) →
      (KeepsLast start m n calls ↔ (∀ call ∈ calls, call.initiatorIdx * m + call.targetIdx < m * n) ∧
        ∀ i < m, ∀ j < n, lastValue (hits m (i * n + j)) calls = lastValue (names i j) calls)) ∧
    ((∀ calls : List SetEntry, (∀ call ∈ calls, call.initiatorIdx < m ∧ call.targetIdx < n) →
      KeepsLast start m n calls) ↔ m = n ∨ m ≤ 1 ∨ n = 0) := by
  have hstart := new_after hnew
  refine ⟨fun calls _ => keepsLast_iff hstart calls, fun h => ?_, fun h calls hcalls => ?_⟩
  · -- otherwise the first entry of the second row is written elsewhere
    by_contra hshape
    have hrange : ∀ call ∈ [SetEntry.mk 1 0 0], call.initiatorIdx < m ∧ call.targetIdx < n := by
      simp only [mem_singleton, forall_eq]
      omega
    have hkeeps := ((keepsLast_iff hstart _).1 (h _ hrange)).2 1 (by omega) 0 (by omega)
    have hne : m ≠ n := fun heq => hshape (.inl heq)
    simp [lastValue, hits, names, hne, UNREACHABLE_DOMAIN] at hkeeps
  · refine keepsLast_of_hits hstart hcalls fun call hc => ?_
    obtain ⟨hi, hj⟩ := hcalls call hc
    rcases h with rfl | hone | hzero
    · rfl
    · rw [show call.initiatorIdx = 0 by omega, Nat.zero_mul, Nat.zero_mul]
    · omega

/-- Two initiators and three targets, where only the first row is set. -/
theorem locality_matrix_first_row :
    ∃ start, new .memory .readLatency .size64b 1 2 3 = .ok start ∧
      (∀ call ∈ [SetEntry.mk 0 2 7, ⟨0, 1, 5⟩], call.initiatorIdx < 2 ∧ call.targetIdx < 3) ∧
      KeepsLast start 2 3 [⟨0, 2, 7⟩, ⟨0, 1, 5⟩] := by
  have hcalls : ∀ call ∈ [SetEntry.mk 0 2 7, ⟨0, 1, 5⟩], call.initiatorIdx < 2 ∧ call.targetIdx < 3 := by decide
  exact ⟨_, rfl, hcalls, ((locality_matrix_iff .memory .readLatency .size64b 1 2 3 _ rfl).1 _ hcalls).2 (by decide)⟩

/-- Two initiators and three targets: what is set for the second initiator becomes the last entry of the first. -/
theorem locality_matrix_wrong_row :
    ∃ start s, new .memory .readLatency .size64b 1 2 3 = .ok start ∧ [⟨1, 0, 7⟩].foldlM setEntryValue start = .ok s ∧
      fieldAt s.toAmlBytes (52 + 2 * (1 * 3 + 0)) 2 = some 0xffff ∧ fieldAt s.toAmlBytes (52 + 2 * (0 * 3 + 2)) 2 = some 7 ∧
      ¬KeepsLast start 2 3 [⟨1, 0, 7⟩] := by
  refine ⟨_, _, rfl, rfl, by decide +kernel, by decide +kernel, ?_⟩
  rintro ⟨s, hrun, hentries⟩
  cases hrun
  exact absurd (hentries 1 (by decide) 0 (by decide)) (by decide +kernel)

end SystemLocality

/-! ## PPTT -/

/-- `CacheNode`: the length is 28 after `to_node`, and 0 after `default`. -/
structure CacheNode where
  type : UInt8
  length : UInt8
  reserved : UInt16
  flags : UInt32
  nextLevel : UInt32
  size : UInt32
  setCount : UInt32
  associativity : UInt8
  attributes : UInt8
  lineSize : UInt16
  id : UInt32
  made : length = 28 ∨ length = 0
  deriving DecidableEq, Repr

inductive PpttNode where
  | processor (flags parent acpiProcessorId : UInt32) (resources : List UInt32)
  | cache (node : CacheNode)
  deriving DecidableEq, Repr

namespace PpttNode

def len : PpttNode → Nat
  | processor _ _ _ resources => 20 + resources.length * 4
  | cache _ => 28

def toAmlBytes : PpttNode → List UInt8
  | processor flags parent acpiProcessorId resources =>
    [0, UInt8.ofNat (20 + resources.length * 4)] ++ word 0 ++ dword flags ++ dword parent ++ dword acpiProcessorId ++
      dword (UInt32.ofNat resources.length) ++ resources.flatMap dword
  | cache node =>
    [node.type, node.length] ++ word node.reserved ++ dword node.flags ++ dword node.nextLevel ++ dword node.size ++
      dword node.setCount ++ [node.associativity, node.attributes] ++ word node.lineSize ++ dword node.id

/-- The length fits in its byte, and has been filled in. -/
def Measured : PpttNode → Prop
  | processor _ _ _ resources => resources.length ≤ 58
  | cache node => node.length = 28

instance : DecidablePred Measured := fun node => by cases node <;> unfold Measured <;> infer_instance

variable (self : PpttNode)

theorem length_toAmlBytes : self.toAmlBytes.length = self.len := by
  cases self with
  | processor flags parent id resources =>
    simp only [toAmlBytes, len, length_append, length_cons, length_nil, length_word, length_dword,
      length_flatMap_const length_dword]
    omega
  | cache node => simp [toAmlBytes, len]

theorem len_ge : 20 ≤ self.len := by
  cases self <;> simp [len]

theorem fieldAt_toAmlBytes_iff : fieldAt self.toAmlBytes 1 1 = some self.toAmlBytes.length ↔ self.Measured := by
  rw [length_toAmlBytes]
  cases self with
  | processor flags parent id resources =>
    have hfield : fieldAt (processor flags parent id resources).toAmlBytes 1 1 =
        some (UInt8.ofNat (20 + resources.length * 4)).toNat := SratStructure.fieldAt_cons_cons _ _ _
    rw [hfield, Option.some.injEq, len, Measured, UInt8.toNat_ofNat']
    omega
  | cache node =>
    have hfield : fieldAt (cache node).toAmlBytes 1 1 = some node.length.toNat := SratStructure.fieldAt_cons_cons _ _ _
    rw [hfield, Option.some.injEq, Measured, ← UInt8.toNat_inj]
    rfl

end PpttNode

abbrev Pptt := HandleTable PpttNode

namespace Pptt

section

variable (oemId : Vector UInt8 6) (oemTableId : Vector UInt8 8) (oemRevision : UInt32)

/-- The header in `new`. -/
def startHeader : TableHeader :=
  { TableHeader.new (ascii #v['P', 'P', 'T', 'T']) 36 oemId oemTableId oemRevision with revision := 3 }

/-- The running sum is right, but it is not stored in the header. -/
def new : Pptt where
  header := startHeader oemId oemTableId oemRevision
  checksum := Checksum.default.append (startHeader oemId oemTableId oemRevision).asBytes
  structures := []
  handleOffset := 36

/-- `add_processor` and `add_cache`. -/
def add (self : Pptt) (node : PpttNode) : Outcome Empty (Nat × Pptt) :=
  self.place 32 node.len (fun c => c.add (u8sum node.toAmlBytes)) node

def toAmlBytes (self : Pptt) : List UInt8 := self.header.asBytes ++ self.structures.flatMap PpttNode.toAmlBytes

/-- One call, and the handles so far. -/
def step (s : List Nat × Pptt) (node : PpttNode) : Outcome Empty (List Nat × Pptt) := do
  let (handle, t) ← s.2.add node
  return (s.1 ++ [handle], t)

structure After (nodes : List PpttNode) (s : List Nat × Pptt) : Prop where
  tracks : s.2.Tracks (nodes.flatMap PpttNode.toAmlBytes).length (nodes.flatMap PpttNode.toAmlBytes).sum
  structures : s.2.structures = nodes
  offset : s.2.handleOffset = TableHeader.LEN + (nodes.flatMap PpttNode.toAmlBytes).length
  handles : s.1 = (List.range nodes.length).map fun i => 36 + ((nodes.take i).flatMap PpttNode.toAmlBytes).length

variable {nodes : List PpttNode} {s : List Nat × Pptt}

theorem step_eq_ok {node : PpttNode} (h : After nodes s)
    (hfit : 36 + ((nodes ++ [node]).flatMap PpttNode.toAmlBytes).length < 2 ^ 32) :
    ∃ s', step s node = .ok s' ∧ After (nodes ++ [node]) s' := by
  have hbytes : (nodes ++ [node]).flatMap PpttNode.toAmlBytes =
      nodes.flatMap PpttNode.toAmlBytes ++ node.toAmlBytes := by rw [flatMap_append, flatMap_singleton]
  have hroom : TableHeader.LEN + ((nodes.flatMap PpttNode.toAmlBytes).length + node.toAmlBytes.length) < 2 ^ 32 := by
    rwa [← length_append, ← hbytes]
  obtain ⟨t, hplace, htracks, hsts, hoffset⟩ := HandleTable.place_eq_ok h.tracks h.offset
    (fun c => c.rawValue_add (u8sum node.toAmlBytes)) hroom hroom node
  rw [node.length_toAmlBytes] at hplace
  refine ⟨(s.1 ++ [s.2.handleOffset], t), by rw [step, add, hplace]; rfl, ?_, by rw [hsts, h.structures], ?_, ?_⟩
  · rw [hbytes, length_append, List.sum_append, ← u8sum_eq node.toAmlBytes]
    exact htracks
  · rw [hbytes, length_append]
    exact hoffset
  · rw [positions_append, ← h.handles, h.offset]
    rfl

theorem run_eq_ok (node : PpttNode) (nodes : List PpttNode)
    (hfit : 36 + ((node :: nodes).flatMap PpttNode.toAmlBytes).length < 2 ^ 32) :
    ∃ s, (node :: nodes).foldlM step ([], new oemId oemTableId oemRevision) = .ok s ∧ After (node :: nodes) s := by
  let closed : Pptt := ⟨NodeTable.new (startHeader oemId oemTableId oemRevision) [], 36⟩
  have hclosed : After [] ([], closed) := ⟨Table.tracks_new rfl rfl [], rfl, rfl, rfl⟩
  have hfirst : step ([], new oemId oemTableId oemRevision) node = step ([], closed) node := rfl
  obtain ⟨s, hrun, hafter⟩ := Outcome.foldlM_total After (node :: nodes) (fun done s node hpre h =>
    step_eq_ok h (Nat.lt_of_le_of_lt (Nat.add_le_add_left (length_flatMap_le hpre) _) hfit)) hclosed
  rw [foldlM_cons, ← hfirst] at hrun
  exact ⟨s, hrun, hafter⟩

theorem After.wellFormed (h : After nodes s) : WellFormed s.2.toAmlBytes := by
  rw [toAmlBytes, h.structures]
  exact h.tracks.wellFormed

theorem walk_iff {t : Pptt} (h : t.structures = nodes) :
    walk (fieldAt · 1 1) (t.toAmlBytes.drop 36) = some (nodes.map PpttNode.toAmlBytes) ↔
      ∀ node ∈ nodes, node.Measured := by
  rw [toAmlBytes, h, drop_left' (by simp), flatMap_def, walk_fieldAt_iff (by decide)]
  · rw [forall_mem_map]
    exact forall₂_congr fun node _ => node.fieldAt_toAmlBytes_iff
  · rintro _ hr
    obtain ⟨node, _, rfl⟩ := mem_map.1 hr
    have hlen := node.len_ge
    rw [node.length_toAmlBytes]
    omega

/-- **When the table is well formed.**  The handles and the length are always right.  The checksum is not, as long as
nothing has been added, unless the header needs none; and the length byte of a processor node has room for the length
of 58 resources. -/
theorem pptt_wellFormed_iff (nodes : List PpttNode)
    (hfit : 36 + (nodes.flatMap PpttNode.toAmlBytes).length < 2 ^ 32) :
    (∃ handles t, nodes.foldlM step ([], new oemId oemTableId oemRevision) = .ok (handles, t) ∧
      WellFormed t.toAmlBytes ∧
      handles = (List.range nodes.length).map (fun i => 36 + ((nodes.take i).flatMap PpttNode.toAmlBytes).length) ∧
      walk (fieldAt · 1 1) (t.toAmlBytes.drop 36) = some (nodes.map PpttNode.toAmlBytes)) ↔
      (nodes ≠ [] ∨ SumsToZero (startHeader oemId oemTableId oemRevision).asBytes) ∧ ∀ node ∈ nodes, node.Measured := by
  cases nodes with
  | nil =>
    have hbytes : (new oemId oemTableId oemRevision).toAmlBytes = (startHeader oemId oemTableId oemRevision).asBytes :=
      append_nil _
    have hlen : StatesLength (startHeader oemId oemTableId oemRevision).asBytes := by
      have hfield := (startHeader oemId oemTableId oemRevision).fieldAt_asBytes []
      rw [append_nil] at hfield
      rw [StatesLength, hfield, TableHeader.length_asBytes]
      rfl
    constructor
    · rintro ⟨_, _, hrun, hwf, _⟩
      cases hrun
      rw [hbytes] at hwf
      exact ⟨.inr hwf.1, forall_mem_nil _⟩
    · rintro ⟨hne | hzero, _⟩
      · exact absurd rfl hne
      · exact ⟨[], _, rfl, by rw [hbytes]; exact ⟨hzero, hlen⟩, rfl, (walk_iff rfl).2 (forall_mem_nil _)⟩
  | cons node nodes =>
    obtain ⟨s, hrun, hafter⟩ := run_eq_ok oemId oemTableId oemRevision node nodes hfit
    rw [hrun, and_iff_right (.inl (cons_ne_nil _ _)), ← walk_iff hafter.structures]
    constructor
    · rintro ⟨_, _, heq, _, _, hwalk⟩
      cases heq
      exact hwalk
    · exact fun hwalk => ⟨s.1, s.2, rfl, hafter.wellFormed, hafter.handles, hwalk⟩

end

/-- A cache, and a processor that has it as its resource. -/
theorem pptt_wellFormed_two :
    let nodes : List PpttNode := [.cache ⟨1, 28, 0, 0, 0, 4096, 0, 0, 0, 0, 0, .inl rfl⟩, .processor 3 0 0 [36]]
    36 + (nodes.flatMap PpttNode.toAmlBytes).length < 2 ^ 32 ∧
    ∃ handles t, nodes.foldlM step ([], new (Vector.replicate 6 0) (Vector.replicate 8 0) 0) = .ok (handles, t) ∧
      WellFormed t.toAmlBytes ∧ handles = [36, 64] ∧
      walk (fieldAt · 1 1) (t.toAmlBytes.drop 36) = some (nodes.map PpttNode.toAmlBytes) := by
  intro nodes
  have hfit : 36 + (nodes.flatMap PpttNode.toAmlBytes).length < 2 ^ 32 := by decide
  exact ⟨hfit, (pptt_wellFormed_iff (Vector.replicate 6 0) (Vector.replicate 8 0) 0 nodes hfit).2 (by decide)⟩

/-- The empty table has no checksum, and the length byte of a processor with 59 resources is zero. -/
theorem pptt_empty_and_long :
    (∃ s, [].foldlM step ([], new (Vector.replicate 6 0) (Vector.replicate 8 0) 0) = .ok s ∧
      ¬SumsToZero s.2.toAmlBytes) ∧
    ∃ s, [.processor 0 0 0 (replicate 59 36)].foldlM step ([], new (Vector.replicate 6 0) (Vector.replicate 8 0) 0) =
      .ok s ∧ walk (fieldAt · 1 1) (s.2.toAmlBytes.drop 36) = none :=
  ⟨⟨_, rfl, by decide +kernel⟩, _, rfl, by decide +kernel⟩

end Pptt

end RustVmm.AcpiTables
