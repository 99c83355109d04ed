import RustVmm.AcpiTables.Counted

/-!
# SLIT and SRAT

The tables about proximity domains: a matrix of distances that calls overwrite two cells at a time, and structures
with a length byte.

* `slit_symmetric_checksum_iff` — the matrix is symmetric; a change of its diagonal is counted twice.
* `srat_walk_iff` — one kind of structure states a wrong length.
-/

set_option autoImplicit false

namespace RustVmm.AcpiTables

open Lib Lib.Parser Vector

/-! ## SLIT -/

structure Slit extends Table where
  entries : List UInt8
  localities : UInt32

structure SetDistance where
  a : Nat
  b : Nat
  value : UInt8
  deriving DecidableEq, Repr

namespace Slit

/-- The arithmetic on `u32` fails exactly for tables that are too long. -/
def new (oemId : Vector UInt8 6) (oemTableId : Vector UInt8 8) (oemRevision localities : UInt32) :
    Outcome Empty Slit :=
  let entryCount := localities.toNat * localities.toNat
  if 44 + entryCount < 2 ^ 32 then
    let entries := List.replicate entryCount 10
    .ok { toTable := Table.new (.new (ascii #v['S', 'L', 'I', 'T']) (UInt32.ofNat (44 + entryCount)) oemId oemTableId
            oemRevision) (qword localities.toUInt64 ++ entries)
          entries := entries
          localities := localities }
  else .panic

def setDistance (self : Slit) (call : SetDistance) : Outcome Empty Slit := do
  let n := self.localities.toNat
  let old₁ ← .unwrap self.entries[call.a + n * call.b]?
  let old₂ ← .unwrap self.entries[call.b + n * call.a]?
  return { self with
    toTable := self.toTable.adjust fun c => (c.delete [old₁, old₂]).append [call.value, call.value]
    entries := (self.entries.set (call.a + n * call.b) call.value).set (call.b + n * call.a) call.value }

def toAmlBytes (self : Slit) : List UInt8 :=
  self.header.asBytes ++ (qword self.localities.toUInt64 ++ self.entries)

/-- The call is about the pair `{i, j}`. -/
def Names (call : SetDistance) (i j : Nat) : Prop := (call.a = i ∧ call.b = j) ∨ (call.a = j ∧ call.b = i)

instance (call : SetDistance) (i j : Nat) : Decidable (Names call i j) := by unfold Names; infer_instance

/-- The value of the last call about the pair, or the initial one. -/
def distance (calls : List SetDistance) (i j : Nat) : UInt8 :=
  calls.foldl (fun d call => if Names call i j then call.value else d) 10

/-- By how much the values on the diagonal have changed, altogether. -/
def diagonal (calls : List SetDistance) (n : Nat) : List UInt8 := (List.range n).map fun d => distance calls d d - 10

variable (calls : List SetDistance) (call : SetDistance)

theorem distance_append (i j : Nat) :
    distance (calls ++ [call]) i j = if Names call i j then call.value else distance calls i j := by
  rw [distance, List.foldl_append]
  rfl

variable {n : Nat}

theorem index_inj {a b i j : Nat} (ha : a < n) (hi : i < n) : a + n * b = i + n * j ↔ a = i ∧ b = j := by
  refine ⟨fun h => ?_, fun h => by rw [h.1, h.2]⟩
  have hmod := congrArg (· % n) h
  have hdiv := congrArg (· / n) h
  simp only [Nat.add_mul_mod_self_left, Nat.mod_eq_of_lt ha, Nat.mod_eq_of_lt hi] at hmod
  simp only [Nat.add_mul_div_left _ _ (Nat.zero_lt_of_lt ha), Nat.div_eq_of_lt ha, Nat.div_eq_of_lt hi] at hdiv
  exact ⟨hmod, by omega⟩

theorem index_lt {i j : Nat} (hi : i < n) (hj : j < n) : i + n * j < n * n :=
  calc i + n * j < n * (j + 1) := by rw [Nat.mul_succ]; omega
    _ ≤ n * n := Nat.mul_le_mul_left n hj

structure After (n : Nat) (calls : List SetDistance) (t : Slit) : Prop where
  localities : t.localities.toNat = n
  length : t.entries.length = n * n
  entries : ∀ i < n, ∀ j < n, t.entries[i + n * j]? = some (distance calls i j)
  tracks : t.Tracks (8 + n * n) ((qword t.localities.toUInt64).sum + t.entries.sum + (diagonal calls n).sum)

theorem sum_diagonal_append (ha : call.a < n) : (diagonal (calls ++ [call]) n).sum = (diagonal calls n).sum +
      if call.a = call.b then call.value - distance calls call.a call.a else 0 := by
  split
  · rename_i hdiag
    have hset : diagonal (calls ++ [call]) n = (diagonal calls n).set call.a (call.value - 10) := by
      refine List.ext_getElem? fun d => ?_
      simp only [diagonal, List.getElem?_set, List.getElem?_map, List.length_map, List.length_range, distance_append,
        Names, ← hdiag]
      grind
    rw [hset, sum_set (by simpa [diagonal] using ha)]
    simp only [diagonal, List.getElem_map, List.getElem_range]
    grind
  · rename_i hdiag
    have hsame : diagonal (calls ++ [call]) n = diagonal calls n := by
      refine List.map_congr_left fun d _ => ?_
      rw [distance_append, if_neg (by rintro (h | h) <;> exact hdiag (h.1.trans h.2.symm))]
    rw [hsame, UInt8.add_zero]

theorem sum_set_set {xs : List UInt8} {i j : Nat} (hi : i < xs.length) (hj : j < xs.length) (v : UInt8) :
    ((xs.set i v).set j v).sum = xs.sum - xs[i] + v + if i = j then 0 else v - xs[j] := by
  rw [sum_set (by rwa [List.length_set]), sum_set hi]
  split
  · grind
  · grind

theorem setDistance_eq_ok {calls : List SetDistance} {call : SetDistance} {t : Slit} (h : After n calls t)
    (ha : call.a < n) (hb : call.b < n) : ∃ t', t.setDistance call = .ok t' ∧ After n (calls ++ [call]) t' := by
  have hi := h.entries call.a ha call.b hb
  have hj := h.entries call.b hb call.a ha
  have hlt₁ : call.a + n * call.b < t.entries.length := by rw [h.length]; exact index_lt ha hb
  have hlt₂ : call.b + n * call.a < t.entries.length := by rw [h.length]; exact index_lt hb ha
  let t' : Slit := { t with
    toTable := t.toTable.adjust fun c =>
      (c.delete [distance calls call.a call.b, distance calls call.b call.a]).append [call.value, call.value]
    entries := (t.entries.set (call.a + n * call.b) call.value).set (call.b + n * call.a) call.value }
  refine ⟨t', by rw [setDistance, h.localities, hi, hj]; rfl, h.localities, by simp [t', h.length], fun i hin j hjn => ?_,
    ?_⟩
  · rw [distance_append]
    simp only [t', List.getElem?_set, List.length_set, hlt₁, hlt₂, index_inj ha hin, index_inj hb hin,
      h.entries i hin j hjn, if_true]
    split
    · rw [if_pos (by unfold Names; omega)]
    · split
      · rw [if_pos (by unfold Names; omega)]
      · rw [if_neg (by unfold Names; omega)]
  · have hadjust := h.tracks.adjust
      (fun c => (c.delete [distance calls call.a call.b, distance calls call.b call.a]).append [call.value, call.value])
      (call.value + call.value - distance calls call.a call.b - distance calls call.b call.a) fun c => by simp; grind
    have hdiag := sum_diagonal_append calls call ha
    have hentries := sum_set_set hlt₁ hlt₂ call.value
    rw [List.getElem?_eq_getElem hlt₁, Option.some.injEq] at hi
    rw [List.getElem?_eq_getElem hlt₂, Option.some.injEq] at hj
    rw [hj] at hentries
    have hsum : (qword t'.localities.toUInt64).sum + t'.entries.sum + (diagonal (calls ++ [call]) n).sum =
        (qword t.localities.toUInt64).sum + t.entries.sum + (diagonal calls n).sum +
          (call.value + call.value - distance calls call.a call.b - distance calls call.b call.a) := by
      rw [hdiag]
      simp only [t', hentries, index_inj ha hb]
      by_cases hab : call.a = call.b
      · grind
      · grind
    rw [hsum]
    exact hadjust

theorem new_eq_ok (oemId : Vector UInt8 6) (oemTableId : Vector UInt8 8) (oemRevision localities : UInt32)
    (hfit : localities.toNat * localities.toNat + 44 < 2 ^ 32) :
    ∃ t, new oemId oemTableId oemRevision localities = .ok t ∧ After localities.toNat [] t := by
  refine ⟨_, if_pos (by omega), rfl, List.length_replicate, fun i hi j hj => ?_, ?_⟩
  · rw [List.getElem?_replicate, if_pos (index_lt hi hj)]
    rfl
  · have hzero : (diagonal [] localities.toNat).sum = 0 := by
      have hdiag : diagonal [] localities.toNat = List.replicate localities.toNat 0 := by simp [diagonal, distance]
      rw [hdiag]
      induction localities.toNat with
      | zero => rfl
      | succ n ih => rw [List.replicate_succ, List.sum_cons, ih, UInt8.add_zero]
    rw [hzero, UInt8.add_zero, ← List.sum_append]
    refine Table.tracks_new rfl ?_ _
    rw [TableHeader.new, UInt32.toNat_ofNat_of_lt' (by rw [UInt32.size]; omega), TableHeader.LEN]
    omega

/-- **The matrix is symmetric, and holds the last values**; **the checksum is right** exactly if the changes of the
diagonal sum to zero.  A cell of the diagonal is one cell, and its change is accounted for twice. -/
theorem slit_symmetric_checksum_iff (oemId : Vector UInt8 6) (oemTableId : Vector UInt8 8)
    (oemRevision localities : UInt32) (hfit : localities.toNat * localities.toNat + 44 < 2 ^ 32)
    (calls : List SetDistance) (hcalls : ∀ call ∈ calls, call.a < localities.toNat ∧ call.b < localities.toNat) :
    (∃ t, (new oemId oemTableId oemRevision localities >>= fun t => calls.foldlM setDistance t) = .ok t ∧
      SumsToZero t.toAmlBytes ∧ ∀ i < localities.toNat, ∀ j < localities.toNat,
        t.toAmlBytes[44 + (localities.toNat * i + j)]? = some (distance calls i j) ∧
        t.toAmlBytes[44 + (localities.toNat * j + i)]? = some (distance calls i j)) ↔
      (diagonal calls localities.toNat).sum = 0 := by
  obtain ⟨t₀, hnew, hstart⟩ := new_eq_ok oemId oemTableId oemRevision localities hfit
  obtain ⟨t, hrun, hafter⟩ := Outcome.foldlM_total (After localities.toNat) calls (fun done t call hpre h =>
    setDistance_eq_ok h (hcalls call (hpre.subset (by simp))).1 (hcalls call (hpre.subset (by simp))).2) hstart
  have hentry : ∀ i < localities.toNat, ∀ j < localities.toNat,
      t.toAmlBytes[44 + (localities.toNat * j + i)]? = some (distance calls i j) := by
    intro i hi j hj
    rw [toAmlBytes, ← List.append_assoc, List.getElem?_append_right (by simp)]
    simpa [Nat.add_comm] using hafter.entries i hi j hj
  have hsymm : ∀ i j, distance calls i j = distance calls j i := by
    intro i j
    simp only [distance, Names, or_comm]
  have hzero : SumsToZero t.toAmlBytes ↔ (diagonal calls localities.toNat).sum = 0 := by
    rw [toAmlBytes, hafter.tracks.sumsToZero_iff]
    grind
  rw [hnew, Outcome.ok_bind, hrun]
  constructor
  · rintro ⟨_, heq, hsum, _⟩
    cases heq
    exact hzero.1 hsum
  · intro hdiag
    exact ⟨t, rfl, hzero.2 hdiag, fun i hi j hj => ⟨by rw [hsymm]; exact hentry j hj i hi, hentry i hi j hj⟩⟩

theorem slit_symmetric_checksum_two :
    let calls : List SetDistance := [⟨0, 1, 20⟩, ⟨1, 0, 30⟩]
    (∀ call ∈ calls, call.a < 2 ∧ call.b < 2) ∧
    ∃ t, (new (Vector.replicate 6 0) (Vector.replicate 8 0) 0 2 >>= fun t => calls.foldlM setDistance t) = .ok t ∧
      SumsToZero t.toAmlBytes ∧ t.toAmlBytes[45]? = some 30 := by
  intro calls
  have hcalls : ∀ call ∈ calls, call.a < 2 ∧ call.b < 2 := by decide
  obtain ⟨t, hrun, hsum, hentries⟩ := (slit_symmetric_checksum_iff (replicate 6 0) (replicate 8 0) 0 2
    (by decide) calls hcalls).2 (by decide)
  exact ⟨hcalls, t, hrun, hsum, (hentries 0 (by decide) 1 (by decide)).1⟩

theorem slit_diagonal_counts_twice :
    ∃ t, (new (Vector.replicate 6 0) (Vector.replicate 8 0) 0 1 >>= fun t => [⟨0, 0, 20⟩].foldlM setDistance t) = .ok t ∧
      ¬SumsToZero t.toAmlBytes :=
  ⟨_, rfl, by decide +kernel⟩

end Slit

/-! ## SRAT -/

inductive Handle where
  | acpi (hid : Vector UInt8 8) (uid : Vector UInt8 4)
  | pci (device : PciDevice)
  deriving DecidableEq, Repr

def Handle.toAmlBytes : Handle → List UInt8
  | acpi hid uid => hid.toList ++ uid.toList ++ dword 0
  | pci device =>
    word device.segment ++ [device.bus, (device.device <<< 3) ||| device.function] ++ dword 0 ++ qword 0

/-- `RintcAffinity`: the length is 20 after `new`, and 0 after `default`. -/
structure RintcAffinity where
  type : UInt8
  length : UInt8
  reserved : UInt16
  acpiProcessorUid : Vector UInt8 4
  flags : UInt32
  clockDomain : UInt32
  made : length = 20 ∨ length = 0
  deriving DecidableEq, Repr

inductive SratStructure where
  | memoryAffinity (proximityDomain : UInt32) (baseAddress length : UInt64) (flags : UInt32)
  | genericInitiator (proximityDomain : UInt32) (handle : Handle) (flags : UInt32)
  | rintcAffinity (ra : RintcAffinity)
  deriving DecidableEq, Repr

namespace SratStructure

def len : SratStructure → Nat
  | memoryAffinity _ _ _ _ => 40
  | genericInitiator _ _ _ => 32
  | rintcAffinity _ => 16

def toAmlBytes : SratStructure → List UInt8
  | memoryAffinity domain base length flags =>
    [(1 : UInt8), 40] ++ dword domain ++ word 0 ++ dword (base &&& 0xffffffff).toUInt32 ++
      dword ((base >>> 32) &&& 0xffffffff).toUInt32 ++ dword (length &&& 0xffffffff).toUInt32 ++
      dword ((length >>> 32) &&& 0xffffffff).toUInt32 ++ dword 0 ++ dword flags ++ qword 0
  | genericInitiator domain handle flags =>
    [5, 32, 0, UInt8.ofNat handle.ctorIdx] ++ dword domain ++ handle.toAmlBytes ++ dword flags ++ dword 0
  | rintcAffinity ra =>
    [ra.type, ra.length] ++ word ra.reserved ++ ra.acpiProcessorUid.toList ++ dword ra.flags ++ dword ra.clockDomain

def IsRintc : SratStructure → Prop
  | rintcAffinity _ => True
  | _ => False

instance : DecidablePred IsRintc := fun st => by cases st <;> unfold IsRintc <;> infer_instance

variable (self : SratStructure)

theorem length_toAmlBytes : self.toAmlBytes.length = self.len := by
  cases self with
  | genericInitiator domain handle flags => cases handle <;> simp [toAmlBytes, len, Handle.toAmlBytes]
  | _ => simp [toAmlBytes, len]

theorem fieldAt_cons_cons (a b : UInt8) (rest : List UInt8) : fieldAt (a :: b :: rest) 1 1 = some b.toNat :=
  fieldAt_of_eq [a] rest (by simp [leBytes]) rfl b.toNat_lt

theorem fieldAt_toAmlBytes_iff : fieldAt self.toAmlBytes 1 1 = some self.toAmlBytes.length ↔ ¬self.IsRintc := by
  rw [length_toAmlBytes]
  cases self with
  | memoryAffinity domain base length flags => exact iff_of_true (fieldAt_cons_cons 1 40 _) id
  | genericInitiator domain handle flags => exact iff_of_true (fieldAt_cons_cons 5 32 _) id
  | rintcAffinity ra =>
    have hfield : fieldAt (rintcAffinity ra).toAmlBytes 1 1 = some ra.length.toNat := fieldAt_cons_cons _ _ _
    refine iff_of_false (fun h => ?_) (not_not.2 trivial)
    rw [hfield] at h
    rcases ra.made with hlen | hlen <;> rw [hlen] at h <;> cases h

end SratStructure

abbrev Srat := NodeTable SratStructure

namespace Srat

variable (oemId : Vector UInt8 6) (oemTableId : Vector UInt8 8) (oemRevision : UInt32)

/-- The running sum counts the reserved 1. -/
def new : Srat := NodeTable.new (.new (ascii #v['S', 'R', 'A', 'T']) 48 oemId oemTableId oemRevision) [1]

/-- `add_memory_affinity`, `add_generic_initiator` and `add_rintc_affinity`. -/
def add (self : Srat) (st : SratStructure) : Outcome Empty Srat :=
  self.push (UInt32.ofNat st.len) (fun c => c.add (u8sum st.toAmlBytes)) st

def toAmlBytes (self : Srat) : List UInt8 :=
  self.header.asBytes ++ (dword 1 ++ qword 0 ++ self.structures.flatMap SratStructure.toAmlBytes)

/-- **When the table can be walked.**  Length and checksum are always right; the structures are found by their length
bytes exactly if there is no RINTC affinity structure, which says 20 and is 16 bytes long. -/
theorem srat_walk_iff (sts : List SratStructure)
    (hfit : 48 + (sts.flatMap SratStructure.toAmlBytes).length < 2 ^ 32) :
    (∃ t, sts.foldlM add (new oemId oemTableId oemRevision) = .ok t ∧ WellFormed t.toAmlBytes ∧
      walk (fieldAt · 1 1) (t.toAmlBytes.drop 48) = some (sts.map SratStructure.toAmlBytes)) ↔
      ∀ st ∈ sts, ¬st.IsRintc := by
  have hadd : NodeTable.Announces add (fun st => st.toAmlBytes.length) (fun st => st.toAmlBytes.sum) sts := by
    intro st _ t
    refine ⟨fun c => c.add (u8sum st.toAmlBytes), ?_, fun c => by simp⟩
    dsimp only
    rw [st.length_toAmlBytes, add]
  have hnew : (new oemId oemTableId oemRevision).Tracks (dword 1 ++ qword 0).length (dword 1 ++ qword 0).sum :=
    Table.tracks_new rfl rfl [1]
  obtain ⟨(t : Srat), hrun, hsts, hwf⟩ := hadd.wellFormed hnew rfl (by
    rw [TableHeader.LEN]
    simp only [List.length_append, length_dword, length_qword]
    omega)
  have hbytes : t.toAmlBytes = t.header.asBytes ++ (dword 1 ++ qword 0 ++ sts.flatMap SratStructure.toAmlBytes) := by
    rw [toAmlBytes, hsts]
  have hwalk : walk (fieldAt · 1 1) (t.toAmlBytes.drop 48) = some (sts.map SratStructure.toAmlBytes) ↔
      ∀ st ∈ sts, ¬st.IsRintc := by
    rw [hbytes, ← List.append_assoc, List.drop_left' (by simp), List.flatMap_def, walk_fieldAt_iff (by decide)]
    · rw [List.forall_mem_map]
      exact forall₂_congr fun st _ => st.fieldAt_toAmlBytes_iff
    · rintro _ hr
      obtain ⟨st, _, rfl⟩ := List.mem_map.1 hr
      rw [st.length_toAmlBytes]
      cases st <;> simp [SratStructure.len]
  rw [hrun]
  constructor
  · rintro ⟨_, heq, _, h⟩
    cases heq
    exact hwalk.1 h
  · exact fun h => ⟨t, rfl, by rw [hbytes]; exact hwf, hwalk.2 h⟩

theorem srat_walk_two :
    let sts : List SratStructure :=
      [.memoryAffinity 0 0 4096 1, .genericInitiator 1 (.acpi (replicate 8 65) (replicate 4 66)) 1]
    48 + (sts.flatMap SratStructure.toAmlBytes).length < 2 ^ 32 ∧
    ∃ t, sts.foldlM add (new (replicate 6 0) (replicate 8 0) 0) = .ok t ∧ WellFormed t.toAmlBytes ∧
      walk (fieldAt · 1 1) (t.toAmlBytes.drop 48) = some (sts.map SratStructure.toAmlBytes) := by
  intro sts
  have hfit : 48 + (sts.flatMap SratStructure.toAmlBytes).length < 2 ^ 32 := by decide
  exact ⟨hfit, (srat_walk_iff (replicate 6 0) (replicate 8 0) 0 sts hfit).2 (by decide)⟩

theorem rintc_affinity_length :
    ∃ t, [.rintcAffinity ⟨7, 20, 0, Vector.replicate 4 0, 0, 0, .inl rfl⟩].foldlM add
        (new (Vector.replicate 6 0) (Vector.replicate 8 0) 0) = .ok t ∧
      (t.toAmlBytes.drop 48).length = 16 ∧ walk (fieldAt · 1 1) (t.toAmlBytes.drop 48) = none :=
  ⟨_, rfl, by decide +kernel, by decide +kernel⟩

end Srat

end RustVmm.AcpiTables
