import RustVmm.AcpiTables.Table

/-!
# Tables built byte by byte

`Sdt` keeps the bytes of a table, at least a header of them.  Every write recomputes the checksum, and an addition
writes the new length first.  By `Sdt.run_holds` both are right after any sequence of additions.
-/

set_option autoImplicit false

namespace RustVmm.AcpiTables

open Lib Lib.Parser TableHeader
open List hiding Vector

/-- `data` with the bytes from `offset` on replaced by `bytes`. -/
def splice (data : List UInt8) (offset : Nat) (bytes : List UInt8) : List UInt8 :=
  data.take offset ++ bytes ++ data.drop (offset + bytes.length)

variable {offset : Nat}

theorem length_splice {data bytes : List UInt8} (h : offset + bytes.length ≤ data.length) :
    (splice data offset bytes).length = data.length := by
  simp only [splice, length_append, length_take, length_drop]
  omega

theorem fieldAt_splice_self {data : List UInt8} {width v : Nat} (h : offset + width ≤ data.length)
    (hv : v < 256 ^ width) : fieldAt (splice data offset (leBytes width v)) offset width = some v :=
  fieldAt_of_eq _ _ rfl (by rw [length_take]; omega) hv

theorem fieldAt_splice_of_le {data bytes : List UInt8} {i width : Nat} (h : i + width ≤ offset)
    (hle : offset ≤ data.length) : fieldAt (splice data offset bytes) i width = fieldAt data i width := by
  have hlen : i + width ≤ (data.take offset).length := by
    rw [length_take]
    omega
  rw [splice, append_assoc, fieldAt_append hlen]
  conv_rhs => rw [← take_append_drop offset data]
  rw [fieldAt_append hlen]

structure Sdt where
  data : List UInt8
  headed : TableHeader.LEN ≤ data.length

namespace Sdt

def updateChecksum (self : Sdt) : Sdt where
  data :=
    let data := self.data.set 9 0
    data.set 9 (generateChecksum data)
  headed := by simpa using self.headed

def new (signature : Vector UInt8 4) (length : UInt32) (revision : UInt8) (oemId : Vector UInt8 6)
    (oemTable : Vector UInt8 8) (oemRevision : UInt32) : Outcome Empty Sdt :=
  let data := TableHeader.asBytes
    { signature := signature, length := length, revision := revision, checksum := 0, oemId := oemId,
      oemTableId := oemTable, oemRevision := oemRevision, creatorId := CREATOR_ID, creatorRevision := CREATOR_REVISION }
  -- `assert!(length >= 36)`
  if 36 ≤ length.toNat then
    .ok (updateChecksum ⟨data ++ List.replicate (length.toNat - 36) 0, by simp [data, TableHeader.LEN]⟩)
  else .panic

def writeBytes (self : Sdt) (offset : Nat) (data : List UInt8) : Outcome Empty Sdt :=
  if h : offset + data.length ≤ self.data.length then
    .ok (updateChecksum ⟨splice self.data offset data, by rw [length_splice h]; exact self.headed⟩)
  else .panic

def writeU32 (self : Sdt) (offset : Nat) (val : UInt32) : Outcome Empty Sdt := self.writeBytes offset (dword val)

/-- `append`, where `value` is `as_bytes` of the value. -/
def append (self : Sdt) (value : List UInt8) : Outcome Empty Sdt := do
  let origLength := self.data.length
  let newLength := origLength + value.length
  let resized : Sdt := ⟨self.data ++ List.replicate value.length 0, by
    rw [List.length_append]
    exact Nat.le_add_right_of_le self.headed⟩
  let self ← resized.writeU32 4 (UInt32.ofNat newLength)
  self.writeBytes origLength value

def appendSlice (self : Sdt) (data : List UInt8) : Outcome Empty Sdt := do
  let origLength := self.data.length
  let newLength := origLength + data.length
  let self ← self.writeU32 4 (UInt32.ofNat newLength)
  return updateChecksum ⟨self.data ++ data, by
    rw [List.length_append]
    exact Nat.le_add_right_of_le self.headed⟩

def byte (self : Sdt) (b : UInt8) : Outcome Empty Sdt := self.append [b]

/-- `AmlSink::vec`, on which `word`, `dword` and `qword` rest. -/
def vec (self : Sdt) (v : List UInt8) : Outcome Empty Sdt := v.foldlM byte self

def toAmlBytes (self : Sdt) : List UInt8 := self.data

/-! ## What a call leaves -/

/-- The checksum and the length field are right. -/
def Holds (self : Sdt) : Prop := self.data.sum = 0 ∧ StatesLength self.data

variable (self : Sdt)

@[simp] theorem length_updateChecksum : self.updateChecksum.data.length = self.data.length := by
  simp [updateChecksum]

theorem sum_updateChecksum : self.updateChecksum.data.sum = 0 := by
  have hlt : 9 < (self.data.set 9 0).length := by
    rw [length_set]
    exact Nat.lt_of_lt_of_le (by decide) self.headed
  have hzero : (self.data.set 9 0)[9] = 0 := getElem_set_self hlt
  have hsum := generateChecksum_add_sum (self.data.set 9 0)
  simp only [updateChecksum]
  rw [sum_set hlt]
  grind

theorem fieldAt_updateChecksum : fieldAt self.updateChecksum.data 4 4 = fieldAt self.data 4 4 := by
  simp only [updateChecksum]
  rw [fieldAt_set (by decide), fieldAt_set (by decide)]

theorem writeBytes_eq_ok (offset : Nat) (data : List UInt8) (h : offset + data.length ≤ self.data.length) :
    ∃ self', self.writeBytes offset data = .ok self' ∧ self'.data.length = self.data.length ∧
      self'.data.sum = 0 ∧ fieldAt self'.data 4 4 = fieldAt (splice self.data offset data) 4 4 := by
  refine ⟨_, dif_pos h, ?_, sum_updateChecksum _, fieldAt_updateChecksum _⟩
  rw [length_updateChecksum, length_splice h]

theorem writeU32_eq_ok {len : Nat} (hlen : len < 2 ^ 32) :
    ∃ self', self.writeU32 4 (UInt32.ofNat len) = .ok self' ∧ self'.data.length = self.data.length ∧
      fieldAt self'.data 4 4 = some len := by
  have hle : 4 + 4 ≤ self.data.length := Nat.le_trans (by decide) self.headed
  have hnat : (UInt32.ofNat len).toNat = len := UInt32.toNat_ofNat_of_lt' hlen
  obtain ⟨self', hok, hlength, _, hfield⟩ := writeBytes_eq_ok self 4 (dword (UInt32.ofNat len)) (by simpa using hle)
  refine ⟨self', hok, hlength, ?_⟩
  rw [hfield, dword, hnat]
  exact fieldAt_splice_self hle hlen

theorem new_holds (signature : Vector UInt8 4) {length : UInt32} (revision : UInt8) (oemId : Vector UInt8 6)
    (oemTable : Vector UInt8 8) (oemRevision : UInt32) (hlen : 36 ≤ length.toNat) :
    ∃ self, new signature length revision oemId oemTable oemRevision = .ok self ∧ self.Holds ∧
      self.data.length = length.toNat := by
  refine ⟨_, if_pos hlen, ⟨sum_updateChecksum _, ?_⟩, ?_⟩
  · rw [StatesLength, fieldAt_updateChecksum, fieldAt_asBytes, length_updateChecksum,
      length_append, length_asBytes, length_replicate, Nat.add_sub_cancel' hlen]
  · rw [length_updateChecksum, length_append, length_asBytes, length_replicate, Nat.add_sub_cancel' hlen]

theorem append_holds (value : List UInt8) (hlen : self.data.length + value.length < 2 ^ 32) :
    ∃ self', self.append value = .ok self' ∧ self'.Holds ∧ self'.data.length = self.data.length + value.length := by
  have hheaded := self.headed
  rw [LEN] at hheaded
  unfold append
  obtain ⟨s₁, hok₁, hlen₁, hfield₁⟩ := writeU32_eq_ok
    ⟨self.data ++ List.replicate value.length 0, by
      rw [length_append]
      exact Nat.le_add_right_of_le self.headed⟩ hlen
  rw [length_append, length_replicate] at hlen₁
  obtain ⟨s₂, hok₂, hlen₂, hsum₂, hfield₂⟩ := writeBytes_eq_ok s₁ self.data.length value (by omega)
  rw [fieldAt_splice_of_le (by omega) (by omega), hfield₁] at hfield₂
  refine ⟨s₂, ?_, ⟨hsum₂, ?_⟩, by omega⟩
  · dsimp only
    rw [hok₁, Outcome.ok_bind, hok₂]
  · rw [StatesLength, hfield₂, hlen₂, hlen₁]

theorem appendSlice_holds (data : List UInt8) (hlen : self.data.length + data.length < 2 ^ 32) :
    ∃ self', self.appendSlice data = .ok self' ∧ self'.Holds ∧ self'.data.length = self.data.length + data.length := by
  have hheaded := self.headed
  rw [LEN] at hheaded
  unfold appendSlice
  obtain ⟨s₁, hok₁, hlen₁, hfield₁⟩ := writeU32_eq_ok self hlen
  refine ⟨_, by dsimp only; rw [hok₁]; rfl, ⟨sum_updateChecksum _, ?_⟩, ?_⟩
  · rw [StatesLength, fieldAt_updateChecksum, length_updateChecksum, fieldAt_append (by omega), hfield₁,
      length_append, hlen₁]
  · rw [length_updateChecksum, length_append, hlen₁]

theorem vec_holds {self : Sdt} (hself : self.Holds) (v : List UInt8) (hlen : self.data.length + v.length < 2 ^ 32) :
    ∃ self', self.vec v = .ok self' ∧ self'.Holds ∧ self'.data.length = self.data.length + v.length := by
  induction v generalizing self with
  | nil => exact ⟨self, rfl, hself, rfl⟩
  | cons b v ih =>
    rw [length_cons] at hlen
    obtain ⟨s₁, hok₁, hholds₁, hlen₁⟩ := append_holds self [b] (by rw [length_singleton]; omega)
    rw [length_singleton] at hlen₁
    obtain ⟨s₂, hok₂, hholds₂, hlen₂⟩ := ih hholds₁ (by omega)
    refine ⟨s₂, ?_, hholds₂, by rw [length_cons]; omega⟩
    rw [vec, foldlM_cons, byte, hok₁]
    exact hok₂

/-! ## Runs -/

inductive Call where
  | append (value : List UInt8)
  | appendSlice (data : List UInt8)
  | byte (b : UInt8)
  | vec (v : List UInt8)
  deriving DecidableEq, Repr

def Call.bytes : Call → List UInt8
  | append value => value
  | appendSlice data => data
  | byte b => [b]
  | vec v => v

def step (self : Sdt) : Call → Outcome Empty Sdt
  | .append value => self.append value
  | .appendSlice data => self.appendSlice data
  | .byte b => self.byte b
  | .vec v => self.vec v

theorem step_holds {self : Sdt} (hself : self.Holds) (call : Call)
    (hlen : self.data.length + call.bytes.length < 2 ^ 32) :
    ∃ self', self.step call = .ok self' ∧ self'.Holds ∧ self'.data.length = self.data.length + call.bytes.length := by
  cases call with
  | append value => exact append_holds self value hlen
  | appendSlice data => exact appendSlice_holds self data hlen
  | byte b => exact append_holds self [b] hlen
  | vec v => exact vec_holds hself v hlen

theorem run_holds {self : Sdt} (hself : self.Holds) (calls : List Call)
    (hlen : self.data.length + (calls.map fun c => c.bytes.length).sum < 2 ^ 32) :
    ∃ self', calls.foldlM step self = .ok self' ∧ self'.Holds := by
  induction calls generalizing self with
  | nil => exact ⟨self, rfl, hself⟩
  | cons call calls ih =>
    rw [map_cons, sum_cons] at hlen
    obtain ⟨s₁, hok₁, hholds₁, hlen₁⟩ := step_holds hself call (by omega)
    obtain ⟨s₂, hok₂, hholds₂⟩ := ih hholds₁ (by omega)
    exact ⟨s₂, by rw [foldlM_cons, hok₁, Outcome.ok_bind, hok₂], hholds₂⟩

end Sdt

end RustVmm.AcpiTables
