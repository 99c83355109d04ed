import Mathlib.Data.Vector.Defs
import RustVmm.Lib.Outcome
import RustVmm.Lib.Records

/-!
# ACPI tables

What the tables have in common: a header with the length and a checksum, a running sum and a list of structures.  The
bytes are written only when the table is emitted.

* `Table.Tracks` — header and running sum fit the bytes to be emitted.
* `NodeTable.Announces.wellFormed` — additions that announce their bytes give a well-formed table.
-/

set_option autoImplicit false

namespace RustVmm.AcpiTables

open Lib Lib.Parser
open List hiding Vector

/-! ## Numbers -/

def word (v : UInt16) : List UInt8 := leBytes 2 v.toNat

def dword (v : UInt32) : List UInt8 := leBytes 4 v.toNat

def qword (v : UInt64) : List UInt8 := leBytes 8 v.toNat

@[simp] theorem length_word (v : UInt16) : (word v).length = 2 := length_leBytes 2 _

@[simp] theorem length_dword (v : UInt32) : (dword v).length = 4 := length_leBytes 4 _

@[simp] theorem length_qword (v : UInt64) : (qword v).length = 8 := length_leBytes 8 _

def addU32 (a b : UInt32) : Outcome Empty UInt32 :=
  if a.toNat + b.toNat < 2 ^ 32 then .ok (a + b) else .panic

theorem addU32_of_lt {a b : UInt32} (h : a.toNat + b.toNat < 2 ^ 32) :
    ∃ c, addU32 a b = .ok c ∧ c.toNat = a.toNat + b.toNat := by
  refine ⟨a + b, if_pos h, ?_⟩
  rw [UInt32.toNat_add, Nat.mod_eq_of_lt h]

def ascii {n : Nat} (text : Vector Char n) : Vector UInt8 n := text.map Char.toUInt8

/-! ## The running sum -/

structure Checksum where
  rawValue : UInt8
  deriving DecidableEq, Repr

namespace Checksum

def default : Checksum := ⟨0⟩

def append (self : Checksum) (data : List UInt8) : Checksum := ⟨data.foldl (· + ·) self.rawValue⟩

def delete (self : Checksum) (data : List UInt8) : Checksum := ⟨data.foldl (· - ·) self.rawValue⟩

def add (self : Checksum) (data : UInt8) : Checksum := ⟨self.rawValue + data⟩

def value (self : Checksum) : UInt8 := (255 - self.rawValue) + 1

variable (self : Checksum)

@[simp] theorem rawValue_append (data : List UInt8) :
    (self.append data).rawValue = self.rawValue + data.sum := foldl_add_eq data _

@[simp] theorem rawValue_delete (data : List UInt8) :
    (self.delete data).rawValue = self.rawValue - data.sum := foldl_sub_eq data _

@[simp] theorem rawValue_add (data : UInt8) : (self.add data).rawValue = self.rawValue + data := rfl

theorem rawValue_add_value : self.rawValue + self.value = 0 := by
  unfold value
  grind

end Checksum

def u8sum (aml : List UInt8) : UInt8 := (Checksum.default.append aml).rawValue

@[simp] theorem u8sum_eq (aml : List UInt8) : u8sum aml = aml.sum := by
  rw [u8sum, Checksum.rawValue_append]
  exact UInt8.zero_add _

def generateChecksum (data : List UInt8) : UInt8 := (255 - data.foldl (· + ·) 0) + 1

theorem generateChecksum_add_sum (data : List UInt8) : generateChecksum data + data.sum = 0 := by
  rw [generateChecksum, foldl_add_eq]
  grind

/-! ## The header -/

def CREATOR_ID : Vector UInt8 4 := ascii #v['R', 'V', 'A', 'T']

def CREATOR_REVISION : Vector UInt8 4 := #v[0, 0, 0, 1]

structure TableHeader where
  signature : Vector UInt8 4
  length : UInt32
  revision : UInt8
  checksum : UInt8
  oemId : Vector UInt8 6
  oemTableId : Vector UInt8 8
  oemRevision : UInt32
  creatorId : Vector UInt8 4
  creatorRevision : Vector UInt8 4
  deriving DecidableEq, Repr

namespace TableHeader

/-- The header with which the tables of the crate start: revision 1, and no checksum yet. -/
def new (signature : Vector UInt8 4) (length : UInt32) (oemId : Vector UInt8 6) (oemTableId : Vector UInt8 8)
    (oemRevision : UInt32) : TableHeader where
  signature := signature
  length := length
  revision := 1
  checksum := 0
  oemId := oemId
  oemTableId := oemTableId
  oemRevision := oemRevision
  creatorId := CREATOR_ID
  creatorRevision := CREATOR_REVISION

def asBytes (self : TableHeader) : List UInt8 :=
  self.signature.toList ++ dword self.length ++ [self.revision, self.checksum] ++ self.oemId.toList ++
    self.oemTableId.toList ++ dword self.oemRevision ++ self.creatorId.toList ++ self.creatorRevision.toList

def LEN : Nat := 36

variable (self : TableHeader)

@[simp] theorem length_asBytes : self.asBytes.length = 36 := by
  simp [asBytes]

theorem fieldAt_asBytes (rest : List UInt8) : fieldAt (self.asBytes ++ rest) 4 4 = some self.length.toNat := by
  have hsplit : self.asBytes ++ rest = self.signature.toList ++ leBytes 4 self.length.toNat ++
      ([self.revision, self.checksum] ++ self.oemId.toList ++ self.oemTableId.toList ++ dword self.oemRevision ++
        self.creatorId.toList ++ self.creatorRevision.toList ++ rest) := by
    simp only [asBytes, dword, append_assoc]
  exact fieldAt_of_eq _ _ hsplit (by simp) self.length.toNat_lt

/-- Sum of the bytes of the header other than the checksum. -/
def openSum (self : TableHeader) : UInt8 := { self with checksum := 0 }.asBytes.sum

theorem sum_asBytes : self.asBytes.sum = self.openSum + self.checksum := by
  simp only [openSum, asBytes, List.sum_append, sum_cons, sum_nil]
  grind

@[simp] theorem openSum_checksum (c : UInt8) : { self with checksum := c }.openSum = self.openSum := rfl

theorem openSum_length (len : UInt32) (c : UInt8) : { self with length := len, checksum := c }.openSum =
      self.openSum - (dword self.length).sum + (dword len).sum := by
  simp only [openSum, asBytes, List.sum_append]
  grind

end TableHeader

/-! ## Tables -/

def SumsToZero (bytes : List UInt8) : Prop := (bytes.map UInt8.toNat).sum % 256 = 0

/-- The length field of the header is the number of bytes. -/
def StatesLength (bytes : List UInt8) : Prop := fieldAt bytes 4 4 = some bytes.length

/-- The checksum and the length field are right. -/
def WellFormed (bytes : List UInt8) : Prop := SumsToZero bytes ∧ StatesLength bytes

instance : DecidablePred SumsToZero := fun bytes => by unfold SumsToZero; infer_instance

instance : DecidablePred StatesLength := fun bytes => by unfold StatesLength; infer_instance

instance : DecidablePred WellFormed := fun bytes => by unfold WellFormed; infer_instance

structure Table where
  header : TableHeader
  checksum : Checksum
  deriving DecidableEq, Repr

variable {added : UInt8} {data : Checksum → Checksum}

namespace Table

/-- A table that has the bytes `fixed` after its header. -/
def new (header : TableHeader) (fixed : List UInt8) : Table :=
  let cksum := (Checksum.default.append header.asBytes).append fixed
  { header := { header with checksum := cksum.value }, checksum := cksum }

/-- `update_header`: `len` more bytes, which are added to the running sum by `data`. -/
def updateHeader (self : Table) (len : UInt32) (data : Checksum → Checksum) : Outcome Empty Table := do
  let oldLen := self.header.length
  let newLen ← addU32 len oldLen
  let checksum := data ((self.checksum.delete (dword oldLen)).append (dword newLen))
  return { header := { self.header with length := newLen, checksum := checksum.value }, checksum := checksum }

/-- A change of the bytes that leaves their number. -/
def adjust (self : Table) (data : Checksum → Checksum) : Table :=
  let checksum := data self.checksum
  { header := { self.header with checksum := checksum.value }, checksum := checksum }

/-- The header accounts for `size` bytes after it, with the sum `sum`. -/
structure Tracks (t : Table) (size : Nat) (sum : UInt8) : Prop where
  raw : t.checksum.rawValue = t.header.openSum + sum
  closed : t.header.checksum = t.checksum.value
  length : t.header.length.toNat = TableHeader.LEN + size

theorem tracks_new {header : TableHeader} {size : Nat} (hzero : header.checksum = 0)
    (hlen : header.length.toNat = TableHeader.LEN + size) (fixed : List UInt8) :
    (new header fixed).Tracks size fixed.sum where
  raw := by
    have hsum := header.sum_asBytes
    simp only [new, Checksum.rawValue_append, Checksum.default, TableHeader.openSum_checksum, hsum]
    grind
  closed := rfl
  length := hlen

variable {t : Table} {size : Nat} {sum : UInt8}

theorem Tracks.adjust (h : t.Tracks size sum) (data : Checksum → Checksum) (added : UInt8)
    (hdata : ∀ c, (data c).rawValue = c.rawValue + added) : (t.adjust data).Tracks size (sum + added) where
  raw := by
    simp only [Table.adjust, hdata, TableHeader.openSum_checksum, h.raw]
    grind
  closed := rfl
  length := h.length

theorem Tracks.updateHeader (h : t.Tracks size sum) {len : UInt32}
    (hdata : ∀ c, (data c).rawValue = c.rawValue + added) (hfit : TableHeader.LEN + (size + len.toNat) < 2 ^ 32) :
    ∃ t', t.updateHeader len data = .ok t' ∧ t'.Tracks (size + len.toNat) (sum + added) := by
  have hlen := h.length
  obtain ⟨newLen, hadd, hnew⟩ := addU32_of_lt (a := len) (b := t.header.length) (by omega)
  refine ⟨_, by rw [Table.updateHeader, hadd]; rfl, ?_, rfl, ?_⟩
  · rw [TableHeader.openSum_length, hdata, Checksum.rawValue_append, Checksum.rawValue_delete, h.raw]
    grind
  · rw [hnew]
    omega

theorem Tracks.sumsToZero_iff (h : t.Tracks size sum) (rest : List UInt8) :
    SumsToZero (t.header.asBytes ++ rest) ↔ rest.sum = sum := by
  have hvalue := t.checksum.rawValue_add_value
  have hraw := h.raw
  rw [SumsToZero, ← sum_eq_zero_iff, List.sum_append, TableHeader.sum_asBytes, h.closed]
  constructor
  · grind
  · grind

theorem Tracks.statesLength_iff (h : t.Tracks size sum) (rest : List UInt8) :
    StatesLength (t.header.asBytes ++ rest) ↔ rest.length = size := by
  have hlen := h.length
  rw [StatesLength, TableHeader.fieldAt_asBytes, Option.some.injEq, hlen, length_append,
    TableHeader.length_asBytes, TableHeader.LEN]
  omega

theorem Tracks.wellFormed {rest : List UInt8} (h : t.Tracks rest.length rest.sum) :
    WellFormed (t.header.asBytes ++ rest) :=
  ⟨(h.sumsToZero_iff rest).2 rfl, (h.statesLength_iff rest).2 rfl⟩

end Table

structure NodeTable (α : Type) extends Table where
  structures : List α
  deriving DecidableEq, Repr

namespace NodeTable

variable {α : Type} {t : NodeTable α} {size : Nat} {sum : UInt8}

def new (header : TableHeader) (fixed : List UInt8) : NodeTable α :=
  { toTable := Table.new header fixed, structures := [] }

/-- Account for a structure, then keep it. -/
def push (self : NodeTable α) (len : UInt32) (data : Checksum → Checksum) (st : α) : Outcome Empty (NodeTable α) := do
  let table ← self.toTable.updateHeader len data
  return { toTable := table, structures := self.structures ++ [st] }

theorem push_eq_ok (h : t.Tracks size sum) {len : Nat}
    (hdata : ∀ c, (data c).rawValue = c.rawValue + added) (hfit : TableHeader.LEN + (size + len) < 2 ^ 32) (st : α) :
    ∃ t', t.push (UInt32.ofNat len) data st = .ok t' ∧ t'.Tracks (size + len) (sum + added) ∧
      t'.structures = t.structures ++ [st] := by
  have hnat : (UInt32.ofNat len).toNat = len := UInt32.toNat_ofNat_of_lt' (by rw [UInt32.size]; omega)
  have hroom : TableHeader.LEN + (size + (UInt32.ofNat len).toNat) < 2 ^ 32 := by rw [hnat]; exact hfit
  obtain ⟨table, hupdate, htracks⟩ := h.updateHeader hdata hroom
  rw [hnat] at htracks
  exact ⟨{ toTable := table, structures := t.structures ++ [st] }, by rw [push, hupdate]; rfl, htracks, rfl⟩

/-- `add` announces `len st` bytes with the sum `added st` and keeps the structure, for all of `sts`. -/
def Announces (add : NodeTable α → α → Outcome Empty (NodeTable α)) (len : α → Nat) (added : α → UInt8)
    (sts : List α) : Prop :=
  ∀ st ∈ sts, ∀ t, ∃ data, add t st = t.push (UInt32.ofNat (len st)) data st ∧
    ∀ c, (data c).rawValue = c.rawValue + added st

variable {add : NodeTable α → α → Outcome Empty (NodeTable α)} {len : α → Nat} {added : α → UInt8} {sts : List α}

theorem Announces.foldlM (hadd : Announces add len added sts) (h : t.Tracks size sum)
    (hfit : TableHeader.LEN + (size + (sts.map len).sum) < 2 ^ 32) :
    ∃ t', sts.foldlM add t = .ok t' ∧ t'.Tracks (size + (sts.map len).sum) (sum + (sts.map added).sum) ∧
      t'.structures = t.structures ++ sts := by
  refine Outcome.foldlM_total (fun done (t' : NodeTable α) =>
    t'.Tracks (size + (done.map len).sum) (sum + (done.map added).sum) ∧ t'.structures = t.structures ++ done) sts
    (fun done t' st hpre ⟨htracks, hsts⟩ => ?_) ⟨by simpa using h, by simp⟩
  obtain ⟨rest, rfl⟩ := hpre
  simp only [map_append, List.sum_append, map_cons, map_nil, sum_singleton] at hfit ⊢
  obtain ⟨data, hpush, hdata⟩ := hadd st (by simp) t'
  have hroom : TableHeader.LEN + (size + (done.map len).sum + len st) < 2 ^ 32 := by omega
  obtain ⟨t₁, hok, htracks₁, hsts₁⟩ := push_eq_ok htracks hdata hroom st
  refine ⟨t₁, hpush.trans hok, ?_, by rw [hsts₁, hsts, append_assoc]⟩
  rw [← Nat.add_assoc, ← UInt8.add_assoc]
  exact htracks₁

theorem Announces.wellFormed {emit : α → List UInt8}
    (hadd : Announces add (fun st => (emit st).length) (fun st => (emit st).sum) sts) {fixed : List UInt8}
    (h : t.Tracks fixed.length fixed.sum) (hnil : t.structures = [])
    (hfit : TableHeader.LEN + (fixed.length + (sts.flatMap emit).length) < 2 ^ 32) :
    ∃ t', sts.foldlM add t = .ok t' ∧ t'.structures = sts ∧
      WellFormed (t'.header.asBytes ++ (fixed ++ sts.flatMap emit)) := by
  rw [length_flatMap] at hfit
  obtain ⟨t', hok, htracks, hsts⟩ := hadd.foldlM h hfit
  rw [← length_flatMap, ← sum_flatMap, ← length_append, ← List.sum_append] at htracks
  rw [hnil] at hsts
  exact ⟨t', hok, hsts, htracks.wellFormed⟩

end NodeTable

/-- A table that also knows where its next structure starts. -/
structure HandleTable (α : Type) extends NodeTable α where
  handleOffset : Nat

namespace HandleTable

variable {α : Type} {t : HandleTable α} {size : Nat} {sum : UInt8}

/-- Account for a structure, keep it, and return where it starts; the offset has `width` bits. -/
def place (self : HandleTable α) (width len : Nat) (data : Checksum → Checksum) (st : α) :
    Outcome Empty (Nat × HandleTable α) := do
  let table ← self.toNodeTable.push (UInt32.ofNat len) data st
  if self.handleOffset + len % 2 ^ width < 2 ^ width then
    return (self.handleOffset, { toNodeTable := table, handleOffset := self.handleOffset + len % 2 ^ width })
  else .panic

variable {width len : Nat} {data : Checksum → Checksum}

theorem place_eq_ok (h : t.Tracks size sum) (hoffset : t.handleOffset = TableHeader.LEN + size)
    (hdata : ∀ c, (data c).rawValue = c.rawValue + added) (hfit : TableHeader.LEN + (size + len) < 2 ^ 32)
    (hwidth : TableHeader.LEN + (size + len) < 2 ^ width) (st : α) :
    ∃ t', t.place width len data st = .ok (t.handleOffset, t') ∧ t'.Tracks (size + len) (sum + added) ∧
      t'.structures = t.structures ++ [st] ∧ t'.handleOffset = TableHeader.LEN + (size + len) := by
  obtain ⟨table, hok, htracks, hsts⟩ := NodeTable.push_eq_ok h hdata hfit st
  have hmod : len % 2 ^ width = len := Nat.mod_eq_of_lt (by omega)
  refine ⟨{ toNodeTable := table, handleOffset := t.handleOffset + len }, ?_, htracks, hsts, ?_⟩
  · rw [place, hok, Outcome.ok_bind, hmod, if_pos (by omega)]
    rfl
  · exact (congrArg (· + len) hoffset).trans (Nat.add_assoc _ _ _)

theorem place_eq_panic (h : t.Tracks size sum) (hoffset : t.handleOffset = TableHeader.LEN + size)
    (hdata : ∀ c, (data c).rawValue = c.rawValue + added) (hfit : TableHeader.LEN + (size + len) < 2 ^ 32)
    (hlen : len < 2 ^ width) (hwidth : ¬TableHeader.LEN + (size + len) < 2 ^ width) (st : α) :
    t.place width len data st = .panic := by
  obtain ⟨table, hok, _⟩ := NodeTable.push_eq_ok h hdata hfit st
  rw [place, hok, Outcome.ok_bind, Nat.mod_eq_of_lt hlen, if_neg (by omega)]

theorem foldlM_place {len : α → Nat} {data : α → Checksum → Checksum} {added : α → UInt8}
    (hdata : ∀ st c, (data st c).rawValue = c.rawValue + added st) (h : t.Tracks size sum)
    (hoffset : t.handleOffset = TableHeader.LEN + size) (hstart : TableHeader.LEN + size < 2 ^ width) {sts : List α}
    (hlen : ∀ st ∈ sts, len st < 2 ^ width) (hfit : TableHeader.LEN + (size + (sts.map len).sum) < 2 ^ 32) :
    (TableHeader.LEN + (size + (sts.map len).sum) < 2 ^ width →
      ∃ t', sts.foldlM (fun t st => Prod.snd <$> t.place width (len st) (data st) st) t = .ok t' ∧
        t'.Tracks (size + (sts.map len).sum) (sum + (sts.map added).sum) ∧ t'.structures = t.structures ++ sts ∧
        t'.handleOffset = TableHeader.LEN + (size + (sts.map len).sum)) ∧
    (¬TableHeader.LEN + (size + (sts.map len).sum) < 2 ^ width →
      sts.foldlM (fun t st => Prod.snd <$> t.place width (len st) (data st) st) t = .panic) := by
  refine Outcome.foldlM_admits (fun done => TableHeader.LEN + (size + (done.map len).sum) < 2 ^ width)
    (fun done (t' : HandleTable α) => t'.Tracks (size + (done.map len).sum) (sum + (done.map added).sum) ∧
      t'.structures = t.structures ++ done ∧ t'.handleOffset = TableHeader.LEN + (size + (done.map len).sum)) sts
    (fun done st hroom => ?_) (fun done t' st hpre ⟨htracks, hsts, hoff⟩ hroom => ?_)
    (fun done t' st hpre ⟨htracks, hsts, hoff⟩ hdone hroom => ?_) hstart ⟨by simpa using h, by simp, hoffset⟩
  · simp only [map_append, List.sum_append] at hroom
    omega
  · obtain ⟨rest, rfl⟩ := hpre
    simp only [map_append, List.sum_append, map_cons, map_nil, sum_singleton] at hfit hroom ⊢
    have hplace : TableHeader.LEN + (size + (done.map len).sum + len st) < 2 ^ width := by omega
    obtain ⟨t₁, hok, htracks₁, hsts₁, hoff₁⟩ := place_eq_ok htracks hoff (hdata st) (by omega) hplace st
    refine ⟨t₁, by rw [hok]; rfl, ?_, by rw [hsts₁, hsts, append_assoc], by rw [hoff₁, Nat.add_assoc]⟩
    rw [← Nat.add_assoc, ← UInt8.add_assoc]
    exact htracks₁
  · obtain ⟨rest, rfl⟩ := hpre
    simp only [map_append, List.sum_append, map_cons, map_nil, sum_singleton] at hfit hroom
    rw [place_eq_panic htracks hoff (hdata st) (by omega) (hlen st (by simp)) (by omega)]
    rfl

end HandleTable

end RustVmm.AcpiTables
