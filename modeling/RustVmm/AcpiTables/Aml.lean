import RustVmm.Lib.Outcome
import RustVmm.Lib.Parser

/-!
# AML bytecode

The encoder: an object is an opcode and its operands, and what holds other objects has a `PkgLength`.  The families
`compare_op!`, `object_op!`, `binary_op!` and `convert_op!` are one constructor each, with the member's opcode.

* `Path.new_text` — a name is parsed as it is written.
* `containers_agree` — the raw builders emit what the objects do.
-/

set_option autoImplicit false

namespace RustVmm.AcpiTables

open Lib Lib.Parser List
open Lib.Outcome (exists_ok_bind ok_bind)

/-! ## Opcodes -/

def ZEROOP : UInt8 := 0x00
def ONEOP : UInt8 := 0x01
def NAMEOP : UInt8 := 0x08
def BYTEPREFIX : UInt8 := 0x0a
def WORDPREFIX : UInt8 := 0x0b
def DWORDPREFIX : UInt8 := 0x0c
def STRINGOP : UInt8 := 0x0d
def QWORDPREFIX : UInt8 := 0x0e
def SCOPEOP : UInt8 := 0x10
def BUFFEROP : UInt8 := 0x11
def PACKAGEOP : UInt8 := 0x12
def METHODOP : UInt8 := 0x14
def DUALNAMEPREFIX : UInt8 := 0x2e
def MULTINAMEPREFIX : UInt8 := 0x2f
def EXTOPPREFIX : UInt8 := 0x5b
def MUTEXOP : UInt8 := 0x01
def ACQUIREOP : UInt8 := 0x23
def RELEASEOP : UInt8 := 0x27
def OPREGIONOP : UInt8 := 0x80
def FIELDOP : UInt8 := 0x81
def DEVICEOP : UInt8 := 0x82
def LOCAL0OP : UInt8 := 0x60
def ARG0OP : UInt8 := 0x68
def STOREOP : UInt8 := 0x70
def NOTIFYOP : UInt8 := 0x86
def LNOTOP : UInt8 := 0x92
def IFOP : UInt8 := 0xa0
def ELSEOP : UInt8 := 0xa1
def WHILEOP : UInt8 := 0xa2
def ONESOP : UInt8 := 0xff

/-! ## Package lengths -/

/-- How many bytes the length of a package takes. -/
def lengthLength (len : Nat) : Nat :=
  if len < 2 ^ 6 - 1 then 1
  else if len < 2 ^ 12 - 2 then 2
  else if len < 2 ^ 20 - 3 then 3
  else 4

/-- A `PkgLength`.  The one of a named field does not count its own bytes. -/
def createPkgLength (len : Nat) (includeSelf : Bool) : List UInt8 :=
  let length := len + if includeSelf then lengthLength len else 0
  match lengthLength len with
  | 1 => [UInt8.ofNat length]
  | 2 => [((1 : UInt8) <<< 6) ||| UInt8.ofNat (length &&& 0xf), UInt8.ofNat (length >>> 4)]
  | 3 => [((2 : UInt8) <<< 6) ||| UInt8.ofNat (length &&& 0xf), UInt8.ofNat (length >>> 4), UInt8.ofNat (length >>> 12)]
  | _ => [((3 : UInt8) <<< 6) ||| UInt8.ofNat (length &&& 0xf), UInt8.ofNat (length >>> 4),
      UInt8.ofNat (length >>> 12), UInt8.ofNat (length >>> 20)]

/-- The end of most `to_aml_bytes`: opcode, length and contents of a package. -/
def packaged (op bytes : List UInt8) : List UInt8 := op ++ createPkgLength bytes.length true ++ bytes

/-! ## Names -/

/-- `[u8; 4]`, one part of a name. -/
structure NameSeg where
  c0 : UInt8
  c1 : UInt8
  c2 : UInt8
  c3 : UInt8
  deriving DecidableEq, Repr

namespace NameSeg

def bytes (self : NameSeg) : List UInt8 := [self.c0, self.c1, self.c2, self.c3]

/-- The `assert_eq!` on the length of a part, and the copy of its bytes. -/
def ofPart : List UInt8 → Outcome Empty NameSeg
  | [c0, c1, c2, c3] => .ok ⟨c0, c1, c2, c3⟩
  | _ => .panic

end NameSeg

/-- `A`-`Z` and `_`, with which a part of a name starts. -/
def isLeadNameChar (c : UInt8) : Bool := (0x41 ≤ c && c ≤ 0x5a) || c == 0x5f

/-- The other characters of a part may be digits as well. -/
def isNameChar (c : UInt8) : Bool := isLeadNameChar c || (0x30 ≤ c && c ≤ 0x39)

/-- The four characters of a part of a name are as ACPI wants them. -/
def NameSeg.Valid (self : NameSeg) : Prop :=
  isLeadNameChar self.c0 ∧ isNameChar self.c1 ∧ isNameChar self.c2 ∧ isNameChar self.c3

instance : DecidablePred NameSeg.Valid := fun self => by unfold NameSeg.Valid; infer_instance

/-- A name string.  It starts at the root, at the parent or at neither of them. -/
structure Path where
  root : Bool
  parent : Bool
  nameParts : List NameSeg
  exclusive : ¬(root = true ∧ parent = true)
  deriving DecidableEq, Repr

namespace Path

theorem not_root_and_parent (name : List UInt8) :
    ¬((name.head? == some 0x5c) = true ∧ (name.head? == some 0x5e) = true) := by
  rintro ⟨hroot, hparent⟩
  have h := (beq_iff_eq.1 hroot).symm.trans (beq_iff_eq.1 hparent)
  exact absurd h (by decide)

/-- The path that a text names: its parts are what is between the dots. -/
def new (name : List UInt8) : Outcome Empty Path := do
  let root := name.head? == some 0x5c
  let parent := name.head? == some 0x5e
  let offset := (root || parent).toNat
  let nameParts ← ((name.drop offset).splitOn 0x2e).mapM NameSeg.ofPart
  return ⟨root, parent, nameParts, not_root_and_parent name⟩

def anchor (self : Path) : List UInt8 :=
  if self.root then [0x5c] else if self.parent then [0x5e] else []

/-- What says how many parts follow. -/
def countPrefix (self : Path) : Outcome Empty (List UInt8) :=
  match self.nameParts.length with
  | 0 => .panic
  | 1 => .ok []
  | 2 => .ok [DUALNAMEPREFIX]
  | n => .ok [MULTINAMEPREFIX, UInt8.ofNat n]

def toAmlBytes (self : Path) : Outcome Empty (List UInt8) := do
  let count ← self.countPrefix
  return self.anchor ++ count ++ self.nameParts.flatMap NameSeg.bytes

/-- A path with 1 to 255 valid parts. -/
def Valid (self : Path) : Prop :=
  1 ≤ self.nameParts.length ∧ self.nameParts.length ≤ 255 ∧ ∀ s ∈ self.nameParts, s.Valid

instance : DecidablePred Valid := fun self => by unfold Valid; infer_instance

def text (self : Path) : List UInt8 := self.anchor ++ [0x2e].intercalate (self.nameParts.map NameSeg.bytes)

end Path

/-! ## Integers -/

def Byte.toAmlBytes (self : UInt8) : List UInt8 :=
  if self = 0 then [ZEROOP] else if self = 1 then [ONEOP] else [BYTEPREFIX, self]

def Word.toAmlBytes (self : UInt16) : List UInt8 :=
  if self ≤ 0xff then Byte.toAmlBytes self.toUInt8
  else WORDPREFIX :: leBytes 2 self.toNat

def DWord.toAmlBytes (self : UInt32) : List UInt8 :=
  if self ≤ 0xffff then Word.toAmlBytes self.toUInt16
  else DWORDPREFIX :: leBytes 4 self.toNat

def QWord.toAmlBytes (self : UInt64) : List UInt8 :=
  if self ≤ 0xffffffff then DWord.toAmlBytes self.toUInt32
  else QWORDPREFIX :: leBytes 8 self.toNat

/-- `usize` of a target with 64-bit pointers. -/
def Usize.toAmlBytes (self : UInt64) : List UInt8 := QWord.toAmlBytes self

/-! ## Operators -/

inductive CompareOp where
  | logicalAnd | logicalOr | equal | lessThan | greaterThan
  | logicalNand | logicalNor | notEqual | greaterEqual | lessEqual
  deriving DecidableEq, Repr

namespace CompareOp

def opcode : CompareOp → UInt8
  | logicalAnd | logicalNand => 0x90
  | logicalOr | logicalNor => 0x91
  | equal | notEqual => 0x93
  | greaterThan | lessEqual => 0x94
  | lessThan | greaterEqual => 0x95

def invert : CompareOp → Bool
  | logicalAnd | logicalOr | equal | lessThan | greaterThan => false
  | logicalNand | logicalNor | notEqual | greaterEqual | lessEqual => true

end CompareOp

inductive ObjectOp where
  | objectType | sizeOf | returnTerm | deRefOf | logicalNot
  deriving DecidableEq, Repr

def ObjectOp.opcode : ObjectOp → UInt8
  | objectType => 0x8e
  | sizeOf => 0x87
  | returnTerm => 0xa4
  | deRefOf => 0x83
  | logicalNot => LNOTOP

inductive BinaryOp where
  | add | concat | subtract | multiply | shiftLeft | shiftRight | and | nand | or | nor | xor
  | concatRes | mod | index | toString | createDWordField | createQWordField
  deriving DecidableEq, Repr

def BinaryOp.opcode : BinaryOp → UInt8
  | add => 0x72
  | concat => 0x73
  | subtract => 0x74
  | multiply => 0x77
  | shiftLeft => 0x79
  | shiftRight => 0x7a
  | and => 0x7b
  | nand => 0x7c
  | or => 0x7d
  | nor => 0x7e
  | xor => 0x7f
  | concatRes => 0x84
  | mod => 0x85
  | index => 0x88
  | toString => 0x9c
  | createDWordField => 0x8a
  | createQWordField => 0x8f

inductive ConvertOp where
  | toBuffer | toInteger
  deriving DecidableEq, Repr

def ConvertOp.opcode : ConvertOp → UInt8
  | toBuffer => 0x96
  | toInteger => 0x99

/-! ## Fields and operation regions -/

inductive FieldAccessType where
  | any | byte | word | dword | qword | buffer
  deriving DecidableEq, Repr

def FieldAccessType.toU8 : FieldAccessType → UInt8
  | any => 0
  | byte => 1
  | word => 2
  | dword => 3
  | qword => 4
  | buffer => 5

inductive FieldLockRule where
  | noLock | lock
  deriving DecidableEq, Repr

def FieldLockRule.toU8 : FieldLockRule → UInt8
  | noLock => 0
  | lock => 1

inductive FieldUpdateRule where
  | preserve | writeAsOnes | writeAsZeroes
  deriving DecidableEq, Repr

def FieldUpdateRule.toU8 : FieldUpdateRule → UInt8
  | preserve => 0
  | writeAsOnes => 1
  | writeAsZeroes => 2

/-- A field of a region with its length in bits, or a gap. -/
inductive FieldEntry where
  | named (name : NameSeg) (length : Nat)
  | reserved (length : Nat)
  deriving DecidableEq, Repr

namespace FieldEntry

def bytes : FieldEntry → List UInt8
  | named name length => name.bytes ++ createPkgLength length false
  | reserved length => [0x0] ++ createPkgLength length false

/-- The length fits into a `PkgLength`, and the name does not start with the byte that marks a gap. -/
def Valid : FieldEntry → Prop
  | named name length => name.c0 ≠ 0x0 ∧ length < 2 ^ 28
  | reserved length => length < 2 ^ 28

instance : DecidablePred Valid := fun e => by cases e <;> unfold Valid <;> infer_instance

end FieldEntry

def Field.flags (accessType : FieldAccessType) (lockRule : FieldLockRule) (updateRule : FieldUpdateRule) : UInt8 :=
  accessType.toU8 ||| (lockRule.toU8 <<< 4) ||| (updateRule.toU8 <<< 5)

def Method.flags (args : UInt8) (serialized : Bool) : UInt8 := (args &&& (0x7 : UInt8)) ||| (serialized.toUInt8 <<< 3)

inductive OpRegionSpace where
  | systemMemory | systemIo | pciConfig | embeddedControl | smBus | systemCMOS | pciBarTarget | ipmi
  | generalPurposeIo | genericSerialBus
  deriving DecidableEq, Repr

def OpRegionSpace.toU8 : OpRegionSpace → UInt8
  | systemMemory => 0
  | systemIo => 1
  | pciConfig => 2
  | embeddedControl => 3
  | smBus => 4
  | systemCMOS => 5
  | pciBarTarget => 6
  | ipmi => 7
  | generalPurposeIo => 8
  | genericSerialBus => 9

/-! ## Package builders -/

/-- A package whose elements are written as they are added. -/
structure PackageBuilder where
  data : List UInt8
  elements : Nat
  deriving DecidableEq, Repr

namespace PackageBuilder

def new : PackageBuilder := ⟨[], 0⟩

/-- `add_element`, with what the element writes into the builder as its sink. -/
def addElement (self : PackageBuilder) (aml : Outcome Empty (List UInt8)) : Outcome Empty PackageBuilder := do
  let bytes ← aml
  return ⟨self.data ++ bytes, self.elements + 1⟩

def toAmlBytes (self : PackageBuilder) : List UInt8 :=
  [PACKAGEOP] ++ createPkgLength (self.data.length + 1) true ++ [UInt8.ofNat self.elements] ++ self.data

theorem toAmlBytes_eq_packaged (data : List UInt8) (elements : Nat) :
    PackageBuilder.toAmlBytes ⟨data, elements⟩ = packaged [PACKAGEOP] ([UInt8.ofNat elements] ++ data) := by
  simp only [toAmlBytes, packaged, length_append, length_singleton, append_assoc, Nat.add_comm 1]

end PackageBuilder

/-! ## Objects -/

/-- The objects that implement `Aml`. -/
inductive Aml where
  | zero
  | one
  | ones
  | byte (value : UInt8)
  | word (value : UInt16)
  | dword (value : UInt32)
  | qword (value : UInt64)
  | usize (value : UInt64)
  | string (text : List UInt8)
  | path (path : Path)
  | name (path : Path) (inner : Aml)
  | package (children : List Aml)
  /-- A `PackageBuilder` to which these elements were added. -/
  | packageBuilder (elements : List Aml)
  | bufferData (data : List UInt8)
  | device (path : Path) (children : List Aml)
  | scope (path : Path) (children : List Aml)
  | method (path : Path) (args : UInt8) (serialized : Bool) (children : List Aml)
  | field (path : Path) (accessType : FieldAccessType) (lockRule : FieldLockRule)
      (updateRule : FieldUpdateRule) (fields : List FieldEntry)
  | opRegion (path : Path) (space : OpRegionSpace) (offset length : Aml)
  | ifTerm (predicate : Aml) (ifChildren : List Aml)
  | elseTerm (body : List Aml)
  | whileTerm (predicate : Aml) (whileChildren : List Aml)
  | compareOp (op : CompareOp) (left right : Aml)
  | objectOp (op : ObjectOp) (a : Aml)
  | binaryOp (op : BinaryOp) (target a b : Aml)
  | convertOp (op : ConvertOp) (target a : Aml)
  | arg (n : UInt8)
  | localObj (n : UInt8)
  | store (name value : Aml)
  | mutex (path : Path) (syncLevel : UInt8)
  | acquire (mutex : Path) (timeout : UInt16)
  | release (mutex : Path)
  | notify (object value : Aml)
  deriving Repr

namespace Aml

mutual

def toAmlBytes : Aml → Outcome Empty (List UInt8)
  | .zero => .ok [ZEROOP]
  | .one => .ok [ONEOP]
  | .ones => .ok [ONESOP]
  | .byte value => .ok (Byte.toAmlBytes value)
  | .word value => .ok (Word.toAmlBytes value)
  | .dword value => .ok (DWord.toAmlBytes value)
  | .qword value => .ok (QWord.toAmlBytes value)
  | .usize value => .ok (Usize.toAmlBytes value)
  | .string text => .ok ([STRINGOP] ++ text ++ [0x0])
  | .path p => p.toAmlBytes
  | .name p inner => do
    let path ← p.toAmlBytes
    let bytes ← inner.toAmlBytes
    return [NAMEOP] ++ path ++ bytes
  | .package cs => do
    let bytes ← childrenBytes cs
    return packaged [PACKAGEOP] ([UInt8.ofNat cs.length] ++ bytes)
  | .packageBuilder elements => do
    let data ← childrenBytes elements
    return PackageBuilder.toAmlBytes ⟨data, elements.length⟩
  | .bufferData data =>
    .ok (packaged [BUFFEROP] (Usize.toAmlBytes (UInt64.ofNat data.length) ++ data))
  | .device p cs => do
    let path ← p.toAmlBytes
    let children ← childrenBytes cs
    return packaged [EXTOPPREFIX, DEVICEOP] (path ++ children)
  | .scope p cs => do
    let path ← p.toAmlBytes
    let children ← childrenBytes cs
    return packaged [SCOPEOP] (path ++ children)
  | .method p args serialized cs => do
    let path ← p.toAmlBytes
    let children ← childrenBytes cs
    return packaged [METHODOP] (path ++ [Method.flags args serialized] ++ children)
  | .field p accessType lockRule updateRule fields => do
    let path ← p.toAmlBytes
    return packaged [EXTOPPREFIX, FIELDOP]
      (path ++ [Field.flags accessType lockRule updateRule] ++ fields.flatMap FieldEntry.bytes)
  | .opRegion p space offset length => do
    let path ← p.toAmlBytes
    let offset ← offset.toAmlBytes
    let length ← length.toAmlBytes
    return [EXTOPPREFIX, OPREGIONOP] ++ path ++ [space.toU8] ++ offset ++ length
  | .ifTerm predicate ifChildren => do
    let predicate ← predicate.toAmlBytes
    let children ← childrenBytes ifChildren
    return packaged [IFOP] (predicate ++ children)
  | .elseTerm body => do
    let bytes ← childrenBytes body
    return packaged [ELSEOP] bytes
  | .whileTerm predicate whileChildren => do
    let predicate ← predicate.toAmlBytes
    let children ← childrenBytes whileChildren
    return packaged [WHILEOP] (predicate ++ children)
  | .compareOp op left right => do
    let left ← left.toAmlBytes
    let right ← right.toAmlBytes
    return (if op.invert then [LNOTOP] else []) ++ ([op.opcode] ++ left ++ right)
  | .objectOp op a => do
    let a ← a.toAmlBytes
    return [op.opcode] ++ a
  | .binaryOp op target a b => do
    let a ← a.toAmlBytes
    let b ← b.toAmlBytes
    let target ← target.toAmlBytes
    return [op.opcode] ++ a ++ b ++ target
  | .convertOp op target a => do
    let a ← a.toAmlBytes
    let target ← target.toAmlBytes
    return [op.opcode] ++ a ++ target
  | .arg n => if n ≤ 6 then .ok [ARG0OP + n] else .panic
  | .localObj n => if n ≤ 7 then .ok [LOCAL0OP + n] else .panic
  | .store target value => do
    -- the operands are written the other way round
    let value ← value.toAmlBytes
    let name ← target.toAmlBytes
    return [STOREOP] ++ value ++ name
  | .mutex p syncLevel => do
    let path ← p.toAmlBytes
    return [EXTOPPREFIX, MUTEXOP] ++ path ++ [syncLevel]
  | .acquire p timeout => do
    let mutex ← p.toAmlBytes
    return [EXTOPPREFIX, ACQUIREOP] ++ mutex ++ leBytes 2 timeout.toNat
  | .release p => do
    let mutex ← p.toAmlBytes
    return [EXTOPPREFIX, RELEASEOP] ++ mutex
  | .notify object value => do
    let object ← object.toAmlBytes
    let value ← value.toAmlBytes
    return [NOTIFYOP] ++ object ++ value

/-- The loops over the children of an object. -/
def childrenBytes : List Aml → Outcome Empty (List UInt8)
  | [] => .ok []
  | child :: cs => do
    let bytes ← child.toAmlBytes
    let rest ← childrenBytes cs
    return bytes ++ rest

end

/-- The objects right below an object, in the order in which they are written. -/
def children : Aml → List Aml
  | .name _ inner => [inner]
  | .package cs | .packageBuilder cs | .elseTerm cs => cs
  | .device _ cs | .scope _ cs | .method _ _ _ cs => cs
  | .opRegion _ _ offset length => [offset, length]
  | .ifTerm predicate cs | .whileTerm predicate cs => predicate :: cs
  | .compareOp _ left right => [left, right]
  | .objectOp _ a => [a]
  | .binaryOp _ target a b => [a, b, target]
  | .convertOp _ target a => [a, target]
  | .store target value => [value, target]
  | .notify object value => [object, value]
  | _ => []

variable {c t : Aml}

theorem sizeOf_lt_of_mem_children (h : c ∈ t.children) : sizeOf c < sizeOf t := by
  have hlist : ∀ cs : List Aml, c ∈ cs → sizeOf c < sizeOf cs := fun _ => sizeOf_lt_of_mem
  cases t <;> simp only [children, not_mem_nil, mem_cons, or_false] at h <;>
    grind [Aml.name.sizeOf_spec]

theorem children_induction {P : Aml → Prop} (h : ∀ t, (∀ c ∈ t.children, P c) → P t) (t : Aml) : P t :=
  h t fun c _ => children_induction h c
termination_by sizeOf t
decreasing_by exact sizeOf_lt_of_mem_children ‹_›

def subterms (t : Aml) : List Aml := t :: t.children.attach.flatMap fun c => subterms c.1
termination_by sizeOf t
decreasing_by exact sizeOf_lt_of_mem_children c.2

theorem mem_subterms {s : Aml} : s ∈ t.subterms ↔ s = t ∨ ∃ c ∈ t.children, s ∈ c.subterms := by
  rw [subterms]
  simp

/-! ## The objects that have an encoding -/

/-- What ACPI asks of an object itself: characters of names, numbers of elements, arguments and bits. -/
def WellFormed : Aml → Prop
  | .string text => 0 ∉ text
  | .path p | .name p _ | .device p _ | .scope p _ | .opRegion p _ _ _ => p.Valid
  | .mutex p _ | .acquire p _ | .release p => p.Valid
  | .package cs | .packageBuilder cs => cs.length ≤ 255
  | .method p args _ _ => p.Valid ∧ args ≤ 7
  | .field p _ _ _ fields => p.Valid ∧ ∀ e ∈ fields, e.Valid
  | .arg n => n ≤ 6
  | .localObj n => n ≤ 7
  | _ => True

instance : DecidablePred WellFormed := fun t => by
  cases t <;> unfold WellFormed <;> infer_instance

/-- The object and all objects below it are well-formed. -/
def Valid (t : Aml) : Prop := ∀ s ∈ t.subterms, s.WellFormed

instance : DecidablePred Valid := fun t => by unfold Valid; infer_instance

theorem Valid.wellFormed (h : t.Valid) : t.WellFormed := h t (mem_subterms.2 (.inl rfl))

theorem Valid.of_children (hw : t.WellFormed) (hc : ∀ c ∈ t.children, c.Valid) : t.Valid := by
  intro s hs
  rcases mem_subterms.1 hs with rfl | ⟨c, hmem, hs⟩
  · exact hw
  · exact hc c hmem s hs

theorem Valid.child (h : t.Valid) (hc : c ∈ t.children) : c.Valid := fun s hs => h s (mem_subterms.2 (.inr ⟨c, hc, hs⟩))

end Aml

/-! ## Writing -/

theorem isNameChar_ne_dot {c : UInt8} (h : isNameChar c) : c ≠ 0x2e := by
  rintro rfl
  exact absurd h (by decide)

namespace NameSeg

theorem Valid.dot_not_mem {s : NameSeg} (h : s.Valid) : 0x2e ∉ s.bytes := by
  have h0 : isNameChar s.c0 := by simp [isNameChar, h.1]
  simp [bytes, (isNameChar_ne_dot h0).symm, (isNameChar_ne_dot h.2.1).symm,
    (isNameChar_ne_dot h.2.2.1).symm, (isNameChar_ne_dot h.2.2.2).symm]

theorem mapM_ofPart_bytes (ss : List NameSeg) : ss.mapM (ofPart ∘ bytes) = .ok ss := by
  induction ss with
  | nil => rfl
  | cons s ss ih =>
    rw [mapM_cons, ih]
    rfl

end NameSeg

namespace Path

variable {p : Path}

theorem countPrefix_ok (hp : p.Valid) : ∃ bs, p.countPrefix = .ok bs := by
  have hpos := hp.1
  unfold countPrefix
  split
  · omega
  all_goals exact ⟨_, rfl⟩

theorem toAmlBytes_ok (hp : p.Valid) : ∃ bs, p.toAmlBytes = .ok bs :=
  exists_ok_bind (countPrefix_ok hp) fun _ => ⟨_, rfl⟩

variable {ss : List NameSeg}

theorem head?_intercalate (hne : ss ≠ []) (hv : ∀ s ∈ ss, s.Valid) :
    ∃ c, ([0x2e].intercalate (ss.map NameSeg.bytes)).head? = some c ∧ isLeadNameChar c := by
  obtain ⟨s, ss, rfl⟩ := exists_cons_of_ne_nil hne
  refine ⟨s.c0, ?_, (hv s (by simp)).1⟩
  cases ss <;> simp [intercalate, NameSeg.bytes]

theorem splitOn_intercalate_parts (hne : ss ≠ []) (hv : ∀ s ∈ ss, s.Valid) :
    ([0x2e].intercalate (ss.map NameSeg.bytes)).splitOn 0x2e = ss.map NameSeg.bytes := by
  refine splitOn_intercalate _ ?_ (by simpa using hne)
  intro l hl
  obtain ⟨s, hs, rfl⟩ := mem_map.1 hl
  exact (hv s hs).dot_not_mem

theorem new_text (hp : p.Valid) : Path.new p.text = .ok p := by
  obtain ⟨root, parent, parts, hex⟩ := p
  obtain ⟨hpos, -, hv⟩ := hp
  have hne : parts ≠ [] := ne_nil_of_length_pos hpos
  have hsplit := splitOn_intercalate_parts hne hv
  cases root <;> cases parent
  · obtain ⟨c, hhead, hc⟩ := head?_intercalate hne hv
    have hroot : (c == 0x5c) = false := beq_false_of_ne (by rintro rfl; exact absurd hc (by decide))
    have hparent : (c == 0x5e) = false := beq_false_of_ne (by rintro rfl; exact absurd hc (by decide))
    simp [new, text, anchor, hhead, hroot, hparent, hsplit, NameSeg.mapM_ofPart_bytes]
  · simp [new, text, anchor, hsplit, NameSeg.mapM_ofPart_bytes]
  · simp [new, text, anchor, hsplit, NameSeg.mapM_ofPart_bytes]
  · exact absurd ⟨rfl, rfl⟩ hex

theorem new_text_pci0 : ∃ p, text p = [0x5c, 0x5f, 0x53, 0x42, 0x5f, 0x2e, 0x50, 0x43, 0x49, 0x30] ∧
    Path.new p.text = .ok p :=
  ⟨⟨true, false, [⟨0x5f, 0x53, 0x42, 0x5f⟩, ⟨0x50, 0x43, 0x49, 0x30⟩], by simp⟩, rfl, new_text (by decide)⟩

end Path

namespace Aml

theorem childrenBytes_ok {cs : List Aml} (h : ∀ c ∈ cs, ∃ bs, c.toAmlBytes = .ok bs) :
    ∃ bs, childrenBytes cs = .ok bs := by
  induction cs with
  | nil => exact ⟨[], rfl⟩
  | cons c cs ih =>
    obtain ⟨bytes, hbytes⟩ := h c (by simp)
    obtain ⟨rest, hrest⟩ := ih fun d hd => h d (by simp [hd])
    exact ⟨bytes ++ rest, by rw [childrenBytes, hbytes, hrest]; rfl⟩

theorem toAmlBytes_ok {t : Aml} (hv : t.Valid) : ∃ bs, t.toAmlBytes = .ok bs := by
  induction t using children_induction with
  | h t ih =>
    have hw := hv.wellFormed
    have hc : ∀ c ∈ t.children, ∃ bs, c.toAmlBytes = .ok bs := fun c hc => ih c hc (hv.child hc)
    cases t with
    | zero | one | ones | byte | word | dword | qword | usize | string | bufferData => exact ⟨_, rfl⟩
    | path p => exact Path.toAmlBytes_ok hw
    | arg n | localObj n => exact ⟨_, if_pos hw⟩
    | mutex p _ | acquire p _ | release p =>
      exact exists_ok_bind (Path.toAmlBytes_ok hw) fun _ => ⟨_, rfl⟩
    | field p _ _ _ fields => exact exists_ok_bind (Path.toAmlBytes_ok hw.1) fun _ => ⟨_, rfl⟩
    | name p inner =>
      exact exists_ok_bind (Path.toAmlBytes_ok hw) fun _ =>
        exists_ok_bind (hc inner (by simp [children])) fun _ => ⟨_, rfl⟩
    | package cs | packageBuilder cs | elseTerm cs =>
      exact exists_ok_bind (childrenBytes_ok hc) fun _ => ⟨_, rfl⟩
    | device p cs | scope p cs =>
      exact exists_ok_bind (Path.toAmlBytes_ok hw) fun _ =>
        exists_ok_bind (childrenBytes_ok hc) fun _ => ⟨_, rfl⟩
    | method p args serialized cs =>
      exact exists_ok_bind (Path.toAmlBytes_ok hw.1) fun _ =>
        exists_ok_bind (childrenBytes_ok hc) fun _ => ⟨_, rfl⟩
    | opRegion p space offset length =>
      exact exists_ok_bind (Path.toAmlBytes_ok hw) fun _ =>
        exists_ok_bind (hc offset (by simp [children])) fun _ =>
        exists_ok_bind (hc length (by simp [children])) fun _ => ⟨_, rfl⟩
    | ifTerm predicate cs | whileTerm predicate cs =>
      exact exists_ok_bind (hc predicate (by simp [children])) fun _ =>
        exists_ok_bind (childrenBytes_ok fun c h => hc c (by simp [children, h])) fun _ => ⟨_, rfl⟩
    | objectOp op a => exact exists_ok_bind (hc a (by simp [children])) fun _ => ⟨_, rfl⟩
    | compareOp _ x y | convertOp _ y x | store y x | notify x y =>
      exact exists_ok_bind (hc x (by simp [children])) fun _ =>
        exists_ok_bind (hc y (by simp [children])) fun _ => ⟨_, rfl⟩
    | binaryOp op target a b =>
      exact exists_ok_bind (hc a (by simp [children])) fun _ =>
        exists_ok_bind (hc b (by simp [children])) fun _ =>
        exists_ok_bind (hc target (by simp [children])) fun _ => ⟨_, rfl⟩

theorem packageBuilder_toAmlBytes (elements : List Aml) :
    (packageBuilder elements).toAmlBytes = (package elements).toAmlBytes := by
  simp only [toAmlBytes, PackageBuilder.toAmlBytes_eq_packaged]

end Aml

/-! ## Scopes from raw bytes -/

/-- `slice::copy_within`, for the range from `start` to `stop`. -/
def copyWithin (bytes : List UInt8) (start stop dest : Nat) : Outcome Empty (List UInt8) :=
  let count := stop - start
  if start ≤ stop ∧ stop ≤ bytes.length ∧ dest + count ≤ bytes.length then
    .ok (bytes.take dest ++ (bytes.drop start).take count ++ bytes.drop (dest + count))
  else .panic

/-- `slice::copy_from_slice`, into the range from `start` to `stop`. -/
def copyFromSlice (bytes : List UInt8) (start stop : Nat) (src : List UInt8) : Outcome Empty (List UInt8) :=
  if start ≤ stop ∧ stop ≤ bytes.length ∧ stop - start = src.length then
    .ok (bytes.take start ++ src ++ bytes.drop stop)
  else .panic

/-- `Scope::raw`. -/
def Scope.raw (path : Path) (children : List UInt8) : Outcome Empty (List UInt8) := do
  let path ← path.toAmlBytes
  let bytes := SCOPEOP :: (path ++ children)
  let n := bytes.length
  let pkgLength := createPkgLength (n - 1) true
  let m := pkgLength.length
  let bytes ← copyWithin (bytes ++ replicate m 0xff) 1 n (m + 1)
  copyFromSlice bytes 1 (m + 1) pkgLength

variable (op : UInt8)

theorem copyWithin_resized (rest fill : List UInt8) :
    copyWithin (op :: rest ++ fill) 1 (rest.length + 1) (fill.length + 1) =
      .ok (op :: (rest ++ fill).take fill.length ++ rest) := by
  have hbounds : 1 ≤ rest.length + 1 ∧ rest.length + 1 ≤ (op :: rest ++ fill).length ∧
      fill.length + 1 + (rest.length + 1 - 1) ≤ (op :: rest ++ fill).length := by
    simp only [length_append, length_cons]
    omega
  have hend : (op :: rest ++ fill).drop (fill.length + 1 + (rest.length + 1 - 1)) = [] := by
    refine drop_eq_nil_of_le ?_
    simp only [length_append, length_cons]
    omega
  rw [copyWithin, if_pos hbounds, hend]
  simp

theorem copyFromSlice_second {hole src : List UInt8} (hlen : hole.length = src.length)
    (rest : List UInt8) : copyFromSlice (op :: hole ++ rest) 1 (src.length + 1) src = .ok (op :: (src ++ rest)) := by
  rw [copyFromSlice, ← hlen]
  simp

theorem Scope.raw_eq {path : Path} {name : List UInt8} (hpath : path.toAmlBytes = .ok name) (children : List UInt8) :
    Scope.raw path children = .ok (packaged [SCOPEOP] (name ++ children)) := by
  have hfill : (replicate (createPkgLength (name ++ children).length true).length (0xff : UInt8)).length =
      (createPkgLength (name ++ children).length true).length := length_replicate
  have hmove := copyWithin_resized SCOPEOP (name ++ children)
    (replicate (createPkgLength (name ++ children).length true).length 0xff)
  rw [hfill] at hmove
  rw [Scope.raw, hpath, ok_bind]
  simp only [length_cons, Nat.add_sub_cancel]
  rw [hmove, ok_bind, copyFromSlice_second]
  · rfl
  · simp only [length_take, length_append, length_replicate]
    omega

/-! ## Objects of any type -/

section

variable {α : Type} (emit : α → Outcome Empty (List UInt8))

/-- What the children of a container write, one after the other. -/
def emitAll : List α → Outcome Empty (List UInt8)
  | [] => .ok []
  | c :: cs => do
    let bytes ← emit c
    let rest ← emitAll cs
    return bytes ++ rest

/-- `to_aml_bytes` of a `Scope`, for children of any type. -/
def Scope.toAmlBytes (path : Path) (children : List α) : Outcome Empty (List UInt8) := do
  let path ← path.toAmlBytes
  let bytes ← emitAll emit children
  return packaged [SCOPEOP] (path ++ bytes)

/-- `to_aml_bytes` of a `Package`, for children of any type. -/
def Package.toAmlBytes (children : List α) : Outcome Empty (List UInt8) := do
  let bytes ← emitAll emit children
  return packaged [PACKAGEOP] ([UInt8.ofNat children.length] ++ bytes)

theorem foldlM_addElement (b : PackageBuilder) (elements : List α) :
    elements.foldlM (fun b e => b.addElement (emit e)) b =
      (fun data => ⟨b.data ++ data, b.elements + elements.length⟩) <$> emitAll emit elements := by
  induction elements generalizing b with
  | nil => simp [emitAll]
  | cons e es ih =>
    rw [foldlM_cons, emitAll, PackageBuilder.addElement]
    cases emit e with
    | ok bytes =>
      simp only [ok_bind, Outcome.pure_eq, ih]
      cases emitAll emit es with
      | ok rest => simp [Nat.add_assoc, Nat.add_comm 1]
      | err e => exact e.elim
      | panic => rfl
    | err e => exact e.elim
    | panic => rfl

end

theorem Aml.childrenBytes_eq (cs : List Aml) : childrenBytes cs = emitAll toAmlBytes cs := by
  induction cs with
  | nil => rw [childrenBytes, emitAll]
  | cons c cs ih => rw [childrenBytes, emitAll, ih]

/-- **The two ways of building a container agree**, whatever objects it has: the raw scope has the bytes of the scope,
and the builder those of the package.  The objects may themselves be containers. -/
theorem containers_agree {α : Type} (emit : α → Outcome Empty (List UInt8)) :
    (∀ path (children : List α) bytes, emitAll emit children = .ok bytes →
      Scope.raw path bytes = Scope.toAmlBytes emit path children) ∧
    (∀ elements : List α, PackageBuilder.toAmlBytes <$>
      elements.foldlM (fun b e => b.addElement (emit e)) PackageBuilder.new = Package.toAmlBytes emit elements) ∧
    (∀ path children, (Aml.scope path children).toAmlBytes = Scope.toAmlBytes Aml.toAmlBytes path children) ∧
    ∀ elements, (Aml.package elements).toAmlBytes = Package.toAmlBytes Aml.toAmlBytes elements := by
  refine ⟨fun path children bytes hbytes => ?_, fun elements => ?_, fun path children => ?_, fun elements => ?_⟩
  · rw [Scope.toAmlBytes, hbytes]
    cases hpath : path.toAmlBytes with
    | ok name => exact Scope.raw_eq hpath bytes
    | err e => exact e.elim
    | panic => rw [Scope.raw, hpath]; rfl
  · rw [foldlM_addElement, Package.toAmlBytes]
    cases emitAll emit elements with
    | ok data => simp [PackageBuilder.new, PackageBuilder.toAmlBytes_eq_packaged]
    | err e => exact e.elim
    | panic => rfl
  · rw [Aml.toAmlBytes, Aml.childrenBytes_eq, Scope.toAmlBytes]
  · rw [Aml.toAmlBytes, Aml.childrenBytes_eq, Package.toAmlBytes]

/-- A scope with a package in it, whose lengths take two bytes. -/
theorem containers_agree_nested :
    let children := [Aml.package [.byte 1, .bufferData (replicate 60 0)]]
    ∃ path bytes, Path.new [95, 83, 66, 95] = .ok path ∧ emitAll Aml.toAmlBytes children = .ok bytes ∧
      62 < bytes.length ∧ Scope.raw path bytes = (Aml.scope path children).toAmlBytes := by
  obtain ⟨hraw, _, hscope, _⟩ := containers_agree Aml.toAmlBytes
  refine ⟨_, _, rfl, rfl, by decide, ?_⟩
  rw [hscope]
  exact hraw _ _ _ rfl

end RustVmm.AcpiTables
