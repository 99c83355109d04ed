import RustVmm.AcpiTables.Aml

/-!
# A recursive-descent parser for AML

The productions of the ACPI grammar for the objects of the encoder.  The first byte of a term selects the production;
then only the arity of the operator, the `PkgLength` and the lead byte of a name say how far a term goes.
-/

set_option autoImplicit false

namespace RustVmm.AcpiTables

open Lib Lib.Parser

/-! ## Package lengths -/

/-- The two highest bits of the first byte are the number of bytes that follow. -/
def pkgLength : Parser UInt8 Nat := next >>= fun lead =>
  let count := (lead >>> 6).toNat
  if count = 0 then pure (lead &&& 0x3f).toNat
  else (fun high => (lead &&& 0xf).toNat + 16 * high) <$> le count

/-- What is inside a package.  The length counts from its own first byte on. -/
def pkg {α : Type} (p : Parser UInt8 α) : Parser UInt8 α := fun input => do
  let r ← pkgLength.run input
  let used := input.length - r.2.length
  if used ≤ r.1 then (p.within (r.1 - used)).run r.2 else none

/-! ## Names -/

/-- The four bytes that start with `c0`. -/
def fourBytesFrom (c0 : UInt8) : Parser UInt8 NameSeg := NameSeg.mk c0 <$> next <*> next <*> next

def nameSegFrom (c0 : UInt8) : Parser UInt8 NameSeg :=
  (fourBytesFrom c0).filterMap fun s => if s.Valid then some s else none

def nameSeg : Parser UInt8 NameSeg := next >>= nameSegFrom

/-- The parts of a path, from the byte on that says how many there are. -/
def namePath (lead : UInt8) : Parser UInt8 (List NameSeg) :=
  if lead = DUALNAMEPREFIX then times nameSeg 2
  else if lead = MULTINAMEPREFIX then next >>= fun n => times nameSeg n.toNat
  else (fun s => [s]) <$> nameSegFrom lead

def nameStringFrom (lead : UInt8) : Parser UInt8 Path :=
  if lead = 0x5c then (fun parts => ⟨true, false, parts, by simp⟩) <$> (next >>= namePath)
  else if lead = 0x5e then (fun parts => ⟨false, true, parts, by simp⟩) <$> (next >>= namePath)
  else (fun parts => ⟨false, false, parts, by simp⟩) <$> namePath lead

def nameString : Parser UInt8 Path := next >>= nameStringFrom

def isNameStart (b : UInt8) : Bool :=
  b == 0x5c || b == 0x5e || b == DUALNAMEPREFIX || b == MULTINAMEPREFIX || isLeadNameChar b

/-! ## Fields -/

def FieldAccessType.all : List FieldAccessType := [.any, .byte, .word, .dword, .qword, .buffer]
def FieldLockRule.all : List FieldLockRule := [.noLock, .lock]
def FieldUpdateRule.all : List FieldUpdateRule := [.preserve, .writeAsOnes, .writeAsZeroes]

def Field.ofFlags (flags : UInt8) : Option (FieldAccessType × FieldLockRule × FieldUpdateRule) := do
  let accessType ← FieldAccessType.all.find? fun a => a.toU8 == flags &&& 0xf
  let lockRule ← FieldLockRule.all.find? fun l => l.toU8 == (flags >>> 4) &&& 0x1
  let updateRule ← FieldUpdateRule.all.find? fun u => u.toU8 == (flags >>> 5) &&& 0x3
  return (accessType, lockRule, updateRule)

def fieldEntry : Parser UInt8 FieldEntry := next >>= fun b =>
  if b = 0x0 then FieldEntry.reserved <$> pkgLength
  else FieldEntry.named <$> fourBytesFrom b <*> pkgLength

def OpRegionSpace.all : List OpRegionSpace :=
  [.systemMemory, .systemIo, .pciConfig, .embeddedControl, .smBus, .systemCMOS, .pciBarTarget, .ipmi,
    .generalPurposeIo, .genericSerialBus]

def OpRegionSpace.ofU8 (b : UInt8) : Option OpRegionSpace := all.find? fun s => s.toU8 == b

/-! ## Productions -/

/-- The comparisons that have an opcode of their own. -/
def CompareOp.plainOps : List CompareOp := [.logicalAnd, .logicalOr, .equal, .lessThan, .greaterThan]

def ObjectOp.all : List ObjectOp := [.objectType, .sizeOf, .returnTerm, .deRefOf, .logicalNot]

def BinaryOp.all : List BinaryOp :=
  [.add, .concat, .subtract, .multiply, .shiftLeft, .shiftRight, .and, .nand, .or, .nor, .xor, .concatRes,
    .mod, .index, .toString, .createDWordField, .createQWordField]

def ConvertOp.all : List ConvertOp := [.toBuffer, .toInteger]

/-- The productions, by their first byte. -/
inductive Lead where
  | integer (value : UInt64)
  | ones
  /-- An integer of so many bytes. -/
  | integerOf (width : Nat)
  | string
  | nameString (first : UInt8)
  | name
  | package
  | buffer
  | scope
  | method
  | ifTerm
  | elseTerm
  | whileTerm
  | compareOp (op : CompareOp)
  | objectOp (op : ObjectOp)
  | binaryOp (op : BinaryOp)
  | convertOp (op : ConvertOp)
  | arg (n : UInt8)
  | localObj (n : UInt8)
  | store
  | notify
  | extended

namespace Lead

def opcodes : List (UInt8 × Lead) :=
  [(ZEROOP, integer 0), (ONEOP, integer 1), (ONESOP, ones), (BYTEPREFIX, integerOf 1),
    (WORDPREFIX, integerOf 2), (DWORDPREFIX, integerOf 4), (QWORDPREFIX, integerOf 8),
    (STRINGOP, string), (NAMEOP, name), (PACKAGEOP, package), (BUFFEROP, buffer), (SCOPEOP, scope),
    (METHODOP, method), (IFOP, ifTerm), (ELSEOP, elseTerm), (WHILEOP, whileTerm), (STOREOP, store),
    (NOTIFYOP, notify), (EXTOPPREFIX, extended)] ++
  CompareOp.plainOps.map (fun op => (op.opcode, compareOp op)) ++
  ObjectOp.all.map (fun op => (op.opcode, objectOp op)) ++
  BinaryOp.all.map (fun op => (op.opcode, binaryOp op)) ++
  ConvertOp.all.map (fun op => (op.opcode, convertOp op))

def ofByte (b : UInt8) : Option Lead :=
  if isNameStart b then some (nameString b)
  else if LOCAL0OP ≤ b ∧ b ≤ LOCAL0OP + 7 then some (localObj (b - LOCAL0OP))
  else if ARG0OP ≤ b ∧ b ≤ ARG0OP + 6 then some (arg (b - ARG0OP))
  else opcodes.lookup b

end Lead

/-- The productions that start with `EXTOPPREFIX`. -/
inductive ExtLead where
  | mutex
  | acquire
  | release
  | opRegion
  | field
  | device

def ExtLead.ofByte (b : UInt8) : Option ExtLead :=
  [(MUTEXOP, mutex), (ACQUIREOP, acquire), (RELEASEOP, release), (OPREGIONOP, opRegion), (FIELDOP, field),
    (DEVICEOP, device)].lookup b

def countedPackage (count : UInt8) (elements : List Aml) : Option Aml :=
  if elements.length = count.toNat then some (.package elements) else none

def sizedBuffer (size : Aml) (data : List UInt8) : Option Aml :=
  match size with
  | .qword n => if n = UInt64.ofNat data.length then some (.bufferData data) else none
  | _ => none

def ExtLead.operands (sub : Parser UInt8 Aml) : ExtLead → Parser UInt8 Aml
  | mutex => Aml.mutex <$> nameString <*> next
  | acquire => (fun path timeout => Aml.acquire path (UInt16.ofNat timeout)) <$> nameString <*> le 2
  | release => Aml.release <$> nameString
  | opRegion => Aml.opRegion <$> nameString <*> next.filterMap OpRegionSpace.ofU8 <*> sub <*> sub
  | field => pkg ((fun path flags fields => Aml.field path flags.1 flags.2.1 flags.2.2 fields) <$>
      nameString <*> next.filterMap Field.ofFlags <*> many fieldEntry)
  | device => pkg (Aml.device <$> nameString <*> many sub)

/-- The rest of a term after its opcode; `sub` reads the terms inside of it. -/
def Lead.operands (sub : Parser UInt8 Aml) : Lead → Parser UInt8 Aml
  | integer value => pure (.qword value)
  | ones => pure .ones
  | integerOf width => (fun v => Aml.qword (UInt64.ofNat v)) <$> le width
  | string => Aml.string <$> takeUntil (· == 0)
  | nameString first => Aml.path <$> nameStringFrom first
  | name => Aml.name <$> AcpiTables.nameString <*> sub
  | package => pkg (Parser.filterMap (fun r => countedPackage r.1 r.2) (Prod.mk <$> next <*> many sub))
  | buffer => pkg (Parser.filterMap (fun r => sizedBuffer r.1 r.2) (Prod.mk <$> sub <*> remaining))
  | scope => pkg (Aml.scope <$> AcpiTables.nameString <*> many sub)
  | method => pkg ((fun path flags => Aml.method path (flags &&& 0x7) (flags &&& 0x8 == 0x8)) <$>
      AcpiTables.nameString <*> next <*> many sub)
  | ifTerm => pkg (Aml.ifTerm <$> sub <*> many sub)
  | elseTerm => pkg (Aml.elseTerm <$> many sub)
  | whileTerm => pkg (Aml.whileTerm <$> sub <*> many sub)
  | compareOp op => Aml.compareOp op <$> sub <*> sub
  | objectOp op => Aml.objectOp op <$> sub
  | binaryOp op => (fun a b target => Aml.binaryOp op target a b) <$> sub <*> sub <*> sub
  | convertOp op => (fun a target => Aml.convertOp op target a) <$> sub <*> sub
  | arg n => pure (.arg n)
  | localObj n => pure (.localObj n)
  | store => (fun value target => Aml.store target value) <$> sub <*> sub
  | notify => Aml.notify <$> sub <*> sub
  | extended => next >>= fun b =>
    match ExtLead.ofByte b with
    | some lead => lead.operands sub
    | none => failure

/-- A term whose inner terms are read by `sub`. -/
def production (sub : Parser UInt8 Aml) : Parser UInt8 Aml := next >>= fun b =>
  match Lead.ofByte b with
  | some lead => lead.operands sub
  | none => failure

/-- A term that is nested less than `fuel` deep. -/
def term : Nat → Parser UInt8 Aml
  | 0 => failure
  | fuel + 1 => production (term fuel)

def parse (input : List UInt8) : Option (Aml × List UInt8) := (term (input.length + 1)).run input

/-! ## What the bytes say -/

/-- The comparison that a negated one negates. -/
def CompareOp.plain : CompareOp → CompareOp
  | logicalAnd | logicalNand => logicalAnd
  | logicalOr | logicalNor => logicalOr
  | equal | notEqual => equal
  | lessThan | greaterEqual => lessThan
  | greaterThan | lessEqual => greaterThan

namespace Aml

mutual

/-- The object up to the width of its integers, with negated comparisons as `LogicalNot` of the plain one. -/
def norm : Aml → Aml
  | .zero => .qword 0
  | .one => .qword 1
  | .byte value => .qword value.toUInt64
  | .word value => .qword value.toUInt64
  | .dword value => .qword value.toUInt64
  | .usize value => .qword value
  | .name p inner => .name p inner.norm
  | .package cs => .package (normAll cs)
  | .packageBuilder elements => .package (normAll elements)
  | .device p cs => .device p (normAll cs)
  | .scope p cs => .scope p (normAll cs)
  | .method p args serialized cs => .method p args serialized (normAll cs)
  | .opRegion p space offset length => .opRegion p space offset.norm length.norm
  | .ifTerm predicate cs => .ifTerm predicate.norm (normAll cs)
  | .elseTerm body => .elseTerm (normAll body)
  | .whileTerm predicate cs => .whileTerm predicate.norm (normAll cs)
  | .compareOp op left right =>
    if op.invert then .objectOp .logicalNot (.compareOp op.plain left.norm right.norm)
    else .compareOp op left.norm right.norm
  | .objectOp op a => .objectOp op a.norm
  | .binaryOp op target a b => .binaryOp op target.norm a.norm b.norm
  | .convertOp op target a => .convertOp op target.norm a.norm
  | .store target value => .store target.norm value.norm
  | .notify object value => .notify object.norm value.norm
  | t => t

def normAll : List Aml → List Aml
  | [] => []
  | c :: cs => c.norm :: normAll cs

end

@[simp] theorem normAll_eq_map (cs : List Aml) : normAll cs = cs.map norm := by
  induction cs with
  | nil => rfl
  | cons c cs ih => rw [normAll, ih, List.map_cons]

theorem length_normAll (cs : List Aml) : (normAll cs).length = cs.length := by
  rw [normAll_eq_map, List.length_map]

end Aml

end RustVmm.AcpiTables
