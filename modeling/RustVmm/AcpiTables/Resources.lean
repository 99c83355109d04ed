import RustVmm.AcpiTables.RoundTrip
import RustVmm.AcpiTables.Structures

/-!
# Resource templates and power resources

A template is a buffer of descriptors, up to an end tag.  The length of a small descriptor is in its tag.

* `resource_template_iff` — when a template is read back.
* `power_resource_swapped` — the opcode of a power resource is not.
-/

set_option autoImplicit false

namespace RustVmm.AcpiTables

open Lib Lib.Parser List

def IRQNOFLAGSDESC : UInt8 := 0x22
def IRQDESC : UInt8 := 0x23
def IOPORTDESC : UInt8 := 0x47
def ENDTAG : UInt8 := 0x79
def REGDESC : UInt8 := 0x82
def POWERRESOURCEOP : UInt8 := 0x84
def MEMORY32FIXEDDESC : UInt8 := 0x86
def DWORDADDRSPACEDESC : UInt8 := 0x87
def WORDADDRSPACEDESC : UInt8 := 0x88
def EXTIRQDESC : UInt8 := 0x89
def QWORDADDRSPACEDESC : UInt8 := 0x8a

/-! ## Descriptors -/

inductive AddressSpaceType where
  | memory | io | busNumber
  deriving DecidableEq, Repr

/-- `AddressSpace<T>`, for a type `T` of `size` bytes. -/
structure AddressSpace (size : Nat) where
  type : AddressSpaceType
  min : BitVec (8 * size)
  max : BitVec (8 * size)
  typeFlags : UInt8
  translation : Option (BitVec (8 * size))
  deriving DecidableEq, Repr

namespace AddressSpace

variable {size : Nat}

def pushHeader (self : AddressSpace size) (descriptor : UInt8) (length : Nat) : List UInt8 :=
  descriptor :: (word (UInt16.ofNat length) ++
    [UInt8.ofNat self.type.ctorIdx, ((1 : UInt8) <<< 2) ||| ((1 : UInt8) <<< 3), self.typeFlags])

/-- What the three `to_aml_bytes` write, each with its own descriptor. -/
def asBytes (self : AddressSpace size) (descriptor : UInt8) : List UInt8 :=
  self.pushHeader descriptor (3 + 5 * size) ++ (leBytes size 0 ++ leBytes size self.min.toNat ++
    leBytes size self.max.toNat ++ leBytes size (self.translation.getD 0).toNat ++
    leBytes size (self.max.toNat - self.min.toNat + 1))

/-- `max - min + 1` does not overflow. -/
def Encodes (self : AddressSpace size) : Prop :=
  self.min.toNat ≤ self.max.toNat ∧ self.max.toNat - self.min.toNat + 1 < 2 ^ (8 * size)

instance : DecidablePred (@Encodes size) := fun self => by unfold Encodes; infer_instance

/-- The bounds are in order, and are not those of the type. -/
def Proper (self : AddressSpace size) : Prop :=
  self.min ≤ self.max ∧ ¬(self.min = 0#(8 * size) ∧ self.max = BitVec.allOnes (8 * size))

instance : DecidablePred (@Proper size) := fun self => by unfold Proper; infer_instance

variable {self : AddressSpace size}

theorem Proper.encodes (h : self.Proper) : self.Encodes := by
  obtain ⟨hle, hnot⟩ := h
  refine ⟨hle, ?_⟩
  by_contra hge
  refine hnot ⟨BitVec.eq_of_toNat_eq ?_, BitVec.eq_of_toNat_eq ?_⟩
  · rw [BitVec.toNat_zero]
    omega
  · rw [BitVec.toNat_allOnes]
    omega

theorem length_asBytes (self : AddressSpace size) (descriptor : UInt8) :
    (self.asBytes descriptor).length = 6 + 5 * size := by
  simp only [asBytes, pushHeader, length_append, length_cons, length_word, length_leBytes, length_nil]
  omega

theorem fieldAt_length (h : self.Encodes) (descriptor : UInt8) :
    fieldAt (self.asBytes descriptor) (6 + 4 * size) size = some (self.max.toNat - self.min.toNat + 1) := by
  have hbytes : self.asBytes descriptor = (self.pushHeader descriptor (3 + 5 * size) ++ (leBytes size 0 ++
      leBytes size self.min.toNat ++ leBytes size self.max.toNat ++ leBytes size (self.translation.getD 0).toNat)) ++
      leBytes size (self.max.toNat - self.min.toNat + 1) ++ [] := by
    simp only [asBytes, append_assoc, append_nil]
  refine fieldAt_of_eq _ _ hbytes ?_ ?_
  · simp only [pushHeader, length_append, length_cons, length_word, length_leBytes, length_nil]
    omega
  · have hlt := h.2
    rwa [Nat.pow_mul] at hlt

end AddressSpace

inductive Resource where
  | memory32Fixed (readWrite : Bool) (base length : UInt32)
  | addressSpaceU16 (space : AddressSpace 2)
  | addressSpaceU32 (space : AddressSpace 4)
  | addressSpaceU64 (space : AddressSpace 8)
  | io (min max : UInt16) (alignment length : UInt8)
  | interrupt (consumer edgeTriggered activeLow shared : Bool) (numbers : List UInt32)
  | irq (edgeTriggered activeLow shared : Bool) (number : UInt8)
  | irqNoFlags (number : UInt8)
  | register (reg : Gas)
  deriving DecidableEq, Repr

/-- `write_irq_mask_bytes`, for a number that passes the `assert!`. -/
def irqMaskBytes (number : UInt8) : List UInt8 :=
  if number < 8 then [1 <<< number, 0] else [0, 1 <<< (number - 8)]

@[simp] theorem length_irqMaskBytes (number : UInt8) : (irqMaskBytes number).length = 2 := by
  unfold irqMaskBytes
  split <;> rfl

namespace Resource

def asBytes : Resource → List UInt8
  | memory32Fixed readWrite base length =>
    MEMORY32FIXEDDESC :: (word 9 ++ ([readWrite.toUInt8] ++ dword base ++ dword length))
  | addressSpaceU16 space => space.asBytes WORDADDRSPACEDESC
  | addressSpaceU32 space => space.asBytes DWORDADDRSPACEDESC
  | addressSpaceU64 space => space.asBytes QWORDADDRSPACEDESC
  | io min max alignment length => IOPORTDESC :: ([1] ++ word min ++ word max ++ [alignment, length])
  | interrupt consumer edgeTriggered activeLow shared numbers =>
    EXTIRQDESC :: (word (2 + 4 * UInt16.ofNat numbers.length) ++
      ([(shared.toUInt8 <<< 3) ||| (activeLow.toUInt8 <<< 2) ||| (edgeTriggered.toUInt8 <<< 1) ||| consumer.toUInt8,
        UInt8.ofNat numbers.length] ++ numbers.flatMap dword))
  | irq edgeTriggered activeLow shared number =>
    IRQDESC :: (irqMaskBytes number ++ [(shared.toUInt8 <<< 4) ||| (activeLow.toUInt8 <<< 3) ||| edgeTriggered.toUInt8])
  | irqNoFlags number => IRQNOFLAGSDESC :: irqMaskBytes number
  | register reg => REGDESC :: (word 0x12 ++ reg.toAmlBytes)

/-- No computation overflows, and no `assert!` fails. -/
def Encodes : Resource → Prop
  | addressSpaceU16 space => space.Encodes
  | addressSpaceU32 space => space.Encodes
  | addressSpaceU64 space => space.Encodes
  | interrupt _ _ _ _ numbers => 2 + 4 * (UInt16.ofNat numbers.length).toNat < 2 ^ 16
  | irq _ _ _ number | irqNoFlags number => number ≤ 15
  | _ => True

instance : DecidablePred Encodes := fun self => by cases self <;> unfold Encodes <;> infer_instance

def toAmlBytes (self : Resource) : Outcome Empty (List UInt8) := if self.Encodes then .ok self.asBytes else .panic

/-- Proper bounds, at most 255 interrupts, and an interrupt line below 16. -/
def Proper : Resource → Prop
  | addressSpaceU16 space => space.Proper
  | addressSpaceU32 space => space.Proper
  | addressSpaceU64 space => space.Proper
  | interrupt _ _ _ _ numbers => numbers.length ≤ 255
  | irq _ _ _ number | irqNoFlags number => number ≤ 15
  | _ => True

instance : DecidablePred Proper := fun self => by cases self <;> unfold Proper <;> infer_instance

def len : Resource → Nat
  | memory32Fixed .. => 12
  | addressSpaceU16 _ => 16
  | addressSpaceU32 _ => 26
  | addressSpaceU64 _ => 46
  | io .. => 8
  | interrupt _ _ _ _ numbers => 5 + 4 * numbers.length
  | irq .. => 4
  | irqNoFlags _ => 3
  | register _ => 15

def isRegister : Resource → Bool
  | register _ => true
  | _ => false

/-- An address space holds the number of its addresses. -/
def HoldsLength : Resource → Prop
  | addressSpaceU16 space => fieldAt (space.asBytes WORDADDRSPACEDESC) 14 2 = some (space.max.toNat - space.min.toNat + 1)
  | addressSpaceU32 space => fieldAt (space.asBytes DWORDADDRSPACEDESC) 22 4 = some (space.max.toNat - space.min.toNat + 1)
  | addressSpaceU64 space => fieldAt (space.asBytes QWORDADDRSPACEDESC) 38 8 = some (space.max.toNat - space.min.toNat + 1)
  | _ => True

variable {r : Resource}

theorem Proper.encodes (h : r.Proper) : r.Encodes := by
  cases r with
  | addressSpaceU16 space | addressSpaceU32 space | addressSpaceU64 space => exact AddressSpace.Proper.encodes h
  | interrupt _ _ _ _ numbers =>
    have hle : numbers.length ≤ 255 := h
    rw [Encodes, UInt16.toNat_ofNat']
    omega
  | irq | irqNoFlags => exact h
  | _ => trivial

theorem Encodes.holdsLength (h : r.Encodes) : r.HoldsLength := by
  cases r with
  | addressSpaceU16 space | addressSpaceU32 space | addressSpaceU64 space => exact AddressSpace.fieldAt_length h _
  | _ => trivial

theorem length_asBytes (r : Resource) : r.asBytes.length = r.len := by
  cases r with
  | addressSpaceU16 | addressSpaceU32 | addressSpaceU64 => exact AddressSpace.length_asBytes _ _
  | interrupt =>
    simp [asBytes, len, length_flatMap_const length_dword]
    omega
  | _ => simp [asBytes, len, Gas.toAmlBytes]

theorem le_len (r : Resource) : 3 ≤ r.len := by
  cases r <;> simp [len]
  omega

end Resource

/-! ## Templates -/

/-- The length of the descriptor at the start of `bytes`. -/
def itemLength : List UInt8 → Option Nat
  | [] => none
  | tag :: rest => if tag < 0x80 then some (1 + (tag &&& 7).toNat) else (fieldAt rest 0 2).map (3 + ·)

theorem itemLength_append {bytes : List UInt8} (h : 3 ≤ bytes.length) (rest : List UInt8) :
    itemLength (bytes ++ rest) = itemLength bytes := by
  cases bytes with
  | nil => simp at h
  | cons tag bytes =>
    rw [length_cons] at h
    rw [cons_append, itemLength, itemLength, fieldAt_append (by omega)]

theorem itemLength_large {tag : UInt8} (htag : ¬tag < 0x80) (v : UInt16) (rest : List UInt8) :
    itemLength (tag :: (word v ++ rest)) = some (3 + v.toNat) := by
  have hword : word v ++ rest = [] ++ leBytes 2 v.toNat ++ rest := rfl
  have hfield := fieldAt_of_eq _ _ hword rfl v.toNat_lt
  rw [length_nil] at hfield
  rw [itemLength, if_neg htag, hfield]
  rfl

theorem itemLength_asBytes_iff {r : Resource} (h : r.Proper) :
    itemLength r.asBytes = some r.asBytes.length ↔ r.isRegister = false := by
  rw [r.length_asBytes]
  cases r with
  | register reg =>
    refine iff_of_false ?_ (by simp [Resource.isRegister])
    rw [Resource.asBytes, itemLength_large (by decide)]
    simp [Resource.len]
  | interrupt _ _ _ _ numbers =>
    have hle : numbers.length ≤ 255 := h
    refine iff_of_true ?_ rfl
    rw [Resource.asBytes, itemLength_large (by decide), Resource.len]
    simp
    omega
  | addressSpaceU16 | addressSpaceU32 | addressSpaceU64 | memory32Fixed => exact iff_of_true (itemLength_large (by decide) _ _) rfl
  | _ => exact iff_of_true rfl rfl

structure ResourceTemplate where
  children : List Resource

namespace ResourceTemplate

def toAmlBytes (self : ResourceTemplate) : Outcome Empty (List UInt8) := do
  let children ← self.children.mapM Resource.toAmlBytes
  let bytes := children.flatten ++ [ENDTAG, 0]
  return packaged [BUFFEROP] (Usize.toAmlBytes (UInt64.ofNat bytes.length) ++ bytes)

theorem toAmlBytes_eq {self : ResourceTemplate} (h : ∀ r ∈ self.children, r.Encodes) :
    let data := self.children.flatMap Resource.asBytes ++ [ENDTAG, 0]
    self.toAmlBytes = .ok (packaged [BUFFEROP] (Usize.toAmlBytes (UInt64.ofNat data.length) ++ data)) := by
  have hmap := Outcome.mapM_of_ok (f := Resource.toAmlBytes) fun r hr => if_pos (h r hr)
  rw [toAmlBytes, hmap]
  rfl

end ResourceTemplate

/-! ## Buffers -/

variable {input rest : List UInt8}

theorem length_of_times_next {n : Nat} {xs : List UInt8} (h : (times next n).run input = some (xs, rest)) :
    xs.length = n := by
  induction n generalizing input xs with
  | zero =>
    cases h
    rfl
  | succ n ih =>
    cases input with
    | nil => cases h
    | cons b input =>
      rw [times, StateT.run_seq] at h
      obtain ⟨r, hr, h⟩ := Option.bind_eq_some_iff.1 h
      cases hr
      obtain ⟨⟨ys, rest'⟩, hys, h⟩ := Option.map_eq_some_iff.1 h
      cases h
      rw [length_cons, ih hys]

theorem ofLeBytes_lt (bytes : List UInt8) : ofLeBytes bytes < 256 ^ bytes.length := by
  induction bytes with
  | nil => decide
  | cons b bytes ih =>
    have hb := b.toNat_lt
    rw [ofLeBytes, length_cons]
    omega

theorem pkgLength_lt {n : Nat} (h : pkgLength.run input = some (n, rest)) : n < 2 ^ 28 := by
  cases input with
  | nil => cases h
  | cons lead input =>
    have hcount : (lead >>> 6).toNat ≤ 3 := by
      have := lead.toNat_lt
      simp [Nat.shiftRight_eq_div_pow]
      omega
    have hlow : (lead &&& 0xf).toNat ≤ 15 := by
      exact Nat.and_le_right
    change StateT.run (if _ then _ else _) input = _ at h
    split at h
    · cases h
      exact Nat.lt_trans (UInt8.toNat_lt _) (by decide)
    · rw [StateT.run_map, le, StateT.run_map] at h
      obtain ⟨⟨high, _⟩, hhigh, h⟩ := Option.map_eq_some_iff.1 h
      obtain ⟨⟨bytes, _⟩, hbytes, hhigh⟩ := Option.map_eq_some_iff.1 hhigh
      have hlt := ofLeBytes_lt bytes
      rw [length_of_times_next hbytes] at hlt
      have hpow : 256 ^ (lead >>> 6).toNat ≤ 256 ^ 3 := Nat.pow_le_pow_right (by decide) hcount
      cases hhigh
      cases h
      dsimp only
      omega

theorem length_lt_of_pkg {α : Type} {p : Parser UInt8 α} {a : α} (h : (pkg p).run input = some (a, [])) :
    input.length < 2 ^ 28 := by
  obtain ⟨⟨n, rest⟩, hrun, h⟩ := Option.bind_eq_some_iff.1 h
  have hlt := pkgLength_lt hrun
  dsimp only at h
  split at h
  · change (if _ then _ else _) = _ at h
    split at h
    · split at h
      · have hdrop := congrArg Prod.snd (Option.some.inj h)
        have hlen := congrArg length hdrop
        simp only [length_drop, length_nil] at hlen
        omega
      · cases h
    · cases h
  · cases h

theorem length_usize {n : Nat} (h : n < 2 ^ 32) : (Usize.toAmlBytes (UInt64.ofNat n)).length ≤ 5 ∧
    (2 ^ 16 ≤ n → (Usize.toAmlBytes (UInt64.ofNat n)).length = 5) := by
  have hle : UInt64.ofNat n ≤ 0xffffffff := by
    exact Nat.le_trans (Nat.mod_le _ _) (Nat.le_of_lt_succ h)
  have hdword : (UInt64.ofNat n).toUInt32.toNat = n := by
    simp
    omega
  rw [Usize.toAmlBytes, QWord.toAmlBytes, DWord.toAmlBytes]
  split_ifs with hword
  · refine ⟨?_, fun hge => ?_⟩
    · unfold Word.toAmlBytes Byte.toAmlBytes
      split_ifs <;> simp
    · have hlt : (UInt64.ofNat n).toUInt32.toNat ≤ 0xffff := UInt32.le_iff_toNat_le.1 hword
      omega
  · simp

theorem parse_buffer_iff (data : List UInt8) :
    parse (packaged [BUFFEROP] (Usize.toAmlBytes (UInt64.ofNat data.length) ++ data)) = some (.bufferData data, []) ↔
      data.length + 9 < 2 ^ 28 := by
  set body := Usize.toAmlBytes (UInt64.ofNat data.length) ++ data with hdef
  have hbody : body.length = (Usize.toAmlBytes (UInt64.ofNat data.length)).length + data.length := length_append
  set tail := createPkgLength body.length true ++ body
  have htail : tail.length = lengthLength body.length + body.length := by
    rw [length_append, length_createPkgLength]
  constructor
  · intro h
    have hlt : tail.length < 2 ^ 28 := length_lt_of_pkg h
    by_contra hge
    have hsize := (@length_usize data.length (by omega)).2 (by omega)
    have hfour : lengthLength body.length = 4 := by
      unfold lengthLength
      split_ifs <;> omega
    omega
  · intro h
    have hsize := (@length_usize data.length (by omega)).1
    have hread : Reads (term (tail.length + 1)) (Usize.toAmlBytes (UInt64.ofNat data.length))
        (.qword (UInt64.ofNat data.length)) (data ++ []) := reads_qword _ _
    have hbuffer : Reads (production (term (tail.length + 1))) ([BUFFEROP] ++ tail) (.bufferData data) [] :=
      selects_lead rfl rfl (reads_pkg
        (((hread.map Prod.mk).seq (reads_remaining data)).filterMap (if_pos rfl)) (by rw [← hdef]; omega) [])
    rwa [Reads, append_nil] at hbuffer

def ResourceTemplate.WalkedAs (self : ResourceTemplate) (bytes : List UInt8) : Prop :=
  let data := self.children.flatMap Resource.asBytes ++ [ENDTAG, 0]
  parse bytes = some (.bufferData data, []) ∧
    walk itemLength data = some (self.children.map Resource.asBytes ++ [[ENDTAG, 0]]) ∧
    ∀ r ∈ self.children, r.HoldsLength

theorem walk_template_iff {rs : List Resource} (h : ∀ r ∈ rs, r.Proper) :
    walk itemLength (rs.flatMap Resource.asBytes ++ [ENDTAG, 0]) = some (rs.map Resource.asBytes ++ [[ENDTAG, 0]]) ↔
      ∀ r ∈ rs, r.isRegister = false := by
  have hflat : rs.flatMap Resource.asBytes ++ [ENDTAG, 0] = (rs.map Resource.asBytes ++ [[ENDTAG, 0]]).flatten := by
    rw [flatten_append]
    rfl
  have hlong : ∀ r : Resource, 3 ≤ r.asBytes.length := fun r => r.length_asBytes ▸ r.le_len
  rw [hflat, walk_flatten_iff, forall_mem_append, forall_mem_map, forall_mem_singleton, and_iff_left (by rfl)]
  · exact forall₂_congr fun r hr => itemLength_asBytes_iff (h r hr)
  · refine forall_mem_append.2 ⟨forall_mem_map.2 fun r _ hnil => ?_, by simp⟩
    have := hlong r
    simp [hnil] at this
  · exact forall_mem_append.2 ⟨forall_mem_map.2 fun r _ => itemLength_append (hlong r),
      forall_mem_singleton.2 fun _ => rfl⟩

/-- **When a template is read back**: if it has no register, whose length is 18 where 12 bytes follow, and is not too
long for a package length. -/
theorem resource_template_iff (self : ResourceTemplate) (h : ∀ r ∈ self.children, r.Proper) :
    (∃ bytes, self.toAmlBytes = .ok bytes ∧ self.WalkedAs bytes) ↔
      (∀ r ∈ self.children, r.isRegister = false) ∧ (self.children.map Resource.len).sum + 11 < 2 ^ 28 := by
  have hlen : (self.children.flatMap Resource.asBytes ++ [ENDTAG, 0]).length =
      (self.children.map Resource.len).sum + 2 := by
    rw [length_append, length_flatMap]
    simp only [Resource.length_asBytes, length_cons, length_nil]
  have hbytes := ResourceTemplate.toAmlBytes_eq fun r hr => (h r hr).encodes
  have hparse := parse_buffer_iff (self.children.flatMap Resource.asBytes ++ [ENDTAG, 0])
  have hwalk := walk_template_iff h
  constructor
  · rintro ⟨bytes, hrun, hdata, hwalked, _⟩
    obtain rfl := Outcome.ok.inj (hbytes.symm.trans hrun)
    have hfit := hparse.1 hdata
    exact ⟨hwalk.1 hwalked, by omega⟩
  · rintro ⟨hreg, hfit⟩
    exact ⟨_, hbytes, hparse.2 (by omega), hwalk.2 hreg, fun r hr => (h r hr).encodes.holdsLength⟩

-- The resources of a host bridge, an address space of each width among them.
theorem resource_template_bridge :
    let self : ResourceTemplate := ⟨[.addressSpaceU16 ⟨.busNumber, 0, 255, 0, none⟩, .io 0xcf8 0xcf8 1 8,
      .addressSpaceU32 ⟨.memory, 0xc0000000, 0xfebfffff, 1, none⟩,
      .addressSpaceU64 ⟨.memory, 0x800000000, 0xfffffffff, 1, some 0x1000⟩,
      .memory32Fixed true 0xe8000000 0x10000000, .irq true false true 9, .interrupt true true false false [4, 5, 6]]⟩
    (∀ r ∈ self.children, r.Proper) ∧ ∃ bytes, self.toAmlBytes = .ok bytes ∧ self.WalkedAs bytes := by
  intro self
  have h : ∀ r ∈ self.children, r.Proper := by decide
  exact ⟨h, (resource_template_iff self h).2 (by decide)⟩

theorem register_breaks_walk :
    let self : ResourceTemplate := ⟨[.register .default]⟩
    ∃ bytes, self.toAmlBytes = .ok bytes ∧ bytes = [0x11, 0x14, 0x0a, 0x11, 0x82, 0x12, 0, 0, 0, 0, 0, 0, 0, 0, 0, 0,
      0, 0, 0, 0x79, 0] ∧ walk itemLength (bytes.drop 4) = none :=
  ⟨_, rfl, by decide +kernel, by decide +kernel⟩

/-! ## Power resources -/

/-- A power resource, with what each child writes. -/
structure PowerResource where
  name : Path
  level : UInt8
  order : UInt16
  children : List (List UInt8)

namespace PowerResource

def toAmlBytes (self : PowerResource) : Outcome Empty (List UInt8) := do
  let name ← self.name.toAmlBytes
  return packaged [POWERRESOURCEOP, EXTOPPREFIX] (name ++ [self.level] ++ word self.order ++ self.children.flatten)

/-- The production of ACPI: `ExtOpPrefix 0x84 PkgLength NameString SystemLevel ResourceOrder TermList`. -/
def IsDefPowerRes (self : PowerResource) (bytes : List UInt8) : Prop :=
  ∃ name tail, self.name.toAmlBytes = .ok name ∧ bytes = [0x5b, 0x84] ++ tail ∧
    pkgLength.run tail = some (tail.length, name ++ [self.level] ++ word self.order ++ self.children.flatten)

/-- **The opcode is never right**: its two bytes are in the wrong order.  All that follows is as it should be. -/
theorem power_resource_swapped (self : PowerResource) (hname : self.name.nameParts ≠ []) :
    ∃ bytes, self.toAmlBytes = .ok bytes ∧ ¬self.IsDefPowerRes bytes ∧ (bytes.length < 2 ^ 28 - 5 →
      ∃ tail, bytes = [0x84, 0x5b] ++ tail ∧ self.IsDefPowerRes ([0x5b, 0x84] ++ tail)) := by
  obtain ⟨count, hcount⟩ : ∃ count, self.name.countPrefix = .ok count := by
    unfold Path.countPrefix
    split
    · rename_i hzero
      exact absurd (length_eq_zero_iff.1 hzero) hname
    all_goals exact ⟨_, rfl⟩
  have hpath : self.name.toAmlBytes = .ok (self.name.anchor ++ count ++ self.name.nameParts.flatMap NameSeg.bytes) := by
    rw [Path.toAmlBytes, hcount]
    rfl
  refine ⟨_, by rw [toAmlBytes, hpath]; rfl, ?_, fun hmax => ?_⟩
  · rintro ⟨_, tail, _, hbytes, _⟩
    exact absurd (cons.inj hbytes).1 (by decide)
  · obtain ⟨tail, hbytes, hrun⟩ := Aml.pkgLength_packaged hmax (by simp)
    have hlen := hrun []
    rw [append_nil, append_nil] at hlen
    exact ⟨tail, hbytes, _, tail, hpath, rfl, hlen⟩

/-- `PowerResource (PRIC, 0, 0)` without children. -/
theorem power_resource_swapped_pric :
    let pric : PowerResource := ⟨⟨false, false, [⟨0x50, 0x52, 0x49, 0x43⟩], by simp⟩, 0, 0, []⟩
    ∃ bytes, pric.toAmlBytes = .ok bytes ∧ ¬pric.IsDefPowerRes bytes ∧ (bytes.length < 2 ^ 28 - 5 →
      ∃ tail, bytes = [0x84, 0x5b] ++ tail ∧ pric.IsDefPowerRes ([0x5b, 0x84] ++ tail)) :=
  power_resource_swapped _ (by decide)

theorem pric_bytes :
    let pric : PowerResource := ⟨⟨false, false, [⟨0x50, 0x52, 0x49, 0x43⟩], by simp⟩, 0, 0, []⟩
    pric.toAmlBytes = .ok [0x84, 0x5b, 0x08, 0x50, 0x52, 0x49, 0x43, 0, 0, 0] := by
  decide +kernel

end PowerResource

end RustVmm.AcpiTables
