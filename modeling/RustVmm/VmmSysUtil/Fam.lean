import Mathlib.Algebra.Order.Floor.Div
import RustVmm.Lib.Outcome
import RustVmm.Lib.Packed
import RustVmm.Lib.Run
import RustVmm.Lib.U64

/-!
# The memory of structures with a flexible array member

Model of `FamStructWrapper` of `vmm-sys-util/src/fam.rs` on its bytes: units of the size of the header, the first of
which is the header; the entries are packed in the others.

* `push_spec`, `retain_spec`, `gives_clone` — the calls, on wrappers that satisfy `Inv`.
* `fam_is_bounded_vec` — sequences of calls do what they do on plain lists.
-/

set_option autoImplicit false

namespace RustVmm.VmmSysUtil

open Lib Codec Outcome Exec List

class FamStruct (T : Type) (Entry : outParam Type) where
  /-- `size_of::<T>()`. -/
  headerSize : Nat
  /-- `size_of::<T::Entry>()`. -/
  entrySize : Nat
  maxLen : Nat
  /-- `T::default()` with a length. -/
  withLen : Nat → T
  len : T → Nat
  setLen : Nat → T → T
  /-- An entry of zeroed memory. -/
  zeroEntry : Entry

inductive FamError where
  | sizeLimitExceeded
  deriving DecidableEq, Repr

open FamStruct

/-- The assumptions of `FamStruct` on its implementors. -/
class PodFam (T : Type) (Entry : outParam Type) [FamStruct T Entry] where
  codec : Codec Entry
  size_eq : codec.size = FamStruct.entrySize T
  headerSize_pos : 0 < FamStruct.headerSize T
  decode_zero : codec.decode (.replicate codec.size 0) = FamStruct.zeroEntry T
  len_withLen : ∀ n, n ≤ FamStruct.maxLen T → FamStruct.len (FamStruct.withLen n : T) = n
  len_setLen : ∀ n, n ≤ FamStruct.maxLen T → ∀ header : T, FamStruct.len (FamStruct.setLen n header) = n

def ISIZE_MAX : Nat := 9223372036854775807

/-- How a call can fail: with an error, or in `Vec` with the panic `capacity overflow`. -/
inductive FamFailure where
  | error (error : FamError)
  | capacityOverflow
  deriving DecidableEq, Repr

/-- The capacity that `Vec` ends up with when it has to have room for some units. -/
structure Allocator where
  grant : Nat → Nat
  le_grant : ∀ units, units ≤ grant units

/-- `FamStructWrapper`, a `Vec<T>`: the header, and the bytes of the other units. -/
structure FamStructWrapper (T : Type) where
  header : T
  array : List UInt8
  units : Nat
  capacity : Nat

abbrev FamM (T : Type) := Exec (FamStructWrapper T) FamFailure

namespace FamStructWrapper

section Model

variable (T : Type) {Entry : Type} [FamStruct T Entry]

/-- `mem_allocator_len`, the number of units for some entries. -/
def unitsOf (famLen : Nat) : Option Nat := do
  let array ← checkedMul famLen (FamStruct.entrySize T)
  let wrapper ← checkedAdd (FamStruct.headerSize T) array
  let round ← checkedSub (FamStruct.headerSize T) 1
  let sum ← checkedAdd wrapper round
  checkedDiv sum (FamStruct.headerSize T)

def famLen (units : Nat) : Outcome FamFailure Nat :=
  if units = 0 then .ok 0
  else do
    let rest ← .unwrap (checkedSub units 1)
    let arraySize ← .unwrap (checkedMul rest (FamStruct.headerSize T))
    .unwrap (checkedDiv arraySize (FamStruct.entrySize T))

/-- An allocation of `Vec`. -/
def allocate (alloc : Allocator) (units : Nat) : Outcome FamFailure Nat :=
  if alloc.grant units * FamStruct.headerSize T ≤ ISIZE_MAX then .ok (alloc.grant units) else .err .capacityOverflow

/-- Zeroed units behind a header. -/
def zeroed (header : T) (units capacity : Nat) : FamStructWrapper T :=
  ⟨header, .replicate ((units - 1) * FamStruct.headerSize T) 0, units, capacity⟩

def new (alloc : Allocator) (numElements : Nat) : Outcome FamFailure (FamStructWrapper T) :=
  if numElements > FamStruct.maxLen T then .err (.error .sizeLimitExceeded)
  else do
    let required ← .okOr (unitsOf T numElements) (.error .sizeLimitExceeded)
    let capacity ← allocate T alloc required
    .ok (zeroed T (FamStruct.withLen numElements) required capacity)

variable {T}

def len (self : FamStructWrapper T) : Nat := FamStruct.len self.header

def vecReserve (alloc : Allocator) (additional : Nat) : FamM T Unit := do
  let self ← .get
  if additional ≤ self.capacity - self.units then pure ()
  else do
    let capacity ← .lift (allocate T alloc (self.units + additional))
    .set { self with capacity }

/-- `Vec::resize_with` and `mem::zeroed`, to a length with room for the header. -/
def vecResizeWith (alloc : Allocator) (newLen : Nat) : FamM T Unit := do
  let self ← .get
  if self.units < newLen then do
    vecReserve alloc (newLen - self.units)
    let self ← .get
    .set { self with
      array := self.array ++ .replicate ((newLen - self.units) * FamStruct.headerSize T) 0
      units := newLen }
  else .set { self with array := self.array.take ((newLen - 1) * FamStruct.headerSize T), units := newLen }

def vecShrinkToFit (alloc : Allocator) : FamM T Unit := do
  let self ← .get
  .set { self with capacity := min self.capacity (alloc.grant self.units) }

def reserve (alloc : Allocator) (additional : Nat) : FamM T Unit := do
  let self ← .get
  let desired ← .lift (.unwrap (checkedAdd self.len additional))
  let capacity ← .lift (famLen T self.capacity)
  if desired ≤ capacity then pure ()
  else do
    let required ← .lift (.okOr (unitsOf T desired) (.error .sizeLimitExceeded))
    let additionalUnits ← .lift (.unwrap (checkedSub required self.units))
    vecReserve alloc additionalUnits

/-- The part of `set_len` for a length that increases. -/
def grow (alloc : Allocator) (len : Nat) (additional : Int) : FamM T Unit :=
  if additional > 0 then do
    .lift (.ensure (len ≤ FamStruct.maxLen T) (.error .sizeLimitExceeded))
    reserve alloc additional.toNat
  else pure ()

def setLen (alloc : Allocator) (len : Nat) : FamM T Unit := do
  let self ← .get
  .lift (.ensure (len ≤ ISIZE_MAX && self.len ≤ ISIZE_MAX) (.error .sizeLimitExceeded))
  let additional : Int := len - self.len
  if additional = 0 then pure ()
  else do
    grow alloc len additional
    let required ← .lift (.okOr (unitsOf T len) (.error .sizeLimitExceeded))
    vecResizeWith alloc required
    let self ← .get
    .set { self with header := FamStruct.setLen len self.header }
    if additional < 0 then vecShrinkToFit alloc else pure ()

variable [PodFam T Entry]

def asSlice (self : FamStructWrapper T) : List Entry := (PodFam.codec T).view self.array self.len

/-- `copy_from_slice` to the entries, which panics if there are more or fewer. -/
def copyFromSlice (self : FamStructWrapper T) (entries : List Entry) : Outcome FamFailure (FamStructWrapper T) :=
  if self.len = entries.length then .ok { self with array := (PodFam.codec T).fill self.array entries } else .panic

def fromEntries (alloc : Allocator) (entries : List Entry) : Outcome FamFailure (FamStructWrapper T) := do
  let adapter ← new T alloc entries.length
  adapter.copyFromSlice entries

def push (alloc : Allocator) (entry : Entry) : FamM T Unit := do
  let self ← .get
  let newLen ← .lift (.unwrap (checkedAdd self.len 1))
  setLen alloc newLen
  let self ← .get
  let index ← .lift (.unwrap (checkedSub newLen 1))
  if index < self.len then .set { self with array := (PodFam.codec T).set self.array index entry }
  else .lift .panic

/-- `expect`: an error becomes a panic. -/
def expect (m : FamM T Unit) : FamM T Unit := fun self =>
  match m self with
  | (.err (.error _), self') => (.panic, self')
  | result => result

/-- `retain`, for a predicate that may remember what it has been called with. -/
def retain (alloc : Allocator) (f : List Entry → Entry → Bool) : FamM T Unit := do
  let self ← .get
  let kept := (PodFam.codec T).retain f self.array self.len
  .set { self with array := kept.bytes }
  expect (setLen alloc kept.numKept)

def clone (alloc : Allocator) (self : FamStructWrapper T) : Outcome FamFailure (FamStructWrapper T) := do
  let required ← .unwrap (unitsOf T self.asSlice.length)
  let capacity ← allocate T alloc required
  (zeroed T self.header required capacity).copyFromSlice self.asSlice

end Model

/-! ## Units and entries -/

section Units

variable {T Entry : Type} [FamStruct T Entry] [PodFam T Entry] {n u c : Nat}

theorem entrySize_pos : 0 < entrySize T := by
  rw [← PodFam.size_eq]
  exact size_pos _

/-- The bytes of a header and some entries. -/
def bytesOf (T : Type) {Entry : Type} [FamStruct T Entry] (n : Nat) : Nat :=
  FamStruct.headerSize T + n * FamStruct.entrySize T

theorem unitsOf_eq_some : unitsOf T n = some u ↔
      bytesOf T n + headerSize T - 1 ≤ U64_MAX ∧ bytesOf T n ⌈/⌉ headerSize T = u := by
  have hpos : 0 < headerSize T := PodFam.headerSize_pos
  have hdiv : ∀ sum, checkedDiv sum (headerSize T) = some (sum / headerSize T) := fun sum =>
    if_neg (Nat.pos_iff_ne_zero.1 hpos)
  rw [Nat.ceilDiv_eq_add_pred_div]
  unfold unitsOf bytesOf
  simp only [Option.bind_eq_bind, Option.bind_eq_some_iff, checkedMul_eq_some, checkedAdd_eq_some,
    checkedSub_eq_some, hdiv, Option.some.injEq]
  constructor
  · rintro ⟨_, ⟨_, rfl⟩, _, ⟨_, rfl⟩, _, ⟨_, rfl⟩, _, ⟨hsum, rfl⟩, rfl⟩
    rw [← Nat.add_sub_assoc hpos] at hsum ⊢
    exact ⟨hsum, rfl⟩
  · rintro ⟨hsum, rfl⟩
    refine ⟨_, ⟨by omega, rfl⟩, _, ⟨by omega, rfl⟩, _, ⟨hpos, rfl⟩, _, ⟨by omega, rfl⟩, ?_⟩
    rw [← Nat.add_sub_assoc hpos]

theorem units_le_iff (h : unitsOf T n = some u) : u ≤ c ↔ bytesOf T n ≤ headerSize T * c := by
  rw [← (unitsOf_eq_some.1 h).2]
  exact ceilDiv_le_iff_le_mul PodFam.headerSize_pos

/-- The number of entries in some units. -/
def entriesIn (T : Type) {Entry : Type} [FamStruct T Entry] (units : Nat) : Nat :=
  (units - 1) * FamStruct.headerSize T / FamStruct.entrySize T

theorem le_entriesIn_iff (hc : 0 < c) : n ≤ entriesIn T c ↔ bytesOf T n ≤ headerSize T * c := by
  unfold entriesIn bytesOf
  rw [Nat.le_div_iff_mul_le entrySize_pos]
  obtain ⟨rest, rfl⟩ := Nat.exists_eq_add_of_lt hc
  rw [Nat.zero_add, Nat.add_sub_cancel, Nat.mul_succ, Nat.mul_comm rest]
  omega

theorem units_pos (h : unitsOf T n = some u) : 0 < u := by
  by_contra hzero
  have hle := (units_le_iff h).1 (Nat.not_lt.1 hzero)
  have hpos : 0 < headerSize T := PodFam.headerSize_pos
  unfold bytesOf at hle
  omega

theorem entries_le (h : unitsOf T n = some u) : n * entrySize T ≤ (u - 1) * headerSize T := by
  have hfit := (units_le_iff h).1 (Nat.le_refl u)
  obtain ⟨rest, rfl⟩ := Nat.exists_eq_add_of_lt (units_pos h)
  unfold bytesOf at hfit
  rw [Nat.zero_add, Nat.mul_succ] at hfit
  rw [Nat.zero_add, Nat.add_sub_cancel, Nat.mul_comm rest]
  omega

theorem exists_units (hfit : bytesOf T n ≤ ISIZE_MAX) : ∃ u, unitsOf T n = some u := by
  refine ⟨_, unitsOf_eq_some.2 ⟨?_, rfl⟩⟩
  unfold bytesOf at hfit ⊢
  rw [U64_MAX_eq]
  unfold ISIZE_MAX at hfit
  omega

theorem units_mono {n' u' : Nat} (hle : n ≤ n') (h : unitsOf T n = some u) (h' : unitsOf T n' = some u') : u ≤ u' := by
  rw [units_le_iff h]
  refine Nat.le_trans ?_ ((units_le_iff h').1 (Nat.le_refl u'))
  exact Nat.add_le_add_left (Nat.mul_le_mul_right _ hle) _

end Units

/-! ## The invariant -/

section Invariant

variable {T Entry : Type} [FamStruct T Entry]

/-- The units are those that the entries need, and they are allocated. -/
structure Inv (vec : FamStructWrapper T) : Prop where
  len_le : vec.len ≤ FamStruct.maxLen T
  units_eq : unitsOf T vec.len = some vec.units
  length_array : vec.array.length = (vec.units - 1) * FamStruct.headerSize T
  units_le : vec.units ≤ vec.capacity
  capacity_le : vec.capacity * FamStruct.headerSize T ≤ ISIZE_MAX

namespace Inv

variable [PodFam T Entry] {self : FamStructWrapper T} (h : self.Inv)

include h

theorem capacity_pos : 0 < self.capacity := Nat.lt_of_lt_of_le (units_pos h.units_eq) h.units_le

theorem entries_le : self.len * (PodFam.codec T).size ≤ self.array.length := by
  rw [PodFam.size_eq, h.length_array]
  exact FamStructWrapper.entries_le h.units_eq

theorem bytesOf_le : bytesOf T self.len ≤ ISIZE_MAX := by
  have hfit := (units_le_iff h.units_eq).1 h.units_le
  rw [Nat.mul_comm] at hfit
  exact Nat.le_trans hfit h.capacity_le

theorem len_le_isize : self.len ≤ ISIZE_MAX := by
  have hbytes := h.bytesOf_le
  have hmul : self.len * 1 ≤ self.len * entrySize T := Nat.mul_le_mul_left _ entrySize_pos
  unfold bytesOf at hbytes
  omega

theorem checkedAdd_len : checkedAdd self.len 1 = some (self.len + 1) := by
  have hle := h.len_le_isize
  refine checkedAdd_of_le ?_
  rw [U64_MAX_eq]
  unfold ISIZE_MAX at hle
  omega

theorem famLen_capacity : famLen T self.capacity = .ok (entriesIn T self.capacity) := by
  have hpos := h.capacity_pos
  have hmul : (self.capacity - 1) * headerSize T ≤ U64_MAX := by
    have hle := Nat.mul_le_mul_right (headerSize T) (Nat.sub_le self.capacity 1)
    have hcap := h.capacity_le
    rw [U64_MAX_eq]
    unfold ISIZE_MAX at hcap
    omega
  unfold famLen entriesIn
  rw [if_neg (Nat.pos_iff_ne_zero.1 hpos), checkedSub_of_le hpos,
    unwrap_some, ok_bind, checkedMul_eq_some.2 ⟨hmul, rfl⟩, unwrap_some, ok_bind,
    checkedDiv, if_neg (Nat.pos_iff_ne_zero.1 entrySize_pos), unwrap_some]

end Inv

/-! ## Changes of the length -/

variable (alloc : Allocator) (self : FamStructWrapper T)

/-- The capacity after there is room for some units. -/
def room (u : Nat) : Outcome FamFailure Nat := if u ≤ self.capacity then .ok self.capacity else allocate T alloc u

/-- How a call ends that needs room: it fails and changes nothing, or goes on with the capacity. -/
def withRoom (capacity : Outcome FamFailure Nat) (after : Nat → FamStructWrapper T) : Outcome FamFailure Unit × FamStructWrapper T :=
  match capacity with
  | .ok capacity => (.ok (), after capacity)
  | .err e => (.err e, self)
  | .panic => (.panic, self)

variable {alloc self}

theorem vecReserve_eq (hle : self.units ≤ self.capacity) (additional : Nat) : vecReserve alloc additional self =
      self.withRoom (room alloc self (self.units + additional)) fun capacity => { self with capacity } := by
  show (if _ then _ else _ : FamM T Unit) self = _
  unfold room
  by_cases hroom : additional ≤ self.capacity - self.units
  · rw [if_pos hroom, if_pos (by omega)]
    rfl
  · rw [if_neg hroom, if_neg (by omega)]
    cases allocate T alloc (self.units + additional) <;> rfl

/-- The capacity has to grow, to one that `Vec` refuses. -/
def Exceeds (alloc : Allocator) (vec : FamStructWrapper T) (u : Nat) : Prop :=
  vec.capacity < u ∧ ISIZE_MAX < alloc.grant u * FamStruct.headerSize T

theorem room_cases (alloc : Allocator) (hcap : self.capacity * headerSize T ≤ ISIZE_MAX) (u : Nat) :
    (¬ Exceeds alloc self u ∧ ∃ capacity, room alloc self u = .ok capacity ∧ u ≤ capacity ∧
      capacity * headerSize T ≤ ISIZE_MAX) ∨
    (Exceeds alloc self u ∧ room alloc self u = .err .capacityOverflow) := by
  unfold room allocate Exceeds
  by_cases hle : u ≤ self.capacity
  · exact .inl ⟨by omega, self.capacity, if_pos hle, hle, hcap⟩
  · rw [if_neg hle]
    by_cases hfit : alloc.grant u * headerSize T ≤ ISIZE_MAX
    · exact .inl ⟨by omega, alloc.grant u, if_pos hfit, alloc.le_grant u, hfit⟩
    · exact .inr ⟨by omega, if_neg hfit⟩

theorem vecResizeWith_of_le {newLen : Nat} (hlen : self.array.length = (self.units - 1) * headerSize T)
    (hle : self.units ≤ newLen) (hcap : newLen ≤ self.capacity) :
    vecResizeWith alloc newLen self = (.ok (), { self with
        array := self.array ++ .replicate ((newLen - self.units) * headerSize T) 0, units := newLen }) := by
  show (if _ then _ else _ : FamM T Unit) self = _
  by_cases hlt : self.units < newLen
  · have hreserve : vecReserve alloc (newLen - self.units) self = (.ok (), self) := by
      rw [vecReserve_eq (Nat.le_trans hle hcap), room, if_pos (by omega)]
      rfl
    rw [if_pos hlt, bind_of_ok hreserve]
    rfl
  · obtain rfl : self.units = newLen := Nat.le_antisymm hle (Nat.not_lt.1 hlt)
    rw [if_neg hlt, Nat.sub_self, Nat.zero_mul, replicate_zero, append_nil, ← hlen]
    show (_, _) = _
    rw [take_length]

variable [PodFam T Entry]

theorem reserve_eq (alloc : Allocator) (h : self.Inv) {additional : Nat}
    (hdesired : self.len + additional ≤ ISIZE_MAX) :
    reserve alloc additional self =
      match unitsOf T (self.len + additional) with
      | none => (.err (.error .sizeLimitExceeded), self)
      | some u => self.withRoom (room alloc self u) fun capacity => { self with capacity } := by
  have hadd : checkedAdd self.len additional = some (self.len + additional) := by
    refine checkedAdd_of_le ?_
    rw [U64_MAX_eq]
    unfold ISIZE_MAX at hdesired
    omega
  have hbody : reserve alloc additional self =
      (if self.len + additional ≤ entriesIn T self.capacity then pure ()
        else do
          let required ← .lift (.okOr (unitsOf T (self.len + additional)) (.error .sizeLimitExceeded))
          let additionalUnits ← .lift (.unwrap (checkedSub required self.units))
          vecReserve alloc additionalUnits : FamM T Unit) self := by
    show (lift _ >>= _ : FamM T Unit) self = _
    rw [hadd, lift_bind_apply]
    dsimp only [unwrap_some]
    rw [h.famLen_capacity, lift_bind_apply]
  rw [hbody]
  by_cases hfits : self.len + additional ≤ entriesIn T self.capacity
  · have hle := (le_entriesIn_iff h.capacity_pos).1 hfits
    obtain ⟨u, hu⟩ := exists_units
      (Nat.le_trans hle (Nat.mul_comm _ _ ▸ h.capacity_le))
    rw [if_pos hfits, hu]
    dsimp only
    rw [room, if_pos ((units_le_iff hu).2 hle)]
    rfl
  · rw [if_neg hfits]
    cases hu : unitsOf T (self.len + additional) with
    | none => rfl
    | some u =>
      have hmono : self.units ≤ u := units_mono (Nat.le_add_right _ _) h.units_eq hu
      rw [okOr_some, lift_bind_apply]
      dsimp only
      rw [checkedSub_of_le hmono, unwrap_some, lift_bind_apply]
      dsimp only
      rw [vecReserve_eq h.units_le, Nat.add_sub_cancel' hmono]

variable {len u capacity n : Nat}

theorem setLen_of_ne (h : self.Inv) (hne : len ≠ self.len) (hsize : len ≤ ISIZE_MAX) : setLen alloc len self =
      (do grow alloc len ((len : Int) - self.len)
          let required ← .lift (.okOr (unitsOf T len) (.error .sizeLimitExceeded))
          vecResizeWith alloc required
          let self' ← .get
          .set { self' with header := FamStruct.setLen len self'.header }
          if (len : Int) - self.len < 0 then vecShrinkToFit alloc else pure () :
        FamM T Unit) self := by
  show (lift _ >>= _ : FamM T Unit) self = _
  rw [ensure_bind_apply, if_pos (by simpa using ⟨hsize, h.len_le_isize⟩), if_neg (by omega)]

theorem setLen_grow (alloc : Allocator) (h : self.Inv) (hlt : self.len < len) (hsize : len ≤ ISIZE_MAX)
    (hmax : len ≤ maxLen T) : setLen alloc len self =
      match unitsOf T len with
      | none => (.err (.error .sizeLimitExceeded), self)
      | some u => self.withRoom (room alloc self u) fun capacity =>
          ⟨FamStruct.setLen len self.header,
            self.array ++ .replicate ((u - self.units) * headerSize T) 0, u, capacity⟩ := by
  obtain ⟨additional, rfl⟩ := Nat.exists_eq_add_of_le (Nat.le_of_lt hlt)
  have hcast : ((self.len + additional : Nat) : Int) - self.len = additional := by omega
  have hgrow : grow alloc (self.len + additional) ((self.len + additional : Nat) - self.len : Int) self =
      reserve alloc additional self := by
    unfold grow
    rw [hcast, if_pos (by omega), ensure_bind_apply, if_pos (by simpa using hmax), Int.toNat_natCast]
  rw [setLen_of_ne h (by omega) hsize]
  have hreserve := reserve_eq alloc h hsize
  rw [← hgrow] at hreserve
  cases hu : unitsOf T (self.len + additional) with
  | none =>
    rw [hu] at hreserve
    rw [bind_of_err hreserve]
  | some u =>
    rw [hu] at hreserve
    dsimp only at hreserve ⊢
    rcases room_cases alloc h.capacity_le u with ⟨_, capacity, hroom, hle, _⟩ | ⟨_, hroom⟩
    · rw [hroom] at hreserve ⊢
      have hmono : self.units ≤ u := units_mono (Nat.le_add_right _ _) h.units_eq hu
      have hresize : vecResizeWith alloc u { self with capacity } = _ :=
        vecResizeWith_of_le h.length_array hmono hle
      rw [bind_of_ok hreserve, okOr_some, lift_bind_apply]
      dsimp only
      rw [bind_of_ok hresize, if_neg (by omega)]
      rfl
    · rw [hroom] at hreserve ⊢
      rw [bind_of_err hreserve]
      rfl

theorem setLen_shrink (alloc : Allocator) (h : self.Inv) (hlt : len < self.len) :
    ∃ u, unitsOf T len = some u ∧ u ≤ self.units ∧ setLen alloc len self =
        (.ok (), ⟨FamStruct.setLen len self.header, self.array.take ((u - 1) * headerSize T), u,
          min self.capacity (alloc.grant u)⟩) := by
  have hbytes : bytesOf T len ≤ ISIZE_MAX :=
    Nat.le_trans (Nat.add_le_add_left (Nat.mul_le_mul_right _ (Nat.le_of_lt hlt)) _) h.bytesOf_le
  obtain ⟨u, hu⟩ := exists_units hbytes
  have hmono : u ≤ self.units := units_mono (Nat.le_of_lt hlt) hu h.units_eq
  have hgrow : grow alloc len ((len : Int) - self.len) self = (.ok (), self) := by
    unfold grow
    rw [if_neg (by omega)]
    rfl
  have hresize : vecResizeWith alloc u self =
      (.ok (), { self with array := self.array.take ((u - 1) * headerSize T), units := u }) := by
    show (if _ then _ else _ : FamM T Unit) self = _
    rw [if_neg (Nat.not_lt.2 hmono)]
    rfl
  refine ⟨u, hu, hmono, ?_⟩
  rw [setLen_of_ne h (by omega) (Nat.le_trans (Nat.le_of_lt hlt) h.len_le_isize), bind_of_ok hgrow, hu,
    okOr_some, lift_bind_apply]
  dsimp only
  rw [bind_of_ok hresize, if_pos (by omega)]
  rfl

omit [PodFam T Entry] in
theorem Inv.set_array (h : self.Inv) {array : List UInt8} (hlen : array.length = self.array.length) :
    Inv { self with array } := ⟨h.len_le, h.units_eq, hlen.trans h.length_array, h.units_le, h.capacity_le⟩

theorem inv_setLen {header : T} {array : List UInt8} (hmax : len ≤ maxLen T) (hu : unitsOf T len = some u)
    (harray : array.length = (u - 1) * headerSize T) (hroom : u ≤ capacity)
    (hcap : capacity * headerSize T ≤ ISIZE_MAX) :
    Inv (⟨FamStruct.setLen len header, array, u, capacity⟩ : FamStructWrapper T) := by
  have hlen := PodFam.len_setLen len hmax header
  refine ⟨?_, ?_, harray, hroom, hcap⟩
  · exact Nat.le_trans (Nat.le_of_eq hlen) hmax
  · show unitsOf T (FamStruct.len _) = _
    rw [hlen, hu]

theorem Inv.grown (h : self.Inv) (hmax : len ≤ maxLen T) (hu : unitsOf T len = some u) (hle : self.len ≤ len)
    (hroom : u ≤ capacity) (hcap : capacity * headerSize T ≤ ISIZE_MAX) :
    Inv (⟨FamStruct.setLen len self.header,
      self.array ++ .replicate ((u - self.units) * headerSize T) 0, u, capacity⟩ : FamStructWrapper T) := by
  have hpos := units_pos h.units_eq
  have hmono := units_mono hle h.units_eq hu
  refine inv_setLen hmax hu ?_ hroom hcap
  rw [length_append, length_replicate, h.length_array, ← Nat.add_mul,
    show self.units - 1 + (u - self.units) = u - 1 by omega]

theorem Inv.shrunk (h : self.Inv) (hu : unitsOf T len = some u) (hle : len ≤ self.len) (hroom : u ≤ capacity)
    (hcap : capacity * headerSize T ≤ ISIZE_MAX) :
    Inv (⟨FamStruct.setLen len self.header, self.array.take ((u - 1) * headerSize T), u, capacity⟩ : FamStructWrapper T) := by
  have hmono := units_mono hle hu h.units_eq
  refine inv_setLen (Nat.le_trans hle h.len_le) hu ?_ hroom hcap
  rw [length_take, h.length_array]
  exact Nat.min_eq_left (Nat.mul_le_mul_right _ (Nat.sub_le_sub_right hmono 1))

theorem setLen_same (h : self.Inv) : setLen alloc self.len self = (.ok (), self) := by
  have hsize : (decide (self.len ≤ ISIZE_MAX) && decide (self.len ≤ ISIZE_MAX)) = true := by
    simpa using h.len_le_isize
  show (lift _ >>= _ : FamM T Unit) self = _
  rw [ensure_bind_apply, if_pos hsize, if_pos (Int.sub_self _)]
  rfl

theorem setLen_too_large (h : self.Inv) (hlt : self.len < len) (hlarge : ISIZE_MAX < len ∨ maxLen T < len) :
    setLen alloc len self = (.err (.error .sizeLimitExceeded), self) := by
  by_cases hsize : len ≤ ISIZE_MAX
  · have hmax : ¬ len ≤ maxLen T := by
      rcases hlarge with hlarge | hlarge <;> omega
    have hgrow : grow alloc len ((len : Int) - self.len) self = (.err (.error .sizeLimitExceeded), self) := by
      unfold grow
      rw [if_pos (by omega), ensure_bind_apply, if_neg (by simpa using hmax)]
    rw [setLen_of_ne h (by omega) hsize, bind_of_err hgrow]
  · show (lift _ >>= _ : FamM T Unit) self = _
    rw [ensure_bind_apply, if_neg (by simp [hsize])]

/-! ## Calls -/

def Full (alloc : Allocator) (vec : FamStructWrapper T) : Prop :=
  vec.len = FamStruct.maxLen T ∨ ISIZE_MAX < vec.len + 1 ∨ unitsOf T (vec.len + 1) = none ∨
    ∃ u, unitsOf T (vec.len + 1) = some u ∧ Exceeds alloc vec u

theorem push_of_setLen_err (h : self.Inv) {e : FamFailure} (hset : setLen alloc (self.len + 1) self = (.err e, self))
    (entry : Entry) : push alloc entry self = (.err e, self) := by
  show (lift _ >>= _ : FamM T Unit) self = _
  rw [h.checkedAdd_len, lift_bind_apply]
  dsimp only [unwrap_some]
  rw [bind_of_err hset]

theorem push_of_setLen_ok (h : self.Inv) {self' : FamStructWrapper T} (hset : setLen alloc (self.len + 1) self = (.ok (), self'))
    (hlen : self'.len = self.len + 1) (entry : Entry) :
    push alloc entry self = (.ok (), { self' with array := (PodFam.codec T).set self'.array self.len entry }) := by
  show (lift _ >>= _ : FamM T Unit) self = _
  rw [h.checkedAdd_len, lift_bind_apply]
  dsimp only [unwrap_some]
  rw [bind_of_ok hset, bind_of_ok (get_apply self'), checkedSub_of_le (by omega), lift_bind_apply]
  dsimp only [unwrap_some]
  rw [if_pos (by omega)]
  rfl

theorem push_spec (h : self.Inv) (entry : Entry) : (Full alloc self ∧ ∃ e, push alloc entry self = (.err e, self)) ∨
      (¬ Full alloc self ∧ ∃ self', push alloc entry self = (.ok (), self') ∧ self'.Inv ∧
        self'.asSlice = self.asSlice ++ [entry]) := by
  have hlen := h.len_le
  by_cases hlarge : ISIZE_MAX < self.len + 1 ∨ maxLen T < self.len + 1
  · have hfull : Full alloc self := by
      rcases hlarge with hlarge | hlarge
      · exact .inr (.inl hlarge)
      · exact .inl (by omega)
    exact .inl ⟨hfull, _, push_of_setLen_err h (setLen_too_large h (Nat.lt_succ_self _) hlarge) entry⟩
  obtain ⟨hsize, hmax⟩ : self.len + 1 ≤ ISIZE_MAX ∧ self.len + 1 ≤ maxLen T := by omega
  have hset := setLen_grow alloc h (Nat.lt_add_one self.len) hsize hmax
  cases hu : unitsOf T (self.len + 1) with
  | none =>
    rw [hu] at hset
    exact .inl ⟨.inr (.inr (.inl hu)), _, push_of_setLen_err h hset entry⟩
  | some u =>
    rw [hu] at hset
    dsimp only at hset
    rcases room_cases alloc h.capacity_le u with ⟨hfits, capacity, hroom, hle, hcap⟩ | ⟨hexceeds, hroom⟩
    · right
      rw [hroom] at hset
      have hnot : ¬ Full alloc self := by
        unfold Full
        rw [hu]
        rintro (hfull | hfull | hfull | ⟨u', hu', hexceeds⟩)
        · omega
        · omega
        · cases hfull
        · cases hu'
          exact hfits hexceeds
      have hinv := h.grown hmax hu (Nat.le_succ _) hle hcap
      have hlen' := PodFam.len_setLen (self.len + 1) hmax self.header
      have hentries : FamStruct.len (FamStruct.setLen (self.len + 1) self.header) * (PodFam.codec T).size ≤
          (self.array ++ .replicate ((u - self.units) * headerSize T) 0).length := hinv.entries_le
      rw [hlen', Nat.succ_mul] at hentries
      refine ⟨hnot, _, push_of_setLen_ok h hset hlen' entry, hinv.set_array (Codec.length_set hentries entry), ?_⟩
      · show (PodFam.codec T).view ((PodFam.codec T).set _ _ _) (FamStruct.len _) = _
        rw [hlen', view_set, view_append h.entries_le]
        · rfl
        · rw [length_append]
          exact Nat.le_trans h.entries_le (Nat.le_add_right _ _)
    · rw [hroom] at hset
      exact .inl ⟨.inr (.inr (.inr ⟨u, hu, hexceeds⟩)), _, push_of_setLen_err h hset entry⟩

theorem retain_spec (h : self.Inv) (f : List Entry → Entry → Bool) :
    ∃ self', retain alloc f self = (.ok (), self') ∧ self'.Inv ∧ self'.asSlice = keep f [] self.asSlice := by
  obtain ⟨hlength, hkept, _, hview, _⟩ := retainInv_retain h.entries_le
  have hbody : retain alloc f self = expect (setLen alloc ((PodFam.codec T).retain f self.array self.len).numKept)
      { self with array := ((PodFam.codec T).retain f self.array self.len).bytes } := rfl
  generalize (PodFam.codec T).retain f self.array self.len = kept at hlength hkept hview hbody
  have hmoved : Inv { self with array := kept.bytes } := h.set_array hlength
  have hretain : ∀ {self'}, setLen alloc kept.numKept { self with array := kept.bytes } = (.ok (), self') →
      retain alloc f self = (.ok (), self') := by
    intro self' hset
    rw [hbody]
    unfold expect
    rw [hset]
  rcases Nat.eq_or_lt_of_le hkept with hall | hsome
  · have hset : setLen alloc self.len { self with array := kept.bytes } = _ := setLen_same hmoved
    rw [← hall] at hset
    refine ⟨_, hretain hset, hmoved, ?_⟩
    show (PodFam.codec T).view kept.bytes self.len = _
    rw [← hall, hview]
    rfl
  · obtain ⟨u, hu, _, hset⟩ := setLen_shrink alloc hmoved hsome
    have hcap := Nat.mul_le_mul_right (headerSize T) (Nat.min_le_left self.capacity (alloc.grant u))
    have hroom : u ≤ min self.capacity (alloc.grant u) :=
      Nat.le_min.2 ⟨Nat.le_trans (units_mono hkept hu h.units_eq) h.units_le, alloc.le_grant u⟩
    refine ⟨_, hretain hset, hmoved.shrunk hu hkept hroom (Nat.le_trans hcap h.capacity_le), ?_⟩
    have hlen := PodFam.len_setLen kept.numKept (Nat.le_trans hkept h.len_le) self.header
    show (PodFam.codec T).view (kept.bytes.take _) (FamStruct.len _) = _
    rw [hlen, view_take, hview]
    · rfl
    · rw [PodFam.size_eq]
      exact FamStructWrapper.entries_le hu

/-! ## New wrappers -/

section

omit [PodFam T Entry]

theorem inv_zeroed {header : T} (hlen : FamStruct.len header = n) (hmax : n ≤ maxLen T)
    (hu : unitsOf T n = some u) (halloc : allocate T alloc u = .ok capacity) : (zeroed T header u capacity).Inv := by
  subst hlen
  unfold allocate at halloc
  split at halloc
  · rename_i hfit
    cases halloc
    exact ⟨hmax, hu, length_replicate, alloc.le_grant u, hfit⟩
  · cases halloc

theorem new_eq_zeroed (h : new T alloc n = .ok self) :
    n ≤ maxLen T ∧ ∃ u capacity, unitsOf T n = some u ∧ allocate T alloc u = .ok capacity ∧
      self = zeroed T (withLen n) u capacity := by
  unfold new at h
  split at h
  · cases h
  rename_i hmax
  obtain ⟨u, hu, h⟩ := bind_eq_ok.1 h
  obtain ⟨capacity, halloc, h⟩ := bind_eq_ok.1 h
  cases h
  exact ⟨Nat.not_lt.1 hmax, u, capacity, okOr_eq_ok.1 hu, halloc, rfl⟩

theorem allocate_ne_panic (u : Nat) : allocate T alloc u ≠ .panic := by
  unfold allocate
  split
  · exact ok_ne_panic
  · exact err_ne_panic

theorem new_ne_panic (n : Nat) : new T alloc n ≠ .panic := by
  unfold new
  split
  · exact err_ne_panic
  · exact bind_ne_panic (okOr_ne_panic _ _) fun _ _ =>
      bind_ne_panic (allocate_ne_panic _) fun _ _ => ok_ne_panic

end

theorem new_eq_ok (h : new T alloc n = .ok self) :
    self.Inv ∧ self.len = n ∧ self.asSlice = .replicate n (zeroEntry T) := by
  obtain ⟨hmax, u, capacity, hu, halloc, rfl⟩ := new_eq_zeroed h
  have hlen := PodFam.len_withLen n hmax
  refine ⟨inv_zeroed hlen hmax hu halloc, hlen, ?_⟩
  show (PodFam.codec T).view (.replicate _ 0) (FamStruct.len (withLen n : T)) = _
  rw [hlen]
  refine view_replicate PodFam.decode_zero ?_
  rw [PodFam.size_eq]
  exact FamStructWrapper.entries_le hu

theorem copyFromSlice_spec (h : self.Inv) {entries : List Entry} (hlen : self.len = entries.length) :
    ∃ self', self.copyFromSlice entries = .ok self' ∧ self'.Inv ∧ self'.asSlice = entries := by
  have hfit := h.entries_le
  rw [hlen] at hfit
  refine ⟨_, if_pos hlen, h.set_array (length_fill hfit), ?_⟩
  show (PodFam.codec T).view _ self.len = _
  rw [hlen]
  exact view_fill _ _

/-- A call that gives a new wrapper fails with an error, or gives one with the expected entries. -/
def Gives (entries : List Entry) (o : Outcome FamFailure (FamStructWrapper T)) : Prop :=
  (∃ e, o = .err e) ∨ ∃ self, o = .ok self ∧ self.Inv ∧ self.asSlice = entries

theorem gives_new (alloc : Allocator) (n : Nat) : Gives (.replicate n (zeroEntry T)) (new T alloc n) := by
  cases hnew : new T alloc n with
  | err e => exact .inl ⟨e, rfl⟩
  | panic => exact absurd hnew (new_ne_panic n)
  | ok self =>
    obtain ⟨hinv, _, hslice⟩ := new_eq_ok hnew
    exact .inr ⟨self, rfl, hinv, hslice⟩

theorem gives_fromEntries (alloc : Allocator) (entries : List Entry) :
    Gives entries (fromEntries alloc entries : Outcome FamFailure (FamStructWrapper T)) := by
  unfold fromEntries
  cases hnew : new T alloc entries.length with
  | err e => exact .inl ⟨e, rfl⟩
  | panic => exact absurd hnew (new_ne_panic _)
  | ok self =>
    obtain ⟨hinv, hlen, _⟩ := new_eq_ok hnew
    exact .inr (copyFromSlice_spec hinv hlen)

theorem gives_clone (alloc : Allocator) (h : self.Inv) : Gives self.asSlice (self.clone alloc) := by
  have hlen : self.asSlice.length = self.len := length_view
  unfold clone
  rw [hlen, h.units_eq, unwrap_some, ok_bind]
  cases halloc : allocate T alloc self.units with
  | err e => exact .inl ⟨e, rfl⟩
  | panic => exact absurd halloc (allocate_ne_panic _)
  | ok capacity => exact .inr (copyFromSlice_spec (inv_zeroed rfl h.len_le h.units_eq halloc) hlen.symm)

end Invariant

end FamStructWrapper

/-! ## Sequences of calls -/

/-- A call.  Wrappers are numbered in the order in which they are made. -/
inductive FamCall (Entry : Type) where
  | new (numElements : Nat)
  | fromEntries (entries : List Entry)
  | push (i : Nat) (entry : Entry)
  | retain (i : Nat) (f : List Entry → Entry → Bool)
  | clone (i : Nat)

namespace FamCall

section Model

variable {T Entry : Type} [FamStruct T Entry] [PodFam T Entry]

def addNew (o : Outcome FamFailure (FamStructWrapper T)) (store : List (FamStructWrapper T)) :
    Outcome FamFailure Unit × List (FamStructWrapper T) :=
  match o with
  | .ok wrapper => (.ok (), store ++ [wrapper])
  | .err e => (.err e, store)
  | .panic => (.panic, store)

def onWrapper (i : Nat) (m : FamM T Unit) (store : List (FamStructWrapper T)) :
    Outcome FamFailure Unit × List (FamStructWrapper T) :=
  match store[i]? with
  | some wrapper => ((m wrapper).1, store.set i (m wrapper).2)
  | none => (.ok (), store)

/-- The call, with what `Vec` does in it. -/
def perform (alloc : Allocator) (call : FamCall Entry) (store : List (FamStructWrapper T)) :
    Outcome FamFailure Unit × List (FamStructWrapper T) :=
  match call with
  | new numElements => addNew (FamStructWrapper.new T alloc numElements) store
  | fromEntries entries => addNew (FamStructWrapper.fromEntries alloc entries) store
  | push i entry => onWrapper i (FamStructWrapper.push alloc entry) store
  | retain i f => onWrapper i (FamStructWrapper.retain alloc f) store
  | clone i =>
    match store[i]? with
    | some wrapper => addNew (wrapper.clone alloc) store
    | none => (.ok (), store)

def step (store : List (FamStructWrapper T)) (call : Allocator × FamCall Entry) : List (FamStructWrapper T) :=
  (call.2.perform call.1 store).2

/-- The calls of a sequence that succeed. -/
def succeeded : List (FamStructWrapper T) → List (Allocator × FamCall Entry) → List (FamCall Entry)
  | _, [] => []
  | store, call :: calls =>
    match (call.2.perform call.1 store).1 with
    | .ok _ => call.2 :: succeeded (step store call) calls
    | _ => succeeded (step store call) calls

/-- The same call on plain lists. -/
def onLists (zero : Entry) (lists : List (List Entry)) : FamCall Entry → List (List Entry)
  | new numElements => lists ++ [.replicate numElements zero]
  | fromEntries entries => lists ++ [entries]
  | push i entry => lists.modify i (· ++ [entry])
  | retain i f => lists.modify i (keep f [])
  | clone i =>
    match lists[i]? with
    | some entries => lists ++ [entries]
    | none => lists

end Model

open FamStructWrapper (asSlice Gives gives_new gives_fromEntries gives_clone push_spec retain_spec)

variable {T Entry : Type} [FamStruct T Entry] [PodFam T Entry] {store : List (FamStructWrapper T)}

/-- How a call on a good store ends: it fails and changes nothing, or does what it does on the lists. -/
def Done (lists : List (List Entry)) (store : List (FamStructWrapper T)) (result : Outcome FamFailure Unit × List (FamStructWrapper T)) :
    Prop :=
  (∃ e, result = (.err e, store)) ∨
    (result.1 = .ok () ∧ (∀ wrapper ∈ result.2, wrapper.Inv) ∧ result.2.map asSlice = lists)

theorem done_addNew (hinv : ∀ wrapper ∈ store, wrapper.Inv) {entries : List Entry} {o : Outcome FamFailure (FamStructWrapper T)}
    (h : Gives entries o) : Done (store.map asSlice ++ [entries]) store (addNew o store) := by
  rcases h with ⟨e, rfl⟩ | ⟨wrapper, rfl, hwrapper, rfl⟩
  · exact .inl ⟨e, rfl⟩
  · exact .inr ⟨rfl, forall_mem_append.2 ⟨hinv, forall_mem_singleton.2 hwrapper⟩, map_append⟩

theorem done_onWrapper (hinv : ∀ wrapper ∈ store, wrapper.Inv) (i : Nat) {m : FamM T Unit}
    {g : List Entry → List Entry}
    (h : ∀ wrapper : FamStructWrapper T, wrapper.Inv → (∃ e, m wrapper = (.err e, wrapper)) ∨
      ∃ wrapper', m wrapper = (.ok (), wrapper') ∧ wrapper'.Inv ∧ wrapper'.asSlice = g wrapper.asSlice) :
    Done ((store.map asSlice).modify i g) store (onWrapper i m store) := by
  unfold onWrapper
  cases hi : store[i]? with
  | none =>
    refine .inr ⟨rfl, hinv, ?_⟩
    rw [modify_eq_self (by simpa using getElem?_eq_none_iff.1 hi)]
  | some wrapper =>
    dsimp only
    rcases h wrapper (hinv wrapper (mem_of_getElem? hi)) with ⟨e, hm⟩ | ⟨wrapper', hm, hinv', hslice⟩
    · rw [hm]
      refine .inl ⟨e, ?_⟩
      obtain ⟨hlt, rfl⟩ := List.getElem?_eq_some_iff.1 hi
      rw [set_getElem_self]
    · rw [hm]
      refine .inr ⟨rfl, fun w hw => ?_, ?_⟩
      · rcases mem_or_eq_of_mem_set hw with hw | rfl
        · exact hinv w hw
        · exact hinv'
      · have hslices : (store.map asSlice)[i]? = some wrapper.asSlice := by
          rw [getElem?_map, hi]
          rfl
        rw [map_set, hslice, modify_eq_set_getElem?, hslices]
        rfl

theorem done_perform (hinv : ∀ wrapper ∈ store, wrapper.Inv) (alloc : Allocator) (call : FamCall Entry) :
    Done (onLists (zeroEntry T) (store.map asSlice) call) store (call.perform alloc store) := by
  cases call with
  | new numElements => exact done_addNew hinv (gives_new alloc numElements)
  | fromEntries entries => exact done_addNew hinv (gives_fromEntries alloc entries)
  | push i entry =>
    refine done_onWrapper hinv i fun wrapper hwrapper => ?_
    rcases push_spec hwrapper entry with ⟨_, hfail⟩ | ⟨_, hdone⟩
    · exact .inl hfail
    · exact .inr hdone
  | retain i f => exact done_onWrapper hinv i fun wrapper hwrapper => .inr (retain_spec hwrapper f)
  | clone i =>
    unfold perform onLists
    dsimp only
    rw [getElem?_map]
    cases hi : store[i]? with
    | none => exact .inr ⟨rfl, hinv, rfl⟩
    | some wrapper => exact done_addNew hinv (gives_clone alloc (hinv wrapper (mem_of_getElem? hi)))

theorem run_spec (hinv : ∀ wrapper ∈ store, wrapper.Inv) (calls : List (Allocator × FamCall Entry)) :
    (∀ wrapper ∈ run step store calls, wrapper.Inv) ∧ (run step store calls).map asSlice =
        run (onLists (zeroEntry T)) (store.map asSlice) (succeeded store calls) := by
  induction calls generalizing store with
  | nil => exact ⟨hinv, rfl⟩
  | cons call calls ih =>
    rw [run_cons, succeeded]
    unfold step
    rcases done_perform hinv call.1 call.2 with ⟨e, hfail⟩ | ⟨hok, hinv', hlists⟩
    · rw [hfail]
      exact ih hinv
    · rw [hok, run_cons, ← hlists]
      exact ih hinv'

end FamCall

open FamStructWrapper (unitsOf)

/-- **`FamStructWrapper` is a bounded vector**, for every sequence of calls and whatever `Vec` allocates beyond what it
needs.  The entries are those of plain lists; the units are exactly those that they need; nothing panics apart from
allocations that are too large, and a call that fails changes nothing. -/
theorem fam_is_bounded_vec (T : Type) {Entry : Type} [FamStruct T Entry] [PodFam T Entry]
    (calls : List (Allocator × FamCall Entry)) :
    let store : List (FamStructWrapper T) := run FamCall.step [] calls
    store.map FamStructWrapper.asSlice = run (FamCall.onLists (FamStruct.zeroEntry T)) [] (FamCall.succeeded (T := T) [] calls) ∧
    (∀ wrapper ∈ store, wrapper.len ≤ FamStruct.maxLen T ∧ unitsOf T wrapper.len = some wrapper.units ∧
      wrapper.array.length = (wrapper.units - 1) * FamStruct.headerSize T ∧
      wrapper.len * FamStruct.entrySize T ≤ wrapper.array.length ∧ wrapper.units ≤ wrapper.capacity) ∧
    (∀ wrapper ∈ store, ∀ alloc entry, ((FamStructWrapper.push alloc entry wrapper).1 ≠ .ok () ↔ FamStructWrapper.Full alloc wrapper)) ∧
    ∀ alloc call, (FamCall.perform alloc call store).1 ≠ .panic ∧
      ((FamCall.perform alloc call store).1 ≠ .ok () → (FamCall.perform alloc call store).2 = store) := by
  have hempty : ∀ wrapper ∈ ([] : List (FamStructWrapper T)), wrapper.Inv := fun _ h => absurd h not_mem_nil
  obtain ⟨hinv, hlists⟩ := FamCall.run_spec hempty calls
  refine ⟨hlists, fun wrapper hmem => ?_, fun wrapper hmem alloc entry => ?_, fun alloc call => ?_⟩
  · have h := hinv wrapper hmem
    exact ⟨h.len_le, h.units_eq, h.length_array, PodFam.size_eq (T := T) ▸ h.entries_le, h.units_le⟩
  · rcases FamStructWrapper.push_spec (hinv wrapper hmem) entry with ⟨hfull, e, hpush⟩ | ⟨hroom, wrapper', hpush, _⟩
    · rw [hpush]
      exact iff_of_true err_ne_ok hfull
    · rw [hpush]
      exact iff_of_false (fun hne => hne rfl) hroom
  · rcases FamCall.done_perform hinv alloc call with ⟨e, hfail⟩ | ⟨hok, _⟩
    · rw [hfail]
      exact ⟨err_ne_panic, fun _ => rfl⟩
    · rw [hok]
      exact ⟨ok_ne_panic, fun hne => absurd rfl hne⟩

/-- The structure in the documentation of `FamStruct`. -/
structure MockFamStruct where
  len : UInt32
  padding : UInt32

instance : FamStruct MockFamStruct UInt32 where
  headerSize := 8
  entrySize := 4
  maxLen := 100
  withLen n := ⟨.ofNat n, 0⟩
  len header := header.len.toNat
  setLen n header := { header with len := .ofNat n }
  zeroEntry := 0

def u32Bytes (x : UInt32) : List UInt8 :=
  [.ofNat x.toNat, .ofNat (x.toNat / 256), .ofNat (x.toNat / 65536), .ofNat (x.toNat / 16777216)]

def u32OfBytes (bytes : List UInt8) : UInt32 := .ofNat (bytes.foldr (fun byte n => byte.toNat + 256 * n) 0)

theorem u32OfBytes_u32Bytes (x : UInt32) : u32OfBytes (u32Bytes x) = x := by
  apply UInt32.toNat_inj.1
  have hlt := x.toNat_lt
  unfold u32OfBytes u32Bytes
  simp only [foldr_cons, foldr_nil, UInt32.toNat_ofNat', UInt8.toNat_ofNat']
  omega

def u32Codec : Codec UInt32 where
  size := 4
  encode := u32Bytes
  decode := u32OfBytes
  size_pos := Nat.succ_pos 3
  length_encode _ := rfl
  decode_encode := u32OfBytes_u32Bytes

instance : PodFam MockFamStruct UInt32 where
  codec := u32Codec
  size_eq := rfl
  headerSize_pos := by decide
  decode_zero := by decide
  len_withLen n hn := UInt32.toNat_ofNat_of_lt' (Nat.lt_of_le_of_lt hn (by decide))
  len_setLen n hn _ := UInt32.toNat_ofNat_of_lt' (Nat.lt_of_le_of_lt hn (by decide))

/-- A `Vec` that makes room for one unit more than twice as many. -/
def doubling : Allocator := ⟨fun units => 2 * units + 1, fun units => by omega⟩

theorem fam_is_bounded_vec_mock :
    let calls := [(doubling, .new 1), (doubling, .push 0 7), (doubling, .push 0 9),
      (doubling, .retain 0 fun seen entry => seen.length != 1 && entry != 7), (doubling, .clone 0)]
    let store : List (FamStructWrapper MockFamStruct) := run FamCall.step [] calls
    store.map FamStructWrapper.asSlice = [[0, 9], [0, 9]] ∧ ∀ wrapper ∈ store, wrapper.len ≤ 100 := by
  intro calls store
  obtain ⟨hlists, hinv, _⟩ := fam_is_bounded_vec MockFamStruct calls
  exact ⟨hlists.trans (by decide +kernel), fun wrapper hmem => (hinv wrapper hmem).1⟩

end RustVmm.VmmSysUtil
