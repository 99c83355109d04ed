import Mathlib.Data.Nat.Bitwise
import RustVmm.Lib.OrdMap
import RustVmm.Lib.Outcome
import RustVmm.Lib.Run

/-!
# The I/O bus

Model of `vm-device/src/bus` and of the dispatch functions of `device_manager.rs`, for addresses of any width.

* `BusRange` — a range that is not empty and does not wrap around.
* `bus_dispatch` — accesses reach the one device whose range contains them, on every bus that calls lead to.
-/

set_option autoImplicit false

namespace RustVmm.VmDevice

open Lib Outcome

inductive Error where
  | deviceNotFound
  | deviceOverlap
  | invalidAccessLength (len : Nat)
  | invalidRange
  deriving DecidableEq, Repr

/-! ## Ranges -/

variable {w : Nat}

def checkedAdd (base value : BitVec w) : Option (BitVec w) :=
  if base.toNat + value.toNat < 2 ^ w then some (base + value) else none

/-- `A::V::try_from(len)`. -/
def tryFrom (w len : Nat) : Option (BitVec w) := if len < 2 ^ w then some (BitVec.ofNat w len) else none

structure BusRange (w : Nat) where
  base : BitVec w
  size : BitVec w
  size_pos : 0 < size.toNat
  fits : base.toNat + size.toNat ≤ 2 ^ w
  deriving DecidableEq

variable {size : BitVec w}

theorem tryFrom_eq_some {len : Nat} : tryFrom w len = some size ↔ size.toNat = len := by
  unfold tryFrom
  constructor
  · intro h
    split at h
    · rename_i hlt
      cases h
      exact (BitVec.toNat_ofNat _ _).trans (Nat.mod_eq_of_lt hlt)
    · cases h
  · rintro rfl
    rw [if_pos size.isLt, BitVec.ofNat_toNat, BitVec.setWidth_eq]

theorem toNat_one (h : w ≠ 0) : (1 : BitVec w).toNat = 1 := Nat.mod_eq_of_lt (Nat.one_lt_two_pow h)

theorem toNat_pos (h : size ≠ 0) : 0 < size.toNat := by
  rw [Nat.pos_iff_ne_zero]
  exact fun hzero => h (BitVec.eq_of_toNat_eq (by simpa using hzero))

theorem toNat_pred (h : size ≠ 0) : (size - 1).toNat = size.toNat - 1 := by
  have hw : w ≠ 0 := by
    rintro rfl
    exact h (Subsingleton.elim _ _)
  have hone := toNat_one hw
  rw [BitVec.toNat_sub_of_le (by rw [BitVec.le_def, hone]; exact toNat_pos h), hone]

namespace BusRange

def new (base size : BitVec w) : Outcome Error (BusRange w) :=
  if hzero : size = 0 then .err .invalidRange
  else if hfits : (checkedAdd base (size - 1)).isSome = true then
    .ok
      { base, size
        size_pos := toNat_pos hzero
        fits := by
          unfold checkedAdd at hfits
          split at hfits
          · rename_i hlt
            rw [toNat_pred hzero] at hlt
            omega
          · cases hfits }
  else .err .invalidRange

def unit (base : BitVec w) (h : w ≠ 0) : BusRange w where
  base := base
  size := 1
  size_pos := by rw [toNat_one h]; exact Nat.one_pos
  fits := by
    rw [toNat_one h]
    exact base.isLt

def last (self : BusRange w) : BitVec w := self.base + (self.size - 1)

def overlaps (self other : BusRange w) : Bool :=
  !(other.last < self.base || self.last < other.base)

def Contains (self : BusRange w) (addr : Nat) : Prop :=
  self.base.toNat ≤ addr ∧ addr < self.base.toNat + self.size.toNat

theorem toNat_last (self : BusRange w) : self.last.toNat = self.base.toNat + self.size.toNat - 1 := by
  have hpos := self.size_pos
  have hfits := self.fits
  have hzero : self.size ≠ 0 := by
    intro h
    rw [h] at hpos
    simp at hpos
  rw [last, BitVec.toNat_add, toNat_pred hzero, Nat.mod_eq_of_lt (by omega)]
  omega

theorem width_ne_zero (self : BusRange w) : w ≠ 0 := by
  rintro rfl
  exact absurd self.size_pos (by simp [BitVec.of_length_zero])

theorem contains_base (self : BusRange w) : self.Contains self.base.toNat :=
  ⟨Nat.le_refl _, Nat.lt_add_of_pos_right self.size_pos⟩

theorem overlaps_iff {self other : BusRange w} :
    self.overlaps other = true ↔ ∃ addr, self.Contains addr ∧ other.Contains addr := by
  have h₁ := self.size_pos
  have h₂ := other.size_pos
  unfold overlaps Contains
  rw [Bool.not_eq_true', Bool.or_eq_false_iff, decide_eq_false_iff_not, decide_eq_false_iff_not,
    BitVec.lt_def, BitVec.lt_def, toNat_last, toNat_last]
  constructor
  · intro h
    exact ⟨max self.base.toNat other.base.toNat, by omega, by omega⟩
  · omega

theorem new_eq_ok {base size : BitVec w} {r : BusRange w} : new base size = .ok r ↔ r.base = base ∧ r.size = size := by
  unfold new checkedAdd
  constructor
  · intro h
    split at h
    · cases h
    · split at h
      · cases h
        exact ⟨rfl, rfl⟩
      · cases h
  · rintro ⟨rfl, rfl⟩
    have hzero : r.size ≠ 0 := fun h => absurd r.size_pos (by rw [h]; simp)
    have hlt : r.base.toNat + (r.size - 1).toNat < 2 ^ w := by
      have hfits := r.fits
      rw [toNat_pred hzero]
      omega
    rw [dif_neg hzero, dif_pos (by rw [if_pos hlt]; rfl)]

theorem new_isOk (base : BitVec w) {size : BitVec w} (hpos : 0 < size.toNat)
    (hfits : base.toNat + size.toNat ≤ 2 ^ w) : new base size = .ok ⟨base, size, hpos, hfits⟩ :=
  new_eq_ok.2 ⟨rfl, rfl⟩

end BusRange

/-! ## The bus -/

section Bus

variable {D : Type}

/-- `Bus`.  The order of the map compares ranges by their base. -/
structure Bus (w : Nat) (D : Type) where
  devices : OrdMap (BusRange w) D fun range => range.base.toNat

namespace Bus

def new : Bus w D := ⟨.empty⟩

/-- `Bus::device`, and `Bus::device_mut`.  An address type has bits. -/
def device (self : Bus w D) (addr : BitVec w) : Option (BusRange w × D) :=
  if h : w ≠ 0 then (self.devices.lastUpTo (.unit addr h)).filter fun pair => addr ≤ pair.1.last else none

def register (range : BusRange w) (device : D) : Exec (Bus w D) Error Unit := fun self =>
  if self.devices.entries.any fun e => range.overlaps e.1 then (.err .deviceOverlap, self)
  else (.ok (), ⟨self.devices.insert range device⟩)

def deregister (self : Bus w D) (addr : BitVec w) : Option (BusRange w × D) × Bus w D :=
  match self.device addr with
  | none => (none, self)
  | some (range, _) =>
    let (device, devices) := self.devices.remove range
    (device.map fun device => (range, device), ⟨devices⟩)

def checkAccess (self : Bus w D) (addr : BitVec w) (len : Nat) :
    Outcome Error (BusRange w × D) := do
  let size ← .okOr (tryFrom w len) (.invalidAccessLength len)
  let access ← (BusRange.new addr size).mapErr fun _ => Error.invalidRange
  .okOr ((self.device addr).filter fun pair => access.last ≤ pair.1.last) .deviceNotFound

/-- An access that is handed to the device of its range, with the base of the range and the offset. -/
def dispatch {α : Type} (self : Bus w D) (addr : BitVec w) (len : Nat)
    (access : D → BitVec w → BitVec w → α) : Outcome Error α :=
  (fun (range, device) => access device range.base (addr - range.base)) <$> self.checkAccess addr len

end Bus

/-- `DevicePio`: what the device does with `data`, and what it returns in it. -/
class DevicePio (D : Type) where
  pioRead : D → BitVec 16 → BitVec 16 → List UInt8 → List UInt8
  pioWrite : D → BitVec 16 → BitVec 16 → List UInt8 → D

class DeviceMmio (D : Type) where
  mmioRead : D → BitVec 64 → BitVec 64 → List UInt8 → List UInt8
  mmioWrite : D → BitVec 64 → BitVec 64 → List UInt8 → D

def pioRead [DevicePio D] (bus : Bus 16 D) (addr : BitVec 16) (data : List UInt8) :
    Outcome Error (List UInt8) :=
  bus.dispatch addr data.length fun device base offset => DevicePio.pioRead device base offset data

def pioWrite [DevicePio D] (bus : Bus 16 D) (addr : BitVec 16) (data : List UInt8) : Outcome Error D :=
  bus.dispatch addr data.length fun device base offset => DevicePio.pioWrite device base offset data

def mmioRead [DeviceMmio D] (bus : Bus 64 D) (addr : BitVec 64) (data : List UInt8) :
    Outcome Error (List UInt8) :=
  bus.dispatch addr data.length fun device base offset => DeviceMmio.mmioRead device base offset data

def mmioWrite [DeviceMmio D] (bus : Bus 64 D) (addr : BitVec 64) (data : List UInt8) : Outcome Error D :=
  bus.dispatch addr data.length fun device base offset => DeviceMmio.mmioWrite device base offset data

namespace Bus

/-! ## Disjoint ranges -/

/-- Two registered ranges that share an address are the same. -/
def Inv (self : Bus w D) : Prop :=
  ∀ e ∈ self.devices, ∀ e' ∈ self.devices, ∀ x, e.1.Contains x → e'.1.Contains x → e = e'

variable {self : Bus w D}

theorem Inv.pairwise (h : self.Inv) :
    self.devices.entries.Pairwise fun a b => ∀ x, a.1.Contains x → ¬ b.1.Contains x := by
  refine self.devices.sorted.imp_of_mem fun {a b} ha hb hlt x hax hbx => ?_
  rw [h a ha b hb x hax hbx] at hlt
  exact Nat.lt_irrefl _ hlt

variable {range : BusRange w}

theorem any_overlaps : (self.devices.entries.any fun e => range.overlaps e.1) = true ↔
      ∃ e ∈ self.devices, ∃ x, range.Contains x ∧ e.1.Contains x := by
  rw [List.any_eq_true]
  simp only [BusRange.overlaps_iff]
  exact Iff.rfl

variable {device : D}

theorem register_of_overlap (h : ∃ e ∈ self.devices, ∃ x, range.Contains x ∧ e.1.Contains x) :
    register range device self = (.err .deviceOverlap, self) := if_pos (any_overlaps.2 h)

theorem register_of_free (h : ¬ ∃ e ∈ self.devices, ∃ x, range.Contains x ∧ e.1.Contains x) :
    register range device self = (.ok (), ⟨self.devices.insert range device⟩) :=
  if_neg (mt any_overlaps.1 h)

variable {e : BusRange w × D}

theorem mem_insert_of_free (h : ¬ ∃ e ∈ self.devices, ∃ x, range.Contains x ∧ e.1.Contains x) :
    e ∈ self.devices.insert range device ↔ e = (range, device) ∨ e ∈ self.devices := by
  refine OrdMap.mem_insert_of_fresh fun e he hbase => h ⟨e, he, range.base.toNat, ?_, ?_⟩
  · exact range.contains_base
  · rw [← hbase]
    exact e.1.contains_base

theorem Inv.register (h : self.Inv) (range : BusRange w) (device : D) : (Bus.register range device self).2.Inv := by
  by_cases hover : ∃ e ∈ self.devices, ∃ x, range.Contains x ∧ e.1.Contains x
  · rw [register_of_overlap hover]
    exact h
  · rw [register_of_free hover]
    intro e he e' he' x hx hx'
    rcases (mem_insert_of_free hover).1 he with rfl | hold <;>
      rcases (mem_insert_of_free hover).1 he' with rfl | hold'
    · rfl
    · exact absurd ⟨e', hold', x, hx, hx'⟩ hover
    · exact absurd ⟨e, hold, x, hx', hx⟩ hover
    · exact h e hold e' hold' x hx hx'

theorem mem_remove {e' : BusRange w × D} (he : e ∈ self.devices) :
    e' ∈ (self.devices.remove e.1).2 ↔ e' ∈ self.devices ∧ e' ≠ e := by
  rw [OrdMap.mem_remove]
  refine and_congr_right fun he' => not_congr ⟨fun hr => OrdMap.eq_of_rank he' he hr, ?_⟩
  rintro rfl
  rfl

/-! ## Lookup -/

variable {addr : BitVec w}

theorem Inv.device_eq_some (h : self.Inv) : self.device addr = some e ↔ e ∈ self.devices ∧ e.1.Contains addr.toNat := by
  have hcontains : ∀ r : BusRange w, r.Contains addr.toNat ↔ r.base.toNat ≤ addr.toNat ∧ addr ≤ r.last := by
    intro r
    have hpos := r.size_pos
    rw [BitVec.le_def, r.toNat_last]
    unfold BusRange.Contains
    omega
  unfold device
  rw [dif_pos e.1.width_ne_zero, Option.filter_eq_some_iff, OrdMap.lastUpTo_eq_some, decide_eq_true_eq, hcontains]
  constructor
  · rintro ⟨⟨he, hbase, _⟩, hlast⟩
    exact ⟨he, hbase, hlast⟩
  · rintro ⟨he, hbase, hlast⟩
    refine ⟨⟨he, hbase, fun e' he' hbase' => ?_⟩, hlast⟩
    -- a range between the base and the address would share its base with `e`
    by_contra hlt
    have hx : e.1.Contains e'.1.base.toNat := by
      obtain ⟨_, hin⟩ := (hcontains e.1).2 ⟨hbase, hlast⟩
      have hbase'' : e'.1.base.toNat ≤ addr.toNat := hbase'
      exact ⟨by omega, by omega⟩
    rw [h e he e' he' _ hx e'.1.contains_base] at hlt
    exact hlt (Nat.le_refl _)

theorem Inv.device_eq_none (h : self.Inv) :
    self.device addr = none ↔ ∀ e ∈ self.devices, ¬ e.1.Contains addr.toNat := by
  constructor
  · intro hnone e he hc
    rw [(h.device_eq_some).2 ⟨he, hc⟩] at hnone
    cases hnone
  · intro hno
    rw [Option.eq_none_iff_forall_not_mem]
    intro e he
    obtain ⟨hmem, hc⟩ := h.device_eq_some.1 he
    exact hno e hmem hc

/-! ## Deregistration -/

theorem deregister_of_none (h : self.device addr = none) : self.deregister addr = (none, self) := by
  unfold deregister
  rw [h]

theorem deregister_of_some (h : self.device addr = some e) (he : e ∈ self.devices) :
    self.deregister addr = (some e, ⟨(self.devices.remove e.1).2⟩) := by
  unfold deregister
  rw [h]
  show ((self.devices.remove e.1).1.map _, _) = _
  rw [OrdMap.remove_eq_some he]
  rfl

theorem Inv.deregister (h : self.Inv) (addr : BitVec w) : (self.deregister addr).2.Inv := by
  cases hd : self.device addr with
  | none =>
    rw [deregister_of_none hd]
    exact h
  | some e =>
    rw [deregister_of_some hd (h.device_eq_some.1 hd).1]
    intro a ha b hb
    exact h a (OrdMap.mem_remove.1 ha).1 b (OrdMap.mem_remove.1 hb).1

/-! ## Accesses -/

theorem Inv.checkAccess_eq_ok (h : self.Inv) {len : Nat} :
    self.checkAccess addr len = .ok e ↔ 1 ≤ len ∧ e ∈ self.devices ∧
      ∀ x, addr.toNat ≤ x → x < addr.toNat + len → e.1.Contains x := by
  unfold checkAccess
  constructor
  · intro hok
    obtain ⟨size, hsize, hok⟩ := bind_eq_ok.1 hok
    obtain ⟨access, haccess, hok⟩ := bind_eq_ok.1 hok
    obtain ⟨hdevice, hlast⟩ := Option.filter_eq_some_iff.1 (okOr_eq_ok.1 hok)
    obtain ⟨he, hbase, hin⟩ := h.device_eq_some.1 hdevice
    have hlen : size.toNat = len := tryFrom_eq_some.1 (okOr_eq_ok.1 hsize)
    obtain ⟨rfl, rfl⟩ := BusRange.new_eq_ok.1 (mapErr_eq_ok.1 haccess)
    have hpos := access.size_pos
    rw [decide_eq_true_eq, BitVec.le_def, access.toNat_last, e.1.toNat_last] at hlast
    exact ⟨by omega, he, fun x hle hlt => ⟨by omega, by omega⟩⟩
  · rintro ⟨hlen, he, hall⟩
    obtain ⟨hbase, hin⟩ := hall addr.toNat (Nat.le_refl _) (by omega)
    obtain ⟨_, hend⟩ := hall (addr.toNat + len - 1) (by omega) (by omega)
    have hfits := e.1.fits
    -- the access is a range of its own, inside that of the device
    obtain ⟨size, rfl⟩ : ∃ size : BitVec w, size.toNat = len :=
      ⟨BitVec.ofNat w len, (BitVec.toNat_ofNat _ _).trans (Nat.mod_eq_of_lt (by omega))⟩
    have hnew := BusRange.new_isOk addr hlen (by omega)
    rw [tryFrom_eq_some.2 rfl, okOr_some, ok_bind, hnew]
    refine okOr_eq_ok.2 (Option.filter_eq_some_iff.2 ⟨h.device_eq_some.2 ⟨he, hbase, hin⟩, ?_⟩)
    rw [decide_eq_true_eq, BitVec.le_def, BusRange.toNat_last, BusRange.toNat_last]
    dsimp only
    omega

theorem Inv.dispatch_eq_ok (h : self.Inv) {α : Type} {len : Nat} {access : D → BitVec w → BitVec w → α} {a : α}
    (hok : self.dispatch addr len access = .ok a) :
    ∃ e ∈ self.devices, ∃ offset : BitVec w, a = access e.2 e.1.base offset ∧
      e.1.base.toNat + offset.toNat = addr.toNat ∧ offset.toNat + len ≤ e.1.size.toNat := by
  obtain ⟨e, hcheck, rfl⟩ := map_eq_ok.1 hok
  obtain ⟨hlen, he, hall⟩ := h.checkAccess_eq_ok.1 hcheck
  obtain ⟨hbase, _⟩ := hall addr.toNat (Nat.le_refl _) (by omega)
  obtain ⟨_, hend⟩ := hall (addr.toNat + len - 1) (by omega) (by omega)
  refine ⟨e, he, addr - e.1.base, rfl, ?_, ?_⟩ <;>
    rw [BitVec.toNat_sub_of_le (BitVec.le_def.2 hbase)] <;> omega

/-! ## Runs -/

end Bus

inductive BusCall (w : Nat) (D : Type) where
  | register (range : BusRange w) (device : D)
  | deregister (addr : BitVec w)

def Bus.step (self : Bus w D) : BusCall w D → Bus w D
  | .register range device => (Bus.register range device self).2
  | .deregister addr => (self.deregister addr).2

theorem Bus.Inv.step {self : Bus w D} (h : self.Inv) (call : BusCall w D) : (self.step call).Inv := by
  cases call with
  | register range device => exact h.register range device
  | deregister addr => exact h.deregister addr

theorem Bus.inv_run (calls : List (BusCall w D)) : (run Bus.step Bus.new calls).Inv :=
  run_stays (I := Bus.Inv) (fun _ call h => h.step call) (fun _ he => absurd he OrdMap.not_mem_empty) calls

/-- **Every bus that calls lead to dispatches accesses to the one range that contains them.** -/
theorem bus_dispatch (calls : List (BusCall w D)) :
    let bus := run Bus.step Bus.new calls
    (bus.devices.entries.Pairwise fun a b => ∀ x, a.1.Contains x → ¬ b.1.Contains x) ∧
    (∀ range device, ((∃ e ∈ bus.devices, ∃ x, range.Contains x ∧ e.1.Contains x) →
        Bus.register range device bus = (.err .deviceOverlap, bus)) ∧
      ((¬ ∃ e ∈ bus.devices, ∃ x, range.Contains x ∧ e.1.Contains x) → (Bus.register range device bus).1 = .ok () ∧
          ∀ e, e ∈ (Bus.register range device bus).2.devices ↔ e = (range, device) ∨ e ∈ bus.devices)) ∧
    (∀ addr e, bus.device addr = some e ↔ e ∈ bus.devices ∧ e.1.Contains addr.toNat) ∧
    (∀ addr, bus.device addr = none ↔ ∀ e ∈ bus.devices, ¬ e.1.Contains addr.toNat) ∧
    (∀ addr, (bus.device addr = none → bus.deregister addr = (none, bus)) ∧
      ∀ e, bus.device addr = some e → (bus.deregister addr).1 = some e ∧
        ∀ e', e' ∈ (bus.deregister addr).2.devices ↔ e' ∈ bus.devices ∧ e' ≠ e) ∧
    (∀ addr len e, bus.checkAccess addr len = .ok e ↔ 1 ≤ len ∧ e ∈ bus.devices ∧
      ∀ x, addr.toNat ≤ x → x < addr.toNat + len → e.1.Contains x) ∧
    (∀ (α : Type) addr len (access : D → BitVec w → BitVec w → α) a, bus.dispatch addr len access = .ok a →
        ∃ e ∈ bus.devices, ∃ offset : BitVec w, a = access e.2 e.1.base offset ∧
          e.1.base.toNat + offset.toNat = addr.toNat ∧ offset.toNat + len ≤ e.1.size.toNat) := by
  intro bus
  have h : bus.Inv := Bus.inv_run calls
  refine ⟨h.pairwise, fun range device => ⟨Bus.register_of_overlap, fun hfree => ?_⟩,
    fun addr e => h.device_eq_some, fun addr => h.device_eq_none,
    fun addr => ⟨Bus.deregister_of_none, fun e hd => ?_⟩, fun addr len e => h.checkAccess_eq_ok,
    fun α addr len access a => h.dispatch_eq_ok⟩
  · rw [Bus.register_of_free hfree]
    exact ⟨rfl, fun e => Bus.mem_insert_of_free hfree⟩
  · have he := (h.device_eq_some.1 hd).1
    rw [Bus.deregister_of_some hd he]
    exact ⟨rfl, fun e' => Bus.mem_remove he⟩

/-- A PIO range that ends at the top of the address space. -/
def topRange : BusRange 16 := ⟨0xfff0, 16, by decide, by decide⟩

theorem bus_dispatch_top :
    let bus := run Bus.step Bus.new [.register topRange 7]
    bus.dispatch 0xfffe 2 (fun device base offset => (device, base, offset)) = .ok (7, 0xfff0, 0xe) ∧
    ∃ e ∈ bus.devices, ∃ offset : BitVec 16, (7, 0xfff0, 0xe) = (e.2, e.1.base, offset) ∧
      e.1.base.toNat + offset.toNat = 0xfffe ∧ offset.toNat + 2 ≤ e.1.size.toNat := by
  refine ⟨by decide, ?_⟩
  exact (bus_dispatch [.register topRange 7]).2.2.2.2.2.2 _ 0xfffe 2
    (fun device base offset => (device, base, offset)) _ (by decide)

end Bus

end RustVmm.VmDevice
