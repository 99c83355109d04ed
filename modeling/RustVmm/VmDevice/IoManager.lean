import Mathlib.Data.List.Basic
import RustVmm.VmDevice.Bus

/-!
# The I/O manager

Model of the registration functions of `device_manager.rs`: the ranges of a device are registered one by one on the
MMIO bus, then on the PIO bus.

* `registration_keeps_failed_iff` — when a registration that fails leaves the buses as they were.
* `deregister_inverts_register` — from every manager that calls lead to.
-/

set_option autoImplicit false

namespace RustVmm.VmDevice

open Lib BusRange List Exec Outcome Bus

/-! ## Resources -/

inductive MsiIrqType where
  | pciMsi
  | pciMsix
  | genericMsi
  deriving DecidableEq

inductive Resource where
  | pioAddressRange (base size : BitVec 16)
  | mmioAddressRange (base size : BitVec 64)
  | legacyIrq (irq : BitVec 32)
  | msiIrq (ty : MsiIrqType) (base size : BitVec 32)
  | macAddresss (mac : String)
  | kvmMemSlot (slot : BitVec 32)
  deriving DecidableEq

namespace Resource

def isAddressRange : Resource → Bool
  | pioAddressRange _ _ => true
  | mmioAddressRange _ _ => true
  | _ => false

/-- Base and size of a PIO range. -/
def pio? : Resource → Option (BitVec 16 × BitVec 16)
  | pioAddressRange base size => some (base, size)
  | _ => none

/-- Base and size of an MMIO range. -/
def mmio? : Resource → Option (BitVec 64 × BitVec 64)
  | mmioAddressRange base size => some (base, size)
  | _ => none

/-- An address range is accepted by `BusRange::new`. -/
def Valid : Resource → Prop
  | pioAddressRange base size => (BusRange.new base size).isOk = true
  | mmioAddressRange base size => (BusRange.new base size).isOk = true
  | _ => True

instance : DecidablePred Valid
  | pioAddressRange base size => inferInstanceAs (Decidable ((BusRange.new base size).isOk = true))
  | mmioAddressRange base size => inferInstanceAs (Decidable ((BusRange.new base size).isOk = true))
  | legacyIrq _ => .isTrue trivial
  | msiIrq _ _ _ => .isTrue trivial
  | macAddresss _ => .isTrue trivial
  | kvmMemSlot _ => .isTrue trivial

end Resource

def pioPairs (resources : List Resource) : List (BitVec 16 × BitVec 16) := resources.filterMap Resource.pio?

def mmioPairs (resources : List Resource) : List (BitVec 64 × BitVec 64) := resources.filterMap Resource.mmio?

section Ranges

variable {w : Nat}

/-- The valid ranges among them. -/
def toRanges (pairs : List (BitVec w × BitVec w)) : List (BusRange w) :=
  pairs.filterMap fun pair => (BusRange.new pair.1 pair.2).toOption

@[simp] theorem toRanges_nil : toRanges ([] : List (BitVec w × BitVec w)) = [] := rfl

theorem toRanges_cons {pair : BitVec w × BitVec w} {range : BusRange w}
    (h : new pair.1 pair.2 = .ok range) (pairs : List (BitVec w × BitVec w)) :
    toRanges (pair :: pairs) = range :: toRanges pairs := by
  unfold toRanges
  rw [filterMap_cons, h]
  rfl

end Ranges

def pioRanges (resources : List Resource) : List (BusRange 16) := toRanges (pioPairs resources)

def mmioRanges (resources : List Resource) : List (BusRange 64) := toRanges (mmioPairs resources)

/-! ## The manager -/

/-- `IoManager`, for handles `P` of PIO devices and `M` of MMIO devices. -/
@[ext] structure IoManager (P M : Type) where
  pioBus : Bus 16 P
  mmioBus : Bus 64 M

inductive IoManager.Error where
  | bus (e : VmDevice.Error)
  deriving DecidableEq, Repr

variable {P M : Type}

namespace IoManager

def new : IoManager P M := ⟨Bus.new, Bus.new⟩

def withPioBus {ε α : Type} (call : Exec (Bus 16 P) ε α) : Exec (IoManager P M) ε α :=
  call.zoom pioBus fun self bus => { self with pioBus := bus }

def withMmioBus {ε α : Type} (call : Exec (Bus 64 M) ε α) : Exec (IoManager P M) ε α :=
  call.zoom mmioBus fun self bus => { self with mmioBus := bus }

def registerPio (range : BusRange 16) (device : P) : Exec (IoManager P M) VmDevice.Error Unit :=
  withPioBus (Bus.register range device)

def registerMmio (range : BusRange 64) (device : M) : Exec (IoManager P M) VmDevice.Error Unit :=
  withMmioBus (Bus.register range device)

def deregisterPio (self : IoManager P M) (addr : BitVec 16) : Option (BusRange 16 × P) × IoManager P M :=
  ((self.pioBus.deregister addr).1, { self with pioBus := (self.pioBus.deregister addr).2 })

def deregisterMmio (self : IoManager P M) (addr : BitVec 64) : Option (BusRange 64 × M) × IoManager P M :=
  ((self.mmioBus.deregister addr).1, { self with mmioBus := (self.mmioBus.deregister addr).2 })

def registerMmioResources (device : M) (resources : List Resource) : Exec (IoManager P M) Error Unit :=
  resources.forM fun
    | .mmioAddressRange base size => do
      let range ← .lift (BusRange.new base size).unwrapResult
      (registerMmio range device).mapErr .bus
    | _ => pure ()

def registerPioResources (device : P) (resources : List Resource) : Exec (IoManager P M) Error Unit :=
  resources.forM fun
    | .pioAddressRange base size => do
      let range ← .lift (BusRange.new base size).unwrapResult
      (registerPio range device).mapErr .bus
    | _ => pure ()

def registerResources (device : P × M) (resources : List Resource) : Exec (IoManager P M) Error Unit := do
  registerMmioResources device.2 resources
  registerPioResources device.1 resources

/-- The body of the loop of `deregister_resources`, with the count so far. -/
def deregisterOne : Nat × IoManager P M → Resource → Nat × IoManager P M
  | (count, self), .pioAddressRange base _ =>
    let (removed, self) := self.deregisterPio base
    (if removed.isSome then count + 1 else count, self)
  | (count, self), .mmioAddressRange base _ =>
    let (removed, self) := self.deregisterMmio base
    (if removed.isSome then count + 1 else count, self)
  | (count, self), _ => (count, self)

def deregisterResources (self : IoManager P M) (resources : List Resource) : Nat × IoManager P M :=
  resources.foldl deregisterOne (0, self)

end IoManager

/-! ## Loops over the ranges of one bus -/

namespace Bus

variable {w : Nat} {D : Type} {self : Bus w D}

/-- One range of a list that is registered for `device`. -/
def registerPair (device : D) (pair : BitVec w × BitVec w) : Exec (Bus w D) IoManager.Error Unit := do
  let range ← .lift (BusRange.new pair.1 pair.2).unwrapResult
  (register range device).mapErr .bus

/-- The ranges of a list are registered for `device`, up to the first that fails. -/
def registerPairs (device : D) (pairs : List (BitVec w × BitVec w)) : Exec (Bus w D) IoManager.Error Unit :=
  pairs.forM (registerPair device)

/-- The devices at the addresses of a list are deregistered; how many there were. -/
def deregisterAll (self : Bus w D) : List (BitVec w) → Nat × Bus w D
  | [] => (0, self)
  | addr :: addrs =>
    let rest := (self.deregister addr).2.deregisterAll addrs
    (rest.1 + (self.deregister addr).1.isSome.toNat, rest.2)

/-- No registered range has an address of `range`. -/
def Free (self : Bus w D) (range : BusRange w) : Prop := ¬ ∃ e ∈ self.devices, ∃ x, range.Contains x ∧ e.1.Contains x

/-- All the ranges can be registered: they are free, and have no address in common. -/
def AllFree (self : Bus w D) (ranges : List (BusRange w)) : Prop := (∀ range ∈ ranges, self.Free range) ∧
    ranges.Pairwise fun a b => ∀ x, a.Contains x → ¬ b.Contains x

/-- The first range of the list collides with a registered one. -/
def Blocked (self : Bus w D) (ranges : List (BusRange w)) : Prop :=
  ∃ range rest, ranges = range :: rest ∧ ¬ self.Free range

variable {pair : BitVec w × BitVec w} {range : BusRange w}

theorem registerPair_eq (h : BusRange.new pair.1 pair.2 = .ok range) (device : D) :
    registerPair device pair = (register range device).mapErr .bus := by
  unfold registerPair
  rw [h]
  rfl

theorem registerPair_of_free (h : BusRange.new pair.1 pair.2 = .ok range) (device : D) (hfree : self.Free range) :
    registerPair device pair self = (.ok (), ⟨self.devices.insert range device⟩) := by
  rw [registerPair_eq h]
  unfold Exec.mapErr
  rw [register_of_free hfree]
  rfl

theorem registerPair_of_not_free (h : BusRange.new pair.1 pair.2 = .ok range) (device : D) (hfree : ¬ self.Free range) :
    registerPair device pair self = (.err (.bus .deviceOverlap), self) := by
  rw [registerPair_eq h]
  unfold Exec.mapErr
  rw [register_of_overlap (not_not.1 hfree)]
  rfl

theorem registerPair_cases (device : D) (pair : BitVec w × BitVec w) (self : Bus w D) :
    (∃ range, BusRange.new pair.1 pair.2 = .ok range ∧ self.Free range ∧
      registerPair device pair self = (.ok (), ⟨self.devices.insert range device⟩)) ∨
    ∃ o, o ≠ .ok () ∧ registerPair device pair self = (o, self) := by
  cases hnew : BusRange.new pair.1 pair.2 with
  | ok range =>
    by_cases hfree : self.Free range
    · exact .inl ⟨range, rfl, hfree, registerPair_of_free hnew device hfree⟩
    · exact .inr ⟨_, err_ne_ok, registerPair_of_not_free hnew device hfree⟩
  | _ =>
    -- the `unwrap` of the range
    refine .inr ⟨.panic, panic_ne_ok, ?_⟩
    unfold registerPair
    rw [hnew]
    rfl

theorem registerPairs_cons (device : D) (pair : BitVec w × BitVec w) (pairs : List (BitVec w × BitVec w)) :
    registerPairs device (pair :: pairs) = registerPair device pair >>= fun _ => registerPairs device pairs := rfl

variable {e : BusRange w × D}

theorem mem_registerPairs (device : D) (pairs : List (BitVec w × BitVec w)) (he : e ∈ self.devices) :
    e ∈ (registerPairs device pairs self).2.devices := by
  refine forM_keeps (P := fun bus : Bus w D => e ∈ bus.devices) (fun pair bus he => ?_) pairs he
  rcases registerPair_cases device pair bus with ⟨range, _, hfree, heq⟩ | ⟨o, _, heq⟩
  · rw [heq]
    exact (mem_insert_of_free hfree).2 (.inr he)
  · rw [heq]
    exact he

theorem Inv.registerPairs (h : self.Inv) (device : D) (pairs : List (BitVec w × BitVec w)) :
    (registerPairs device pairs self).2.Inv := by
  refine forM_keeps (fun pair bus h => ?_) pairs h
  rcases registerPair_cases device pair bus with ⟨range, _, hfree, heq⟩ | ⟨o, _, heq⟩
  · have hreg := h.register range device
    rw [register_of_free hfree] at hreg
    rw [heq]
    exact hreg
  · rw [heq]
    exact h

variable {device : D}

theorem free_insert {other : BusRange w} (hfree : self.Free range) : Free ⟨self.devices.insert range device⟩ other ↔
      self.Free other ∧ ∀ x, range.Contains x → ¬ other.Contains x := by
  constructor
  · intro h
    refine ⟨fun ⟨e, he, hx⟩ => h ⟨e, (mem_insert_of_free hfree).2 (.inr he), hx⟩, fun x hr ho => ?_⟩
    exact h ⟨(range, device), (mem_insert_of_free hfree).2 (.inl rfl), x, ho, hr⟩
  · rintro ⟨hold, hnew⟩ ⟨e, he, x, ho, hex⟩
    rcases (mem_insert_of_free hfree).1 he with rfl | he
    · exact hnew x hex ho
    · exact hold ⟨e, he, x, ho, hex⟩

theorem allFree_nil : self.AllFree [] := ⟨nofun, .nil⟩

variable {ranges : List (BusRange w)}

theorem allFree_cons (hfree : self.Free range) :
    self.AllFree (range :: ranges) ↔ AllFree ⟨self.devices.insert range device⟩ ranges := by
  unfold AllFree
  simp only [free_insert hfree, forall_mem_cons, pairwise_cons]
  constructor
  · rintro ⟨⟨_, hall⟩, hfirst, hrest⟩
    exact ⟨fun other ho => ⟨hall other ho, hfirst other ho⟩, hrest⟩
  · rintro ⟨hall, hrest⟩
    exact ⟨⟨hfree, fun other ho => (hall other ho).1⟩, fun other ho => (hall other ho).2, hrest⟩

theorem registerPairs_eq_ok {pairs : List (BitVec w × BitVec w)} {bus : Bus w D}
    (h : registerPairs device pairs self = (.ok (), bus)) :
    (toRanges pairs).map (fun range => (range.base, range.size)) = pairs ∧ self.AllFree (toRanges pairs) ∧
      ∀ e, e ∈ bus.devices ↔ (∃ range ∈ toRanges pairs, e = (range, device)) ∨ e ∈ self.devices := by
  induction pairs generalizing self with
  | nil =>
    cases h
    exact ⟨rfl, allFree_nil, fun e => by simp⟩
  | cons pair pairs ih =>
    obtain ⟨_, bus₁, hfirst, hrest⟩ := bind_eq_ok h
    rcases registerPair_cases device pair self with ⟨range, hnew, hfree, heq⟩ | ⟨o, hne, heq⟩
    · rw [heq] at hfirst
      cases hfirst
      obtain ⟨hmap, hall, hmem⟩ := ih hrest
      obtain ⟨hbase, hsize⟩ := new_eq_ok.1 hnew
      rw [toRanges_cons hnew, map_cons, hmap, hbase, hsize]
      refine ⟨rfl, (allFree_cons hfree).2 hall, fun e => ?_⟩
      rw [hmem, mem_insert_of_free hfree, exists_mem_cons_iff, or_left_comm, or_assoc]
    · rw [heq] at hfirst
      cases hfirst
      exact absurd rfl hne

def ValidPairs (pairs : List (BitVec w × BitVec w)) : Prop := ∀ pair ∈ pairs, (BusRange.new pair.1 pair.2).isOk = true

variable {pairs : List (BitVec w × BitVec w)}

theorem ValidPairs.cons (h : ValidPairs (pair :: pairs)) :
    (∃ range, BusRange.new pair.1 pair.2 = .ok range) ∧ ValidPairs pairs :=
  ⟨isOk_iff.1 (h pair mem_cons_self), fun p hp => h p (mem_cons_of_mem pair hp)⟩

theorem registerPairs_of_allFree (hvalid : ValidPairs pairs) (device : D) (h : self.AllFree (toRanges pairs)) :
    (registerPairs device pairs self).1 = .ok () := by
  induction pairs generalizing self with
  | nil => rfl
  | cons pair pairs ih =>
    obtain ⟨⟨range, hnew⟩, hvalid⟩ := hvalid.cons
    rw [toRanges_cons hnew] at h
    have hfree : self.Free range := h.1 range mem_cons_self
    rw [registerPairs_cons, bind_of_ok (registerPair_of_free hnew device hfree)]
    exact ih hvalid ((allFree_cons hfree).1 h)

theorem registerPairs_of_not_allFree (hvalid : ValidPairs pairs) (device : D) (h : ¬ self.AllFree (toRanges pairs)) :
    (registerPairs device pairs self).1 = .err (.bus .deviceOverlap) := by
  induction pairs generalizing self with
  | nil => exact absurd allFree_nil h
  | cons pair pairs ih =>
    obtain ⟨⟨range, hnew⟩, hvalid⟩ := hvalid.cons
    rw [toRanges_cons hnew] at h
    by_cases hfree : self.Free range
    · rw [registerPairs_cons, bind_of_ok (registerPair_of_free hnew device hfree)]
      exact ih hvalid (mt (allFree_cons hfree).2 h)
    · rw [registerPairs_cons, bind_of_err (registerPair_of_not_free hnew device hfree)]

theorem registerPairs_unchanged_iff (hvalid : ValidPairs pairs) (device : D) :
    (registerPairs device pairs self).2 = self ↔ toRanges pairs = [] ∨ self.Blocked (toRanges pairs) := by
  cases pairs with
  | nil => exact iff_of_true rfl (.inl rfl)
  | cons pair pairs =>
    obtain ⟨⟨range, hnew⟩, _⟩ := hvalid.cons
    rw [toRanges_cons hnew]
    by_cases hfree : self.Free range
    · refine iff_of_false (fun hsame => ?_) ?_
      · -- the first range is on the bus at the end
        have hmem : (range, device) ∈ (registerPairs device (pair :: pairs) self).2.devices := by
          rw [registerPairs_cons, bind_of_ok (registerPair_of_free hnew device hfree)]
          exact mem_registerPairs device pairs ((mem_insert_of_free hfree).2 (.inl rfl))
        rw [hsame] at hmem
        exact hfree ⟨_, hmem, _, range.contains_base, range.contains_base⟩
      · rintro (hnil | ⟨_, _, heq, hblocked⟩)
        · cases hnil
        · cases heq
          exact hblocked hfree
    · rw [registerPairs_cons, bind_of_err (registerPair_of_not_free hnew device hfree)]
      exact iff_of_true rfl (.inr ⟨range, _, rfl, hfree⟩)

theorem AllFree.not_blocked (h : self.AllFree ranges) : ¬ self.Blocked ranges := by
  rintro ⟨range, rest, rfl, hblocked⟩
  exact hblocked (h.1 range mem_cons_self)

theorem unchanged_iff_of_allFree (hvalid : ValidPairs pairs) (device : D) (h : self.AllFree (toRanges pairs)) :
    (registerPairs device pairs self).2 = self ↔ toRanges pairs = [] := by
  rw [registerPairs_unchanged_iff hvalid, or_iff_left h.not_blocked]

theorem unchanged_iff_of_not_allFree (hvalid : ValidPairs pairs) (device : D) (h : ¬ self.AllFree (toRanges pairs)) :
    (registerPairs device pairs self).2 = self ↔ self.Blocked (toRanges pairs) := by
  rw [registerPairs_unchanged_iff hvalid]
  refine or_iff_right fun hnil => h ?_
  rw [hnil]
  exact allFree_nil

theorem eq_of_mem {bus bus' : Bus w D} (h : ∀ e, e ∈ bus.devices ↔ e ∈ bus'.devices) : bus = bus' := by
  exact congrArg mk (OrdMap.ext_mem h)

theorem added_then_removed (hfree : ∀ range ∈ ranges, self.Free range) :
    ((∃ range ∈ ranges, e = (range, device)) ∨ e ∈ self.devices) ∧ (¬ ∃ range ∈ ranges, e = (range, device)) ↔
      e ∈ self.devices := by
  constructor
  · rintro ⟨hnew | hold, hnot⟩
    · exact absurd hnew hnot
    · exact hold
  · refine fun hold => ⟨.inr hold, ?_⟩
    rintro ⟨range, hr, rfl⟩
    exact hfree range hr ⟨_, hold, _, range.contains_base, range.contains_base⟩

/-! ## Deregistration of a list -/

theorem Inv.deregisterAll (h : self.Inv) (addrs : List (BitVec w)) : (self.deregisterAll addrs).2.Inv := by
  induction addrs generalizing self with
  | nil => exact h
  | cons addr addrs ih => exact ih (h.deregister addr)

theorem mem_deregister (h : self.Inv) {addr : BitVec w} (he : e ∈ self.devices) (hout : ¬ e.1.Contains addr.toNat) :
    e ∈ (self.deregister addr).2.devices := by
  cases hd : self.device addr with
  | none =>
    rw [deregister_of_none hd]
    exact he
  | some found =>
    obtain ⟨hfound, hin⟩ := h.device_eq_some.1 hd
    rw [deregister_of_some hd hfound]
    refine (mem_remove hfound).2 ⟨he, ?_⟩
    rintro rfl
    exact hout hin

theorem mem_deregisterAll (h : self.Inv) {addrs : List (BitVec w)} (he : e ∈ self.devices)
    (hout : ∀ addr ∈ addrs, ¬ e.1.Contains addr.toNat) : e ∈ (self.deregisterAll addrs).2.devices := by
  induction addrs generalizing self with
  | nil => exact he
  | cons addr addrs ih =>
    obtain ⟨hfirst, hrest⟩ := forall_mem_cons.1 hout
    exact ih (h.deregister addr) (mem_deregister h he hfirst) hrest

theorem deregisterAll_bases (h : self.Inv) (hmem : ∀ range ∈ ranges, (range, device) ∈ self.devices)
    (hdisjoint : ranges.Pairwise fun a b => ∀ x, a.Contains x → ¬ b.Contains x) :
    (self.deregisterAll (ranges.map base)).1 = ranges.length ∧
      ∀ e, e ∈ (self.deregisterAll (ranges.map base)).2.devices ↔
        e ∈ self.devices ∧ ¬ ∃ range ∈ ranges, e = (range, device) := by
  induction ranges generalizing self with
  | nil => exact ⟨rfl, fun e => by simp [deregisterAll]⟩
  | cons range ranges ih =>
    obtain ⟨hfirst, hrest⟩ := pairwise_cons.1 hdisjoint
    obtain ⟨hrange, hothers⟩ := forall_mem_cons.1 hmem
    have hd : self.device range.base = some (range, device) := h.device_eq_some.2 ⟨hrange, range.contains_base⟩
    have hdereg := deregister_of_some hd hrange
    have hleft : ∀ other ∈ ranges, (other, device) ∈ (self.deregister range.base).2.devices :=
      fun other ho => mem_deregister h (hothers other ho) (hfirst other ho _ range.contains_base)
    obtain ⟨hcount, hafter⟩ := ih (h.deregister range.base) hleft hrest
    rw [map_cons]
    unfold deregisterAll
    dsimp only
    refine ⟨?_, fun e => ?_⟩
    · rw [hcount, hdereg]
      rfl
    · rw [hafter, hdereg, mem_remove hrange, exists_mem_cons_iff, not_or, and_assoc]

end Bus

/-! ## The calls, bus by bus -/

namespace IoManager

section Lift

variable {ε α β : Type}

theorem withPioBus_bind (x : Exec (Bus 16 P) ε α) (f : α → Exec (Bus 16 P) ε β) :
    (withPioBus (x >>= f) : Exec (IoManager P M) ε β) = withPioBus x >>= fun a => withPioBus (f a) := by
  refine zoom_bind ?_ ?_ x f <;> intros <;> rfl

theorem withMmioBus_bind (x : Exec (Bus 64 M) ε α) (f : α → Exec (Bus 64 M) ε β) :
    (withMmioBus (x >>= f) : Exec (IoManager P M) ε β) = withMmioBus x >>= fun a => withMmioBus (f a) := by
  refine zoom_bind ?_ ?_ x f <;> intros <;> rfl

end Lift

theorem registerMmioResources_eq (device : M) (resources : List Resource) :
    (registerMmioResources device resources : Exec (IoManager P M) Error Unit) =
      withMmioBus (registerPairs device (mmioPairs resources)) := by
  induction resources with
  | nil => rfl
  | cons resource resources ih =>
    cases resource with
    | mmioAddressRange base size =>
      show _ = withMmioBus (registerPair device (base, size) >>= fun _ =>
        registerPairs device (mmioPairs resources))
      rw [withMmioBus_bind, ← ih]
      unfold registerPair
      rw [withMmioBus_bind]
      rfl
    | _ => exact ih

theorem registerPioResources_eq (device : P) (resources : List Resource) :
    (registerPioResources device resources : Exec (IoManager P M) Error Unit) =
      withPioBus (registerPairs device (pioPairs resources)) := by
  induction resources with
  | nil => rfl
  | cons resource resources ih =>
    cases resource with
    | pioAddressRange base size =>
      show _ = withPioBus (registerPair device (base, size) >>= fun _ =>
        registerPairs device (pioPairs resources))
      rw [withPioBus_bind, ← ih]
      unfold registerPair
      rw [withPioBus_bind]
      rfl
    | _ => exact ih

theorem count_one (count : Nat) (removed : Bool) :
    (if removed = true then count + 1 else count) = count + removed.toNat := by
  cases removed <;> rfl

theorem foldl_deregisterOne (resources : List Resource) (count : Nat) (self : IoManager P M) :
    resources.foldl deregisterOne (count, self) =
      (count + (self.pioBus.deregisterAll ((pioPairs resources).map Prod.fst)).1 +
          (self.mmioBus.deregisterAll ((mmioPairs resources).map Prod.fst)).1,
        ⟨(self.pioBus.deregisterAll ((pioPairs resources).map Prod.fst)).2,
          (self.mmioBus.deregisterAll ((mmioPairs resources).map Prod.fst)).2⟩) := by
  induction resources generalizing count self with
  | nil => rfl
  | cons resource resources ih =>
    cases resource with
    | pioAddressRange base size =>
      refine (ih _ _).trans (Prod.ext ?_ rfl)
      have hsum : ∀ t p m : Nat, count + t + p + m = count + (p + t) + m := by omega
      rw [count_one]
      exact hsum _ _ _
    | mmioAddressRange base size =>
      refine (ih _ _).trans (Prod.ext ?_ rfl)
      have hsum : ∀ t p m : Nat, count + t + p + m = count + p + (m + t) := by omega
      rw [count_one]
      exact hsum _ _ _
    | _ => exact ih count self

theorem deregisterResources_eq (self : IoManager P M) (resources : List Resource) : self.deregisterResources resources =
      ((self.pioBus.deregisterAll ((pioPairs resources).map Prod.fst)).1 +
          (self.mmioBus.deregisterAll ((mmioPairs resources).map Prod.fst)).1,
        ⟨(self.pioBus.deregisterAll ((pioPairs resources).map Prod.fst)).2,
          (self.mmioBus.deregisterAll ((mmioPairs resources).map Prod.fst)).2⟩) := by
  unfold deregisterResources
  rw [foldl_deregisterOne, Nat.zero_add]

variable {resources : List Resource} {self : IoManager P M}

theorem registerResources_of_ok {device : P × M}
    (h : (registerPairs device.2 (mmioPairs resources) self.mmioBus).1 = .ok ()) :
    registerResources device resources self = ((registerPairs device.1 (pioPairs resources) self.pioBus).1,
        ⟨(registerPairs device.1 (pioPairs resources) self.pioBus).2,
          (registerPairs device.2 (mmioPairs resources) self.mmioBus).2⟩) := by
  unfold registerResources
  rw [registerMmioResources_eq, registerPioResources_eq]
  have hmmio : withMmioBus (registerPairs device.2 (mmioPairs resources)) self = (.ok (), _) := Prod.ext h rfl
  rw [bind_of_ok hmmio]
  rfl

theorem registerResources_of_err {device : P × M} {e : Error}
    (h : (registerPairs device.2 (mmioPairs resources) self.mmioBus).1 = .err e) :
    registerResources device resources self =
      (.err e, ⟨self.pioBus, (registerPairs device.2 (mmioPairs resources) self.mmioBus).2⟩) := by
  unfold registerResources
  rw [registerMmioResources_eq]
  have hmmio : withMmioBus (registerPairs device.2 (mmioPairs resources)) self = (.err e, _) := Prod.ext h rfl
  exact bind_of_err hmmio _

/-! ## Failing registrations -/

end IoManager

/-- If the call fails, then it leaves the state as it was. -/
def Atomic {σ ε α : Type} (call : Exec σ ε α) (s : σ) : Prop := ∀ e, (call s).1 = .err e → (call s).2 = s

theorem atomic_of_ok {σ ε α : Type} {call : Exec σ ε α} {s : σ} {a : α} (h : (call s).1 = .ok a) : Atomic call s := by
  intro e herr
  rw [h] at herr
  cases herr

theorem atomic_iff_of_err {σ ε α : Type} {call : Exec σ ε α} {s : σ} {e : ε} (h : (call s).1 = .err e) :
    Atomic call s ↔ (call s).2 = s :=
  ⟨fun hat => hat e h, fun hsame _ _ => hsame⟩

theorem atomic_zoom {σ τ ε α : Type} {getPart : τ → σ} {setPart : τ → σ → τ} {call : Exec σ ε α} {t : τ}
    (hget : ∀ t s, getPart (setPart t s) = s) (hself : ∀ t, setPart t (getPart t) = t) :
    Atomic (call.zoom getPart setPart) t ↔ Atomic call (getPart t) := by
  refine forall_congr' fun e => imp_congr_right fun _ => ⟨fun h => ?_, fun h => ?_⟩
  · have hpart := congrArg getPart h
    rwa [zoom, hget] at hpart
  · rw [zoom, h]
    exact hself t

theorem Bus.registerPairs_atomic_iff {w : Nat} {D : Type} {self : Bus w D} {pairs : List (BitVec w × BitVec w)}
    (hvalid : ValidPairs pairs) (device : D) :
    Atomic (registerPairs device pairs) self ↔ self.AllFree (toRanges pairs) ∨ self.Blocked (toRanges pairs) := by
  by_cases hall : self.AllFree (toRanges pairs)
  · exact iff_of_true (atomic_of_ok (registerPairs_of_allFree hvalid device hall)) (.inl hall)
  · rw [atomic_iff_of_err (registerPairs_of_not_allFree hvalid device hall),
      unchanged_iff_of_not_allFree hvalid device hall, or_iff_right hall]

namespace IoManager

variable {self : IoManager P M} {resources : List Resource}

theorem validPairs (h : ∀ resource ∈ resources, resource.Valid) :
    ValidPairs (pioPairs resources) ∧ ValidPairs (mmioPairs resources) := by
  constructor <;>
  · intro pair hpair
    obtain ⟨resource, hmem, heq⟩ := mem_filterMap.1 hpair
    cases resource with
    | pioAddressRange base size | mmioAddressRange base size =>
      cases heq
      all_goals exact h _ hmem
    | _ => cases heq

theorem atomic_withPioBus {ε α : Type} {call : Exec (Bus 16 P) ε α} :
    Atomic (withPioBus call) self ↔ Atomic call self.pioBus := by
  exact atomic_zoom (fun _ _ => rfl) fun _ => rfl

theorem atomic_withMmioBus {ε α : Type} {call : Exec (Bus 64 M) ε α} :
    Atomic (withMmioBus call) self ↔ Atomic call self.mmioBus := by
  exact atomic_zoom (fun _ _ => rfl) fun _ => rfl

theorem registerResources_atomic_iff (device : P × M) (hvalid : ∀ resource ∈ resources, resource.Valid) :
    Atomic (registerResources device resources) self ↔
      (self.mmioBus.AllFree (mmioRanges resources) ∧ self.pioBus.AllFree (pioRanges resources)) ∨
      self.mmioBus.Blocked (mmioRanges resources) ∨
      (mmioRanges resources = [] ∧ self.pioBus.Blocked (pioRanges resources)) := by
  obtain ⟨hpio, hmmio⟩ := validPairs hvalid
  by_cases hm : self.mmioBus.AllFree (mmioRanges resources)
  · have heq := registerResources_of_ok (registerPairs_of_allFree hmmio device.2 hm)
    rw [and_iff_right hm, or_iff_right hm.not_blocked]
    by_cases hp : self.pioBus.AllFree (pioRanges resources)
    · have hok := registerPairs_of_allFree hpio device.1 hp
      exact iff_of_true (atomic_of_ok ((congrArg Prod.fst heq).trans hok)) (.inl hp)
    · -- the PIO bus has to be unchanged, and there must have been nothing to register on the MMIO bus
      have herr := registerPairs_of_not_allFree hpio device.1 hp
      rw [or_iff_right hp, atomic_iff_of_err ((congrArg Prod.fst heq).trans herr), heq, IoManager.ext_iff, and_comm]
      exact and_congr (unchanged_iff_of_allFree hmmio device.2 hm)
        (unchanged_iff_of_not_allFree hpio device.1 hp)
  · have herr := registerPairs_of_not_allFree hmmio device.2 hm
    have heq := registerResources_of_err herr
    rw [atomic_iff_of_err (congrArg Prod.fst heq), heq, IoManager.ext_iff, and_iff_right rfl]
    refine (unchanged_iff_of_not_allFree hmmio device.2 hm).trans ?_
    constructor
    · exact fun hblocked => .inr (.inl hblocked)
    · rintro (⟨hall, _⟩ | hblocked | ⟨hnil, _⟩)
      · exact absurd hall hm
      · exact hblocked
      · rw [hnil] at hm
        exact absurd allFree_nil hm

/-- **A failing registration leaves the buses as they were exactly if the first range it tries collides**, or if
it does not fail at all: there is no way back from a range that has been registered. -/
theorem registration_keeps_failed_iff (self : IoManager P M) (device : P × M) (resources : List Resource)
    (hvalid : ∀ resource ∈ resources, resource.Valid) :
    (Atomic (registerMmioResources device.2 resources) self ↔
      self.mmioBus.AllFree (mmioRanges resources) ∨ self.mmioBus.Blocked (mmioRanges resources)) ∧
    (Atomic (registerPioResources device.1 resources) self ↔
      self.pioBus.AllFree (pioRanges resources) ∨ self.pioBus.Blocked (pioRanges resources)) ∧
    (Atomic (registerResources device resources) self ↔
      (self.mmioBus.AllFree (mmioRanges resources) ∧ self.pioBus.AllFree (pioRanges resources)) ∨
      self.mmioBus.Blocked (mmioRanges resources) ∨
      (mmioRanges resources = [] ∧ self.pioBus.Blocked (pioRanges resources))) := by
  refine ⟨?_, ?_, registerResources_atomic_iff device hvalid⟩
  · rw [registerMmioResources_eq, atomic_withMmioBus]
    exact registerPairs_atomic_iff (validPairs hvalid).2 device.2
  · rw [registerPioResources_eq, atomic_withPioBus]
    exact registerPairs_atomic_iff (validPairs hvalid).1 device.1

/-- Two MMIO ranges with addresses in common, and a PIO range that collides with `topRange`. -/
def collidingResources : List Resource :=
  [.mmioAddressRange 0x1000 0x100, .legacyIrq 5, .mmioAddressRange 0x1080 0x100, .pioAddressRange 0xfff8 8]

theorem registration_leaves_stale_range : (∀ resource ∈ collidingResources, resource.Valid) ∧
    (registerResources (7, 7) collidingResources (new : IoManager Nat Nat)).1 = .err (.bus .deviceOverlap) ∧
    ((registerResources (7, 7) collidingResources (new : IoManager Nat Nat)).2.mmioBus.device 0x1000).isSome = true ∧
    ¬ Atomic (registerResources (7, 7) collidingResources) (new : IoManager Nat Nat) := by
  have hstale : ((registerResources (7, 7) collidingResources (new : IoManager Nat Nat)).2.mmioBus.device 0x1000).isSome
      = true := by decide
  refine ⟨by decide, by decide, hstale, fun hatomic => ?_⟩
  rw [hatomic (.bus .deviceOverlap) (by decide)] at hstale
  revert hstale
  decide

/-- An MMIO device with addresses of the first range. -/
def busyRange : BusRange 64 := ⟨0x10f0, 0x20, by decide, by decide⟩

theorem registration_keeps_failed_first : (∀ resource ∈ collidingResources, resource.Valid) ∧
    Atomic (registerResources (7, 7) collidingResources) (registerMmio busyRange 3 (new : IoManager Nat Nat)).2 := by
  have hvalid : ∀ resource ∈ collidingResources, resource.Valid := by decide
  refine ⟨hvalid, (registration_keeps_failed_iff _ (7, 7) collidingResources hvalid).2.2.2 (.inr (.inl ?_))⟩
  refine ⟨⟨0x1000, 0x100, by decide, by decide⟩, _, rfl, not_not.2 ?_⟩
  exact ⟨(busyRange, 3), mem_singleton_self _, 0x10f0, ⟨by decide, by decide⟩, ⟨by decide, by decide⟩⟩

/-! ## Deregistration -/

/-- The registered ranges of each bus are disjoint. -/
structure Inv (manager : IoManager P M) : Prop where
  pio : manager.pioBus.Inv
  mmio : manager.mmioBus.Inv

theorem Inv.new : (IoManager.new : IoManager P M).Inv :=
  ⟨fun _ he => absurd he OrdMap.not_mem_empty, fun _ he => absurd he OrdMap.not_mem_empty⟩

theorem Inv.registerMmioResources (h : self.Inv) (device : M) (resources : List Resource) :
    (IoManager.registerMmioResources device resources self).2.Inv := by
  rw [registerMmioResources_eq]
  exact ⟨h.pio, h.mmio.registerPairs device _⟩

theorem Inv.registerPioResources (h : self.Inv) (device : P) (resources : List Resource) :
    (IoManager.registerPioResources device resources self).2.Inv := by
  rw [registerPioResources_eq]
  exact ⟨h.pio.registerPairs device _, h.mmio⟩

theorem Inv.registerResources (h : self.Inv) (device : P × M) (resources : List Resource) :
    (IoManager.registerResources device resources self).2.Inv :=
  bind_keeps (h.registerMmioResources device.2 resources) fun _ _ h => h.registerPioResources device.1 resources

theorem Inv.deregisterResources (h : self.Inv) (resources : List Resource) :
    (self.deregisterResources resources).2.Inv := by
  rw [deregisterResources_eq]
  exact ⟨h.pio.deregisterAll _, h.mmio.deregisterAll _⟩

end IoManager

inductive IoCall (P M : Type) where
  | registerPio (range : BusRange 16) (device : P)
  | registerMmio (range : BusRange 64) (device : M)
  | deregisterPio (addr : BitVec 16)
  | deregisterMmio (addr : BitVec 64)
  | registerPioResources (device : P) (resources : List Resource)
  | registerMmioResources (device : M) (resources : List Resource)
  | registerResources (device : P × M) (resources : List Resource)
  | deregisterResources (resources : List Resource)

namespace IoManager

variable {self : IoManager P M} {resources : List Resource}

/-- The manager after a call, whatever the call returns. -/
def step (self : IoManager P M) : IoCall P M → IoManager P M
  | .registerPio range device => (registerPio range device self).2
  | .registerMmio range device => (registerMmio range device self).2
  | .deregisterPio addr => (self.deregisterPio addr).2
  | .deregisterMmio addr => (self.deregisterMmio addr).2
  | .registerPioResources device resources => (registerPioResources device resources self).2
  | .registerMmioResources device resources => (registerMmioResources device resources self).2
  | .registerResources device resources => (registerResources device resources self).2
  | .deregisterResources resources => (self.deregisterResources resources).2

theorem Inv.step (h : self.Inv) (call : IoCall P M) : (self.step call).Inv := by
  cases call with
  | registerPio range device => exact ⟨h.pio.register range device, h.mmio⟩
  | registerMmio range device => exact ⟨h.pio, h.mmio.register range device⟩
  | deregisterPio addr => exact ⟨h.pio.deregister addr, h.mmio⟩
  | deregisterMmio addr => exact ⟨h.pio, h.mmio.deregister addr⟩
  | registerPioResources device resources => exact h.registerPioResources device resources
  | registerMmioResources device resources => exact h.registerMmioResources device resources
  | registerResources device resources => exact h.registerResources device resources
  | deregisterResources resources => exact h.deregisterResources resources

theorem inv_run (history : List (IoCall P M)) : (run step new history).Inv :=
  run_stays (I := Inv) (fun _ call h => h.step call) Inv.new history

/-! ## Lists that have been registered -/

/-- Every range of the list is valid, and no two have an address in common. -/
structure WellFormed (resources : List Resource) : Prop where
  pio : (pioRanges resources).map (fun range => (range.base, range.size)) = pioPairs resources
  mmio : (mmioRanges resources).map (fun range => (range.base, range.size)) = mmioPairs resources
  pio_disjoint : (pioRanges resources).Pairwise fun a b => ∀ x, a.Contains x → ¬ b.Contains x
  mmio_disjoint : (mmioRanges resources).Pairwise fun a b => ∀ x, a.Contains x → ¬ b.Contains x

theorem WellFormed.bases (h : WellFormed resources) :
    (pioPairs resources).map Prod.fst = (pioRanges resources).map base ∧
      (mmioPairs resources).map Prod.fst = (mmioRanges resources).map base := by
  rw [← h.pio, ← h.mmio, map_map, map_map]
  exact ⟨rfl, rfl⟩

theorem WellFormed.length (h : WellFormed resources) :
    (pioRanges resources).length + (mmioRanges resources).length = resources.countP Resource.isAddressRange := by
  have hpairs : (pioPairs resources).length + (mmioPairs resources).length =
      resources.countP Resource.isAddressRange := by
    clear h
    induction resources with
    | nil => rfl
    | cons resource resources ih =>
      rw [countP_cons, ← ih]
      cases resource with
      | pioAddressRange base size => exact Nat.add_right_comm _ 1 _
      | _ => rfl
  rw [← hpairs, ← h.pio, ← h.mmio, length_map, length_map]

/-- The ranges of the list are registered for `device`. -/
structure Holds (manager : IoManager P M) (device : P × M) (resources : List Resource) : Prop where
  pio : ∀ range ∈ pioRanges resources, (range, device.1) ∈ manager.pioBus.devices
  mmio : ∀ range ∈ mmioRanges resources, (range, device.2) ∈ manager.mmioBus.devices

/-- The list has no range with an address of a registered one. -/
structure Unused (manager : IoManager P M) (resources : List Resource) : Prop where
  pio : ∀ range ∈ pioRanges resources, manager.pioBus.Free range
  mmio : ∀ range ∈ mmioRanges resources, manager.mmioBus.Free range

/-- The manager has the ranges of `before`, and those of the list for `device`. -/
structure Added (before : IoManager P M) (device : P × M) (resources : List Resource) (after : IoManager P M) :
    Prop where
  pio : ∀ e, e ∈ after.pioBus.devices ↔
    (∃ range ∈ pioRanges resources, e = (range, device.1)) ∨ e ∈ before.pioBus.devices
  mmio : ∀ e, e ∈ after.mmioBus.devices ↔
    (∃ range ∈ mmioRanges resources, e = (range, device.2)) ∨ e ∈ before.mmioBus.devices

variable {device : P × M} {after : IoManager P M}

theorem registerResources_eq_ok (h : registerResources device resources self = (.ok (), after)) :
    WellFormed resources ∧ self.Unused resources ∧ self.Added device resources after := by
  unfold registerResources at h
  rw [registerMmioResources_eq, registerPioResources_eq] at h
  obtain ⟨_, mid, hmmio, hpio⟩ := bind_eq_ok h
  obtain ⟨hokm, rfl⟩ := Prod.mk.inj hmmio
  obtain ⟨hokp, rfl⟩ := Prod.mk.inj hpio
  obtain ⟨hmapm, ⟨hfreem, hdism⟩, hmemm⟩ := registerPairs_eq_ok (Prod.ext hokm rfl)
  obtain ⟨hmapp, ⟨hfreep, hdisp⟩, hmemp⟩ := registerPairs_eq_ok (Prod.ext hokp rfl)
  exact ⟨⟨hmapp, hmapm, hdisp, hdism⟩, ⟨hfreep, hfreem⟩, ⟨hmemp, hmemm⟩⟩

theorem Added.holds (h : self.Added device resources after) : after.Holds device resources :=
  ⟨fun range hr => (h.pio _).2 (.inl ⟨range, hr, rfl⟩), fun range hr => (h.mmio _).2 (.inl ⟨range, hr, rfl⟩)⟩

theorem Holds.deregisterResources (hinv : self.Inv) (hwf : WellFormed resources) (h : self.Holds device resources) :
    (self.deregisterResources resources).1 = resources.countP Resource.isAddressRange ∧
    (∀ e, e ∈ (self.deregisterResources resources).2.pioBus.devices ↔
      e ∈ self.pioBus.devices ∧ ¬ ∃ range ∈ pioRanges resources, e = (range, device.1)) ∧
    (∀ e, e ∈ (self.deregisterResources resources).2.mmioBus.devices ↔
      e ∈ self.mmioBus.devices ∧ ¬ ∃ range ∈ mmioRanges resources, e = (range, device.2)) := by
  obtain ⟨hcountp, hpio⟩ := deregisterAll_bases hinv.pio h.pio hwf.pio_disjoint
  obtain ⟨hcountm, hmmio⟩ := deregisterAll_bases hinv.mmio h.mmio hwf.mmio_disjoint
  rw [deregisterResources_eq, hwf.bases.1, hwf.bases.2]
  refine ⟨?_, hpio, hmmio⟩
  rw [hcountp, hcountm, hwf.length]

/-! ## Other devices come and go -/

/-- A call for another device: it is registered, or a list that has been registered is deregistered. -/
inductive OtherCall (P M : Type) where
  | register (device : P × M) (resources : List Resource)
  | deregister (resources : List Resource)

/-- The manager, and the lists that other devices have been registered with. -/
abbrev Session (P M : Type) := IoManager P M × List (List Resource)

/-- The session after a call; a list is noted down if its registration succeeds. -/
def otherStep (s : Session P M) : OtherCall P M → Session P M
  | .register device resources =>
    let result := registerResources device resources s.1
    (result.2, if result.1.isOk then resources :: s.2 else s.2)
  | .deregister resources => ((s.1.deregisterResources resources).2, s.2)

/-- Only lists that other devices have been registered with are deregistered. -/
def OtherAllowed (s : Session P M) : OtherCall P M → Prop
  | .register _ _ => True
  | .deregister resources => resources ∈ s.2

/-- No range of `resources` has the base of a range of `other`. -/
structure Apart (resources other : List Resource) : Prop where
  pio : ∀ range ∈ pioRanges resources, ∀ base ∈ (pioPairs other).map Prod.fst, ¬ range.Contains base.toNat
  mmio : ∀ range ∈ mmioRanges resources, ∀ base ∈ (mmioPairs other).map Prod.fst, ¬ range.Contains base.toNat

theorem Holds.registerResources (h : self.Holds device resources) (device' : P × M) (other : List Resource) :
    (IoManager.registerResources device' other self).2.Holds device resources := by
  refine bind_keeps (P := fun s => Holds s device resources) ?_ fun _ s h => ?_
  · rw [registerMmioResources_eq]
    exact ⟨h.pio, fun range hr => mem_registerPairs _ _ (h.mmio range hr)⟩
  · rw [registerPioResources_eq]
    exact ⟨fun range hr => mem_registerPairs _ _ (h.pio range hr), h.mmio⟩

variable {other : List Resource}

theorem Holds.apart (h : self.Holds device resources) (hwf : WellFormed other) (hunused : self.Unused other) :
    Apart resources other where
  pio range hr base hbase hin := by
    rw [hwf.bases.1] at hbase
    obtain ⟨range', hr', rfl⟩ := mem_map.1 hbase
    exact hunused.pio range' hr' ⟨_, h.pio range hr, _, range'.contains_base, hin⟩
  mmio range hr base hbase hin := by
    rw [hwf.bases.2] at hbase
    obtain ⟨range', hr', rfl⟩ := mem_map.1 hbase
    exact hunused.mmio range' hr' ⟨_, h.mmio range hr, _, range'.contains_base, hin⟩

theorem Holds.deregister_other (hinv : self.Inv) (h : self.Holds device resources) (hapart : Apart resources other) :
    (self.deregisterResources other).2.Holds device resources := by
  rw [deregisterResources_eq]
  exact ⟨fun range hr => mem_deregisterAll hinv.pio (h.pio range hr) (hapart.pio range hr),
    fun range hr => mem_deregisterAll hinv.mmio (h.mmio range hr) (hapart.mmio range hr)⟩

/-- The list stays registered, away from those of the other devices. -/
structure Kept (device : P × M) (resources : List Resource) (s : Session P M) : Prop where
  inv : s.1.Inv
  holds : s.1.Holds device resources
  apart : ∀ other ∈ s.2, Apart resources other

theorem Kept.step {s : Session P M} (h : Kept device resources s) (call : OtherCall P M)
    (hallowed : OtherAllowed s call) : Kept device resources (otherStep s call) := by
  cases call with
  | register device' other =>
    refine ⟨h.inv.registerResources device' other, h.holds.registerResources device' other, fun l hl => ?_⟩
    unfold otherStep at hl
    dsimp only at hl
    split at hl
    · rename_i hok
      rcases mem_cons.1 hl with rfl | hl
      · obtain ⟨_, hok⟩ := isOk_iff.1 hok
        obtain ⟨hwf, hunused, _⟩ := registerResources_eq_ok (Prod.ext hok rfl)
        exact h.holds.apart hwf hunused
      · exact h.apart l hl
    · exact h.apart l hl
  | deregister other =>
    exact ⟨h.inv.deregisterResources other, h.holds.deregister_other h.inv (h.apart other hallowed), h.apart⟩

/-- **Deregistration inverts registration.**  From every manager that calls lead to: after a list has been
registered for a device, and after any calls for other devices, `deregister_resources` with this list counts its
ranges and takes off these, and no others; if there were no other calls, the buses are as before. -/
theorem deregister_inverts_register (history : List (IoCall P M)) (device : P × M) (resources : List Resource)
    (registered : IoManager P M)
    (h : registerResources device resources (run step new history) = (.ok (), registered)) :
    (registered.deregisterResources resources).2 = run step new history ∧
    ∀ others, Along otherStep OtherAllowed (registered, []) others →
      let now := (run otherStep (registered, []) others).1
      (now.deregisterResources resources).1 = resources.countP Resource.isAddressRange ∧
      (∀ range ∈ pioRanges resources, (range, device.1) ∈ now.pioBus.devices) ∧
      (∀ range ∈ mmioRanges resources, (range, device.2) ∈ now.mmioBus.devices) ∧
      (∀ e, e ∈ (now.deregisterResources resources).2.pioBus.devices ↔
        e ∈ now.pioBus.devices ∧ ¬ ∃ range ∈ pioRanges resources, e = (range, device.1)) ∧
      (∀ e, e ∈ (now.deregisterResources resources).2.mmioBus.devices ↔
        e ∈ now.mmioBus.devices ∧ ¬ ∃ range ∈ mmioRanges resources, e = (range, device.2)) := by
  obtain ⟨hwf, hunused, hadded⟩ := registerResources_eq_ok h
  have hinv : registered.Inv := by
    have hreg := (inv_run history).registerResources device resources
    rw [h] at hreg
    exact hreg
  have hstart : Kept device resources (registered, []) := ⟨hinv, hadded.holds, nofun⟩
  refine ⟨?_, fun others hallowed => ?_⟩
  · obtain ⟨_, hpio, hmmio⟩ := hadded.holds.deregisterResources hinv hwf
    refine IoManager.ext (eq_of_mem fun e => ?_) (eq_of_mem fun e => ?_)
    · rw [hpio, hadded.pio]
      exact added_then_removed hunused.pio
    · rw [hmmio, hadded.mmio]
      exact added_then_removed hunused.mmio
  · have hend := hallowed.run_invariant (fun _ call h ha => h.step call ha) hstart
    obtain ⟨hcount, hpio, hmmio⟩ := hend.holds.deregisterResources hend.inv hwf
    exact ⟨hcount, hend.holds.pio, hend.holds.mmio, hpio, hmmio⟩

/-- A device with ranges on both buses. -/
def serialResources : List Resource :=
  [.pioAddressRange 0x3f8 8, .legacyIrq 4, .mmioAddressRange 0x1000 0x100, .pioAddressRange 0x2f8 8]

theorem deregister_inverts_register_serial :
    let before : IoManager Nat Nat := run step new [.registerPio topRange 9]
    let others : List (OtherCall Nat Nat) :=
      [.register (8, 8) [.mmioAddressRange 0x1100 0x10], .deregister [.mmioAddressRange 0x1100 0x10]]
    let registered := (registerResources (7, 7) serialResources before).2
    registerResources (7, 7) serialResources before = (.ok (), registered) ∧
    (registered.deregisterResources serialResources).2 = before ∧
    ((run otherStep (registered, []) others).1.deregisterResources serialResources).1 = 3 := by
  intro before others registered
  have hok : registerResources (7, 7) serialResources before = (.ok (), registered) := Prod.ext (by decide) rfl
  obtain ⟨hback, hothers⟩ := deregister_inverts_register _ (7, 7) serialResources registered hok
  have hallowed : Along otherStep OtherAllowed (registered, []) others := ⟨trivial, mem_singleton_self _, trivial⟩
  exact ⟨hok, hback, (hothers others hallowed).1⟩

end IoManager

end RustVmm.VmDevice
