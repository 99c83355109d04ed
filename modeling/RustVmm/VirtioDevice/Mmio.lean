import Mathlib.Data.Nat.Digits.Defs
import RustVmm.VirtioDevice.Device

/-!
# Registers of a virtio device over MMIO

Model of the register writes of `virtio-device/src/mmio.rs`.

* `write_of_status`, `write_cases` — what a write can do, for the status and for other registers.
* `features_frozen_iff` — when the features cannot change after activation.
* `features_change_after_activation` — a status without `FEATURES_OK` opens them again.
-/

set_option autoImplicit false

namespace RustVmm.VirtioDevice

open Lib VirtioQueue Status VirtioConfig

def VIRTIO_MMIO_DEVICE_FEATURES_SEL : UInt64 := 20
def VIRTIO_MMIO_DRIVER_FEATURES : UInt64 := 32
def VIRTIO_MMIO_DRIVER_FEATURES_SEL : UInt64 := 36
def VIRTIO_MMIO_QUEUE_SEL : UInt64 := 48
def VIRTIO_MMIO_QUEUE_NUM : UInt64 := 56
def VIRTIO_MMIO_QUEUE_READY : UInt64 := 68
def VIRTIO_MMIO_QUEUE_NOTIFY : UInt64 := 80
def VIRTIO_MMIO_INTERRUPT_ACK : UInt64 := 100
def VIRTIO_MMIO_STATUS : UInt64 := 112
def VIRTIO_MMIO_QUEUE_DESC_LOW : UInt64 := 128
def VIRTIO_MMIO_QUEUE_DESC_HIGH : UInt64 := 132
def VIRTIO_MMIO_QUEUE_AVAIL_LOW : UInt64 := 144
def VIRTIO_MMIO_QUEUE_AVAIL_HIGH : UInt64 := 148
def VIRTIO_MMIO_QUEUE_USED_LOW : UInt64 := 160
def VIRTIO_MMIO_QUEUE_USED_HIGH : UInt64 := 164
def VIRTIO_MMIO_CONFIG : UInt64 := 256

structure Write where
  offset : UInt64
  data : List UInt8
  deriving DecidableEq, Repr

/-- `u32::from_le_bytes`. -/
def u32FromLeBytes (data : List UInt8) : UInt32 := .ofNat (Nat.ofDigits 256 (data.map UInt8.toNat))

namespace VirtioConfig

def updateQueueField (f : Queue → Queue) (self : VirtioConfig) : VirtioConfig :=
  if self.checkDeviceStatus FEATURES_OK (DRIVER_OK ||| FAILED) then self.updateSelectedQueue f else self

/-- The write of a register that has no callback. -/
def writeRegister (offset : UInt64) (v : UInt32) (self : VirtioConfig) : VirtioConfig :=
  if offset = VIRTIO_MMIO_DEVICE_FEATURES_SEL then { self with deviceFeaturesSelect := v }
  else if offset = VIRTIO_MMIO_DRIVER_FEATURES then
    if self.checkDeviceStatus DRIVER (FEATURES_OK ||| FAILED) then
      self.setDriverFeatures self.driverFeaturesSelect v
    else self
  else if offset = VIRTIO_MMIO_DRIVER_FEATURES_SEL then { self with driverFeaturesSelect := v }
  else if offset = VIRTIO_MMIO_QUEUE_SEL then { self with queueSelect := v.toUInt16 }
  else if offset = VIRTIO_MMIO_QUEUE_NUM then self.updateQueueField fun q => q.setSize v.toUInt16
  else if offset = VIRTIO_MMIO_QUEUE_READY then self.updateQueueField fun q => q.setReady (v == 1)
  else if offset = VIRTIO_MMIO_INTERRUPT_ACK then
    if self.checkDeviceStatus DRIVER_OK 0 then
      { self with interruptStatus := self.interruptStatus &&& ~~~v.toUInt8 }
    else self
  else if offset = VIRTIO_MMIO_QUEUE_DESC_LOW then
    self.updateQueueField fun q => q.setDescTableAddress (some v) none
  else if offset = VIRTIO_MMIO_QUEUE_DESC_HIGH then
    self.updateQueueField fun q => q.setDescTableAddress none (some v)
  else if offset = VIRTIO_MMIO_QUEUE_AVAIL_LOW then
    self.updateQueueField fun q => q.setAvailRingAddress (some v) none
  else if offset = VIRTIO_MMIO_QUEUE_AVAIL_HIGH then
    self.updateQueueField fun q => q.setAvailRingAddress none (some v)
  else if offset = VIRTIO_MMIO_QUEUE_USED_LOW then
    self.updateQueueField fun q => q.setUsedRingAddress (some v) none
  else if offset = VIRTIO_MMIO_QUEUE_USED_HIGH then
    self.updateQueueField fun q => q.setUsedRingAddress none (some v)
  else self

end VirtioConfig

variable {S : Type} (actions : Actions S)

namespace Device

def write (self : Device S) (w : Write) : Device S :=
  if w.offset ≤ 0xff ∧ w.data.length = 4 then
    let v := u32FromLeBytes w.data
    if w.offset = VIRTIO_MMIO_QUEUE_NOTIFY then
      { self with inner := actions.queueNotify v self.config self.inner }
    else if w.offset = VIRTIO_MMIO_STATUS then self.ackDeviceStatus actions v.toUInt8
    else self.update (VirtioConfig.writeRegister w.offset v)
  else if VIRTIO_MMIO_CONFIG ≤ w.offset ∧ w.offset ≤ 0xfff then
    if self.config.checkDeviceStatus DRIVER FAILED then
      self.update (VirtioConfig.writeConfig (w.offset.toNat - 0x100) w.data)
    else self
  else self

end Device

/-- The status that a write is for, if it is one. -/
def Write.status (w : Write) : Option UInt8 :=
  if w.offset = VIRTIO_MMIO_STATUS ∧ w.data.length = 4 then some (u32FromLeBytes w.data).toUInt8 else none

/-! ## What a write can do -/

/-- Status and features are the same. -/
def SameNegotiation (config config' : VirtioConfig) : Prop :=
  config'.deviceStatus = config.deviceStatus ∧ config'.deviceFeatures = config.deviceFeatures ∧
    config'.driverFeatures = config.driverFeatures

variable (f : Queue → Queue) (config : VirtioConfig)

theorem sameNegotiation_updateQueueField : SameNegotiation config (config.updateQueueField f) := by
  unfold updateQueueField
  split <;> exact ⟨rfl, rfl, rfl⟩

/-- Status and features are the same, apart from the driver's features in the state in which they may be
written. -/
def Negotiates (config config' : VirtioConfig) : Prop :=
  SameNegotiation config config' ∨ config.checkDeviceStatus DRIVER (FEATURES_OK ||| FAILED) = true ∧
    ∃ v, config' = config.setDriverFeatures config.driverFeaturesSelect v

theorem Negotiates.updateQueueField :
    Negotiates config (config.updateQueueField f) := .inl (sameNegotiation_updateQueueField f config)

theorem Negotiates.ite {config a b : VirtioConfig} {c : Prop} [Decidable c]
    (ha : c → Negotiates config a) (hb : Negotiates config b) :
    Negotiates config (if c then a else b) :=
  iteInduction ha fun _ => hb

theorem writeRegister_negotiates (offset : UInt64) (v : UInt32) (config : VirtioConfig) :
    Negotiates config (config.writeRegister offset v) := by
  have hfeatures : Negotiates config (if config.checkDeviceStatus DRIVER (FEATURES_OK ||| FAILED) then
      config.setDriverFeatures config.driverFeaturesSelect v else config) :=
    .ite (fun hcheck => .inr ⟨hcheck, v, rfl⟩) (.inl ⟨rfl, rfl, rfl⟩)
  have hack : Negotiates config (if config.checkDeviceStatus DRIVER_OK 0 then
      { config with interruptStatus := config.interruptStatus &&& ~~~v.toUInt8 } else config) :=
    .ite (fun _ => .inl ⟨rfl, rfl, rfl⟩) (.inl ⟨rfl, rfl, rfl⟩)
  refine .ite (fun _ => .inl ⟨rfl, rfl, rfl⟩) ?_
  refine .ite (fun _ => hfeatures) ?_
  refine .ite (fun _ => .inl ⟨rfl, rfl, rfl⟩) ?_
  refine .ite (fun _ => .inl ⟨rfl, rfl, rfl⟩) ?_
  refine .ite (fun _ => .updateQueueField _ config) ?_
  refine .ite (fun _ => .updateQueueField _ config) ?_
  refine .ite (fun _ => hack) ?_
  iterate 6 refine .ite (fun _ => .updateQueueField _ config) ?_
  exact .inl ⟨rfl, rfl, rfl⟩

variable {w : Write}

namespace Device

theorem write_of_status {status : UInt8} (h : w.status = some status) (self : Device S) :
    self.write actions w = self.ackDeviceStatus actions status := by
  unfold Write.status at h
  split at h
  · rename_i hw
    cases h
    unfold write
    rw [if_pos ⟨by rw [hw.1]; decide, hw.2⟩, hw.1, if_neg (by decide), if_pos rfl]
  · cases h

theorem write_cases (h : w.status = none) (self : Device S) : self.write actions w =
      { self with inner := actions.queueNotify (u32FromLeBytes w.data) self.config self.inner } ∨
    self.write actions w = self.update (writeRegister w.offset (u32FromLeBytes w.data)) ∨
    self.write actions w = self.update (writeConfig (w.offset.toNat - 0x100) w.data) ∨
    self.write actions w = self := by
  unfold write
  split
  · rename_i hlow
    split
    · exact .inl rfl
    split
    · rename_i hstatus
      rw [Write.status, if_pos ⟨hstatus, hlow.2⟩] at h
      cases h
    · exact .inr (.inl rfl)
  split
  · split
    · exact .inr (.inr (.inl rfl))
    · exact .inr (.inr (.inr rfl))
  · exact .inr (.inr (.inr rfl))

theorem write_negotiates (h : w.status = none) (self : Device S) :
    Negotiates self.config (self.write actions w).config := by
  rcases write_cases actions h self with heq | heq | heq | heq <;> rw [heq]
  · exact .inl ⟨rfl, rfl, rfl⟩
  · exact writeRegister_negotiates w.offset (u32FromLeBytes w.data) self.config
  · exact .ite (fun _ => .inl ⟨rfl, rfl, rfl⟩) (.inl ⟨rfl, rfl, rfl⟩)
  · exact .inl ⟨rfl, rfl, rfl⟩

end Device

/-! ## Bits of the status -/

theorem stored_bits : ∀ status : UInt8,
    (~~~RESET &&& status = ACKNOWLEDGE → status &&& DRIVER_OK = 0 ∧ status &&& FEATURES_OK = 0) ∧
    (~~~ACKNOWLEDGE &&& status = DRIVER → status &&& DRIVER_OK = 0 ∧ status &&& FEATURES_OK = 0) ∧
    (~~~(ACKNOWLEDGE ||| DRIVER) &&& status = FEATURES_OK → status &&& DRIVER_OK = 0 ∧ status &&& FEATURES_OK ≠ 0) :=
  fun ⟨b⟩ => by
    revert b
    decide

theorem driver_only_no_features_ok : ∀ status : UInt8,
    status &&& (DRIVER ||| (FEATURES_OK ||| FAILED)) = DRIVER → status &&& FEATURES_OK = 0 := fun ⟨b⟩ => by
  revert b
  decide

theorem or_failed : ∀ status : UInt8, (status ||| FAILED) &&& (DRIVER ||| (FEATURES_OK ||| FAILED)) ≠ DRIVER ∧
      (status ||| FAILED) &&& DRIVER_OK = status &&& DRIVER_OK ∧
      (status ||| FAILED) &&& FEATURES_OK = status &&& FEATURES_OK := fun ⟨b⟩ => by
  revert b
  decide

theorem activation_bits : ∀ status : UInt8,
    ~~~(ACKNOWLEDGE ||| DRIVER ||| FEATURES_OK) &&& status = DRIVER_OK → status &&& DRIVER_OK ≠ 0 ∧
      (status &&& (DRIVER ||| (FEATURES_OK ||| FAILED)) = DRIVER ↔
        status &&& DRIVER ≠ 0 ∧ status &&& FEATURES_OK = 0) := fun ⟨b⟩ => by
  revert b
  decide

/-! ## Features that were accepted -/

/-- While `FEATURES_OK` is set, the driver's features were offered. -/
def VirtioConfig.Guarded (self : VirtioConfig) : Prop := self.deviceStatus &&& FEATURES_OK ≠ 0 → self.FeaturesOffered

theorem VirtioConfig.guarded_new (deviceFeatures : UInt64) (queues : List Queue) (configSpace : List UInt8) :
    (new deviceFeatures queues configSpace).Guarded := fun hok => absurd UInt8.zero_and hok

/-- The device's `reset` does not leave `FEATURES_OK` with other features. -/
def Actions.ResetsGuarded : Prop := ∀ config inner, config.Guarded → (actions.reset config inner).2.1.Guarded

theorem VirtioConfig.FeaturesOffered.of_eq {config config' : VirtioConfig} (h : config.FeaturesOffered)
    (hdevice : config'.deviceFeatures = config.deviceFeatures)
    (hdriver : config'.driverFeatures = config.driverFeatures) : config'.FeaturesOffered := by
  unfold FeaturesOffered
  rw [hdevice, hdriver]
  exact h

namespace Device

variable {self : Device S} {status next : UInt8}

theorem Transition.offered (h : Transition actions self status next) (hguard : self.config.Guarded)
    (hok : next &&& FEATURES_OK ≠ 0) : self.config.FeaturesOffered := by
  cases h with
  | same => exact hguard hok
  | failed =>
    rw [(or_failed _).2.2] at hok
    exact hguard hok
  | acknowledge changed current =>
    rw [current] at changed
    exact absurd ((stored_bits _).1 changed).2 hok
  | driver changed current =>
    rw [current] at changed
    exact absurd ((stored_bits _).2.1 changed).2 hok
  | featuresOk changed current offered => exact offered
  | driverOk activates =>
    refine hguard ?_
    rw [activates.2.1]
    decide

theorem guarded_write (hreset : actions.ResetsGuarded) (h : self.config.Guarded) (w : Write) :
    (self.write actions w).config.Guarded := by
  cases hstatus : w.status with
  | none =>
    rcases write_negotiates actions hstatus self with ⟨hs, hdevice, hdriver⟩ | ⟨hcheck, v, heq⟩
    · intro hok
      rw [hs] at hok
      exact (h hok).of_eq hdevice hdriver
    · rw [heq]
      intro hok
      exact absurd (driver_only_no_features_ok _ (beq_iff_eq.1 hcheck)) hok
  | some status =>
    rw [write_of_status actions hstatus]
    by_cases hzero : status = 0
    · rw [hzero, ackDeviceStatus_zero]
      exact hreset _ _ h
    · obtain ⟨htransition, hdevice, hdriver⟩ := ackDeviceStatus_transition actions hzero self
      intro hok
      exact (htransition.offered actions h hok).of_eq hdevice hdriver

theorem guarded_run (hreset : actions.ResetsGuarded) (h : self.config.Guarded) (ws : List Write) :
    (run (write actions) self ws).config.Guarded :=
  run_stays (I := fun s : Device S => s.config.Guarded) (fun _ w h => guarded_write actions hreset h w) h ws

/-! ## Features after activation -/

/-- The device is active, and its features cannot be written. -/
def Closed (config : VirtioConfig) : Prop := config.deviceStatus &&& DRIVER_OK ≠ 0 ∧
    config.checkDeviceStatus DRIVER (FEATURES_OK ||| FAILED) = false

theorem Transition.of_active (h : Transition actions self status next)
    (hactive : self.config.deviceStatus &&& DRIVER_OK ≠ 0) :
    next = self.config.deviceStatus ∨ next = self.config.deviceStatus ||| FAILED := by
  cases h with
  | same => exact .inl rfl
  | failed => exact .inr rfl
  | acknowledge changed current | driver changed current | featuresOk changed current offered =>
    rw [current] at hactive
    exact absurd (by decide) hactive
  | driverOk activates =>
    rw [activates.2.1] at hactive
    exact absurd (by decide) hactive

theorem closed_write (h : Closed self.config) (hw : w.status ≠ some 0) :
    Closed (self.write actions w).config ∧ (self.write actions w).config.deviceFeatures = self.config.deviceFeatures ∧
      (self.write actions w).config.driverFeatures = self.config.driverFeatures := by
  obtain ⟨hactive, hcheck⟩ := h
  cases hstatus : w.status with
  | none =>
    rcases write_negotiates actions hstatus self with ⟨hs, hdevice, hdriver⟩ | ⟨hopen, _⟩
    · refine ⟨⟨hs ▸ hactive, ?_⟩, hdevice, hdriver⟩
      unfold checkDeviceStatus at hcheck ⊢
      rw [hs]
      exact hcheck
    · rw [hcheck] at hopen
      cases hopen
  | some status =>
    rw [write_of_status actions hstatus]
    have hzero : status ≠ 0 := fun heq => hw (heq ▸ hstatus)
    obtain ⟨htransition, hdevice, hdriver⟩ := ackDeviceStatus_transition actions hzero self
    refine ⟨?_, hdevice, hdriver⟩
    unfold Closed checkDeviceStatus
    rcases htransition.of_active actions hactive with hs | hs
    · rw [hs]
      exact ⟨hactive, hcheck⟩
    · rw [hs]
      obtain ⟨hne, hsame, _⟩ := or_failed self.config.deviceStatus
      exact ⟨hsame ▸ hactive, beq_eq_false_iff_ne.2 hne⟩

theorem closed_run (h : Closed self.config) {later : List Write} (hlater : ∀ w ∈ later, w.status ≠ some 0) :
    (run (write actions) self later).config.deviceFeatures = self.config.deviceFeatures ∧
      (run (write actions) self later).config.driverFeatures = self.config.driverFeatures := by
  induction later generalizing self with
  | nil => exact ⟨rfl, rfl⟩
  | cons w later ih =>
    obtain ⟨hw, hlater⟩ := List.forall_mem_cons.1 hlater
    obtain ⟨hclosed, hdevice, hdriver⟩ := closed_write actions h hw
    obtain ⟨hdevice', hdriver'⟩ := ih hclosed hlater
    exact ⟨hdevice'.trans hdevice, hdriver'.trans hdriver⟩

/-- Selecting the first page and writing it. -/
def rewriteFeatures (data : List UInt8) : List Write :=
  [⟨VIRTIO_MMIO_DRIVER_FEATURES_SEL, [0, 0, 0, 0]⟩, ⟨VIRTIO_MMIO_DRIVER_FEATURES, data⟩]

theorem run_rewriteFeatures {data : List UInt8} (hdata : data.length = 4)
    (hopen : self.config.checkDeviceStatus DRIVER (FEATURES_OK ||| FAILED) = true) :
    (run (write actions) self (rewriteFeatures data)).config.driverFeatures =
      ((self.config.driverFeatures >>> 32) <<< 32) + (u32FromLeBytes data).toUInt64 := by
  have hselect : self.write actions ⟨VIRTIO_MMIO_DRIVER_FEATURES_SEL, [0, 0, 0, 0]⟩ =
      self.update fun config => { config with driverFeaturesSelect := 0 } := rfl
  show ((self.write actions _).write actions _).config.driverFeatures = _
  rw [hselect]
  generalize hselected : self.update (fun config => { config with driverFeaturesSelect := 0 }) = selected
  have hopen' : selected.config.checkDeviceStatus DRIVER (FEATURES_OK ||| FAILED) = true := by
    rw [← hselected]
    exact hopen
  unfold write
  dsimp only
  rw [if_pos ⟨by decide, hdata⟩]
  show (selected.config.writeRegister VIRTIO_MMIO_DRIVER_FEATURES _).driverFeatures = _
  unfold writeRegister
  rw [if_neg (by decide), if_pos hopen', ← hselected]
  rfl

/-- **Features are frozen after activation** exactly if the status that the driver activates the device
with keeps `FEATURES_OK`, or drops `DRIVER`, and the features at that time were offered.  They were, unless
the device's own `reset` leaves others. -/
theorem features_frozen_iff (deviceFeatures : UInt64) (queues : List Queue) (configSpace : List UInt8)
    (inner : S) (before : List Write) (w : Write) (status : UInt8) (hw : w.status = some status)
    (hactivates : Activates actions status
      (run (write actions) ⟨.new deviceFeatures queues configSpace, inner⟩ before)) :
    let device := (run (write actions) ⟨.new deviceFeatures queues configSpace, inner⟩ before).write actions w
    (actions.ResetsGuarded → device.config.FeaturesOffered) ∧
    ((∀ later : List Write, (∀ x ∈ later, x.status ≠ some 0) →
        (run (write actions) device later).config.driverFeatures = device.config.driverFeatures ∧
          (run (write actions) device later).config.FeaturesOffered) ↔
      (status &&& FEATURES_OK ≠ 0 ∨ status &&& DRIVER = 0) ∧ device.config.FeaturesOffered) := by
  intro device
  have hconfig : device.config = _ := (congrArg config (write_of_status actions hw _)).trans
    (ackDeviceStatus_of_activates actions hactivates)
  have hstatus : device.config.deviceStatus = status := by rw [hconfig]; rfl
  obtain ⟨hactive, hbits⟩ := activation_bits status (hactivates.2.1 ▸ hactivates.1)
  refine ⟨fun hreset => ?_, fun hfrozen => ⟨?_, (hfrozen [] nofun).2⟩, ?_⟩
  · have hguard : (run (write actions) ⟨.new deviceFeatures queues configSpace, inner⟩ before).config.Guarded :=
      guarded_run actions hreset (guarded_new deviceFeatures queues configSpace) before
    rw [hconfig]
    refine FeaturesOffered.of_eq (hguard ?_) rfl rfl
    rw [hactivates.2.1]
    decide
  · by_contra hnot
    obtain ⟨hkeeps, hdriver⟩ := not_or.1 hnot
    have hopen : device.config.checkDeviceStatus DRIVER (FEATURES_OK ||| FAILED) = true := by
      unfold checkDeviceStatus
      rw [hstatus]
      exact beq_iff_eq.2 (hbits.2 ⟨hdriver, Classical.not_not.1 hkeeps⟩)
    have h₀ := (hfrozen (rewriteFeatures [0, 0, 0, 0]) (by decide)).1
    have h₁ := (hfrozen (rewriteFeatures [1, 0, 0, 0]) (by decide)).1
    rw [run_rewriteFeatures actions rfl hopen] at h₀ h₁
    exact absurd ((UInt64.add_right_inj _).1 (h₀.trans h₁.symm)) (by decide)
  · rintro ⟨hkeeps, hoffered⟩ later hlater
    have hclosed : Closed device.config := by
      unfold Closed checkDeviceStatus
      rw [hstatus]
      refine ⟨hactive, beq_eq_false_iff_ne.2 fun hopen => ?_⟩
      obtain ⟨hdriver, hdrops⟩ := hbits.1 hopen
      exact hkeeps.elim (fun hok => hok hdrops) hdriver
    obtain ⟨hdevice, hdriver⟩ := closed_run actions hclosed hlater
    exact ⟨hdriver, hoffered.of_eq hdevice hdriver⟩

/-- A device that always can be activated, and that is reset to what it was. -/
def simpleActions : Actions Unit where
  activate _ inner := (true, inner)
  reset config inner := (true, .new config.deviceFeatures config.queues config.configSpace, inner)
  queueNotify _ _ inner := inner

def statusWrite (status : UInt8) : Write := ⟨VIRTIO_MMIO_STATUS, [status, 0, 0, 0]⟩

theorem features_frozen_usual :
    let device := run (write simpleActions) ⟨.new 0 [] [], ()⟩
      [statusWrite 1, statusWrite 3, statusWrite 11, statusWrite 15]
    device.config.deviceStatus = 15 ∧ ∀ later : List Write, (∀ x ∈ later, x.status ≠ some 0) →
        (run (write simpleActions) device later).config.driverFeatures = device.config.driverFeatures ∧
          (run (write simpleActions) device later).config.FeaturesOffered := by
  refine ⟨by decide, ?_⟩
  exact (features_frozen_iff simpleActions 0 [] [] () [statusWrite 1, statusWrite 3, statusWrite 11]
    (statusWrite 15) 15 (by decide) (by decide)).2.2 (by decide)

theorem features_change_after_activation :
    let before := run (write simpleActions) ⟨.new 0 [] [], ()⟩
      [statusWrite 1, statusWrite 3, statusWrite 11]
    let device := before.write simpleActions (statusWrite 7)
    let later := device.write simpleActions ⟨VIRTIO_MMIO_DRIVER_FEATURES, [1, 0, 0, 0]⟩
    Activates simpleActions 7 before ∧ device.config.deviceStatus = 7 ∧
      device.config.driverFeatures = 0 ∧ later.config.driverFeatures = 1 ∧
      ¬ later.config.FeaturesOffered := by
  decide

end Device

end RustVmm.VirtioDevice
