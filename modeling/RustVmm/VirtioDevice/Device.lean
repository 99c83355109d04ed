import RustVmm.VirtioQueue.Operations

/-!
# Virtio devices over `VirtioConfig`

Model of `virtio-device/src/lib.rs` and `virtio_config.rs`.  What a device does in `activate`, `reset` and
`queue_notify` is a parameter (`Actions`); only `reset` may change the configuration.

* `ackDeviceStatus_transition` — what a write of the status can do to it.
-/

set_option autoImplicit false

namespace RustVmm.VirtioDevice

open Lib VirtioQueue

def VIRTIO_F_RING_EVENT_IDX : UInt64 := 29

namespace Status

def RESET : UInt8 := 0
def ACKNOWLEDGE : UInt8 := 1
def DRIVER : UInt8 := 2
def FAILED : UInt8 := 128
def FEATURES_OK : UInt8 := 8
def DRIVER_OK : UInt8 := 4

end Status

structure VirtioConfig where
  deviceFeatures : UInt64
  driverFeatures : UInt64
  deviceFeaturesSelect : UInt32
  driverFeaturesSelect : UInt32
  deviceStatus : UInt8
  queueSelect : UInt16
  queues : List Queue
  configGeneration : UInt8
  configSpace : List UInt8
  deviceActivated : Bool
  interruptStatus : UInt8
  deriving DecidableEq, Repr

namespace VirtioConfig

def new (deviceFeatures : UInt64) (queues : List Queue) (configSpace : List UInt8) : VirtioConfig :=
  ⟨deviceFeatures, 0, 0, 0, 0, 0, queues, 0, configSpace, false, 0⟩

def setDriverFeatures (page value : UInt32) (self : VirtioConfig) : VirtioConfig :=
  let features := self.driverFeatures
  let v := value.toUInt64
  { self with driverFeatures :=
      if page = 0 then ((features >>> 32) <<< 32) + v
      else if page = 1 then ((features <<< 32) >>> 32) + (v <<< 32)
      else features }

def setDeviceStatus (status : UInt8) (self : VirtioConfig) : VirtioConfig :=
  { self with deviceStatus := status }

def checkDeviceStatus (set cleared : UInt8) (self : VirtioConfig) : Bool :=
  self.deviceStatus &&& (set ||| cleared) == set

/-- The driver has accepted only features that were offered. -/
def FeaturesOffered (self : VirtioConfig) : Prop := ~~~self.deviceFeatures &&& self.driverFeatures = 0

instance (self : VirtioConfig) : Decidable self.FeaturesOffered := inferInstanceAs (Decidable (_ = _))

def numQueues (self : VirtioConfig) : UInt16 := .ofNat self.queues.length

/-- `set_event_idx(true)` for the queues with an index below `num_queues`. -/
def enableEventIdx (self : VirtioConfig) : VirtioConfig :=
  { self with queues := self.queues.mapIdx fun i q =>
      if i < self.numQueues.toNat then q.setEventIdx true else q }

/-- `write_config`: what is beyond the configuration space is ignored. -/
def writeConfig (offset : Nat) (data : List UInt8) (self : VirtioConfig) : VirtioConfig :=
  let configLen := self.configSpace.length
  if offset ≥ configLen then self
  else
    let stop := min (offset + data.length) configLen
    { self with configSpace :=
        self.configSpace.take offset ++ data.take (stop - offset) ++ self.configSpace.drop stop }

def updateSelectedQueue (f : Queue → Queue) (self : VirtioConfig) : VirtioConfig :=
  { self with queues := self.queues.modify self.queueSelect.toNat f }

end VirtioConfig

/-- The callbacks of a device with private state `S`. -/
structure Actions (S : Type) where
  activate : VirtioConfig → S → Bool × S
  reset : VirtioConfig → S → Bool × VirtioConfig × S
  queueNotify : UInt32 → VirtioConfig → S → S

structure Device (S : Type) where
  config : VirtioConfig
  inner : S

variable {S : Type} (actions : Actions S)

namespace Device

open Status VirtioConfig

def update (f : VirtioConfig → VirtioConfig) (self : Device S) : Device S :=
  { self with config := f self.config }

def ackDeviceStatus (status : UInt8) (self : Device S) : Device S :=
  let current := self.config.deviceStatus
  let changed := ~~~current &&& status
  if changed = ACKNOWLEDGE ∧ current = RESET then self.update (setDeviceStatus status)
  else if changed = DRIVER ∧ current = ACKNOWLEDGE then self.update (setDeviceStatus status)
  else if changed = FEATURES_OK ∧ current = ACKNOWLEDGE ||| DRIVER then
    -- a feature that was not offered: the bit is not accepted
    if ~~~self.config.deviceFeatures &&& self.config.driverFeatures ≠ 0 then self
    else if self.config.driverFeatures &&& (1 <<< VIRTIO_F_RING_EVENT_IDX) ≠ 0 then
      self.update fun config => config.enableEventIdx.setDeviceStatus status
    else self.update (setDeviceStatus status)
  else if changed = DRIVER_OK ∧ current = ACKNOWLEDGE ||| DRIVER ||| FEATURES_OK then
    let (activated, inner) := actions.activate self.config self.inner
    if activated then { config := self.config.setDeviceStatus status, inner } else { self with inner }
  else if status &&& FAILED ≠ 0 then self.update (setDeviceStatus (current ||| FAILED))
  else if status = 0 then
    let (_, config, inner) := actions.reset self.config self.inner
    { config, inner }
  else self

/-- The write of a status that activates the device. -/
def Activates (status : UInt8) (self : Device S) : Prop :=
  ~~~self.config.deviceStatus &&& status = DRIVER_OK ∧
    self.config.deviceStatus = ACKNOWLEDGE ||| DRIVER ||| FEATURES_OK ∧
    (actions.activate self.config self.inner).1 = true

instance (status : UInt8) (self : Device S) : Decidable (self.Activates actions status) :=
  inferInstanceAs (Decidable (_ ∧ _ ∧ _))

/-! ## Transitions -/

/-- What the status may become when another one than 0 is written. -/
inductive Transition (self : Device S) (status : UInt8) : UInt8 → Prop where
  | same : Transition self status self.config.deviceStatus
  | failed : Transition self status (self.config.deviceStatus ||| FAILED)
  | acknowledge (changed : ~~~self.config.deviceStatus &&& status = ACKNOWLEDGE)
      (current : self.config.deviceStatus = RESET) : Transition self status status
  | driver (changed : ~~~self.config.deviceStatus &&& status = DRIVER)
      (current : self.config.deviceStatus = ACKNOWLEDGE) : Transition self status status
  | featuresOk (changed : ~~~self.config.deviceStatus &&& status = FEATURES_OK)
      (current : self.config.deviceStatus = ACKNOWLEDGE ||| DRIVER)
      (offered : self.config.FeaturesOffered) : Transition self status status
  | driverOk (activates : self.Activates actions status) : Transition self status status

theorem ackDeviceStatus_transition {status : UInt8} (hzero : status ≠ 0) (self : Device S) :
    Transition actions self status (self.ackDeviceStatus actions status).config.deviceStatus ∧
      (self.ackDeviceStatus actions status).config.deviceFeatures = self.config.deviceFeatures ∧
      (self.ackDeviceStatus actions status).config.driverFeatures = self.config.driverFeatures := by
  unfold ackDeviceStatus
  dsimp only
  split
  · rename_i h
    exact ⟨.acknowledge h.1 h.2, rfl, rfl⟩
  split
  · rename_i h
    exact ⟨.driver h.1 h.2, rfl, rfl⟩
  split
  · rename_i h
    split
    · exact ⟨.same, rfl, rfl⟩
    rename_i hoffered
    split <;> exact ⟨.featuresOk h.1 h.2 (Classical.not_not.1 hoffered), rfl, rfl⟩
  split
  · rename_i h
    split
    · rename_i hactivated
      exact ⟨.driverOk ⟨h.1, h.2, hactivated⟩, rfl, rfl⟩
    · exact ⟨.same, rfl, rfl⟩
  split
  · exact ⟨.failed, rfl, rfl⟩
  · exact ⟨.same, rfl, rfl⟩

theorem ackDeviceStatus_zero (self : Device S) :
    (self.ackDeviceStatus actions 0).config = (actions.reset self.config self.inner).2.1 := by
  have hchanged : ~~~self.config.deviceStatus &&& 0 = 0 := UInt8.and_zero
  unfold ackDeviceStatus
  dsimp only
  rw [hchanged, if_neg (fun h => nomatch h.1), if_neg (fun h => nomatch h.1), if_neg (fun h => nomatch h.1),
    if_neg (fun h => nomatch h.1), if_neg (by decide), if_pos rfl]

theorem ackDeviceStatus_of_activates {status : UInt8} {self : Device S} (h : self.Activates actions status) :
    (self.ackDeviceStatus actions status).config = self.config.setDeviceStatus status := by
  obtain ⟨hchanged, hcurrent, hactivated⟩ := h
  unfold ackDeviceStatus
  dsimp only
  rw [hchanged, if_neg (fun h => nomatch h.1), if_neg (fun h => nomatch h.1), if_neg (fun h => nomatch h.1),
    if_pos ⟨rfl, hcurrent⟩, if_pos hactivated]

end Device

end RustVmm.VirtioDevice
