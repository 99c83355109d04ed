import RustVmm.VirtioDevice.Mmio

/-!
# Activation

A device is followed over all writes of the guest, with a record of the calls of `activate` and `reset` that succeeded.

* `acked` — all that a write of the status can do.
* `Tracked.write` — the invariant of the device and its record.
* `activated_once` — how and how often a device is activated.
* `event_idx_flag_stays_set` — a flag of a queue that was set initially is not cleared.
-/

set_option autoImplicit false

namespace RustVmm.VirtioDevice

open Lib VirtioQueue Status List Device

variable {S : Type} (actions : Actions S)

namespace VirtioConfig

/-- The driver has accepted `VIRTIO_F_RING_EVENT_IDX`. -/
def eventIdxNegotiated (self : VirtioConfig) : Bool := self.driverFeatures &&& (1 <<< VIRTIO_F_RING_EVENT_IDX) ≠ 0

/-- The queues when the features are accepted. -/
def acceptEventIdx (self : VirtioConfig) : VirtioConfig := if self.eventIdxNegotiated then self.enableEventIdx else self

def eventIdxFlags (self : VirtioConfig) : List Bool := self.queues.map fun q => q.eventIdxEnabled

/-- The flags after the features have been accepted: they are set if the feature was, and else what they were. -/
def acceptedFlags (initial : VirtioConfig) (negotiated : Bool) : List Bool :=
  initial.queues.mapIdx fun i q => (negotiated && decide (i < initial.numQueues.toNat)) || q.eventIdxEnabled

end VirtioConfig

/-! ## The record -/

/-- A callback that succeeded; `activate` with the configuration it was called in. -/
inductive Call where
  | activate (config : VirtioConfig)
  | reset
  deriving DecidableEq

/-- The callbacks of a device with a record of those that succeeded, the last one first. -/
def Actions.recorded : Actions (S × List Call) where
  activate config inner :=
    let (activated, inner') := actions.activate config inner.1
    (activated, inner', if activated then .activate config :: inner.2 else inner.2)
  reset config inner :=
    let (done, config', inner') := actions.reset config inner.1
    (done, config', inner', if done then .reset :: inner.2 else inner.2)
  queueNotify v config inner := (actions.queueNotify v config inner.1, inner.2)

variable {config : VirtioConfig}

theorem Actions.recorded_activate {actions : Actions S} {inner inner' : S × List Call}
    {activated : Bool} (h : actions.recorded.activate config inner = (activated, inner')) :
    inner'.2 = if activated then .activate config :: inner.2 else inner.2 := by
  obtain ⟨rfl, rfl⟩ := Prod.mk.inj h
  rfl

/-- The configurations in which the device was activated since it was reset. -/
def sinceReset : List Call → List VirtioConfig
  | [] => []
  | .reset :: _ => []
  | .activate config :: calls => config :: sinceReset calls

/-- A reset that fails changes nothing, and one that succeeds restores a configuration. -/
def Actions.ResetsTo (initial : VirtioConfig) : Prop := ∀ config inner, (actions.reset config inner).2.1 =
    if (actions.reset config inner).1 then initial else config

namespace Device

open VirtioConfig

def unrecorded (self : Device (S × List Call)) : Device S := ⟨self.config, self.inner.1⟩

theorem unrecorded_ackDeviceStatus (status : UInt8) (self : Device (S × List Call)) :
    (self.ackDeviceStatus actions.recorded status).unrecorded = self.unrecorded.ackDeviceStatus actions status := by
  unfold ackDeviceStatus
  simp only [apply_ite unrecorded]
  rfl

theorem unrecorded_write (self : Device (S × List Call)) (w : Write) :
    (self.write actions.recorded w).unrecorded = self.unrecorded.write actions w := by
  unfold write
  split
  · split
    · rfl
    · split
      · exact unrecorded_ackDeviceStatus actions _ self
      · rfl
  · split
    · rw [apply_ite unrecorded]
      rfl
    · rfl

theorem unrecorded_run (self : Device (S × List Call)) (ws : List Write) :
    (run (write actions.recorded) self ws).unrecorded = run (write actions) self.unrecorded ws := by
  induction ws generalizing self with
  | nil => rfl
  | cons w ws ih => rw [run_cons, run_cons, ih, unrecorded_write]

/-! ## What a write of the status can do -/

/-- All that a write of the status can do. -/
inductive Acked (self : Device S) (status : UInt8) : Device S → Prop
  | ignored : Acked self status self
  | acknowledge (changed : ~~~self.config.deviceStatus &&& status = ACKNOWLEDGE)
      (current : self.config.deviceStatus = RESET) : Acked self status (self.update (setDeviceStatus status))
  | driver (changed : ~~~self.config.deviceStatus &&& status = DRIVER)
      (current : self.config.deviceStatus = ACKNOWLEDGE) : Acked self status (self.update (setDeviceStatus status))
  | featuresOk (changed : ~~~self.config.deviceStatus &&& status = FEATURES_OK)
      (current : self.config.deviceStatus = ACKNOWLEDGE ||| DRIVER) (offered : self.config.FeaturesOffered) :
      Acked self status (self.update fun config => config.acceptEventIdx.setDeviceStatus status)
  | activated {inner : S} (changed : ~~~self.config.deviceStatus &&& status = DRIVER_OK)
      (current : self.config.deviceStatus = ACKNOWLEDGE ||| DRIVER ||| FEATURES_OK)
      (ok : actions.activate self.config self.inner = (true, inner)) :
      Acked self status ⟨self.config.setDeviceStatus status, inner⟩
  | notActivated {inner : S} (failed : actions.activate self.config self.inner = (false, inner)) :
      Acked self status ⟨self.config, inner⟩
  | failed : Acked self status (self.update (setDeviceStatus (self.config.deviceStatus ||| FAILED)))
  | reset {done : Bool} {config : VirtioConfig} {inner : S}
      (call : actions.reset self.config self.inner = (done, config, inner)) : Acked self status ⟨config, inner⟩

theorem acked (status : UInt8) (self : Device S) : Acked actions self status (self.ackDeviceStatus actions status) := by
  unfold ackDeviceStatus
  dsimp only
  split
  · rename_i h
    exact .acknowledge h.1 h.2
  split
  · rename_i h
    exact .driver h.1 h.2
  split
  · rename_i h
    split
    · exact .ignored
    rename_i hoffered
    have hacked : Acked actions self status _ := .featuresOk h.1 h.2 (Classical.not_not.1 hoffered)
    rw [update] at hacked
    split
    · rename_i hidx
      have hneg : self.config.eventIdxNegotiated = true := decide_eq_true hidx
      rw [acceptEventIdx, if_pos hneg] at hacked
      exact hacked
    · rename_i hidx
      have hneg : ¬ self.config.eventIdxNegotiated = true := fun h => hidx (of_decide_eq_true h)
      rw [acceptEventIdx, if_neg hneg] at hacked
      exact hacked
  split
  · rename_i h
    split
    · rename_i hactivated
      exact .activated h.1 h.2 (Prod.ext hactivated rfl)
    · rename_i hfailed
      exact .notActivated (Prod.ext (Bool.eq_false_iff.2 hfailed) rfl)
  split
  · exact .failed
  split
  · exact .reset rfl
  · exact .ignored

end Device

/-! ## What other writes can do to the queues -/

/-- The queues are the same, or one was changed while the registers of the queues are open, but not its flag. -/
def QueueWrite (config config' : VirtioConfig) : Prop := config'.queues = config.queues ∨
    config.deviceStatus &&& DRIVER_OK = 0 ∧ config'.eventIdxFlags = config.eventIdxFlags

namespace QueueWrite

theorem ite {a b : VirtioConfig} {c : Prop} [Decidable c] (ha : QueueWrite config a)
    (hb : QueueWrite config b) : QueueWrite config (if c then a else b) :=
  iteInduction (fun _ => ha) fun _ => hb

variable {f : Queue → Queue}

theorem map_modify_flag (hf : ∀ q, (f q).eventIdxEnabled = q.eventIdxEnabled) (queues : List Queue) (i : Nat) :
    (queues.modify i f).map (fun q => q.eventIdxEnabled) = queues.map fun q => q.eventIdxEnabled := by
  induction queues generalizing i with
  | nil => rw [modify_nil]
  | cons q queues ih =>
    cases i with
    | zero => rw [modify_zero_cons, map_cons, map_cons, hf]
    | succ i => rw [modify_succ_cons, map_cons, map_cons, ih]

theorem open_no_driver_ok : ∀ status : UInt8,
    status &&& (FEATURES_OK ||| (DRIVER_OK ||| FAILED)) = FEATURES_OK → status &&& DRIVER_OK = 0 := fun ⟨b⟩ => by
  revert b
  decide

theorem updateQueueField (hf : ∀ q, (f q).eventIdxEnabled = q.eventIdxEnabled) (config : VirtioConfig) :
    QueueWrite config (config.updateQueueField f) := by
  unfold VirtioConfig.updateQueueField
  split
  · rename_i hopen
    exact .inr ⟨open_no_driver_ok _ (beq_iff_eq.1 hopen), map_modify_flag hf _ _⟩
  · exact .inl rfl

end QueueWrite

theorem eventIdxEnabled_orUnchanged {q q' : Queue} {refused : Prop} [Decidable refused] {e : VirtioQueue.Error}
    (h : q'.eventIdxEnabled = q.eventIdxEnabled) :
    (q.orUnchanged (if refused then .err e else .ok q')).eventIdxEnabled = q.eventIdxEnabled := by
  split
  · rfl
  · exact h

theorem writeRegister_queues (offset : UInt64) (v : UInt32) (config : VirtioConfig) :
    QueueWrite config (config.writeRegister offset v) := by
  refine .ite (.inl rfl) ?_
  refine .ite (.ite (.inl rfl) (.inl rfl)) ?_
  refine .ite (.inl rfl) ?_
  refine .ite (.inl rfl) ?_
  refine .ite (.updateQueueField (by exact fun _ => eventIdxEnabled_orUnchanged rfl) config) ?_
  refine .ite (.updateQueueField (by exact fun _ => rfl) config) ?_
  refine .ite (.ite (.inl rfl) (.inl rfl)) ?_
  iterate 6 refine .ite (.updateQueueField (by exact fun _ => eventIdxEnabled_orUnchanged rfl) config) ?_
  exact .inl rfl

variable {w : Write}

namespace Device

theorem write_queues (h : w.status = none) (self : Device S) :
    QueueWrite self.config (self.write actions w).config := by
  rcases write_cases actions h self with heq | heq | heq | heq <;> rw [heq]
  · exact .inl rfl
  · exact writeRegister_queues w.offset (u32FromLeBytes w.data) self.config
  · exact .ite (.inl rfl) (.inl rfl)
  · exact .inl rfl

theorem write_record (h : w.status = none) (self : Device (S × List Call)) :
    (self.write actions.recorded w).inner.2 = self.inner.2 := by
  rcases write_cases actions.recorded h self with heq | heq | heq | heq <;> rw [heq] <;> rfl

end Device

/-! ## The invariant -/

/-- The configuration in which a device is activated, from the initial one. -/
structure AtActivation (initial config : VirtioConfig) : Prop where
  status : config.deviceStatus = ACKNOWLEDGE ||| DRIVER ||| FEATURES_OK
  features : config.deviceFeatures = initial.deviceFeatures
  offered : config.FeaturesOffered
  flags : config.eventIdxFlags = initial.acceptedFlags config.eventIdxNegotiated

structure Tracked (initial : VirtioConfig) (device : Device (S × List Call)) : Prop where
  features : device.config.deviceFeatures = initial.deviceFeatures
  calls : ∀ config, .activate config ∈ device.inner.2 → AtActivation initial config
  inactive : device.config.deviceStatus &&& DRIVER_OK = 0 → sinceReset device.inner.2 = []
  untouched : device.config.deviceStatus &&& DRIVER_OK = 0 → device.config.deviceStatus &&& FEATURES_OK = 0 →
    device.config.eventIdxFlags = initial.eventIdxFlags
  accepted : device.config.deviceStatus &&& DRIVER_OK = 0 → device.config.deviceStatus &&& FEATURES_OK ≠ 0 →
    device.config.FeaturesOffered ∧ device.config.eventIdxFlags = initial.acceptedFlags device.config.eventIdxNegotiated
  active : device.config.deviceStatus &&& DRIVER_OK ≠ 0 →
    ∃ config, sinceReset device.inner.2 = [config] ∧ device.config.queues = config.queues

theorem tracked_new (deviceFeatures : UInt64) (queues : List Queue) (configSpace : List UInt8) (inner : S) :
    Tracked (.new deviceFeatures queues configSpace)
      (⟨.new deviceFeatures queues configSpace, inner, []⟩ : Device (S × List Call)) where
  features := rfl
  calls := nofun
  inactive _ := rfl
  untouched _ _ := rfl
  accepted _ hok := absurd UInt8.zero_and hok
  active hactive := absurd UInt8.zero_and hactive

theorem acceptedFlags_eq (config : VirtioConfig) (negotiated : Bool) : config.acceptedFlags negotiated =
    config.eventIdxFlags.mapIdx fun i flag => (negotiated && decide (i < config.numQueues.toNat)) || flag := by
  apply ext_getElem?
  simp [VirtioConfig.acceptedFlags, VirtioConfig.eventIdxFlags, Function.comp_def]

theorem eventIdxFlags_acceptEventIdx {initial : VirtioConfig} (h : config.eventIdxFlags = initial.eventIdxFlags) :
    config.acceptEventIdx.eventIdxFlags = initial.acceptedFlags config.eventIdxNegotiated := by
  have hcount : config.numQueues = initial.numQueues := by
    have hlen := congrArg length h
    simp only [VirtioConfig.eventIdxFlags, length_map] at hlen
    rw [VirtioConfig.numQueues, VirtioConfig.numQueues, hlen]
  have hflags : config.acceptEventIdx.eventIdxFlags = config.acceptedFlags config.eventIdxNegotiated := by
    apply ext_getElem?
    intro i
    unfold VirtioConfig.acceptEventIdx VirtioConfig.acceptedFlags VirtioConfig.eventIdxFlags
    cases config.eventIdxNegotiated with
    | false => simp
    | true =>
      simp only [if_true, VirtioConfig.enableEventIdx, getElem?_map, getElem?_mapIdx, Option.map_map]
      refine congrArg (Option.map · _) (funext fun q => ?_)
      by_cases hi : i < config.numQueues.toNat <;> simp [hi, Queue.setEventIdx]
  rw [hflags, acceptedFlags_eq, acceptedFlags_eq, h, hcount]

namespace Tracked

variable {initial : VirtioConfig} {self : Device (S × List Call)}

theorem of_eq {device : Device (S × List Call)} (h : Tracked initial self) (hconfig : device.config = self.config)
    (hrecord : device.inner.2 = self.inner.2) : Tracked initial device := by
  obtain ⟨config', inner', calls'⟩ := self
  cases hconfig
  cases hrecord
  exact ⟨h.features, h.calls, h.inactive, h.untouched, h.accepted, h.active⟩

variable {status : UInt8}

theorem setDeviceStatus_early (h : Tracked initial self)
    (hcurrent : self.config.deviceStatus &&& DRIVER_OK = 0 ∧ self.config.deviceStatus &&& FEATURES_OK = 0)
    (hbits : status &&& DRIVER_OK = 0 ∧ status &&& FEATURES_OK = 0) :
    Tracked initial (self.update (VirtioConfig.setDeviceStatus status)) where
  features := h.features
  calls := h.calls
  inactive _ := h.inactive hcurrent.1
  untouched _ _ := h.untouched hcurrent.1 hcurrent.2
  accepted _ hok := absurd hbits.2 hok
  active hactive := absurd hbits.1 hactive

theorem setDeviceStatus_same (h : Tracked initial self)
    (hdriver : status &&& DRIVER_OK = self.config.deviceStatus &&& DRIVER_OK)
    (hfeatures : status &&& FEATURES_OK = self.config.deviceStatus &&& FEATURES_OK) :
    Tracked initial (self.update (VirtioConfig.setDeviceStatus status)) where
  features := h.features
  calls := h.calls
  inactive hi := h.inactive (hdriver ▸ hi)
  untouched hi hf := h.untouched (hdriver ▸ hi) (hfeatures ▸ hf)
  accepted hi hf := h.accepted (hdriver ▸ hi) (hfeatures ▸ hf)
  active ha := h.active (hdriver ▸ ha)

theorem featuresOk (h : Tracked initial self) (hcurrent : self.config.deviceStatus = ACKNOWLEDGE ||| DRIVER)
    (hbits : status &&& DRIVER_OK = 0 ∧ status &&& FEATURES_OK ≠ 0) (hoffered : self.config.FeaturesOffered) :
    Tracked initial (self.update fun config => config.acceptEventIdx.setDeviceStatus status) := by
  have hearly : self.config.deviceStatus &&& DRIVER_OK = 0 ∧ self.config.deviceStatus &&& FEATURES_OK = 0 := by
    rw [hcurrent]
    decide
  have hsame : self.config.acceptEventIdx.deviceFeatures = self.config.deviceFeatures ∧
      self.config.acceptEventIdx.driverFeatures = self.config.driverFeatures := by
    unfold VirtioConfig.acceptEventIdx
    split <;> exact ⟨rfl, rfl⟩
  have hflags := eventIdxFlags_acceptEventIdx (h.untouched hearly.1 hearly.2)
  refine ⟨hsame.1.trans h.features, h.calls, fun _ => h.inactive hearly.1, fun _ hno => absurd hno hbits.2,
    fun _ _ => ⟨hoffered.of_eq hsame.1 hsame.2, ?_⟩, fun hactive => absurd hbits.1 hactive⟩
  have hneg : self.config.acceptEventIdx.eventIdxNegotiated = self.config.eventIdxNegotiated := by
    unfold VirtioConfig.eventIdxNegotiated
    rw [hsame.2]
  show self.config.acceptEventIdx.eventIdxFlags = initial.acceptedFlags self.config.acceptEventIdx.eventIdxNegotiated
  rw [hneg]
  exact hflags

variable {inner : S × List Call}

theorem activated (h : Tracked initial self)
    (hcurrent : self.config.deviceStatus = ACKNOWLEDGE ||| DRIVER ||| FEATURES_OK) (hbits : status &&& DRIVER_OK ≠ 0)
    (hrecord : inner.2 = .activate self.config :: self.inner.2) :
    Tracked initial ⟨self.config.setDeviceStatus status, inner⟩ := by
  have hdriver : self.config.deviceStatus &&& DRIVER_OK = 0 := by
    rw [hcurrent]
    decide
  have hfeatures : self.config.deviceStatus &&& FEATURES_OK ≠ 0 := by
    rw [hcurrent]
    decide
  obtain ⟨hoffered, hflags⟩ := h.accepted hdriver hfeatures
  refine ⟨h.features, ?_, fun hno => absurd hno hbits, fun hno => absurd hno hbits, fun hno => absurd hno hbits,
    fun _ => ⟨self.config, ?_, rfl⟩⟩
  · intro config hmem
    rw [hrecord] at hmem
    rcases mem_cons.1 hmem with heq | hmem
    · cases heq
      exact ⟨hcurrent, h.features, hoffered, hflags⟩
    · exact h.calls config hmem
  · rw [hrecord, sinceReset, h.inactive hdriver]

variable {actions : Actions S}

theorem write_register (h : Tracked initial self) (hstatus : w.status = none) :
    Tracked initial (self.write actions.recorded w) := by
  have hqueues := write_queues actions.recorded hstatus self
  have hrecord := write_record actions hstatus self
  have hneg := write_negotiates actions.recorded hstatus self
  generalize self.write actions.recorded w = device at hqueues hrecord hneg
  have hflags : device.config.eventIdxFlags = self.config.eventIdxFlags := by
    rcases hqueues with heq | ⟨_, heq⟩
    · exact congrArg (map _) heq
    · exact heq
  have hsame : device.config.deviceStatus = self.config.deviceStatus ∧
      device.config.deviceFeatures = self.config.deviceFeatures ∧
      (self.config.deviceStatus &&& FEATURES_OK ≠ 0 → device.config.driverFeatures = self.config.driverFeatures) := by
    rcases hneg with ⟨hs, hdevice, hdriver⟩ | ⟨hcheck, v, heq⟩
    · exact ⟨hs, hdevice, fun _ => hdriver⟩
    · rw [heq]
      exact ⟨rfl, rfl, fun hok => absurd (driver_only_no_features_ok _ (beq_iff_eq.1 hcheck)) hok⟩
  obtain ⟨hs, hdevice, hdriver⟩ := hsame
  refine ⟨hdevice.trans h.features, ?_, ?_, ?_, ?_, ?_⟩
  · rw [hrecord]
    exact h.calls
  · rw [hs, hrecord]
    exact h.inactive
  · rw [hs, hflags]
    exact h.untouched
  · rw [hs, hflags]
    intro hno hok
    obtain ⟨hoffered, haccepted⟩ := h.accepted hno hok
    refine ⟨hoffered.of_eq hdevice (hdriver hok), ?_⟩
    rw [haccepted, VirtioConfig.eventIdxNegotiated, VirtioConfig.eventIdxNegotiated, hdriver hok]
  · rw [hs, hrecord]
    intro hactive
    obtain ⟨config, hcalls, heq⟩ := h.active hactive
    rcases hqueues with hqueues | ⟨hno, _⟩
    · exact ⟨config, hcalls, hqueues.trans heq⟩
    · exact absurd hno hactive

variable {deviceFeatures : UInt64} {queues : List Queue} {configSpace : List UInt8}

theorem reset (hreset : actions.ResetsTo (.new deviceFeatures queues configSpace))
    (h : Tracked (.new deviceFeatures queues configSpace) self) {done : Bool}
    (hcall : actions.recorded.reset self.config self.inner = (done, config, inner)) :
    Tracked (.new deviceFeatures queues configSpace) ⟨config, inner⟩ := by
  have hconfig := hreset self.config self.inner.1
  obtain ⟨rfl, rfl, rfl⟩ : _ ∧ _ ∧ _ := by simpa [Actions.recorded] using hcall
  cases hdone : (actions.reset self.config self.inner.1).1 with
  | false =>
    rw [hdone] at hconfig
    exact h.of_eq hconfig rfl
  | true =>
    rw [hdone] at hconfig
    refine ⟨?_, ?_, fun _ => rfl, fun _ _ => ?_, fun _ hok => ?_, fun hactive => ?_⟩
    · exact congrArg VirtioConfig.deviceFeatures hconfig
    · intro config hmem
      rcases mem_cons.1 hmem with heq | hmem
      · cases heq
      · exact h.calls config hmem
    · exact congrArg VirtioConfig.eventIdxFlags hconfig
    · rw [hconfig] at hok
      exact absurd UInt8.zero_and hok
    · rw [hconfig] at hactive
      exact absurd UInt8.zero_and hactive

theorem write (hreset : actions.ResetsTo (.new deviceFeatures queues configSpace))
    (h : Tracked (.new deviceFeatures queues configSpace) self) (w : Write) :
    Tracked (.new deviceFeatures queues configSpace) (self.write actions.recorded w) := by
  cases hstatus : w.status with
  | none => exact h.write_register hstatus
  | some status =>
    rw [write_of_status _ hstatus]
    generalize hdevice : self.ackDeviceStatus actions.recorded status = device
    have hacked : Acked actions.recorded self status device := hdevice ▸ acked _ status self
    cases hacked with
    | ignored => exact h
    | acknowledge changed current =>
      rw [current] at changed
      exact h.setDeviceStatus_early (by rw [current]; decide) ((stored_bits status).1 changed)
    | driver changed current =>
      rw [current] at changed
      exact h.setDeviceStatus_early (by rw [current]; decide) ((stored_bits status).2.1 changed)
    | featuresOk changed current offered =>
      rw [current] at changed
      exact h.featuresOk current ((stored_bits status).2.2 changed) offered
    | @activated inner changed current ok =>
      rw [current] at changed
      exact h.activated current (activation_bits status changed).1 (Actions.recorded_activate ok)
    | @notActivated inner failed => exact h.of_eq rfl (Actions.recorded_activate failed)
    | failed =>
      obtain ⟨_, hdriver, hfeatures⟩ := or_failed self.config.deviceStatus
      exact h.setDeviceStatus_same hdriver hfeatures
    | reset call => exact h.reset hreset call

end Tracked

namespace Device

/-- **Activation.**  A device whose reset fails and changes nothing, or restores the initial configuration, follows
any writes of the guest.  Each call of `activate` that succeeded was made in the status that the handshake leads to,
with features that were offered, and with the flags of the queues set if `EVENT_IDX` was accepted, and else as they
were initially.  Since the last reset at most one call succeeded, and the queues are those of that call. -/
theorem activated_once (deviceFeatures : UInt64) (queues : List Queue) (configSpace : List UInt8) (inner : S)
    (hreset : actions.ResetsTo (.new deviceFeatures queues configSpace)) (ws : List Write) :
    let initial := VirtioConfig.new deviceFeatures queues configSpace
    let device := run (write actions.recorded) ⟨initial, inner, []⟩ ws
    device.unrecorded = run (write actions) ⟨initial, inner⟩ ws ∧
    (∀ config, .activate config ∈ device.inner.2 → AtActivation initial config) ∧
    (sinceReset device.inner.2 = [] ∨
      ∃ config, sinceReset device.inner.2 = [config] ∧ device.config.queues = config.queues) := by
  intro initial device
  have hnew := tracked_new deviceFeatures queues configSpace inner
  have htracked : Tracked initial device :=
    run_stays (I := Tracked initial) (fun _ w h => h.write hreset w) hnew ws
  refine ⟨unrecorded_run actions _ ws, htracked.calls, ?_⟩
  by_cases hactive : device.config.deviceStatus &&& DRIVER_OK = 0
  · exact .inl (htracked.inactive hactive)
  · exact .inr (htracked.active hactive)

/-- A device that always can be activated, and that is reset to its initial configuration. -/
def restoringActions (initial : VirtioConfig) : Actions Unit where
  activate _ inner := (true, inner)
  reset _ inner := (true, initial, inner)
  queueNotify _ _ inner := inner

/-- The usual handshake, with one queue. -/
def handshake : List Write := [statusWrite 1, statusWrite 3, statusWrite 11, statusWrite 15]

theorem activated_once_handshake :
    let initial := VirtioConfig.new 0 [.default] []
    let device := run (write (restoringActions initial).recorded) ⟨initial, (), []⟩ handshake
    ∃ config, sinceReset device.inner.2 = [config] ∧ device.config.queues = config.queues := by
  intro initial device
  refine (activated_once (restoringActions initial) 0 [.default] [] () (fun _ _ => rfl) handshake).2.2.resolve_left ?_
  decide

/-- **A flag that was set stays set**: a queue that is handed to the device with `event_idx` on has it on when the
device is activated, although the driver has not accepted the feature. -/
theorem event_idx_flag_stays_set :
    let initial := VirtioConfig.new 0 [Queue.default.setEventIdx true] []
    let device := run (write (restoringActions initial).recorded) ⟨initial, (), []⟩ handshake
    (restoringActions initial).ResetsTo initial ∧
    ∃ config, sinceReset device.inner.2 = [config] ∧ config.eventIdxNegotiated = false ∧
      config.eventIdxFlags = [true] := by
  exact ⟨fun _ _ => rfl, _, rfl, by decide, by decide⟩

end Device

end RustVmm.VirtioDevice
