import RustVmm.Lib.U64
import RustVmm.EventManager.Epoll

/-!
# The event manager

Model of `manager.rs` and `subscribers.rs`, without the dispatch.  What a subscriber does in `init` is a list of calls.

* `bookkeeping_iff` — the maps agree, and subscribers are isolated, exactly if nobody removes a foreign descriptor.
-/

set_option autoImplicit false

set_option linter.dupNamespace false

namespace RustVmm.EventManager

open Lib EventOps EpollWrapper

variable {T : Type}

/-! ## Subscribers -/

structure Subscribers (T : Type) where
  subscribers : SubscriberId → Option T
  nextId : Nat

namespace Subscribers

def new : Subscribers T := ⟨fun _ => none, 1⟩

/-- `Subscribers::add`; incrementing the id panics on overflow. -/
def add (subscriber : T) : Exec (Subscribers T) Error SubscriberId := do
  let self ← .get
  let nextId ← .lift (.unwrap (checkedAdd self.nextId 1))
  .set ⟨Function.update self.subscribers self.nextId (some subscriber), nextId⟩
  return self.nextId

def remove (subscriberId : SubscriberId) (self : Subscribers T) : Option T × Subscribers T :=
  (self.subscribers subscriberId,
    { self with subscribers := Function.update self.subscribers subscriberId none })

def contains (subscriberId : SubscriberId) (self : Subscribers T) : Bool :=
  (self.subscribers subscriberId).isSome

end Subscribers

/-! ## The manager -/

structure EventManager (T : Type) where
  subscribers : Subscribers T
  epollContext : EpollWrapper

/-- `i32::MAX as usize / size_of::<EpollEvent>()`, where an event has 12 bytes. -/
def MAX_READY_EVENTS_CAPACITY : Nat := (2 ^ 31 - 1) / 12

namespace EventManager

def start (readyEventsCapacity : Nat) : EventManager T := ⟨.new, .new readyEventsCapacity⟩

/-- `EventManager::new_with_capacity`, where `refused` is an error of `epoll_create`. -/
def newWithCapacity (readyEventsCapacity : Nat) (refused : Option Errno) :
    Outcome Error (EventManager T) :=
  if readyEventsCapacity > MAX_READY_EVENTS_CAPACITY then .err .invalidCapacity
  else match refused with
    | some errno => .err (.epoll errno)
    | none => .ok (start readyEventsCapacity)

/-- `EventManager::add_subscriber`, where `init` are the calls of the subscriber's `init`. -/
def addSubscriber (subscriber : T) (init : List EventOps.Call) :
    Exec (EventManager T) Error SubscriberId := fun self =>
  match Subscribers.add subscriber self.subscribers with
  | (.ok subscriberId, subscribers) =>
    (.ok subscriberId, ⟨subscribers, run (EventOps.step subscriberId) self.epollContext init⟩)
  | (.err e, subscribers) => (.err e, { self with subscribers })
  | (.panic, subscribers) => (.panic, { self with subscribers })

def removeSubscriber (subscriberId : SubscriberId) : Exec (EventManager T) Error T := do
  let self ← .get
  let (removed, subscribers) := self.subscribers.remove subscriberId
  .set { self with subscribers }
  let subscriber ← .lift (.okOr removed .invalidId)
  .set ⟨subscribers, self.epollContext.remove subscriberId⟩
  return subscriber

/-- `EventManager::event_ops`, and a call of what it returns. -/
def eventOps (subscriberId : SubscriberId) (call : EventOps.Call) : Exec (EventManager T) Error Unit :=
  fun self =>
    if self.subscribers.contains subscriberId then
      let (result, epollContext) := EventOps.perform subscriberId call self.epollContext
      (result, { self with epollContext })
    else (.err .invalidId, self)

end EventManager

inductive Call (T : Type) where
  | addSubscriber (subscriber : T) (init : List EventOps.Call)
  | removeSubscriber (subscriberId : SubscriberId)
  | eventOps (subscriberId : SubscriberId) (call : EventOps.Call)

namespace EventManager

def step (self : EventManager T) : Call T → EventManager T
  | .addSubscriber subscriber init => (addSubscriber subscriber init self).2
  | .removeSubscriber subscriberId => (removeSubscriber subscriberId self).2
  | .eventOps subscriberId call => (eventOps subscriberId call self).2

/-! ## One call -/

/-- No subscriber removes a descriptor of another one during the call. -/
def RemovesOwn (self : EventManager T) : Call T → Prop
  | .addSubscriber subscriber init => ∀ subscriberId subscribers,
      Subscribers.add subscriber self.subscribers = (.ok subscriberId, subscribers) →
        Along (EventOps.step subscriberId) (EventOps.RemovesOwn subscriberId) self.epollContext init
  | .removeSubscriber _ => True
  | .eventOps subscriberId call =>
      self.subscribers.contains subscriberId → EventOps.RemovesOwn subscriberId self.epollContext call

theorem addSubscriber_cases (subscriber : T) (init : List EventOps.Call) (self : EventManager T) :
    ((∀ subscriberId subscribers, Subscribers.add subscriber self.subscribers ≠ (.ok subscriberId, subscribers)) ∧
      (addSubscriber subscriber init self).2.epollContext = self.epollContext) ∨
    ∃ subscriberId subscribers,
      Subscribers.add subscriber self.subscribers = (.ok subscriberId, subscribers) ∧
        (addSubscriber subscriber init self).2.epollContext =
          run (EventOps.step subscriberId) self.epollContext init := by
  unfold addSubscriber
  rcases Subscribers.add subscriber self.subscribers with ⟨result, subscribers⟩
  cases result with
  | ok subscriberId => exact .inr ⟨subscriberId, subscribers, rfl, rfl⟩
  | err e | panic => exact .inl ⟨nofun, rfl⟩

variable {self : EventManager T} {subscriberId : SubscriberId}

theorem removeSubscriber_of_none (h : self.subscribers.subscribers subscriberId = none) :
    (removeSubscriber subscriberId self).2.epollContext = self.epollContext := by
  unfold removeSubscriber Subscribers.remove
  rw [Exec.bind_of_ok (Exec.get_apply self), h]
  rfl

theorem removeSubscriber_of_some {subscriber : T} (h : self.subscribers.subscribers subscriberId = some subscriber) :
    removeSubscriber subscriberId self =
      (.ok subscriber, ⟨(self.subscribers.remove subscriberId).2, self.epollContext.remove subscriberId⟩) := by
  unfold removeSubscriber Subscribers.remove
  rw [Exec.bind_of_ok (Exec.get_apply self), h]
  rfl

theorem eventOps_epollContext (subscriberId : SubscriberId) (call : EventOps.Call) (self : EventManager T) :
    (eventOps subscriberId call self).2.epollContext =
      if self.subscribers.contains subscriberId then EventOps.step subscriberId self.epollContext call
      else self.epollContext := by
  unfold eventOps
  split <;> rfl

theorem agrees_step (h : self.epollContext.Agrees) {call : Call T} (hown : self.RemovesOwn call) :
    (self.step call).epollContext.Agrees := by
  cases call with
  | addSubscriber subscriber init =>
    rcases addSubscriber_cases subscriber init self with ⟨_, hsame⟩ | ⟨subscriberId, subscribers, hadd, hrun⟩
    · exact hsame ▸ h
    · show EpollWrapper.Agrees (addSubscriber subscriber init self).2.epollContext
      rw [hrun]
      refine Along.run_invariant (fun w c hw hc => ?_) h (hown subscriberId subscribers hadd)
      exact EventOps.agrees_step hw hc
  | removeSubscriber subscriberId =>
    show EpollWrapper.Agrees (removeSubscriber subscriberId self).2.epollContext
    cases hsub : self.subscribers.subscribers subscriberId with
    | none =>
      rw [removeSubscriber_of_none hsub]
      exact h
    | some subscriber =>
      rw [removeSubscriber_of_some hsub]
      exact (h.unregistered_remove subscriberId).agrees h
  | eventOps subscriberId call =>
    show EpollWrapper.Agrees (eventOps subscriberId call self).2.epollContext
    rw [eventOps_epollContext]
    split
    · rename_i hreg
      exact EventOps.agrees_step h (hown hreg)
    · exact h

theorem removesOwn_of_agrees (h : self.epollContext.Agrees) {call : Call T}
    (hafter : (self.step call).epollContext.Agrees) : self.RemovesOwn call := by
  cases call with
  | addSubscriber subscriber init =>
    intro subscriberId subscribers hadd
    rcases addSubscriber_cases subscriber init self with ⟨hnone, _⟩ | ⟨_, _, hadd', hrun⟩
    · exact absurd hadd (hnone _ _)
    · cases hadd.symm.trans hadd'
      exact EventOps.along_removesOwn h (hrun ▸ hafter)
  | removeSubscriber subscriberId => trivial
  | eventOps subscriberId call =>
    intro hreg
    have hafter : EpollWrapper.Agrees (eventOps subscriberId call self).2.epollContext := hafter
    rw [eventOps_epollContext, if_pos hreg] at hafter
    by_contra hnot
    obtain ⟨_, _, _, hstale⟩ := EventOps.stale_of_not_removesOwn h hnot
    exact hstale.not_agrees hafter

/-! ## Runs -/

/-- Removing any subscriber would end exactly its own registrations. -/
def Isolates (self : EventManager T) : Prop :=
  ∀ subscriberId subscriber, self.subscribers.subscribers subscriberId = some subscriber →
    (removeSubscriber subscriberId self).1 = .ok subscriber ∧
      EpollWrapper.Unregistered subscriberId self.epollContext
        (removeSubscriber subscriberId self).2.epollContext

theorem isolates_of_agrees (h : self.epollContext.Agrees) : self.Isolates := by
  intro subscriberId subscriber hsub
  rw [removeSubscriber_of_some hsub]
  exact ⟨rfl, h.unregistered_remove subscriberId⟩

/-- **Bookkeeping and isolation.**  After every call of a sequence the interest set, the dispatch map and
the watch lists agree, and removing a subscriber would end its own registrations only, exactly if no
subscriber removes a descriptor that is dispatched to another one. -/
theorem bookkeeping_iff (readyEventsCapacity : Nat) (calls : List (Call T)) : (∀ done, done <+: calls →
      let m := run step (start readyEventsCapacity) done
      ((∀ fd s, (m.epollContext.watched s).count fd =
          if m.epollContext.fdDispatch fd = some s then 1 else 0) ∧
        ∀ fd, (m.epollContext.epoll.interest fd).isSome = (m.epollContext.fdDispatch fd).isSome) ∧
      m.Isolates) ↔
      Along step RemovesOwn (start readyEventsCapacity) calls := by
  have hstep (m : EventManager T) (call : Call T) (h : m.epollContext.Agrees) :
      (m.step call).epollContext.Agrees ↔ m.RemovesOwn call :=
    ⟨removesOwn_of_agrees h, agrees_step h⟩
  rw [← prefix_iff_along hstep (agrees_new readyEventsCapacity)]
  refine forall₂_congr fun done _ => ⟨fun h => ⟨h.1.1, h.1.2⟩, fun h => ?_⟩
  exact ⟨⟨h.count, h.interest⟩, isolates_of_agrees h⟩

def event7 : Events := ⟨⟨1, 7⟩⟩

theorem removal_ends_foreign_registration :
    let m := run step (start 256) [.addSubscriber () [.add event7 none],
      .addSubscriber () [.remove event7, .add event7 none]]
    let m' := (removeSubscriber 1 m).2
    (removeSubscriber 1 m).1 = .ok () ∧ m.epollContext.fdDispatch 7 = some 2 ∧ m.epollContext.watched 1 = [7] ∧
      (m.epollContext.epoll.interest 7).isSome = true ∧
      m'.epollContext.fdDispatch 7 = none ∧ (m'.epollContext.epoll.interest 7).isSome = false := by
  decide

end EventManager

end RustVmm.EventManager
