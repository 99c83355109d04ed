import RustVmm.EventManager.Manager

/-!
# The dispatch of events

While the events of a poll are handed out, the subscribers change the maps and the very list that is gone through.

* `EpollWrapper.Since` — what has been removed since the poll.
* `dispatch_delivers` — no event is lost, repeated or misdirected.
-/

set_option autoImplicit false

set_option linter.dupNamespace false

namespace RustVmm.EventManager

open Lib Function EventOps List Outcome Exec

variable {T : Type}

/-! ## Dispatch -/

structure EpollWrapper.Reports (w : EpollWrapper) (ready : List EpollEvent) : Prop where
  fits : ready.length ≤ w.readyEvents.length
  distinct : (ready.map EpollEvent.fd).Nodup
  registered : ∀ event ∈ ready, event.events ≠ 0 ∧
    ∃ fd registered, w.epoll.interest fd = some registered ∧ event.data = registered.data

def EventOps.removes (subscriberId : SubscriberId) (self : EpollWrapper) : EventOps.Call → List RawFd
  | .remove events => if (remove subscriberId events self).1.isOk then [events.fd] else []
  | .add _ _ | .modify _ _ => []

/-- The descriptors that calls remove, one after the other. -/
def EventOps.removesAll (subscriberId : SubscriberId) : EpollWrapper → List EventOps.Call → List RawFd
  | _, [] => []
  | self, call :: calls => removes subscriberId self call ++ removesAll subscriberId (step subscriberId self call) calls

/-- An event that has been handed to a subscriber, and the descriptors that the subscriber has removed then. -/
structure Delivery where
  subscriberId : SubscriberId
  event : EpollEvent
  removed : List RawFd
  deriving DecidableEq, Repr

namespace EventManager

/-- The manager after `poll` has been told of `ready`. -/
def polled (ready : List EpollEvent) (self : EventManager T) : EventManager T :=
  { self with epollContext.readyEvents := ready ++ self.epollContext.readyEvents.drop ready.length }

/-- The manager after a subscriber has made calls, and has become `subscriber`. -/
def processed (subscriberId : SubscriberId) (subscriber : T) (calls : List EventOps.Call) (self : EventManager T) :
    EventManager T :=
  ⟨{ self.subscribers with subscribers := Function.update self.subscribers.subscribers subscriberId (some subscriber) },
    run (EventOps.step subscriberId) self.epollContext calls⟩

/-- One pass of the loop in `dispatch_events`. -/
def dispatchEvent (process : Nat → T × List EventOps.Call) (delivered : List Delivery) (evIndex : Nat) :
    Exec (EventManager T) Empty (List Delivery) := do
  let self ← .get
  let event ← .lift (.unwrap self.epollContext.readyEvents[evIndex]?)
  if event.events = EpollEvent.default.events ∧ event.fd = EpollEvent.default.fd then return delivered
  else do
    -- Without a subscriber for the descriptor, this is the `unreachable!()`.
    let subscriberId ← .lift (.unwrap (self.epollContext.fdDispatch event.fd))
    let _ ← .lift (.unwrap (self.subscribers.subscribers subscriberId))
    let (subscriber, calls) := process evIndex
    .set (self.processed subscriberId subscriber calls)
    return delivered ++ [⟨subscriberId, event, EventOps.removesAll subscriberId self.epollContext calls⟩]

/-- The first `eventCount` passes, and what they have delivered. -/
def dispatchEvents (eventCount : Nat) (process : Nat → T × List EventOps.Call) :
    Exec (EventManager T) Empty (List Delivery) :=
  (List.range eventCount).foldlM (dispatchEvent process) []

inductive Reachable (readyEventsCapacity : Nat) : EventManager T → Prop
  | start : Reachable readyEventsCapacity (start readyEventsCapacity)
  | step {m} (h : Reachable readyEventsCapacity m) (call : Call T) : Reachable readyEventsCapacity (m.step call)
  | dispatch {m} (h : Reachable readyEventsCapacity m) {ready} (hready : m.epollContext.Reports ready)
      (process : Nat → T × List EventOps.Call) :
      Reachable readyEventsCapacity (dispatchEvents ready.length process (m.polled ready)).2

end EventManager

/-! ## What is always true -/

structure EpollWrapper.Inv (Present : SubscriberId → Prop) (w : EpollWrapper) : Prop where
  interest : ∀ fd, (w.epoll.interest fd).isSome = (w.fdDispatch fd).isSome
  fd_eq : ∀ fd event, w.epoll.interest fd = some event → event.fd = fd
  watched : ∀ fd s, w.fdDispatch fd = some s → fd ∈ w.watched s
  present : ∀ fd s, w.fdDispatch fd = some s → Present s

/-- From `before` to `after`, the descriptors of `removed` have been removed. -/
structure EpollWrapper.Since (removed : List RawFd) (before after : EpollWrapper) : Prop where
  ready : after.readyEvents = before.readyEvents.map fun event => if event.fd ∈ removed then .default else event
  dispatched : ∀ fd ∉ removed, (before.fdDispatch fd).isSome → (after.fdDispatch fd).isSome

namespace EpollWrapper

variable {Present : SubscriberId → Prop} {w before : EpollWrapper} {subscriberId : SubscriberId} {removed : List RawFd}

theorem update_eq_some {α : Type} {m : RawFd → Option α} {key fd : RawFd} {a : Option α} {b : α}
    (h : update m key a fd = some b) : (fd = key ∧ a = some b) ∨ (fd ≠ key ∧ m fd = some b) := by
  by_cases hfd : fd = key
  · rw [hfd, update_self] at h
    exact .inl ⟨hfd, h⟩
  · rw [update_of_ne hfd] at h
    exact .inr ⟨hfd, h⟩

theorem Inv.step (h : w.Inv Present) (hs : Present subscriberId) (call : EventOps.Call) :
    (EventOps.step subscriberId w call).Inv Present := by
  have hstep := EventOps.stepped subscriberId w call
  generalize EventOps.step subscriberId w call = after at hstep ⊢
  cases hstep with
  | refused => exact h
  | @registered events _ hfree =>
    refine ⟨fun fd => isSome_update events.fd rfl (h.interest fd), fun fd event heq => ?_, fun fd s heq => ?_,
      fun fd s heq => ?_⟩
    · rcases update_eq_some heq with ⟨rfl, ⟨⟩⟩ | ⟨_, heq⟩
      · rfl
      · exact h.fd_eq fd event heq
    · rw [watched_register]
      rcases update_eq_some heq with ⟨rfl, ⟨⟩⟩ | ⟨_, heq⟩
      · rw [if_pos rfl]
        exact mem_append_right _ mem_cons_self
      · split
        · rename_i hsub
          exact mem_append_left _ (hsub ▸ h.watched fd s heq)
        · exact h.watched fd s heq
    · rcases update_eq_some heq with ⟨rfl, ⟨⟩⟩ | ⟨_, heq⟩
      · exact hs
      · exact h.present fd s heq
  | @modified events _ hthere =>
    refine ⟨isSome_modify h.interest hthere _, fun fd event heq => ?_, h.watched, h.present⟩
    rcases update_eq_some heq with ⟨rfl, ⟨⟩⟩ | ⟨_, heq⟩
    · rfl
    · exact h.fd_eq fd event heq
  | @unregistered events hthere hok =>
    refine ⟨fun fd => isSome_update events.fd rfl (h.interest fd), fun fd event heq => ?_, fun fd s heq => ?_,
      fun fd s heq => ?_⟩
    all_goals rcases update_eq_some heq with ⟨_, ⟨⟩⟩ | ⟨hfd, heq⟩
    · exact h.fd_eq fd event heq
    · rw [watched_unregister]
      split
      · rename_i hsub
        exact (mem_erase_of_ne hfd).2 (hsub ▸ h.watched fd s heq)
      · exact h.watched fd s heq
    · exact h.present fd s heq

theorem Inv.run (h : w.Inv Present) (hs : Present subscriberId) (calls : List EventOps.Call) :
    (Lib.run (EventOps.step subscriberId) w calls).Inv Present :=
  run_stays (I := Inv Present) (fun _ call hw => hw.step hs call) h calls

theorem Since.step (h : Since removed before w) (call : EventOps.Call) :
    Since (removed ++ EventOps.removes subscriberId w call) before (EventOps.step subscriberId w call) := by
  have hstep := EventOps.stepped subscriberId w call
  generalize EventOps.step subscriberId w call = after at hstep ⊢
  cases hstep with
  | refused hnot =>
    have hnil : EventOps.removes subscriberId w call = [] := by
      cases call with
      | remove events =>
        refine if_neg fun hok => ?_
        obtain ⟨_, hok⟩ := isOk_iff.1 hok
        exact hnot events rfl hok
      | _ => rfl
    rwa [hnil, append_nil]
  | @registered events _ _ =>
    refine ⟨by rw [EventOps.removes, append_nil]; exact h.ready, fun fd hfd hsome => ?_⟩
    show (update w.fdDispatch events.fd _ fd).isSome
    by_cases heq : fd = events.fd
    · rw [heq, update_self]
      rfl
    · rw [update_of_ne heq]
      exact h.dispatched fd (by simpa [EventOps.removes] using hfd) hsome
  | modified =>
    rw [EventOps.removes, append_nil]
    exact ⟨h.ready, h.dispatched⟩
  | @unregistered events _ hok =>
    rw [EventOps.removes, hok]
    refine ⟨?_, fun fd hfd hsome => ?_⟩
    · show w.readyEvents.map _ = _
      rw [h.ready, map_map]
      refine map_congr_left fun event _ => ?_
      by_cases hmem : event.fd ∈ removed
      · simp [hmem]
      · simp [hmem, isOk]
    · show (update w.fdDispatch events.fd none fd).isSome
      simp only [isOk, if_true, mem_append, mem_singleton, not_or] at hfd
      rw [update_of_ne hfd.2]
      exact h.dispatched fd hfd.1 hsome

theorem Since.run (h : Since removed before w) (calls : List EventOps.Call) :
    Since (removed ++ removesAll subscriberId w calls) before
      (Lib.run (EventOps.step subscriberId) w calls) := by
  induction calls generalizing w removed with
  | nil => rwa [removesAll, append_nil]
  | cons call calls ih =>
    rw [removesAll, ← append_assoc]
    exact ih (h.step call)

theorem Inv.mono {Present' : SubscriberId → Prop} (h : w.Inv Present) (hp : ∀ s, Present s → Present' s) :
    w.Inv Present' :=
  ⟨h.interest, h.fd_eq, h.watched, fun fd s hfd => hp s (h.present fd s hfd)⟩

theorem Inv.remove (h : w.Inv Present) (subscriberId : SubscriberId) :
    (w.remove subscriberId).Inv fun s => Present s ∧ s ≠ subscriberId := by
  obtain ⟨hdispatch, hinterest, hwatched⟩ := remove_eq subscriberId w
  have hkept : ∀ {fd s}, (w.remove subscriberId).fdDispatch fd = some s → w.fdDispatch fd = some s ∧ s ≠ subscriberId := by
    intro fd s heq
    rw [hdispatch] at heq
    split at heq
    · cases heq
    · rename_i hnot
      exact ⟨heq, fun hs => hnot (h.watched fd subscriberId (hs ▸ heq))⟩
  refine ⟨fun fd => ?_, fun fd event heq => ?_, fun fd s heq => ?_, fun fd s heq => ?_⟩
  · rw [hdispatch, hinterest]
    split
    · rfl
    · exact h.interest fd
  · rw [hinterest] at heq
    split at heq
    · cases heq
    · exact h.fd_eq fd event heq
  · obtain ⟨hfd, hne⟩ := hkept heq
    rw [hwatched, if_neg hne]
    exact h.watched fd s hfd
  · obtain ⟨hfd, hne⟩ := hkept heq
    exact ⟨h.present fd s hfd, hne⟩

end EpollWrapper

namespace EventManager

/-- What holds of every manager: a dispatched descriptor belongs to a subscriber that there is. -/
def Inv (self : EventManager T) : Prop := self.epollContext.Inv fun s => (self.subscribers.subscribers s).isSome

variable {self : EventManager T}

theorem isSome_update_some (m : SubscriberId → Option T) (key : SubscriberId) (a : T) {s : SubscriberId}
    (h : (m s).isSome) : (update m key (some a) s).isSome := by
  by_cases hs : s = key
  · rw [hs, update_self]
    rfl
  · rwa [update_of_ne hs]

theorem Inv.step (h : self.Inv) (call : Call T) : (self.step call).Inv := by
  cases call with
  | addSubscriber subscriber init =>
    show Inv (addSubscriber subscriber init self).2
    have hadd : Subscribers.add subscriber self.subscribers = _ := bind_of_ok (get_apply self.subscribers) _
    unfold addSubscriber
    cases hid : checkedAdd self.subscribers.nextId 1 with
    | none =>
      rw [hadd, hid]
      exact h
    | some nextId =>
      rw [hadd, hid]
      refine EpollWrapper.Inv.run (h.mono fun s hs => isSome_update_some _ _ subscriber hs) ?_ init
      rw [update_self]
      rfl
  | removeSubscriber subscriberId =>
    show Inv (removeSubscriber subscriberId self).2
    cases hsub : self.subscribers.subscribers subscriberId with
    | none =>
      have hsame : update self.subscribers.subscribers subscriberId none = self.subscribers.subscribers :=
        update_eq_self_iff.2 hsub.symm
      unfold removeSubscriber Subscribers.remove
      rw [bind_of_ok (get_apply self), hsame, hsub]
      exact h
    | some subscriber =>
      rw [removeSubscriber_of_some hsub]
      refine (h.remove subscriberId).mono fun s hs => ?_
      dsimp only [Subscribers.remove]
      rw [update_of_ne hs.2]
      exact hs.1
  | eventOps subscriberId call =>
    show Inv (eventOps subscriberId call self).2
    unfold eventOps
    split
    · rename_i hreg
      exact EpollWrapper.Inv.step h hreg call
    · exact h

/-! ## Deliveries -/

/-- While the events of `m₀` are handed out. -/
structure Dispatching (m₀ : EventManager T) (delivered : List Delivery) (m : EventManager T) : Prop where
  inv : m.Inv
  since : EpollWrapper.Since (delivered.flatMap Delivery.removed) m₀.epollContext m.epollContext

theorem dispatchEvents_succ (i : Nat) (process : Nat → T × List EventOps.Call) :
    dispatchEvents (i + 1) process = dispatchEvents i process >>= fun delivered => dispatchEvent process delivered i := by
  unfold dispatchEvents
  rw [range_succ, foldlM_append]
  simp only [foldlM_cons, foldlM_nil, bind_pure]

variable {m₀ m : EventManager T} {delivered : List Delivery} {i : Nat} {event : EpollEvent}

theorem Dispatching.skip (h : Dispatching m₀ delivered m) (hevent : m₀.epollContext.readyEvents[i]? = some event)
    (hremoved : event.fd ∈ delivered.flatMap Delivery.removed) (process : Nat → T × List EventOps.Call) :
    dispatchEvent process delivered i m = (.ok delivered, m) := by
  have hready : m.epollContext.readyEvents[i]? = some .default := by
    rw [h.since.ready, getElem?_map, hevent, Option.map_some, if_pos hremoved]
  unfold dispatchEvent
  rw [bind_of_ok (get_apply m), hready]
  rfl

theorem Dispatching.deliver (h : Dispatching m₀ delivered m) (hevent : m₀.epollContext.readyEvents[i]? = some event)
    (hkept : event.fd ∉ delivered.flatMap Delivery.removed) (hne : event.events ≠ 0)
    (hthere : (m₀.epollContext.fdDispatch event.fd).isSome) (process : Nat → T × List EventOps.Call) :
    ∃ d m', dispatchEvent process delivered i m = (.ok (delivered ++ [d]), m') ∧ d.event = event ∧
      m.epollContext.fdDispatch event.fd = some d.subscriberId ∧ Dispatching m₀ (delivered ++ [d]) m' := by
  have hready : m.epollContext.readyEvents[i]? = some event := by
    rw [h.since.ready, getElem?_map, hevent, Option.map_some, if_neg hkept]
  obtain ⟨s, hs⟩ := Option.isSome_iff_exists.1 (h.since.dispatched event.fd hkept hthere)
  have hpresent := h.inv.present event.fd s hs
  obtain ⟨subscriber, hsub⟩ := Option.isSome_iff_exists.1 hpresent
  refine ⟨⟨s, event, EventOps.removesAll s m.epollContext (process i).2⟩,
    m.processed s (process i).1 (process i).2, ?_, rfl, hs, ?_, ?_⟩
  · unfold dispatchEvent
    rw [bind_of_ok (get_apply m), hready, lift_bind_apply]
    dsimp only [unwrap]
    rw [if_neg fun hdefault => hne hdefault.1, hs, lift_bind_apply]
    dsimp only [unwrap]
    rw [hsub]
    rfl
  · exact EpollWrapper.Inv.run (h.inv.mono fun s hs => isSome_update_some _ _ _ hs)
      (isSome_update_some _ _ _ hpresent) _
  · rw [flatMap_append, flatMap_singleton]
    exact h.since.run _

variable {ready : List EpollEvent}

theorem reported (hinv : m.Inv) (hready : m.epollContext.Reports ready) (hi : i < ready.length) :
    (m.polled ready).epollContext.readyEvents[i]? = some ready[i] ∧ ready[i].events ≠ 0 ∧
      ((m.polled ready).epollContext.fdDispatch ready[i].fd).isSome := by
  obtain ⟨hne, fd, registered, hregistered, hdata⟩ := hready.registered _ (getElem_mem hi)
  have hfd : ready[i].fd = fd := by
    rw [← hinv.fd_eq fd registered hregistered, EpollEvent.fd, hdata]
    rfl
  refine ⟨?_, hne, ?_⟩
  · show (ready ++ _)[i]? = _
    rw [getElem?_append_left hi, getElem?_eq_getElem hi]
  · show (m.epollContext.fdDispatch ready[i].fd).isSome
    rw [hfd, ← hinv.interest, hregistered]
    rfl

theorem dispatching (hinv : m.Inv) (hready : m.epollContext.Reports ready) (process : Nat → T × List EventOps.Call)
    (hi : i ≤ ready.length) : ∃ delivered mi, dispatchEvents i process (m.polled ready) = (.ok delivered, mi) ∧
      Dispatching (m.polled ready) delivered mi := by
  induction i with
  | zero =>
    exact ⟨[], _, rfl, ⟨hinv.interest, hinv.fd_eq, hinv.watched, hinv.present⟩, by simp, fun _ _ h => h⟩
  | succ i ih =>
    obtain ⟨delivered, mi, hrun, h⟩ := ih (by omega)
    obtain ⟨hevent, hne, hthere⟩ := reported hinv hready hi
    rw [dispatchEvents_succ, bind_of_ok hrun]
    by_cases hremoved : ready[i].fd ∈ delivered.flatMap Delivery.removed
    · exact ⟨delivered, mi, h.skip hevent hremoved process, h⟩
    · obtain ⟨d, m', hd, _, _, h'⟩ := h.deliver hevent hremoved hne hthere process
      exact ⟨_, m', hd, h'⟩

theorem Reachable.inv {readyEventsCapacity : Nat} (h : Reachable readyEventsCapacity m) : m.Inv := by
  induction h with
  | start => exact ⟨fun _ => rfl, nofun, nofun, nofun⟩
  | step _ call ih => exact ih.step call
  | dispatch _ hready process ih =>
    obtain ⟨_, m', hrun, h⟩ := dispatching ih hready process (Nat.le_refl _)
    rw [hrun]
    exact h.inv

/-- **No event is lost, repeated or misdirected.**  A dispatch does not panic, and each of its passes delivers its
event to the subscriber that the descriptor is registered for at that time, unless the descriptor has been removed since
the poll. -/
theorem dispatch_delivers {readyEventsCapacity : Nat} (hm : Reachable readyEventsCapacity m)
    (hready : m.epollContext.Reports ready) (process : Nat → T × List EventOps.Call) :
    (∃ delivered m', dispatchEvents ready.length process (m.polled ready) = (.ok delivered, m')) ∧
      ∀ i (hi : i < ready.length), ∃ delivered mi, dispatchEvents i process (m.polled ready) = (.ok delivered, mi) ∧
        if ready[i].fd ∈ delivered.flatMap Delivery.removed then
          dispatchEvents (i + 1) process (m.polled ready) = (.ok delivered, mi)
        else ∃ d m', dispatchEvents (i + 1) process (m.polled ready) = (.ok (delivered ++ [d]), m') ∧
          d.event = ready[i] ∧ mi.epollContext.fdDispatch ready[i].fd = some d.subscriberId := by
  refine ⟨?_, fun i hi => ?_⟩
  · obtain ⟨delivered, m', hrun, _⟩ := dispatching hm.inv hready process (Nat.le_refl _)
    exact ⟨delivered, m', hrun⟩
  · obtain ⟨delivered, mi, hrun, h⟩ := dispatching hm.inv hready process (Nat.le_of_lt hi)
    obtain ⟨hevent, hne, hthere⟩ := reported hm.inv hready hi
    refine ⟨delivered, mi, hrun, ?_⟩
    rw [dispatchEvents_succ, bind_of_ok hrun]
    split
    · rename_i hremoved
      exact h.skip hevent hremoved process
    · rename_i hkept
      obtain ⟨d, m', hd, hevent, hs, _⟩ := h.deliver hevent hkept hne hthere process
      exact ⟨d, m', hd, hevent, hs⟩

-- Two subscribers and three events: the first one, handling descriptor 7, removes its descriptor 8.
theorem dispatch_delivers_two_of_three :
    let event8 : Events := ⟨⟨1, 8⟩⟩
    let event9 : Events := ⟨⟨4, 9⟩⟩
    let m : EventManager Unit := ((start 4).step (.addSubscriber () [.add event7 none, .add event8 none])).step
      (.addSubscriber () [.add event9 none])
    let process := fun i => ((), if i = 0 then [EventOps.Call.remove event8] else [])
    let ready := [event7.inner, event8.inner, event9.inner]
    Reachable 4 m ∧ m.epollContext.Reports ready ∧
      ∃ delivered m', dispatchEvents 3 process (m.polled ready) = (.ok delivered, m') ∧
        delivered.map (fun d => (d.subscriberId, d.event)) = [(1, event7.inner), (2, event9.inner)] := by
  intro event8 event9 m process ready
  have hm : Reachable 4 m := .step (.step .start _) _
  have hready : m.epollContext.Reports ready := by
    refine ⟨by decide, by decide, ?_⟩
    intro e he
    simp only [ready, mem_cons, not_mem_nil, or_false] at he
    rcases he with rfl | rfl | rfl
    · exact ⟨by decide, 7, event7.inner, rfl, rfl⟩
    · exact ⟨by decide, 8, event8.inner, rfl, rfl⟩
    · exact ⟨by decide, 9, event9.inner, rfl, rfl⟩
  obtain ⟨delivered, m', hrun⟩ := (dispatch_delivers hm hready process).1
  refine ⟨hm, hready, delivered, m', hrun, ?_⟩
  have hout : (dispatchEvents 3 process (m.polled ready)).1 =
      .ok [⟨1, event7.inner, [8]⟩, ⟨2, event9.inner, []⟩] := by
    decide
  cases (congrArg Prod.fst hrun).symm.trans hout
  rfl

end EventManager

end RustVmm.EventManager
