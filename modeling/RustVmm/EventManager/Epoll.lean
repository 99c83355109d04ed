import Mathlib.Logic.Function.Basic
import RustVmm.Lib.Outcome
import RustVmm.Lib.Run

/-!
# Descriptors and their subscribers

Model of `epoll.rs` and `events.rs`.  The kernel's interest set, the dispatch map and the watch lists are kept apart.

* `EventOps.stepped` — all that a call of a subscriber can do.
* `EpollWrapper.Agrees` — the three are about the same registrations, which a call keeps if `RemovesOwn`.
-/

set_option autoImplicit false

namespace RustVmm.EventManager

open Lib Function List

abbrev RawFd := Int32

abbrev Errno := Nat

abbrev SubscriberId := Nat

inductive Error where
  | epoll (errno : Errno)
  | fdAlreadyRegistered
  | invalidId
  | invalidCapacity
  deriving DecidableEq, Repr

/-! ## The kernel -/

structure EpollEvent where
  events : UInt32
  data : UInt64
  deriving DecidableEq, Repr

namespace EpollEvent

def default : EpollEvent := ⟨0, 0⟩

def fd (self : EpollEvent) : RawFd := self.data.toUInt32.toInt32

end EpollEvent

inductive ControlOperation where
  | add
  | modify
  | delete
  deriving DecidableEq, Repr

def ENOENT : Errno := 2
def EEXIST : Errno := 17

structure Epoll where
  interest : RawFd → Option EpollEvent

/-- `Epoll::ctl`, where `refused` is an error that the kernel may have for adding or modifying. -/
def Epoll.ctl (op : ControlOperation) (fd : RawFd) (event : EpollEvent) (refused : Option Errno) :
    Exec Epoll Errno Unit := fun self =>
  match op, self.interest fd, refused with
  | .add, some _, _ => (.err EEXIST, self)
  | .add, none, some errno => (.err errno, self)
  | .add, none, none => (.ok (), ⟨Function.update self.interest fd (some event)⟩)
  | .modify, none, _ => (.err ENOENT, self)
  | .modify, some _, some errno => (.err errno, self)
  | .modify, some _, none => (.ok (), ⟨Function.update self.interest fd (some event)⟩)
  | .delete, none, _ => (.err ENOENT, self)
  | .delete, some _, _ => (.ok (), ⟨Function.update self.interest fd none⟩)

/-! ## The wrapper -/

structure EpollWrapper where
  epoll : Epoll
  fdDispatch : RawFd → Option SubscriberId
  subscriberWatchList : SubscriberId → Option (List RawFd)
  readyEvents : List EpollEvent

namespace EpollWrapper

def new (readyEventsCapacity : Nat) : EpollWrapper :=
  ⟨⟨fun _ => none⟩, fun _ => none, fun _ => none, List.replicate readyEventsCapacity .default⟩

def ctl (op : ControlOperation) (fd : RawFd) (event : EpollEvent) (refused : Option Errno) :
    Exec EpollWrapper Errno Unit := fun self =>
  let (result, epoll) := Epoll.ctl op fd event refused self.epoll
  (result, { self with epoll })

def removeEvent (fd : RawFd) (self : EpollWrapper) : EpollWrapper :=
  { self with
    fdDispatch := Function.update self.fdDispatch fd none
    readyEvents := self.readyEvents.map fun event => if event.fd = fd then .default else event }

/-- One pass of the loop in `EpollWrapper::remove`; the result of `ctl` is ignored. -/
def removeFd (self : EpollWrapper) (fd : RawFd) : EpollWrapper :=
  removeEvent fd (ctl .delete fd .default none self).2

def remove (subscriberId : SubscriberId) (self : EpollWrapper) : EpollWrapper :=
  let fds := (self.subscriberWatchList subscriberId).getD []
  fds.foldl removeFd
    { self with subscriberWatchList := Function.update self.subscriberWatchList subscriberId none }

def watched (self : EpollWrapper) (subscriberId : SubscriberId) : List RawFd :=
  (self.subscriberWatchList subscriberId).getD []

end EpollWrapper

/-! ## The operations of a subscriber -/

structure Events where
  inner : EpollEvent
  deriving DecidableEq, Repr

def Events.fd (self : Events) : RawFd := self.inner.fd

namespace EventOps

def ctl (op : ControlOperation) (events : Events) (refused : Option Errno) :
    Exec EpollWrapper Error Unit := fun self =>
  let (result, self) := EpollWrapper.ctl op events.fd events.inner refused self
  (result.mapErr .epoll, self)

def add (subscriberId : SubscriberId) (events : Events) (refused : Option Errno) :
    Exec EpollWrapper Error Unit := do
  let self ← .get
  .lift (.ensure (self.fdDispatch events.fd).isNone .fdAlreadyRegistered)
  ctl .add events refused
  let self ← .get
  .set { self with
    fdDispatch := Function.update self.fdDispatch events.fd (some subscriberId)
    subscriberWatchList := Function.update self.subscriberWatchList subscriberId
      (some (self.watched subscriberId ++ [events.fd])) }

def modify (events : Events) (refused : Option Errno) : Exec EpollWrapper Error Unit :=
  ctl .modify events refused

/-- `EventOps::remove`; the first occurrence on the watch list is removed. -/
def remove (subscriberId : SubscriberId) (events : Events) : Exec EpollWrapper Error Unit := do
  ctl .delete events none
  let self ← .get
  let self := self.removeEvent events.fd
  .set { self with
    subscriberWatchList := Function.update self.subscriberWatchList subscriberId
      ((self.subscriberWatchList subscriberId).map (·.erase events.fd)) }

inductive Call where
  | add (events : Events) (refused : Option Errno)
  | modify (events : Events) (refused : Option Errno)
  | remove (events : Events)
  deriving DecidableEq, Repr

def perform (subscriberId : SubscriberId) : Call → Exec EpollWrapper Error Unit
  | .add events refused => add subscriberId events refused
  | .modify events refused => modify events refused
  | .remove events => remove subscriberId events

def step (subscriberId : SubscriberId) (self : EpollWrapper) (call : Call) : EpollWrapper :=
  (perform subscriberId call self).2

/-! ## What the calls do -/

def register (subscriberId : SubscriberId) (events : Events) (self : EpollWrapper) : EpollWrapper :=
  { self with
    epoll := ⟨Function.update self.epoll.interest events.fd (some events.inner)⟩
    fdDispatch := Function.update self.fdDispatch events.fd (some subscriberId)
    subscriberWatchList := Function.update self.subscriberWatchList subscriberId
      (some (self.watched subscriberId ++ [events.fd])) }

/-- The end of a registration, by a subscriber that may be another one. -/
def unregister (subscriberId : SubscriberId) (fd : RawFd) (self : EpollWrapper) : EpollWrapper :=
  { self with
    epoll := ⟨Function.update self.epoll.interest fd none⟩
    fdDispatch := Function.update self.fdDispatch fd none
    subscriberWatchList := Function.update self.subscriberWatchList subscriberId
      ((self.subscriberWatchList subscriberId).map (·.erase fd))
    readyEvents := self.readyEvents.map fun event => if event.fd = fd then .default else event }

theorem add_cases (subscriberId : SubscriberId) (events : Events) (refused : Option Errno) (self : EpollWrapper) :
    (∃ e, add subscriberId events refused self = (.err e, self)) ∨
      (self.fdDispatch events.fd = none ∧ self.epoll.interest events.fd = none ∧
        add subscriberId events refused self = (.ok (), register subscriberId events self)) := by
  unfold add
  rw [Exec.bind_of_ok (Exec.get_apply self)]
  cases hd : self.fdDispatch events.fd with
  | some id => exact .inl ⟨_, rfl⟩
  | none =>
    rw [Exec.lift_bind_apply]
    rw [Exec.bind_apply]
    unfold ctl EpollWrapper.ctl Epoll.ctl
    cases hi : self.epoll.interest events.fd with
    | some event => exact .inl ⟨_, rfl⟩
    | none =>
      cases refused with
      | some errno => exact .inl ⟨_, rfl⟩
      | none => exact .inr ⟨rfl, rfl, rfl⟩

theorem modify_cases (events : Events) (refused : Option Errno) (self : EpollWrapper) :
    (∃ e, modify events refused self = (.err e, self)) ∨
      ((self.epoll.interest events.fd).isSome ∧ modify events refused self = (.ok (), { self with
        epoll := ⟨update self.epoll.interest events.fd (some events.inner)⟩ })) := by
  unfold modify ctl EpollWrapper.ctl Epoll.ctl
  cases hi : self.epoll.interest events.fd with
  | none => exact .inl ⟨_, rfl⟩
  | some event =>
    cases refused with
    | some errno => exact .inl ⟨_, rfl⟩
    | none => exact .inr ⟨rfl, rfl⟩

theorem remove_cases (subscriberId : SubscriberId) (events : Events) (self : EpollWrapper) :
    (self.epoll.interest events.fd = none ∧ ∃ e, remove subscriberId events self = (.err e, self)) ∨
      ((self.epoll.interest events.fd).isSome ∧
        remove subscriberId events self = (.ok (), unregister subscriberId events.fd self)) := by
  unfold remove
  rw [Exec.bind_apply]
  unfold ctl EpollWrapper.ctl Epoll.ctl
  cases hi : self.epoll.interest events.fd with
  | none => exact .inl ⟨rfl, _, rfl⟩
  | some event => exact .inr ⟨rfl, rfl⟩

inductive Stepped (subscriberId : SubscriberId) (self : EpollWrapper) : Call → EpollWrapper → Prop
  | refused {call : Call} (hnot : ∀ events, call = .remove events → (remove subscriberId events self).1 ≠ .ok ()) :
      Stepped subscriberId self call self
  | registered {events : Events} {refused : Option Errno} (hfree : self.fdDispatch events.fd = none) :
      Stepped subscriberId self (.add events refused) (register subscriberId events self)
  | modified {events : Events} {refused : Option Errno} (hthere : (self.epoll.interest events.fd).isSome) :
      Stepped subscriberId self (.modify events refused)
        { self with epoll := ⟨Function.update self.epoll.interest events.fd (some events.inner)⟩ }
  | unregistered {events : Events} (hthere : (self.epoll.interest events.fd).isSome)
      (hok : (remove subscriberId events self).1 = .ok ()) :
      Stepped subscriberId self (.remove events) (unregister subscriberId events.fd self)

theorem stepped (subscriberId : SubscriberId) (self : EpollWrapper) (call : Call) :
    Stepped subscriberId self call (step subscriberId self call) := by
  unfold step perform
  cases call with
  | add events refused =>
    rcases add_cases subscriberId events refused self with ⟨e, h⟩ | ⟨hfree, _, h⟩ <;> dsimp only <;> rw [h]
    · exact .refused nofun
    · exact .registered hfree
  | modify events refused =>
    rcases modify_cases events refused self with ⟨e, h⟩ | ⟨hthere, h⟩ <;> dsimp only <;> rw [h]
    · exact .refused nofun
    · exact .modified hthere
  | remove events =>
    rcases remove_cases subscriberId events self with ⟨_, e, h⟩ | ⟨hthere, h⟩ <;> dsimp only <;> rw [h]
    · refine .refused fun events' heq hok => ?_
      cases heq
      rw [h] at hok
      cases hok
    · exact .unregistered hthere (congrArg Prod.fst h)

end EventOps

/-! ## Agreement -/

variable {subscriberId : SubscriberId}

namespace EpollWrapper

structure Agrees (w : EpollWrapper) : Prop where
  count : ∀ fd s, (w.watched s).count fd = if w.fdDispatch fd = some s then 1 else 0
  interest : ∀ fd, (w.epoll.interest fd).isSome = (w.fdDispatch fd).isSome

theorem agrees_new (readyEventsCapacity : Nat) : (new readyEventsCapacity).Agrees := ⟨fun _ _ => rfl, fun _ => rfl⟩

variable {self : EpollWrapper} {fd : RawFd}

theorem Agrees.mem_watched (h : self.Agrees) {s : SubscriberId} :
    fd ∈ self.watched s ↔ self.fdDispatch fd = some s := by
  rw [← count_pos_iff, h.count]
  split
  · rename_i hd
    exact iff_of_true Nat.one_pos hd
  · rename_i hd
    exact iff_of_false (Nat.lt_irrefl 0) hd

theorem getD_update (m : SubscriberId → Option (List RawFd)) (key : SubscriberId) (fds : Option (List RawFd))
    (s : SubscriberId) : (update m key fds s).getD [] = if s = key then fds.getD [] else (m s).getD [] := by
  by_cases hs : s = key
  · rw [if_pos hs, hs, update_self]
  · rw [if_neg hs, update_of_ne hs]

theorem watched_register (subscriberId : SubscriberId) (events : Events) (self : EpollWrapper)
    (s : SubscriberId) : (EventOps.register subscriberId events self).watched s =
      if s = subscriberId then self.watched subscriberId ++ [events.fd] else self.watched s :=
  getD_update ..

theorem watched_unregister (subscriberId : SubscriberId) (fd : RawFd) (self : EpollWrapper)
    (s : SubscriberId) : (EventOps.unregister subscriberId fd self).watched s =
      if s = subscriberId then (self.watched subscriberId).erase fd else self.watched s := by
  refine (getD_update ..).trans ?_
  unfold watched
  cases self.subscriberWatchList subscriberId <;> rfl

theorem isSome_update {α β : Type} {m : RawFd → Option α} {m' : RawFd → Option β} (key : RawFd) {a : Option α}
    {b : Option β} (hkey : a.isSome = b.isSome) (hfd : (m fd).isSome = (m' fd).isSome) :
    (update m key a fd).isSome = (update m' key b fd).isSome := by
  by_cases heq : fd = key
  · rw [heq, update_self, update_self, hkey]
  · rw [update_of_ne heq, update_of_ne heq, hfd]

theorem isSome_modify {key : RawFd} (h : ∀ fd, (self.epoll.interest fd).isSome = (self.fdDispatch fd).isSome)
    (hkey : (self.epoll.interest key).isSome) (event : EpollEvent) (fd : RawFd) :
    (update self.epoll.interest key (some event) fd).isSome = (self.fdDispatch fd).isSome := by
  have hsame := isSome_update (a := some event) key (h key ▸ hkey).symm (h fd)
  rwa [update_eq_self] at hsame

theorem Agrees.register (h : self.Agrees) {events : Events} (hfree : self.fdDispatch events.fd = none)
    (subscriberId : SubscriberId) : (EventOps.register subscriberId events self).Agrees := by
  refine ⟨fun fd s => ?_, fun fd => ?_⟩
  · have hcount := h.count fd s
    rw [watched_register]
    show _ = if update self.fdDispatch events.fd (some subscriberId) fd = some s then 1 else 0
    by_cases hfd : fd = events.fd
    · -- the new descriptor: on no list before, and on the list of its subscriber now
      rw [hfd, update_self]
      rw [hfd, hfree, if_neg nofun] at hcount
      by_cases hs : s = subscriberId
      · rw [hs] at hcount ⊢
        rw [if_pos rfl, if_pos rfl, count_append, hcount, count_singleton_self]
      · rw [if_neg hs, if_neg (fun heq => hs (Option.some.inj heq).symm), hcount]
    · rw [update_of_ne hfd, ← hcount]
      split
      · rename_i hs
        rw [hs, count_append, count_singleton, if_neg (by simpa using Ne.symm hfd), Nat.add_zero]
      · rfl
  · exact isSome_update events.fd rfl (h.interest fd)

theorem Agrees.unregister (h : self.Agrees)
    (hown : self.fdDispatch fd = some subscriberId) : (EventOps.unregister subscriberId fd self).Agrees := by
  refine ⟨fun fd' s => ?_, fun fd' => ?_⟩
  · have hcount := h.count fd' s
    rw [watched_unregister]
    show _ = if update self.fdDispatch fd none fd' = some s then 1 else 0
    by_cases hfd : fd' = fd
    · have hnone : ¬ (none : Option SubscriberId) = some s := nofun
      rw [hfd, update_self, if_neg hnone]
      rw [hfd, hown] at hcount
      by_cases hs : s = subscriberId
      · rw [hs] at hcount ⊢
        rw [if_pos rfl, count_erase_self, hcount, if_pos rfl]
      · rw [if_neg hs, hcount, if_neg (fun heq => hs (Option.some.inj heq).symm)]
    · rw [update_of_ne hfd, ← hcount]
      split
      · rename_i hs
        rw [hs, count_erase_of_ne hfd]
      · rfl
  · exact isSome_update fd rfl (h.interest fd')

theorem Agrees.modify (h : self.Agrees) (event : EpollEvent) (hfd : (self.epoll.interest fd).isSome) :
    Agrees { self with epoll := ⟨update self.epoll.interest fd (some event)⟩ } :=
  ⟨h.count, isSome_modify h.interest hfd event⟩

end EpollWrapper

namespace EventOps

open EpollWrapper

/-- A call does not remove a descriptor of another subscriber. -/
def RemovesOwn (subscriberId : SubscriberId) (self : EpollWrapper) : Call → Prop
  | .remove events => (self.epoll.interest events.fd).isSome → self.fdDispatch events.fd = some subscriberId
  | _ => True

variable {self : EpollWrapper} {subscriberId owner : SubscriberId}

theorem agrees_step (h : self.Agrees) {call : Call} (hown : RemovesOwn subscriberId self call) :
    (step subscriberId self call).Agrees := by
  have hstep := stepped subscriberId self call
  generalize step subscriberId self call = after at hstep ⊢
  cases hstep with
  | refused => exact h
  | registered hfree => exact h.register hfree subscriberId
  | modified hthere => exact h.modify _ hthere
  | unregistered hthere _ => exact h.unregister (hown hthere)

/-- A descriptor on the watch list of a subscriber to which it is not dispatched. -/
def Stale (owner : SubscriberId) (fd : RawFd) (self : EpollWrapper) : Prop :=
  fd ∈ self.watched owner ∧ self.fdDispatch fd ≠ some owner

theorem Stale.not_agrees {fd : RawFd} (h : Stale owner fd self) : ¬ self.Agrees := fun ha => h.2 (ha.mem_watched.1 h.1)

theorem stale_of_not_removesOwn (h : self.Agrees) {call : Call} (hown : ¬ RemovesOwn subscriberId self call) :
    ∃ owner fd, owner ≠ subscriberId ∧ Stale owner fd (step subscriberId self call) := by
  cases call with
  | add events refused | modify events refused => exact absurd trivial hown
  | remove events =>
    obtain ⟨hsome, hne⟩ := Classical.not_imp.1 hown
    rcases remove_cases subscriberId events self with ⟨hnone, _⟩ | ⟨hthere, hremove⟩
    · rw [hnone] at hsome
      cases hsome
    · rw [h.interest] at hthere
      obtain ⟨owner, howner⟩ := Option.isSome_iff_exists.1 hthere
      have hother : owner ≠ subscriberId := fun heq => hne (heq ▸ howner)
      refine ⟨owner, events.fd, hother, ?_⟩
      show Stale owner events.fd (remove subscriberId events self).2
      rw [hremove]
      refine ⟨?_, ?_⟩
      · rw [watched_unregister, if_neg hother]
        exact h.mem_watched.2 howner
      · show update self.fdDispatch events.fd none events.fd ≠ some owner
        rw [update_self]
        exact nofun

theorem Stale.update {after : EpollWrapper} {fd key : RawFd} {s : Option SubscriberId} (h : Stale owner fd self)
    (hwatched : after.watched owner = self.watched owner)
    (hdispatch : after.fdDispatch = Function.update self.fdDispatch key s) (hs : s ≠ some owner) :
    Stale owner fd after := by
  refine ⟨hwatched ▸ h.1, ?_⟩
  rw [hdispatch]
  by_cases hfd : fd = key
  · rw [hfd, update_self]
    exact hs
  · rw [update_of_ne hfd]
    exact h.2

theorem Stale.step {fd : RawFd} (h : Stale owner fd self) (hother : owner ≠ subscriberId) (call : Call) :
    Stale owner fd (EventOps.step subscriberId self call) := by
  have hstep := stepped subscriberId self call
  generalize EventOps.step subscriberId self call = after at hstep ⊢
  cases hstep with
  | refused | modified => exact h
  | registered =>
    refine h.update ?_ rfl fun heq => hother (Option.some.inj heq).symm
    rw [watched_register, if_neg hother]
  | unregistered =>
    refine h.update ?_ rfl nofun
    rw [watched_unregister, if_neg hother]

theorem along_removesOwn {calls : List Call} (h : self.Agrees)
    (hafter : (run (EventOps.step subscriberId) self calls).Agrees) :
    Along (EventOps.step subscriberId) (RemovesOwn subscriberId) self calls := by
  induction calls generalizing self with
  | nil => trivial
  | cons call calls ih =>
    have hown : RemovesOwn subscriberId self call := by
      by_contra hnot
      obtain ⟨owner, fd, hother, hstale⟩ := stale_of_not_removesOwn h hnot
      have hstay : Stale owner fd (run (EventOps.step subscriberId) (step subscriberId self call) calls) :=
        run_stays (I := Stale owner fd) (fun _ c hw => hw.step hother c) hstale calls
      exact hstay.not_agrees hafter
    exact ⟨hown, ih (agrees_step h hown) hafter⟩

end EventOps

/-! ## Removal of a subscriber -/

namespace EpollWrapper

theorem ite_mem_update {α : Type} (m : RawFd → Option α) (first fd : RawFd) (fds : List RawFd) :
    (if fd ∈ fds then none else update m first none fd) =
      if fd ∈ first :: fds then none else m fd := by
  by_cases hfd : fd = first
  · rw [hfd, update_self, if_pos mem_cons_self, ite_self]
  · rw [update_of_ne hfd]
    simp only [mem_cons, hfd, false_or]

theorem foldl_removeFd (fds : List RawFd) (self : EpollWrapper) :
    (∀ fd, (fds.foldl removeFd self).fdDispatch fd = if fd ∈ fds then none else self.fdDispatch fd) ∧
      (∀ fd, (fds.foldl removeFd self).epoll.interest fd =
        if fd ∈ fds then none else self.epoll.interest fd) ∧
      (fds.foldl removeFd self).subscriberWatchList = self.subscriberWatchList := by
  induction fds generalizing self with
  | nil => exact ⟨fun _ => rfl, fun _ => rfl, rfl⟩
  | cons first fds ih =>
    obtain ⟨hdispatch, hinterest, hlist⟩ := ih (self.removeFd first)
    have hdispatch' : (self.removeFd first).fdDispatch = update self.fdDispatch first none := rfl
    have hinterest' : (self.removeFd first).epoll.interest = update self.epoll.interest first none := by
      unfold removeFd removeEvent ctl Epoll.ctl
      cases hfirst : self.epoll.interest first with
      | none => exact (update_eq_self_iff.2 hfirst.symm).symm
      | some event => rfl
    refine ⟨fun fd => ?_, fun fd => ?_, hlist⟩
    · rw [foldl_cons, hdispatch, hdispatch', ite_mem_update]
    · rw [foldl_cons, hinterest, hinterest', ite_mem_update]

theorem remove_eq (subscriberId : SubscriberId) (self : EpollWrapper) :
    (∀ fd, (self.remove subscriberId).fdDispatch fd =
      if fd ∈ self.watched subscriberId then none else self.fdDispatch fd) ∧
    (∀ fd, (self.remove subscriberId).epoll.interest fd =
      if fd ∈ self.watched subscriberId then none else self.epoll.interest fd) ∧
    ∀ s, (self.remove subscriberId).watched s = if s = subscriberId then [] else self.watched s := by
  obtain ⟨hdispatch, hinterest, hlist⟩ := foldl_removeFd (self.watched subscriberId)
    { self with subscriberWatchList := update self.subscriberWatchList subscriberId none }
  refine ⟨hdispatch, hinterest, fun s => (congrArg (Option.getD · []) (congrFun hlist s)).trans ?_⟩
  exact getD_update ..

/-- `after` is `before` without the registrations of one subscriber. -/
structure Unregistered (subscriberId : SubscriberId) (before after : EpollWrapper) : Prop where
  dispatch : ∀ fd, after.fdDispatch fd =
    if before.fdDispatch fd = some subscriberId then none else before.fdDispatch fd
  interest : ∀ fd, after.epoll.interest fd =
    if before.fdDispatch fd = some subscriberId then none else before.epoll.interest fd
  watched : ∀ s, after.watched s = if s = subscriberId then [] else before.watched s

theorem Agrees.unregistered_remove {self : EpollWrapper} (h : self.Agrees) (subscriberId : SubscriberId) :
    Unregistered subscriberId self (self.remove subscriberId) := by
  obtain ⟨hdispatch, hinterest, hwatched⟩ := remove_eq subscriberId self
  simp only [h.mem_watched] at hdispatch hinterest
  exact ⟨hdispatch, hinterest, hwatched⟩

theorem Unregistered.agrees {before after : EpollWrapper}
    (h : Unregistered subscriberId before after) (ha : before.Agrees) : after.Agrees := by
  refine ⟨fun fd s => ?_, fun fd => ?_⟩
  · rw [h.watched, h.dispatch]
    have hcount := ha.count fd s
    by_cases hs : s = subscriberId
    · rw [if_pos hs, hs, count_nil]
      by_cases hd : before.fdDispatch fd = some subscriberId
      · rw [if_pos hd, if_neg nofun]
      · rw [if_neg hd, if_neg hd]
    · rw [if_neg hs, hcount]
      by_cases hd : before.fdDispatch fd = some subscriberId
      · rw [hd, if_neg (fun heq => hs (Option.some.inj heq).symm), if_pos rfl, if_neg nofun]
      · rw [if_neg hd]
  · rw [h.dispatch, h.interest]
    split
    · rfl
    · exact ha.interest fd

end EpollWrapper

end RustVmm.EventManager
