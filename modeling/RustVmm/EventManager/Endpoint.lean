import RustVmm.EventManager.Manager

/-!
# Calls from other threads

A remote endpoint queues a closure and then raises the descriptor; the manager clears the descriptor and then empties
the queue.  Each of these is a step here, so that the calls of any number of threads interleave with the loop of the
manager in every way they can.

* `endpoint_runs_once` — every closure is run once, and in order.
* `endpoint_answers` — no wake-up is lost.
-/

set_option autoImplicit false

namespace RustVmm.EventManager.RemoteEndpoint

open Lib Function List

variable {T R : Type}

def EAGAIN : Errno := 11

/-- `EventFd::write(1)` on a nonblocking descriptor with this counter. -/
def write (eventFd : Nat) : Except Errno Nat := if eventFd < 2 ^ 64 - 2 then .ok (eventFd + 1) else .error EAGAIN

/-- The temporary channel of a call is known by the call, and `sender` says whether there is one. -/
structure FnMsg (T R : Type) where
  call : Nat
  fnbox : EventManager T → R × EventManager T
  sender : Bool

inductive Phase where
  | polling
  /-- `poll` has reported the descriptor, and the events of the subscribers come first. -/
  | reported
  /-- In the loop of `handle_endpoint_calls`. -/
  | draining
  deriving DecidableEq, Repr

/-- Where a call of `call_blocking` or of `fire` is. -/
inductive CallState (R : Type) where
  | idle
  /-- In `send`, between the channel and the descriptor. -/
  | sent (blocking : Bool)
  | waiting
  | returned (result : Except Errno (Option R))

structure State (T R : Type) where
  manager : EventManager T
  eventFd : Nat
  receiver : List (FnMsg T R)
  phase : Phase
  calls : Nat → CallState R
  replies : Nat → Option R
  /-- All messages so far, which the code does not keep. -/
  sent : List (FnMsg T R)
  /-- Those whose closure has been run, each with the manager that it was run on. -/
  ran : List (FnMsg T R × EventManager T)

inductive Step (T R : Type) where
  /-- A call begins, with the first half of `send`. -/
  | send (msg : FnMsg T R)
  /-- The second half of `send`. -/
  | write (call : Nat) (blocking : Bool)
  | kick
  /-- `recv` on the temporary channel returns. -/
  | recv (call : Nat) (result : R)
  /-- The thread of the manager does something else. -/
  | serve (manager : EventManager T)
  | poll
  | read
  /-- One pass of the loop in `handle_endpoint_calls`. -/
  | tryRecv

def start (manager : EventManager T) : State T R :=
  ⟨manager, 0, [], .polling, fun _ => .idle, fun _ => none, [], []⟩

/-- The body of the loop, for a message that has been taken off the channel. -/
def State.handle (s : State T R) (msg : FnMsg T R) (receiver : List (FnMsg T R)) : State T R :=
  let (result, manager) := msg.fnbox s.manager
  { s with
    manager, receiver
    replies := if msg.sender then update s.replies msg.call (some result) else s.replies
    ran := s.ran ++ [(msg, s.manager)] }

def step (s : State T R) : Step T R → State T R
  | .send msg =>
    { s with
      receiver := s.receiver ++ [msg]
      calls := update s.calls msg.call (.sent msg.sender)
      sent := s.sent ++ [msg] }
  | .write call blocking =>
    match write s.eventFd with
    -- The call fails, and its closure stays on the channel.
    | .error errno => { s with calls := update s.calls call (.returned (.error errno)) }
    | .ok eventFd =>
      { s with eventFd, calls := update s.calls call (if blocking then .waiting else .returned (.ok none)) }
  | .kick => { s with eventFd := (write s.eventFd).toOption.getD s.eventFd }
  | .recv call result => { s with calls := update s.calls call (.returned (.ok (some result))) }
  | .serve manager => { s with manager }
  | .poll => { s with phase := .reported }
  | .read => { s with eventFd := 0, phase := .draining }
  | .tryRecv =>
    match s.receiver with
    | [] => { s with phase := .polling }
    | msg :: receiver => s.handle msg receiver

def Guard (s : State T R) : Step T R → Prop
  | .send msg => s.calls msg.call = .idle
  | .write call blocking => s.calls call = .sent blocking
  | .kick => True
  | .recv call result => s.calls call = .waiting ∧ s.replies call = some result
  | .serve _ => s.phase ≠ .draining
  | .poll => s.phase = .polling ∧ 0 < s.eventFd
  | .read => s.phase = .reported
  | .tryRecv => s.phase = .draining

/-- What a call in this state may rely on. -/
def State.Told (s : State T R) (call : Nat) : CallState R → Prop
  | .idle => ∀ msg ∈ s.sent, msg.call ≠ call
  | .sent blocking => ∃ msg ∈ s.sent, msg.call = call ∧ msg.sender = blocking
  | .waiting => ∃ msg ∈ s.sent, msg.call = call ∧ msg.sender = true
  | .returned (.ok (some result)) => ∃ x ∈ s.ran, x.1.call = call ∧ (x.1.fnbox x.2).1 = result
  | .returned _ => ∃ msg ∈ s.sent, msg.call = call

structure Inv (s : State T R) : Prop where
  sent : s.sent = s.ran.map Prod.fst ++ s.receiver
  distinct : (s.sent.map FnMsg.call).Nodup
  told : ∀ call, s.Told call (s.calls call)
  replies : ∀ call result, s.replies call = some result → ∃ x ∈ s.ran, x.1.call = call ∧ (x.1.fnbox x.2).1 = result
  answered : ∀ x ∈ s.ran, x.1.sender = true → (s.replies x.1.call).isSome
  -- The descriptor is cleared before the channel is emptied: the other way round, this would be lost.
  woken : s.receiver ≠ [] → s.phase ≠ .polling ∨ 0 < s.eventFd ∨ ∃ call blocking, s.calls call = .sent blocking

variable {s s' : State T R} {call : Nat} {c : CallState R} {msg : FnMsg T R} {receiver : List (FnMsg T R)}

theorem told_update {calls : Nat → CallState R} (h : ∀ i ≠ call, s.Told i (calls i)) (hc : s.Told call c) (i : Nat) :
    s.Told i (update calls call c i) := by
  by_cases hi : i = call
  · rw [hi, update_self]
    exact hc
  · rw [update_of_ne hi]
    exact h i hi

theorem State.Told.mono (h : s.Told call c) (hnew : ∀ msg ∈ s'.sent, msg ∈ s.sent ∨ msg.call ≠ call)
    (hsent : s.sent ⊆ s'.sent) (hran : s.ran ⊆ s'.ran) : s'.Told call c := by
  unfold Told at h ⊢
  split at h
  · exact fun msg hmsg => (hnew msg hmsg).elim (h msg) id
  all_goals
    obtain ⟨x, hx, hrest⟩ := h
    first | exact ⟨x, hsent hx, hrest⟩ | exact ⟨x, hran hx, hrest⟩

theorem Inv.send (h : Inv s) (hidle : s.calls msg.call = .idle) : Inv (step s (.send msg)) := by
  have hnew : ∀ m ∈ s.sent, m.call ≠ msg.call := by
    have htold := h.told msg.call
    rwa [hidle] at htold
  refine ⟨?_, ?_, told_update (fun i hi => ?_) ?_, h.replies, h.answered, fun _ => ?_⟩
  · simp [RemoteEndpoint.step, h.sent]
  · simpa [RemoteEndpoint.step, nodup_append, h.distinct] using hnew
  · refine (h.told i).mono (fun m hm => ?_) (subset_append_left _ _) (Subset.refl _)
    rcases mem_append.1 hm with hm | hm
    · exact .inl hm
    · rw [mem_singleton.1 hm]
      exact .inr (Ne.symm hi)
  · exact ⟨msg, mem_append_right _ mem_cons_self, rfl, rfl⟩
  · exact .inr (.inr ⟨msg.call, msg.sender, update_self ..⟩)

theorem Inv.write (h : Inv s) {blocking : Bool} (hsent : s.calls call = .sent blocking) :
    Inv (step s (.write call blocking)) := by
  have htold := h.told call
  rw [hsent] at htold
  obtain ⟨msg, hmsg, hcall, hblocking⟩ := htold
  rw [RemoteEndpoint.step, RemoteEndpoint.write]
  by_cases hfits : s.eventFd < 2 ^ 64 - 2
  · rw [if_pos hfits]
    refine ⟨h.sent, h.distinct, told_update (fun i _ => h.told i) ?_, h.replies, h.answered, fun _ => ?_⟩
    · cases blocking
      · exact ⟨msg, hmsg, hcall⟩
      · exact ⟨msg, hmsg, hcall, hblocking⟩
    · exact .inr (.inl (Nat.succ_pos _))
  · rw [if_neg hfits]
    refine ⟨h.sent, h.distinct, told_update (fun i _ => h.told i) ⟨msg, hmsg, hcall⟩, h.replies, h.answered,
      fun _ => ?_⟩
    -- The counter cannot be raised because it is at its highest, so the manager is about to wake up.
    exact .inr (.inl (Nat.lt_of_lt_of_le (by decide) (Nat.not_lt.1 hfits)))

theorem Inv.recv (h : Inv s) {result : R} (hwaiting : s.calls call = .waiting) (hreply : s.replies call = some result) :
    Inv (step s (.recv call result)) := by
  refine ⟨h.sent, h.distinct, told_update (fun i _ => h.told i) (h.replies call result hreply), h.replies, h.answered,
    fun hne => (h.woken hne).imp_right (Or.imp_right ?_)⟩
  rintro ⟨i, blocking, hi⟩
  have hother : i ≠ call := by
    rintro rfl
    rw [hwaiting] at hi
    cases hi
  exact ⟨i, blocking, (update_of_ne hother ..).trans hi⟩

theorem handle_replies (s : State T R) (msg : FnMsg T R) (receiver : List (FnMsg T R)) (call : Nat) :
    (s.handle msg receiver).replies call =
      if msg.sender = true ∧ call = msg.call then some (msg.fnbox s.manager).1 else s.replies call := by
  unfold State.handle
  by_cases hsender : msg.sender = true <;> simp [hsender, update_apply]

theorem Inv.handle (h : Inv s) (hphase : s.phase = .draining) (hreceiver : s.receiver = msg :: receiver) :
    Inv (s.handle msg receiver) := by
  have hnew : (msg, s.manager) ∈ (s.handle msg receiver).ran := mem_append_right _ mem_cons_self
  have hold : s.ran ⊆ (s.handle msg receiver).ran := subset_append_left _ _
  refine ⟨?_, h.distinct, fun i => ?_, fun i result hi => ?_, fun x hx hsender => ?_, fun _ => .inl ?_⟩
  · simp [State.handle, h.sent, hreceiver]
  · exact (h.told i).mono (fun m hm => .inl hm) (Subset.refl _) hold
  · rw [handle_replies] at hi
    split at hi
    · rename_i hmsg
      exact ⟨_, hnew, hmsg.2.symm, Option.some.inj hi⟩
    · obtain ⟨x, hx, hrest⟩ := h.replies i result hi
      exact ⟨x, hold hx, hrest⟩
  · rw [handle_replies]
    split
    · rfl
    · rename_i hmsg
      rcases mem_append.1 hx with hx | hx
      · exact h.answered x hx hsender
      · obtain rfl := mem_singleton.1 hx
        exact absurd ⟨hsender, rfl⟩ hmsg
  · simp [State.handle, hphase]

theorem Inv.step (h : Inv s) (i : Step T R) (hguard : Guard s i) : Inv (step s i) := by
  cases i with
  | send msg => exact h.send hguard
  | write call blocking => exact h.write hguard
  | kick =>
    refine ⟨h.sent, h.distinct, h.told, h.replies, h.answered, fun hne => ?_⟩
    refine (h.woken hne).imp_right (Or.imp_left fun hpos => ?_)
    simp only [RemoteEndpoint.step, RemoteEndpoint.write]
    split
    · exact Nat.succ_pos _
    · exact hpos
  | recv call result => exact h.recv hguard.1 hguard.2
  | serve => exact ⟨h.sent, h.distinct, h.told, h.replies, h.answered, h.woken⟩
  | poll | read => exact ⟨h.sent, h.distinct, h.told, h.replies, h.answered, fun _ => .inl nofun⟩
  | tryRecv =>
    rw [RemoteEndpoint.step]
    split
    · rename_i hnil
      exact ⟨h.sent, h.distinct, h.told, h.replies, h.answered, fun hne => absurd hnil hne⟩
    · rename_i hcons
      exact h.handle hguard hcons

theorem inv_run (manager : EventManager T) {steps : List (Step T R)} (h : Along step Guard (start manager) steps) :
    Inv (run step (start manager) steps) :=
  h.run_invariant (fun _ i hs hi => hs.step i hi)
    ⟨rfl, nodup_nil, fun _ => nofun, nofun, nofun, fun hne => absurd rfl hne⟩

/-- **Every closure is run once.**  However calls, kicks and the loop interleave, the closures that have been run are
those that were sent, in this order, up to those still on the channel.  The result of a call is that of its own closure
on the manager at its turn, and a call that could not raise the descriptor has sent its closure all the same. -/
theorem endpoint_runs_once (manager : EventManager T) (steps : List (Step T R))
    (h : Along step Guard (start manager) steps) :
    let s := run step (start manager) steps
    s.sent = s.ran.map Prod.fst ++ s.receiver ∧ (s.sent.map FnMsg.call).Nodup ∧
      ∀ call, s.Told call (s.calls call) := by
  have hinv := inv_run manager h
  exact ⟨hinv.sent, hinv.distinct, hinv.told⟩

/-- A call that waits, and one that the manager finds while it empties the channel. -/
def twoCalls : List (Step Unit Nat) :=
  [.send ⟨0, fun m => (7, m), true⟩, .write 0 true, .poll, .read, .send ⟨1, fun m => (8, m), false⟩, .tryRecv,
    .write 1 false]

theorem along_twoCalls : Along step Guard (start (.start 4)) twoCalls :=
  ⟨rfl, rfl, ⟨rfl, by decide⟩, rfl, rfl, rfl, rfl, trivial⟩

theorem endpoint_runs_once_two : ((run step (start (.start 4)) twoCalls).sent.map FnMsg.call).Nodup :=
  (endpoint_runs_once _ twoCalls along_twoCalls).2.1

/-- The steps that the manager takes by itself. -/
def Step.OfManager : Step T R → Prop
  | .poll | .read | .tryRecv => True
  | _ => False

/-- Steps of the manager empty the channel, and no call moves. -/
structure Drains (s : State T R) (steps : List (Step T R)) : Prop where
  manager : ∀ i ∈ steps, i.OfManager
  along : Along step Guard s steps
  receiver : (run step s steps).receiver = []
  calls : (run step s steps).calls = s.calls

theorem Drains.cons {i : Step T R} {steps : List (Step T R)} (hi : i.OfManager) (hguard : Guard s i)
    (hcalls : (step s i).calls = s.calls) (h : Drains (step s i) steps) : Drains s (i :: steps) :=
  ⟨forall_mem_cons.2 ⟨hi, h.manager⟩, ⟨hguard, h.along⟩, h.receiver, h.calls.trans hcalls⟩

theorem drains (hphase : s.phase = .draining) : Drains s (replicate s.receiver.length .tryRecv) := by
  generalize hreceiver : s.receiver = receiver
  induction receiver generalizing s with
  | nil => exact ⟨nofun, trivial, hreceiver, rfl⟩
  | cons msg receiver ih =>
    have hstep : step s .tryRecv = s.handle msg receiver := by rw [step, hreceiver]
    refine .cons trivial hphase ?_ (ih ?_ ?_)
    all_goals rw [hstep]
    exacts [rfl, hphase, rfl]

theorem Inv.drains (h : Inv s) (hcalls : ∀ call blocking, s.calls call ≠ .sent blocking) : ∃ more, Drains s more := by
  have hread : ∀ s : State T R, s.phase = .reported → ∃ more, Drains s more := fun s hs =>
    ⟨_, .cons (i := .read) trivial hs rfl (RemoteEndpoint.drains rfl)⟩
  cases hs : s.phase with
  | draining => exact ⟨_, RemoteEndpoint.drains hs⟩
  | reported => exact hread s hs
  | polling =>
    by_cases hnil : s.receiver = []
    · exact ⟨[], nofun, trivial, hnil, rfl⟩
    · rcases h.woken hnil with hne | hpos | ⟨call, blocking, hsent⟩
      · exact absurd hs hne
      · obtain ⟨more, hmore⟩ := hread (RemoteEndpoint.step s .poll) rfl
        exact ⟨_, .cons (i := .poll) trivial ⟨hs, hpos⟩ rfl hmore⟩
      · exact absurd hsent (hcalls call blocking)

/-- **No wake-up is lost.**  Whenever no call is between the two halves of `send`, the manager by itself, with nobody
to raise the descriptor again, empties the channel and answers every call that waits. -/
theorem endpoint_answers (manager : EventManager T) (steps : List (Step T R))
    (h : Along step Guard (start manager) steps) :
    let s := run step (start manager) steps
    (∀ call blocking, s.calls call ≠ .sent blocking) →
      ∃ more, (∀ i ∈ more, i.OfManager) ∧ Along step Guard s more ∧ (run step s more).receiver = [] ∧
        ∀ call, s.calls call = .waiting → ((run step s more).replies call).isSome := by
  intro s hcalls
  have hinv : Inv s := inv_run manager h
  obtain ⟨more, hmore⟩ := hinv.drains hcalls
  have hend : Inv (run step s more) := hmore.along.run_invariant (fun _ i hs hi => hs.step i hi) hinv
  refine ⟨more, hmore.manager, hmore.along, hmore.receiver, fun call hwaiting => ?_⟩
  have htold := hend.told call
  rw [hmore.calls, hwaiting] at htold
  obtain ⟨msg, hmsg, rfl, hsender⟩ := htold
  rw [hend.sent, hmore.receiver, append_nil] at hmsg
  obtain ⟨x, hx, rfl⟩ := mem_map.1 hmsg
  exact hend.answered x hx hsender

theorem endpoint_answers_two :
    let s := run step (start (.start 4)) twoCalls
    (∀ call blocking, s.calls call ≠ .sent blocking) ∧ ∃ more, (run step s more).receiver = [] := by
  intro s
  have hcalls : ∀ call blocking, s.calls call ≠ .sent blocking
    | 0, _ | 1, _ | _ + 2, _ => nofun
  obtain ⟨more, _, _, hreceiver, _⟩ := endpoint_answers _ twoCalls along_twoCalls hcalls
  exact ⟨hcalls, more, hreceiver⟩

end RustVmm.EventManager.RemoteEndpoint
