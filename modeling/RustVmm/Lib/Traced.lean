import RustVmm.Lib.Outcome

/-!
# Calls that leave a trace

`Traced σ W ε α` threads a state `σ` and reports what was done to the rest of the world as a list of effects of
type `W`, also when it fails half-way.  Whoever owns the rest of the world applies the effects to it.

* `bind_of_ok`, `bind_of_err`, `bind_eq_ok` — a call followed by another, forwards and backwards.
* `All`, `Keeps`, `AllFrom` — rules for what all effects are like, and for invariants of the state.
* `Triple` — rules of pre- and postconditions, with one postcondition for failure; `Triple.foldlM` is that of a loop.
-/

set_option autoImplicit false

namespace RustVmm.Lib

open List

structure Traced.Result (σ W ε α : Type) where
  outcome : Outcome ε α
  state : σ
  trace : List W

/-- A call on a state that reports its effects. -/
def Traced (σ W ε α : Type) := σ → Traced.Result σ W ε α

namespace Traced

variable {σ W ε α β : Type}

/-- Sequencing: the effects of a failing call stay in the trace. -/
def bind (x : Traced σ W ε α) (f : α → Traced σ W ε β) : Traced σ W ε β := fun s =>
  match x s with
  | ⟨.ok a, s', w⟩ => ⟨(f a s').outcome, (f a s').state, w ++ (f a s').trace⟩
  | ⟨.err e, s', w⟩ => ⟨.err e, s', w⟩
  | ⟨.panic, s', w⟩ => ⟨.panic, s', w⟩

instance : Monad (Traced σ W ε) where
  pure a := fun s => ⟨.ok a, s, []⟩
  bind := bind

/-- A call that has no state and no effects. -/
def lift (x : Outcome ε α) : Traced σ W ε α := fun s => ⟨x, s, []⟩

def tell (w : W) : Traced σ W ε Unit := fun s => ⟨.ok (), s, [w]⟩

def emit (trace : List W) : Traced σ W ε Unit := fun s => ⟨.ok (), s, trace⟩

def get : Traced σ W ε σ := fun s => ⟨.ok s, s, []⟩

def modify (f : σ → σ) : Traced σ W ε Unit := fun s => ⟨.ok (), f s, []⟩

def mapErr {ε' : Type} (g : ε → ε') (x : Traced σ W ε α) : Traced σ W ε' α := fun s =>
  ⟨(x s).outcome.mapErr g, (x s).state, (x s).trace⟩

def zoom {τ : Type} (get : τ → σ) (set : τ → σ → τ) (x : Traced σ W ε α) : Traced τ W ε α := fun t =>
  ⟨(x (get t)).outcome, set t (x (get t)).state, (x (get t)).trace⟩

/-- A call on a state of its own, which is dropped. -/
def runOn {τ : Type} (t : τ) (x : Traced τ W ε α) : Traced σ W ε α := fun s =>
  ⟨(x t).outcome, s, (x t).trace⟩

/-- A method without effects. -/
def exec (x : Exec σ ε α) : Traced σ W ε α := fun s => ⟨(x s).1, (x s).2, []⟩

/-- A call whose error is looked at, and not passed on. -/
def attempt {ε' : Type} (x : Traced σ W ε α) : Traced σ W ε' (Except ε α) := fun s =>
  match x s with
  | ⟨.ok a, s', w⟩ => ⟨.ok (.ok a), s', w⟩
  | ⟨.err e, s', w⟩ => ⟨.ok (.error e), s', w⟩
  | ⟨.panic, s', w⟩ => ⟨.panic, s', w⟩

theorem bind_apply (x : Traced σ W ε α) (f : α → Traced σ W ε β) (s : σ) : (x >>= f) s = match x s with
      | ⟨.ok a, s', w⟩ => ⟨(f a s').outcome, (f a s').state, w ++ (f a s').trace⟩
      | ⟨.err e, s', w⟩ => ⟨.err e, s', w⟩
      | ⟨.panic, s', w⟩ => ⟨.panic, s', w⟩ := rfl

@[simp] theorem pure_apply (a : α) (s : σ) : (pure a : Traced σ W ε α) s = ⟨.ok a, s, []⟩ := rfl

@[simp] theorem lift_apply (x : Outcome ε α) (s : σ) : (lift x : Traced σ W ε α) s = ⟨x, s, []⟩ := rfl

variable {x : Traced σ W ε α} {s s' s'' : σ} {a : α} {w : List W}

theorem bind_of_ok (h : x s = ⟨.ok a, s', w⟩) (f : α → Traced σ W ε β) :
    (x >>= f) s = ⟨(f a s').outcome, (f a s').state, w ++ (f a s').trace⟩ := by
  rw [bind_apply, h]

variable {f : α → Traced σ W ε β}

theorem bind_of_ok_of_eq {o : Outcome ε β} {w₁ w₂ : List W} (hx : x s = ⟨.ok a, s', w₁⟩) (hf : f a s' = ⟨o, s'', w₂⟩) :
    (x >>= f) s = ⟨o, s'', w₁ ++ w₂⟩ := by
  rw [bind_of_ok hx, hf]

theorem bind_of_ok_of_silent {o : Outcome ε β} (hx : x s = ⟨.ok a, s', w⟩) (hf : f a s' = ⟨o, s'', []⟩) :
    (x >>= f) s = ⟨o, s'', w⟩ := by
  rw [bind_of_ok_of_eq hx hf, append_nil]

theorem bind_pure_of_ok (h : x s = ⟨.ok a, s', w⟩) (g : α → β) :
    (x >>= fun a => pure (g a)) s = ⟨.ok (g a), s', w⟩ := bind_of_ok_of_silent h rfl

variable {e : ε}

theorem bind_of_err (h : x s = ⟨.err e, s', w⟩) (f : α → Traced σ W ε β) : (x >>= f) s = ⟨.err e, s', w⟩ := by
  rw [bind_apply, h]

theorem bind_of_panic (h : x s = ⟨.panic, s', w⟩) (f : α → Traced σ W ε β) : (x >>= f) s = ⟨.panic, s', w⟩ := by
  rw [bind_apply, h]

theorem bind_pure_id (x : Traced σ W ε α) : x >>= pure = x := by
  funext s
  rw [bind_apply]
  split <;> rename_i h <;> rw [h]
  rw [pure_apply, append_nil]

@[simp] theorem lift_ok_bind (a : α) (f : α → Traced σ W ε β) : (lift (.ok a) >>= f) = f a := rfl

@[simp] theorem lift_err_bind (e : ε) (f : α → Traced σ W ε β) : (lift (.err e) >>= f) = lift (.err e) := rfl

theorem lift_bind_lift (o : Outcome ε α) (f : α → Outcome ε β) :
    (lift (o >>= f) : Traced σ W ε β) = lift o >>= fun a => lift (f a) := by
  cases o <;> rfl

variable {o : Outcome ε α}

@[simp] theorem tell_bind_apply (w : W) (f : Unit → Traced σ W ε β) (s : σ) :
    (tell w >>= f) s = ⟨(f () s).outcome, (f () s).state, w :: (f () s).trace⟩ := rfl

@[simp] theorem get_bind_apply (f : σ → Traced σ W ε β) (s : σ) : (get >>= f) s = f s s := rfl

@[simp] theorem modify_bind_apply (g : σ → σ) (f : Unit → Traced σ W ε β) (s : σ) :
    (modify g >>= f) s = f () (g s) := rfl

variable {b : β}

theorem bind_eq_ok (h : (x >>= f) s = ⟨.ok b, s'', w⟩) :
    ∃ a s' w₁ w₂, x s = ⟨.ok a, s', w₁⟩ ∧ f a s' = ⟨.ok b, s'', w₂⟩ ∧ w = w₁ ++ w₂ := by
  rw [bind_apply] at h
  split at h
  · rename_i a s' w₁ hx
    obtain ⟨hb, hs, hw⟩ := Result.mk.inj h
    refine ⟨a, s', w₁, (f a s').trace, hx, ?_, hw.symm⟩
    rw [← hb, ← hs]
  · cases h
  · cases h

variable {m : Exec σ ε α}

theorem exec_bind_eq_ok (h : (exec m >>= f) s = ⟨.ok b, s'', w⟩) :
    ∃ a s', m s = (.ok a, s') ∧ f a s' = ⟨.ok b, s'', w⟩ := by
  obtain ⟨a, s', w₁, w₂, hm, hf, rfl⟩ := bind_eq_ok h
  cases hmx : m s with
  | mk o t =>
    unfold exec at hm
    rw [hmx] at hm
    cases hm
    exact ⟨a, t, rfl, hf⟩

theorem lift_bind_eq_ok (h : (lift o >>= f) s = ⟨.ok b, s'', w⟩) : ∃ a, o = .ok a ∧ f a s = ⟨.ok b, s'', w⟩ := by
  cases o with
  | ok a => exact ⟨a, rfl, h⟩
  | err e => cases h
  | panic => cases h

variable {xs : List α}
variable {g : β → α → Traced σ W ε β}

theorem foldlM_eq_ok (I : List α → β → σ → List W → Prop)
    (hstep : ∀ {done b a s w b' s' w'}, I done b s w → g b a s = ⟨.ok b', s', w'⟩ → I (done ++ [a]) b' s' (w ++ w'))
    {b' : β} (hs : I [] b s []) (h : xs.foldlM g b s = ⟨.ok b', s', w⟩) : I xs b' s' w := by
  have hloop : ∀ rest done b s w w', I done b s w → rest.foldlM g b s = ⟨.ok b', s', w'⟩ →
      I (done ++ rest) b' s' (w ++ w') := by
    intro rest
    induction rest with
    | nil =>
      intro done b s w w' hs h
      cases h
      rw [append_nil, append_nil]
      exact hs
    | cons a rest ih =>
      intro done b s w w' hs h
      obtain ⟨b₁, s₁, w₁, w₂, hfirst, hrest, rfl⟩ := bind_eq_ok h
      rw [append_cons, ← append_assoc]
      exact ih _ _ _ _ _ (hstep hs hfirst) hrest
  exact hloop xs [] b s [] w hs h

variable {ε' : Type}

theorem mapErr_of_ok (h : x s = ⟨.ok a, s', w⟩) (g : ε → ε') : x.mapErr g s = ⟨.ok a, s', w⟩ := by
  rw [mapErr, h]
  rfl

theorem mapErr_of_err (h : x s = ⟨.err e, s', w⟩) (g : ε → ε') : x.mapErr g s = ⟨.err (g e), s', w⟩ := by
  rw [mapErr, h]
  rfl

theorem mapErr_of_panic (h : x s = ⟨.panic, s', w⟩) (g : ε → ε') : x.mapErr g s = ⟨.panic, s', w⟩ := by
  rw [mapErr, h]
  rfl

theorem mapErr_eq_ok {g : ε → ε'} (h : x.mapErr g s = ⟨.ok a, s', w⟩) : x s = ⟨.ok a, s', w⟩ := by
  obtain ⟨ho, rfl, rfl⟩ := Result.mk.inj h
  cases hx : (x s).outcome with
  | ok b =>
    rw [hx] at ho
    cases ho
    rw [← hx]
  | err e | panic => rw [hx] at ho; cases ho

theorem attempt_of_ok (h : x s = ⟨.ok a, s', w⟩) :
    (x.attempt : Traced σ W ε' (Except ε α)) s = ⟨.ok (.ok a), s', w⟩ := by
  rw [attempt, h]

theorem attempt_of_err (h : x s = ⟨.err e, s', w⟩) :
    (x.attempt : Traced σ W ε' (Except ε α)) s = ⟨.ok (.error e), s', w⟩ := by
  rw [attempt, h]

@[simp] theorem trace_attempt (x : Traced σ W ε α) (s : σ) :
    ((x.attempt : Traced σ W ε' (Except ε α)) s).trace = (x s).trace := by
  unfold attempt
  split <;> rename_i h <;> rw [h]

theorem mem_trace_bind_left {w : W} (h : w ∈ (x s).trace) (f : α → Traced σ W ε β) : w ∈ ((x >>= f) s).trace := by
  rw [bind_apply]
  split <;> rename_i hx <;> rw [hx] at h
  · exact mem_append_left _ h
  · exact h
  · exact h

/-! ## Another trace -/

/-- The call with another trace of effects. -/
def mapTrace {V : Type} (g : W → List V) (x : Traced σ W ε α) : Traced σ V ε α := fun s =>
  ⟨(x s).outcome, (x s).state, (x s).trace.flatMap g⟩

variable {τ : Type}

/-! ## A predicate on every effect -/

def All (P : W → Prop) (x : Traced σ W ε α) : Prop := ∀ s, ∀ w ∈ (x s).trace, P w

variable {ε' : Type}

namespace All

variable {P Q : W → Prop} {x : Traced σ W ε α} {f : α → Traced σ W ε β}

theorem mono (h : x.All P) (hPQ : ∀ w, P w → Q w) : x.All Q := fun s w hw => hPQ w (h s w hw)

theorem pure (a : α) : (pure a : Traced σ W ε α).All P := nofun

theorem lift (o : Outcome ε α) : (lift o : Traced σ W ε α).All P := nofun

theorem get : (get : Traced σ W ε σ).All P := nofun

theorem modify (g : σ → σ) : (modify g : Traced σ W ε Unit).All P := nofun

theorem tell {w : W} (h : P w) : (tell w : Traced σ W ε Unit).All P := fun _ _ hw => mem_singleton.1 hw ▸ h

theorem mem_trace_bind (hf : ∀ a, (f a).All P) {s : σ} {w : W} (hw : w ∈ ((x >>= f) s).trace) :
    w ∈ (x s).trace ∨ P w := by
  rw [bind_apply] at hw
  split at hw <;> rename_i h <;> rw [h]
  · exact (mem_append.1 hw).imp_right (hf _ _ w)
  · exact .inl hw
  · exact .inl hw

theorem bind (hx : x.All P) (hf : ∀ a, (f a).All P) : (x >>= f).All P :=
  fun s w hw => (mem_trace_bind hf hw).elim (hx s w) id

theorem lift_bind (hf : ∀ a, o = .ok a → (f a).All P) : (Traced.lift o >>= f).All P := by
  cases o with
  | ok a => exact hf a rfl
  | err e | panic => exact lift _

theorem foldlM (h : ∀ b, ∀ x ∈ xs, (g b x).All P) (b : β) : (xs.foldlM g b).All P := by
  induction xs generalizing b with
  | nil => exact pure b
  | cons x xs ih =>
    exact (h b x mem_cons_self).bind fun b' =>
      ih (fun b y hy => h b y (mem_cons_of_mem _ hy)) b'

theorem mapErr (hx : x.All P) (g : ε → ε') : (x.mapErr g).All P := hx

theorem zoom (hx : x.All P) (get : τ → σ) (set : τ → σ → τ) : (x.zoom get set).All P := fun t => hx (get t)

theorem exec (m : Exec σ ε α) : (exec m : Traced σ W ε α).All P := nofun

theorem attempt (hx : x.All P) : (x.attempt : Traced σ W ε' (Except ε α)).All P := by
  intro s w hw
  have hfirst := hx s
  unfold Traced.attempt at hw
  split at hw <;> rename_i h <;> rw [h] at hfirst <;> exact hfirst w hw

end All

/-- A call that does nothing to the rest of the world. -/
def Silent (x : Traced σ W ε α) : Prop := x.All fun _ => False

theorem Silent.all {P : W → Prop} (h : x.Silent) : x.All P := h.mono fun _ hw => hw.elim

theorem Silent.trace_eq_nil (h : x.Silent) (s : σ) : (x s).trace = [] := eq_nil_iff_forall_not_mem.2 (h s)

/-! ## An invariant of the state -/

/-- The state satisfies the invariant after the call if it did before. -/
def Keeps (I : σ → Prop) (x : Traced σ W ε α) : Prop := ∀ s, I s → I (x s).state

namespace Keeps

variable {I : σ → Prop} {x : Traced σ W ε α} {f : α → Traced σ W ε β}

theorem pure (a : α) : (pure a : Traced σ W ε α).Keeps I := fun _ h => h

theorem lift (o : Outcome ε α) : (lift o : Traced σ W ε α).Keeps I := fun _ h => h

theorem modify {g : σ → σ} (h : ∀ s, I s → I (g s)) : (modify g : Traced σ W ε Unit).Keeps I := h

theorem bind_value (hx : x.Keeps I) (hf : ∀ {s a s' w}, x s = ⟨.ok a, s', w⟩ → (f a).Keeps I) : (x >>= f).Keeps I := by
  intro s hs
  have hfirst := hx s hs
  rw [bind_apply]
  split <;> rename_i h <;> rw [h] at hfirst
  · exact hf h _ hfirst
  · exact hfirst
  · exact hfirst

theorem bind (hx : x.Keeps I) (hf : ∀ a, (f a).Keeps I) : (x >>= f).Keeps I := hx.bind_value fun _ => hf _

theorem get_bind {f : σ → Traced σ W ε β} (hf : ∀ s, I s → (f s).Keeps I) : (get >>= f).Keeps I :=
  fun s hs => hf s hs s hs

theorem lift_bind (hf : ∀ a, o = .ok a → (f a).Keeps I) : (Traced.lift o >>= f).Keeps I := by
  cases o with
  | ok a => exact hf a rfl
  | err e | panic => exact lift _

theorem mapErr (hx : x.Keeps I) (g : ε → ε') : (x.mapErr g).Keeps I := hx

theorem attempt (hx : x.Keeps I) : (x.attempt : Traced σ W ε' (Except ε α)).Keeps I := by
  intro s hs
  have hfirst := hx s hs
  unfold Traced.attempt
  split <;> rename_i h <;> rw [h] at hfirst <;> exact hfirst

theorem foldlM (h : ∀ b, ∀ x ∈ xs, (g b x).Keeps I) (b : β) : (xs.foldlM g b).Keeps I := by
  induction xs generalizing b with
  | nil => exact pure b
  | cons x xs ih =>
    exact (h b x mem_cons_self).bind fun b' =>
      ih (fun b y hy => h b y (mem_cons_of_mem _ hy)) b'

end Keeps

/-- Every effect of the call satisfies the predicate, from the states of an invariant. -/
def AllFrom (I : σ → Prop) (P : W → Prop) (x : Traced σ W ε α) : Prop := ∀ s, I s → ∀ w ∈ (x s).trace, P w

namespace AllFrom

variable {I : σ → Prop} {P : W → Prop} {x : Traced σ W ε α} {f : α → Traced σ W ε β}

theorem of_all (h : x.All P) : x.AllFrom I P := fun s _ => h s

theorem bind_value (hx : x.AllFrom I P) (hkeeps : x.Keeps I)
    (hf : ∀ {s a s' w}, I s → x s = ⟨.ok a, s', w⟩ → (f a).AllFrom I P) : (x >>= f).AllFrom I P := by
  intro s hs w hw
  have hfirst := hx s hs
  have hkept := hkeeps s hs
  rw [bind_apply] at hw
  split at hw <;> rename_i h <;> rw [h] at hfirst hkept
  · rcases mem_append.1 hw with hw | hw
    · exact hfirst w hw
    · exact hf hs h _ hkept w hw
  · exact hfirst w hw
  · exact hfirst w hw

theorem bind (hx : x.AllFrom I P) (hkeeps : x.Keeps I) (hf : ∀ a, (f a).AllFrom I P) : (x >>= f).AllFrom I P :=
  hx.bind_value hkeeps fun _ _ => hf _

theorem get_bind {f : σ → Traced σ W ε β} (hf : ∀ s, I s → (f s).AllFrom I P) : (get >>= f).AllFrom I P :=
  fun s hs => hf s hs s hs

theorem lift_bind (hf : ∀ a, o = .ok a → (f a).AllFrom I P) : (Traced.lift o >>= f).AllFrom I P := by
  cases o with
  | ok a => exact hf a rfl
  | err e | panic => exact of_all (All.lift _)

end AllFrom

/-! ## Pre- and postconditions -/

/-- From a state of `P` the call returns a value and a state of `Q`, or it fails in a state of `E`. -/
def Triple (P : σ → Prop) (x : Traced σ W ε α) (Q : α → σ → Prop) (E : σ → Prop) : Prop :=
  ∀ s, P s → (∀ a, (x s).outcome = .ok a → Q a (x s).state) ∧ ((∀ a, (x s).outcome ≠ .ok a) → E (x s).state)

namespace Triple

variable {P : σ → Prop} {Q : α → σ → Prop} {E : σ → Prop} {R : β → σ → Prop}
  {x : Traced σ W ε α} {f : α → Traced σ W ε β}

variable {r : Result σ W ε α}

theorem of_ok {a : α} (hr : r.outcome = .ok a) (hQ : Q a r.state) :
    (∀ a, r.outcome = .ok a → Q a r.state) ∧ ((∀ a, r.outcome ≠ .ok a) → E r.state) := by
  refine ⟨fun a' ha => ?_, fun hne => absurd hr (hne a)⟩
  rw [hr] at ha
  exact Outcome.ok.inj ha ▸ hQ

theorem of_err (hr : r.outcome = .err e) (hE : E r.state) :
    (∀ a, r.outcome = .ok a → Q a r.state) ∧ ((∀ a, r.outcome ≠ .ok a) → E r.state) := by
  refine ⟨fun a ha => ?_, fun _ => hE⟩
  rw [hr] at ha
  cases ha

theorem state {s : σ} (h : Triple P x (fun _ => E) E) (hs : P s) : E (x s).state := by
  by_cases hok : ∃ a, (x s).outcome = .ok a
  · obtain ⟨a, ha⟩ := hok
    exact (h s hs).1 a ha
  · exact (h s hs).2 fun a ha => hok ⟨a, ha⟩

theorem pure (a : α) (h : ∀ s, P s → Q a s) : Triple P (pure a : Traced σ W ε α) Q E := fun s hs => of_ok rfl (h s hs)

theorem lift (hok : ∀ a s, o = .ok a → P s → Q a s) (herr : ∀ s, P s → E s) :
    Triple P (lift o : Traced σ W ε α) Q E :=
  fun s hs => ⟨fun a ha => hok a s ha hs, fun _ => herr s hs⟩

theorem post {Q' : α → σ → Prop} {E' : σ → Prop} (h : Triple P x Q E) (hQ : ∀ a s, Q a s → Q' a s)
    (hE : ∀ s, E s → E' s) : Triple P x Q' E' :=
  fun s hs => ⟨fun a ha => hQ a _ ((h s hs).1 a ha), fun hne => hE _ ((h s hs).2 hne)⟩

theorem bind (hx : Triple P x Q E) (hf : ∀ a, Triple (Q a) (f a) R E) : Triple P (x >>= f) R E := by
  intro s hs
  have hfirst := hx s hs
  rw [bind_apply]
  split <;> rename_i h <;> rw [h] at hfirst
  · exact hf _ _ (hfirst.1 _ rfl)
  · exact ⟨nofun, fun _ => hfirst.2 nofun⟩
  · exact ⟨nofun, fun _ => hfirst.2 nofun⟩

theorem bind_value {a : α} {I : σ → Prop} (hx : Triple P x (fun a' s => a' = a ∧ I s) E)
    (hf : Triple I (f a) R E) : Triple P (x >>= f) R E := by
  refine hx.bind fun a' => ?_
  rintro s ⟨rfl, hs⟩
  exact hf s hs

theorem lift_bind (hf : ∀ a, o = .ok a → Triple P (f a) R E)
    (hE : ∀ s, P s → E s) : Triple P (Traced.lift o >>= f) R E := by
  cases o with
  | ok a => exact hf a rfl
  | err e | panic => exact fun s hs => ⟨nofun, fun _ => hE s hs⟩

theorem get_bind {f : σ → Traced σ W ε β} (hf : ∀ s, P s → Triple P (f s) R E) : Triple P (get >>= f) R E :=
  fun s hs => hf s hs s hs

theorem mapErr (hx : Triple P x Q E) (g : ε → ε') : Triple P (x.mapErr g) Q E := by
  intro s hs
  obtain ⟨hok, herr⟩ := hx s hs
  unfold Traced.mapErr
  cases ho : (x s).outcome with
  | ok a => exact ⟨fun a' ha => hok a' (ho.trans (by cases ha; rfl)), fun hne => absurd rfl (hne a)⟩
  | err e | panic => exact ⟨nofun, fun _ => herr (by simp [ho])⟩

theorem attempt (hx : Triple P x Q E) : Triple P (x.attempt : Traced σ W ε' (Except ε α))
      (fun r s => (∀ a, r = .ok a → Q a s) ∧ (∀ e, r = .error e → E s)) E := by
  intro s hs
  have hfirst := hx s hs
  unfold Traced.attempt
  split <;> rename_i h <;> rw [h] at hfirst
  · refine ⟨fun r hr => ?_, fun hne => absurd rfl (hne _)⟩
    cases hr
    exact ⟨fun a' ha => hfirst.1 a' (by cases ha; rfl), nofun⟩
  · refine ⟨fun r hr => ?_, fun hne => absurd rfl (hne _)⟩
    cases hr
    exact ⟨nofun, fun _ _ => hfirst.2 nofun⟩
  · exact ⟨nofun, fun _ => hfirst.2 nofun⟩

theorem zoom {get : τ → σ} {set : τ → σ → τ} (hget : ∀ t s, get (set t s) = s) (hx : Triple P x Q E) :
    Triple (fun t => P (get t)) (x.zoom get set) (fun a t => Q a (get t)) fun t => E (get t) := by
  intro t ht
  obtain ⟨hok, herr⟩ := hx (get t) ht
  simp only [Traced.zoom, hget]
  exact ⟨hok, herr⟩

theorem foldlM (I : List α → β → σ → Prop)
    (h : ∀ done b a, done ++ [a] <+: xs → Triple (I done b) (g b a) (I (done ++ [a])) E) (b : β) :
    Triple (I [] b) (xs.foldlM g b) (I xs) E := by
  have hloop : ∀ rest done b, done ++ rest = xs → Triple (I done b) (rest.foldlM g b) (I xs) E := by
    intro rest
    induction rest with
    | nil =>
      intro done b hxs
      rw [append_nil] at hxs
      exact pure b fun s hs => hxs ▸ hs
    | cons a rest ih =>
      intro done b hxs
      rw [append_cons] at hxs
      exact (h done b a ⟨rest, hxs⟩).bind fun b' => ih _ b' hxs
  exact hloop xs [] b rfl

end Triple

end Traced

end RustVmm.Lib
