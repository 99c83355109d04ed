import Mathlib.Data.List.Induction
import Mathlib.Logic.Basic

/-!
# Outcomes of Rust calls

`Outcome` is the result of a call that may fail or panic, `Exec` a method on `&mut self`.

* `Outcome.bind_eq_ok`, `Exec.bind_eq_ok` — the inversions with which a computation is peeled apart call by call.
* `Outcome.foldlM_invariant`, `Outcome.foldlM_admits` — loops that succeed, and that panic on inadmissible input.
* `Exec.bind_keeps`, `Exec.forM_keeps` — invariants of the state.
-/

set_option autoImplicit false

namespace RustVmm.Lib

open List

/-- Result of a call that may fail or panic. -/
inductive Outcome (ε α : Type) where
  | ok (a : α)
  | err (e : ε)
  | panic
  deriving DecidableEq, Repr

namespace Outcome

variable {ε α β : Type}

/-- The `?` operator: errors and panics are passed on. -/
def bind : Outcome ε α → (α → Outcome ε β) → Outcome ε β
  | ok a, f => f a
  | err e, _ => err e
  | panic, _ => panic

instance : Monad (Outcome ε) where
  pure := ok
  bind := bind

instance : LawfulMonad (Outcome ε) := .mk' (Outcome ε) (fun x => by cases x <;> rfl) (fun _ _ => rfl)
    (fun x _ _ => by cases x <;> rfl)

@[simp] theorem pure_eq (a : α) : (pure a : Outcome ε α) = ok a := rfl

@[simp] theorem ok_bind (a : α) (f : α → Outcome ε β) : (ok a >>= f) = f a := rfl

@[simp] theorem err_bind (e : ε) (f : α → Outcome ε β) : (err e >>= f) = err e := rfl

@[simp] theorem panic_bind (f : α → Outcome ε β) : ((panic : Outcome ε α) >>= f) = panic := rfl

@[simp] theorem map_ok (f : α → β) (a : α) : f <$> (ok a : Outcome ε α) = ok (f a) := rfl

@[simp] theorem map_err (f : α → β) (e : ε) : f <$> (err e : Outcome ε α) = err e := rfl

variable {a : α}

theorem ok_ne_panic : (ok a : Outcome ε α) ≠ panic := nofun

variable {e : ε}

theorem err_ne_panic : (err e : Outcome ε α) ≠ panic := nofun

theorem err_ne_ok : (err e : Outcome ε α) ≠ ok a := nofun

theorem panic_ne_ok : (panic : Outcome ε α) ≠ ok a := nofun

variable {x : Outcome ε α}

theorem map_ne_panic {f : α → β} (hx : x ≠ panic) : f <$> x ≠ panic := by
  cases x with
  | ok a => simp
  | err e => simp
  | panic => exact absurd rfl hx

variable {b : β}

theorem map_eq_ok {f : α → β} : f <$> x = ok b ↔ ∃ a, x = ok a ∧ f a = b := by
  cases x with
  | ok a => simp
  | err e => simp
  | panic => exact ⟨nofun, nofun⟩

variable {f : α → Outcome ε β}

theorem bind_eq_ok : (x >>= f) = ok b ↔ ∃ a, x = ok a ∧ f a = ok b := by
  cases x <;> simp

theorem bind_ok_eq_ok {f : α → β} : (x >>= fun a => ok (f a)) = ok b ↔ ∃ a, x = ok a ∧ f a = b := by
  cases x <;> simp

theorem exists_ok_bind (hx : ∃ a, x = ok a) (hf : ∀ a, ∃ b, f a = ok b) : ∃ b, (x >>= f) = ok b := by
  obtain ⟨a, rfl⟩ := hx
  exact hf a

theorem bind_ne_panic (hx : x ≠ panic) (hf : ∀ a, x = ok a → f a ≠ panic) : (x >>= f) ≠ panic := by
  cases x with
  | ok a => exact hf a rfl
  | err e => simp
  | panic => exact absurd rfl hx

variable (xs : List α)

theorem forM_ne_panic {f : α → Outcome ε Unit} (h : ∀ x, f x ≠ panic) : xs.forM f ≠ panic := by
  induction xs with
  | nil => exact nofun
  | cons x xs ih =>
    exact bind_ne_panic (h x) fun _ _ => ih

theorem forM_eq_ok {f : α → Outcome ε Unit} {xs : List α} : xs.forM f = ok () ↔ ∀ x ∈ xs, f x = ok () := by
  induction xs with
  | nil => exact ⟨nofun, fun _ => rfl⟩
  | cons x xs ih =>
    rw [forM_eq_forM, forM_cons, bind_eq_ok, forall_mem_cons, ← ih]
    exact ⟨fun ⟨_, h, hrest⟩ => ⟨h, hrest⟩, fun ⟨h, hrest⟩ => ⟨(), h, hrest⟩⟩

theorem mapM_eq_ok {xs : List α} {ys : List β} (h : xs.mapM f = ok ys) : ∀ x ∈ xs, ∃ y, f x = ok y := by
  induction xs generalizing ys with
  | nil => simp
  | cons x xs ih =>
    rw [mapM_cons] at h
    obtain ⟨y, hy, h⟩ := bind_eq_ok.1 h
    obtain ⟨ys', hys, _⟩ := bind_eq_ok.1 h
    intro x' hx'
    rcases mem_cons.1 hx' with rfl | hx'
    · exact ⟨y, hy⟩
    · exact ih hys x' hx'

theorem mapM_of_ok {f : α → Outcome ε β} {g : α → β} {xs : List α} (h : ∀ x ∈ xs, f x = ok (g x)) :
    xs.mapM f = ok (xs.map g) := by
  induction xs with
  | nil => rfl
  | cons x xs ih =>
    obtain ⟨hx, hxs⟩ := forall_mem_cons.1 h
    rw [mapM_cons, hx, ih hxs]
    rfl

variable (I : List α → β → Prop) {f : β → α → Outcome ε β}

theorem foldlM_invariant
    (hstep : ∀ done b x b', I done b → f b x = ok b' → I (done ++ [x]) b') {done xs : List α} {b' : β} (hI : I done b)
    (h : xs.foldlM f b = ok b') : I (done ++ xs) b' := by
  induction xs generalizing done b with
  | nil =>
    cases h
    rw [append_nil]
    exact hI
  | cons x xs ih =>
    obtain ⟨b₁, h₁, h⟩ := bind_eq_ok.1 h
    rw [append_cons]
    exact ih (hstep done b x b₁ hI h₁) h

theorem foldlM_admits (Admissible : List α → Prop) (I : List α → β → Prop) (xs : List α)
    (hclosed : ∀ done x, Admissible (done ++ [x]) → Admissible done)
    (hok : ∀ done b x, done ++ [x] <+: xs → I done b → Admissible (done ++ [x]) →
      ∃ b', f b x = ok b' ∧ I (done ++ [x]) b')
    (hpanic : ∀ done b x, done ++ [x] <+: xs → I done b → Admissible done → ¬Admissible (done ++ [x]) → f b x = panic)
    (hnil : Admissible []) (hI : I [] b) :
    (Admissible xs → ∃ b', xs.foldlM f b = ok b' ∧ I xs b') ∧ (¬Admissible xs → xs.foldlM f b = panic) := by
  -- From the end: what the loop has done before its last pass is given by the hypothesis.
  induction xs using reverseRecOn with
  | nil => exact ⟨fun _ => ⟨b, rfl, hI⟩, fun h => absurd hnil h⟩
  | append_singleton done x ih =>
    have hpre : done <+: done ++ [x] := prefix_append _ _
    obtain ⟨ih, ihpanic⟩ := ih (fun d b y hd => hok d b y (hd.trans hpre)) fun d b y hd => hpanic d b y (hd.trans hpre)
    rw [foldlM_append]
    constructor
    · intro hx
      obtain ⟨b₁, hrun, hI₁⟩ := ih (hclosed done x hx)
      obtain ⟨b', hf, hI'⟩ := hok done b₁ x (prefix_refl _) hI₁ hx
      exact ⟨b', by rw [hrun, ok_bind, foldlM_cons, hf, ok_bind, foldlM_nil, pure_eq], hI'⟩
    · intro hx
      by_cases hdone : Admissible done
      · obtain ⟨b₁, hrun, hI₁⟩ := ih hdone
        rw [hrun, ok_bind, foldlM_cons, hpanic done b₁ x (prefix_refl _) hI₁ hdone hx, panic_bind]
      · rw [ihpanic hdone, panic_bind]

theorem foldlM_total (xs : List α)
    (hok : ∀ done b x, done ++ [x] <+: xs → I done b → ∃ b', f b x = ok b' ∧ I (done ++ [x]) b') (hI : I [] b) :
    ∃ b', xs.foldlM f b = ok b' ∧ I xs b' :=
  (foldlM_admits (fun _ => True) I xs (fun _ _ h => h) (fun done b x hd h _ => hok done b x hd h)
    (fun _ _ _ _ _ _ h => absurd trivial h) trivial hI).1 trivial

def okOr : Option α → ε → Outcome ε α
  | some a, _ => ok a
  | none, e => err e

@[simp] theorem okOr_some (a : α) (e : ε) : okOr (some a) e = ok a := rfl

@[simp] theorem okOr_none (e : ε) : okOr (none : Option α) e = err e := rfl

variable {o : Option α}

theorem okOr_eq_ok : okOr o e = ok a ↔ o = some a := by
  cases o <;> simp

theorem okOr_ne_panic (o : Option α) (e : ε) : okOr o e ≠ panic := by
  cases o <;> simp

def ensure (b : Bool) (e : ε) : Outcome ε Unit := if b then ok () else err e

theorem ensure_eq_ok {b : Bool} : ensure b e = ok () ↔ b = true := by
  cases b <;> simp [ensure]

theorem ensure_ne_panic (b : Bool) (e : ε) : ensure b e ≠ panic := by
  cases b <;> simp [ensure]

def unwrap : Option α → Outcome ε α
  | some a => ok a
  | none => panic

@[simp] theorem unwrap_some (a : α) : (unwrap (some a) : Outcome ε α) = ok a := rfl

theorem unwrap_eq_ok : (unwrap o : Outcome ε α) = ok a ↔ o = some a := by
  cases o <;> simp [unwrap]

/-- `Result::unwrap`. -/
def unwrapResult {ε' : Type} : Outcome ε α → Outcome ε' α
  | ok a => ok a
  | err _ => panic
  | panic => panic

/-- `Result::ok`. -/
def toOption : Outcome ε α → Option α
  | ok a => some a
  | err _ => none
  | panic => none

theorem toOption_eq_some : x.toOption = some a ↔ x = ok a := by
  cases x <;> simp [toOption]

theorem filterMap_toOption_map_ok : (xs.map (ok : α → Outcome ε α)).filterMap toOption = xs := by
  rw [filterMap_map]
  exact filterMap_some

def isOk : Outcome ε α → Bool
  | ok _ => true
  | err _ => false
  | panic => false

theorem isOk_iff : x.isOk = true ↔ ∃ a, x = ok a := by
  cases x <;> simp [isOk]

/-- A result of a computation that cannot panic. -/
def ofExcept : Except ε α → Outcome ε α
  | .ok a => ok a
  | .error e => err e

theorem ofExcept_ne_panic (x : Except ε α) : ofExcept x ≠ panic := by
  cases x
  · exact err_ne_panic
  · exact ok_ne_panic

def mapErr {ε' : Type} (g : ε → ε') : Outcome ε α → Outcome ε' α
  | ok a => ok a
  | err e => err (g e)
  | panic => panic

theorem mapErr_eq_ok {ε' : Type} {g : ε → ε'} : x.mapErr g = ok a ↔ x = ok a := by
  cases x <;> simp [mapErr]

end Outcome

/-- A method on `&mut self`, where `σ` is the type of `self`. -/
def Exec (σ ε α : Type) := σ → Outcome ε α × σ

namespace Exec

variable {σ ε α β : Type}

/-- Sequencing; a failing first call keeps the state it produced. -/
def bind (x : Exec σ ε α) (f : α → Exec σ ε β) : Exec σ ε β := fun s =>
  match x s with
  | (.ok a, s') => f a s'
  | (.err e, s') => (.err e, s')
  | (.panic, s') => (.panic, s')

instance : Monad (Exec σ ε) where
  pure a := fun s => (.ok a, s)
  bind := bind

instance : LawfulMonad (Exec σ ε) := .mk' (Exec σ ε)
    (fun x => funext fun s => by
      show Exec.bind x _ s = _
      unfold Exec.bind
      rcases x s with ⟨o, s'⟩
      cases o <;> rfl)
    (fun _ _ => rfl)
    (fun x f g => funext fun s => by
      show Exec.bind (Exec.bind x f) g s = Exec.bind x (fun a => Exec.bind (f a) g) s
      unfold Exec.bind
      rcases x s with ⟨o, s'⟩
      cases o <;> rfl)

/-- A call that does not touch `self`. -/
def lift (x : Outcome ε α) : Exec σ ε α := fun s => (x, s)

def get : Exec σ ε σ := fun s => (.ok s, s)

def set (s : σ) : Exec σ ε Unit := fun _ => (.ok (), s)

def mapErr {ε' : Type} (g : ε → ε') (x : Exec σ ε α) : Exec σ ε' α := fun s => ((x s).1.mapErr g, (x s).2)

theorem bind_apply (x : Exec σ ε α) (f : α → Exec σ ε β) (s : σ) : (x >>= f) s = match x s with
      | (.ok a, s') => f a s'
      | (.err e, s') => (.err e, s')
      | (.panic, s') => (.panic, s') := rfl

@[simp] theorem pure_apply (a : α) (s : σ) : (pure a : Exec σ ε α) s = (.ok a, s) := rfl

@[simp] theorem lift_apply (x : Outcome ε α) (s : σ) : (lift x : Exec σ ε α) s = (x, s) := rfl

@[simp] theorem get_apply (s : σ) : (get : Exec σ ε σ) s = (.ok s, s) := rfl

theorem lift_bind_apply (x : Outcome ε α) (f : α → Exec σ ε β) (s : σ) : (lift x >>= f) s = match x with
      | .ok a => f a s
      | .err e => (.err e, s)
      | .panic => (.panic, s) := by
  cases x <;> rfl

theorem lift_bind_cases (x : Outcome ε α) (f : α → Exec σ ε β) (s : σ) :
    ((lift x >>= f) s).2 = s ∨ ∃ a, x = .ok a ∧ (lift x >>= f) s = f a s := by
  cases x with
  | ok a => exact .inr ⟨a, rfl, rfl⟩
  | err e | panic => exact .inl rfl

theorem ensure_bind_apply (b : Bool) (e : ε) (f : Unit → Exec σ ε β) (s : σ) :
    (lift (.ensure b e) >>= f) s = if b = true then f () s else (.err e, s) := by
  cases b <;> rfl

variable {x : Exec σ ε α} {s s' s'' : σ}

theorem bind_of_ok {a : α} (h : x s = (.ok a, s')) (f : α → Exec σ ε β) : (x >>= f) s = f a s' := by
  rw [bind_apply, h]

theorem bind_of_err {e : ε} (h : x s = (.err e, s')) (f : α → Exec σ ε β) : (x >>= f) s = (.err e, s') := by
  rw [bind_apply, h]

theorem bind_of_eq {y : Exec σ ε α} (h : x s = y s') (f : α → Exec σ ε β) : (x >>= f) s = (y >>= f) s' := by
  rw [bind_apply, bind_apply, h]

variable {f : α → Exec σ ε β}

theorem bind_eq_ok {b : β} (h : (x >>= f) s = (.ok b, s'')) : ∃ a s', x s = (.ok a, s') ∧ f a s' = (.ok b, s'') := by
  rw [bind_apply] at h
  split at h
  · rename_i a s' hx
    exact ⟨a, s', hx, h⟩
  · cases h
  · cases h

theorem bind_eq_err {e : ε} (h : (x >>= f) s = (.err e, s'')) :
    x s = (.err e, s'') ∨ ∃ a s', x s = (.ok a, s') ∧ f a s' = (.err e, s'') := by
  rw [bind_apply] at h
  split at h
  · rename_i a s' hx
    exact .inr ⟨a, s', hx, h⟩
  · rename_i hx
    cases h
    exact .inl hx
  · cases h

theorem lift_bind_eq_ok {x : Outcome ε α} {b : β} (h : (lift x >>= f) s = (.ok b, s'')) :
    ∃ a, x = .ok a ∧ f a s = (.ok b, s'') := by
  cases x with
  | ok a => exact ⟨a, rfl, h⟩
  | err e => cases h
  | panic => cases h

theorem mapErr_eq_ok {ε' : Type} {g : ε → ε'} {a : α} (h : x.mapErr g s = (.ok a, s')) : x s = (.ok a, s') := by
  obtain ⟨ho, hs⟩ := Prod.mk.inj h
  exact Prod.ext (Outcome.mapErr_eq_ok.1 ho) hs

variable {P : σ → Prop}

theorem bind_keeps (hx : P (x s).2) (hf : ∀ a s', P s' → P (f a s').2) : P ((x >>= f) s).2 := by
  rw [bind_apply]
  rcases hxs : x s with ⟨o, s'⟩
  rw [hxs] at hx
  cases o with
  | ok a => exact hf a s' hx
  | err e => exact hx
  | panic => exact hx

theorem forM_keeps {f : α → Exec σ ε Unit} (hf : ∀ a s, P s → P (f a s).2) (as : List α) (hs : P s) :
    P (as.forM f s).2 := by
  induction as generalizing s with
  | nil => exact hs
  | cons a as ih => exact bind_keeps (hf a s hs) fun _ _ => ih

theorem bind_pure_apply (x : Exec σ ε α) (f : α → β) (s : σ) :
    (x >>= fun a => pure (f a)) s = (f <$> (x s).1, (x s).2) := by
  rw [bind_apply]
  rcases x s with ⟨o, s'⟩
  cases o <;> rfl

/-! ## Calls on a part of the state -/

section Zoom

variable {τ : Type} {getPart : τ → σ} {setPart : τ → σ → τ}

def zoom (getPart : τ → σ) (setPart : τ → σ → τ) (x : Exec σ ε α) : Exec τ ε α := fun t =>
  ((x (getPart t)).1, setPart t (x (getPart t)).2)

theorem zoom_bind (hget : ∀ t s, getPart (setPart t s) = s)
    (hset : ∀ t s s', setPart (setPart t s) s' = setPart t s') (x : Exec σ ε α) (f : α → Exec σ ε β) :
    (x >>= f).zoom getPart setPart = x.zoom getPart setPart >>= fun a => (f a).zoom getPart setPart := by
  funext t
  rw [bind_apply]
  show (((x >>= f) (getPart t)).1, setPart t ((x >>= f) (getPart t)).2) = _
  rw [bind_apply]
  unfold zoom
  rcases x (getPart t) with ⟨o, s⟩
  cases o with
  | ok a =>
    dsimp only
    rw [hget, hset]
  | err e => rfl
  | panic => rfl

end Zoom

end Exec

end RustVmm.Lib
