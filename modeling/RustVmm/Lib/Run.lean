import Mathlib.Logic.Basic

/-!
# Runs of a transition function

A system is a total function `step : σ → ι → σ`; an input is one call, one message or one scheduling choice.

* `run`, `Along` — a run, and that every input is allowed in the state it finds.
* `Along.run_invariant`, `run_stays`, `Along.run_history` — what one step keeps, a run keeps.
* `Along.of_invariant` — an invariant turns what is allowed into what holds at each step.
* `prefix_iff_along`, `run_iff_along` — when an invariant is kept exactly by the inputs that are allowed.
-/

set_option autoImplicit false

namespace RustVmm.Lib

variable {σ ι : Type} {step : σ → ι → σ} {p q : σ → ι → Prop} {Inv : σ → Prop}

def run (step : σ → ι → σ) : σ → List ι → σ
  | s, [] => s
  | s, i :: is => run step (step s i) is

/-- Every step of the run meets `p`. -/
def Along (step : σ → ι → σ) (p : σ → ι → Prop) : σ → List ι → Prop
  | _, [] => True
  | s, i :: is => p s i ∧ Along step p (step s i) is

@[simp] theorem run_nil (s : σ) : run step s [] = s := rfl

@[simp] theorem run_cons (s : σ) (i : ι) (is : List ι) : run step s (i :: is) = run step (step s i) is := rfl

theorem run_append (s : σ) (first second : List ι) :
    run step s (first ++ second) = run step (run step s first) second := by
  induction first generalizing s with
  | nil => rfl
  | cons i first ih => exact ih (step s i)

@[simp] theorem along_nil (s : σ) : Along step p s [] := trivial

@[simp] theorem along_cons (s : σ) (i : ι) (is : List ι) :
    Along step p s (i :: is) ↔ p s i ∧ Along step p (step s i) is := Iff.rfl

variable {is : List ι} {s : σ}

theorem Along.run_invariant (hstep : ∀ s i, Inv s → p s i → Inv (step s i)) (hs : Inv s) (ha : Along step p s is) :
    Inv (run step s is) := by
  induction is generalizing s with
  | nil => exact hs
  | cons i is ih => exact ih (hstep s i hs ha.1) ha.2

theorem Along.run_history {I : List ι → σ → Prop} (hstep : ∀ done s i, I done s → p s i → I (done ++ [i]) (step s i))
    {done : List ι} (hs : I done s) (ha : Along step p s is) : I (done ++ is) (run step s is) := by
  induction is generalizing done s with
  | nil =>
    rw [List.append_nil]
    exact hs
  | cons i is ih =>
    rw [List.append_cons]
    exact ih (hstep done s i hs ha.1) ha.2

theorem Along.of_invariant (hstep : ∀ s i, Inv s → p s i → Inv (step s i)) (hq : ∀ s i, Inv s → p s i → q s i)
    (hs : Inv s) (ha : Along step p s is) : Along step q s is := by
  induction is generalizing s with
  | nil => trivial
  | cons i is ih => exact ⟨hq s i hs ha.1, ih (hstep s i hs ha.1) ha.2⟩

theorem Along.mono (h : ∀ s i, p s i → q s i) (ha : Along step p s is) : Along step q s is := by
  induction is generalizing s with
  | nil => trivial
  | cons i is ih => exact ⟨h s i ha.1, ih ha.2⟩

theorem along_true (s : σ) (is : List ι) : Along step (fun _ _ => True) s is := by
  induction is generalizing s with
  | nil => trivial
  | cons i is ih => exact ⟨trivial, ih _⟩

theorem run_stays {I : σ → Prop} (hstep : ∀ s i, I s → I (step s i)) (hs : I s) (is : List ι) : I (run step s is) :=
  (along_true s is).run_invariant (fun s i h _ => hstep s i h) hs

theorem along_and (s : σ) (is : List ι) :
    Along step (fun s i => p s i ∧ q s i) s is ↔ Along step p s is ∧ Along step q s is := by
  induction is generalizing s with
  | nil => simp
  | cons i is ih =>
    rw [along_cons, ih]
    exact and_and_and_comm

theorem along_congr (hpq : ∀ s i, Inv s → (p s i ↔ q s i)) (hstep : ∀ s i, Inv s → p s i → Inv (step s i))
    (hs : Inv s) :
    Along step p s is ↔ Along step q s is := by
  induction is generalizing s with
  | nil => exact Iff.rfl
  | cons i is ih =>
    constructor
    · rintro ⟨hp, ha⟩
      exact ⟨(hpq s i hs).1 hp, (ih (hstep s i hs hp)).1 ha⟩
    · rintro ⟨hq, ha⟩
      have hp := (hpq s i hs).2 hq
      exact ⟨hp, (ih (hstep s i hs hp)).2 ha⟩

theorem prefix_iff_along (hstep : ∀ s i, Inv s → (Inv (step s i) ↔ p s i)) (hs : Inv s) :
    (∀ done, done <+: is → Inv (run step s done)) ↔ Along step p s is := by
  induction is generalizing s with
  | nil =>
    refine iff_of_true (fun done hdone => ?_) trivial
    rw [List.prefix_nil.1 hdone]
    exact hs
  | cons i is ih =>
    constructor
    · intro hall
      have hnext : Inv (step s i) := hall [i] ⟨is, rfl⟩
      refine ⟨(hstep s i hs).1 hnext, (ih hnext).1 fun done hdone => ?_⟩
      exact hall (i :: done) ((List.prefix_cons_inj i).2 hdone)
    · rintro ⟨hp, hrest⟩ done hdone
      cases done with
      | nil => exact hs
      | cons first done =>
        obtain ⟨rfl, hrest'⟩ := List.cons_prefix_cons.1 hdone
        exact (ih ((hstep s first hs).2 hp)).2 hrest done hrest'

theorem run_iff_along (Lost : σ → Prop) (hkept : ∀ s i, Inv s → p s i → Inv (step s i))
    (hlost : ∀ s i, Inv s → ¬ p s i → Lost (step s i)) (hstays : ∀ s i, Lost s → Lost (step s i))
    (hne : ∀ s, Lost s → ¬ Inv s) (hs : Inv s) : Inv (run step s is) ↔ Along step p s is := by
  induction is generalizing s with
  | nil => exact iff_of_true hs trivial
  | cons i is ih =>
    by_cases hp : p s i
    · rw [run_cons, along_cons, ih (hkept s i hs hp), and_iff_right hp]
    · have hend := run_stays hstays (hlost s i hs hp) is
      exact iff_of_false (hne _ hend) fun ha => hp ha.1

end RustVmm.Lib
