import Mathlib.Logic.Function.Iterate

/-!
# Iterators

An iterator is a state with a `next` function; `Iter` carries a size that each item takes from, and that the end is
final.  By `call_eq_items`, call number `n` returns the item with index `n` of the list `items`.
-/

set_option autoImplicit false

namespace RustVmm.Lib

/-- A finite iterator that continues to return `None` at the end. -/
structure Iter (σ α : Type) where
  next : σ → Option α × σ
  size : σ → Nat
  size_lt : ∀ {s s' : σ} {a : α}, next s = (some a, s') → size s' < size s
  fused : ∀ {s s' : σ}, next s = (none, s') → next s' = (none, s')

namespace Iter

variable {σ α : Type} (it : Iter σ α)

/-- The items before the first `None`. -/
def items (s : σ) : List α :=
  match _h : it.next s with
  | (none, _) => []
  | (some a, s') => a :: items s'
termination_by it.size s
decreasing_by exact it.size_lt _h

theorem items_of_none {s s' : σ} (h : it.next s = (none, s')) : it.items s = [] := by
  rw [items]
  split
  · rfl
  · rename_i heq
    rw [h] at heq
    cases heq

theorem items_of_some {s s' : σ} {a : α} (h : it.next s = (some a, s')) : it.items s = a :: it.items s' := by
  rw [items]
  split <;> rename_i heq <;> rw [h] at heq <;> cases heq
  rfl

/-- What the call after `n` others returns. -/
def call (s : σ) (n : Nat) : Option α := (it.next ((fun s => (it.next s).2)^[n] s)).1

theorem call_zero (s : σ) : it.call s 0 = (it.next s).1 := rfl

theorem call_succ (s : σ) (n : Nat) : it.call s (n + 1) = it.call (it.next s).2 n := rfl

theorem call_of_end {s : σ} (h : it.next s = (none, s)) (n : Nat) : it.call s n = none := by
  induction n with
  | zero => rw [call_zero, h]
  | succ n ih => rw [call_succ, h, ih]

theorem call_eq_items (s : σ) (n : Nat) : it.call s n = (it.items s)[n]? := by
  induction n generalizing s with
  | zero =>
    rw [call_zero]
    rcases h : it.next s with ⟨_ | a, s'⟩
    · rw [it.items_of_none h]
      rfl
    · rw [it.items_of_some h]
      rfl
  | succ n ih =>
    rw [call_succ]
    rcases h : it.next s with ⟨_ | a, s'⟩
    · rw [it.items_of_none h]
      exact it.call_of_end (it.fused h) n
    · rw [it.items_of_some h]
      exact ih s'

end Iter

end RustVmm.Lib
