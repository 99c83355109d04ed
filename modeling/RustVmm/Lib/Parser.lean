import Mathlib.Data.List.Basic
import Mathlib.Data.Nat.Bitwise

/-!
# Parsers on lists of tokens

A parser takes a value off the front of its input and leaves the rest, or fails.  `Reads p xs a rest` says that in front
of `rest` the parser takes `xs` for `a`; there is one rule for each combinator.

* `Reads.map`, `Reads.seq`, `Reads.within` — composition.
* `reads_times`, `reads_many` — repetition of an encoding that is read back.
* `reads_le` — little-endian numbers.
-/

set_option autoImplicit false

namespace RustVmm.Lib

open List

/-- A value off the front of the input, and what is left of it. -/
abbrev Parser (τ α : Type) := StateT (List τ) Option α

namespace Parser

variable {τ α β : Type} {p : Parser τ α} {xs ys rest : List τ} {a : α}

/-! ## Combinators -/

def next : Parser τ τ
  | [] => none
  | t :: ts => some (t, ts)

def remaining : Parser τ (List τ) := fun input => some (input, [])

/-- The tokens before the next one that `stop` holds of, which is taken as well. -/
def takeUntil (stop : τ → Bool) : Parser τ (List τ)
  | [] => none
  | t :: ts => if stop t then some ([], ts) else (takeUntil stop ts).map fun r => (t :: r.1, r.2)

/-- `p`, and a translation of its value that may fail. -/
def filterMap (f : α → Option β) (p : Parser τ α) : Parser τ β := fun input => do
  let r ← p.run input
  let b ← f r.1
  return (b, r.2)

/-- `p`, a given number of times. -/
def times (p : Parser τ α) : Nat → Parser τ (List α)
  | 0 => pure []
  | n + 1 => List.cons <$> p <*> times p n

/-- `p` on the next `n` tokens.  It fails if `p` leaves some of them. -/
def within (n : Nat) (p : Parser τ α) : Parser τ α := fun input =>
  if n ≤ input.length then
    match p.run (input.take n) with
    | some (a, []) => some (a, input.drop n)
    | _ => none
  else none

/-- `p`, as long as there is input.  It fails if `p` fails or takes nothing. -/
def many (p : Parser τ α) : Parser τ (List α)
  | [] => some ([], [])
  | t :: ts => do
    let r ← p.run (t :: ts)
    if _h : r.2.length < (t :: ts).length then
      let s ← many p r.2
      return (r.1 :: s.1, s.2)
    else none
termination_by input => input.length
decreasing_by exact _h

/-! ## What a parser reads -/

/-- In front of `rest`, `p` takes the tokens `xs` and gives `a`. -/
def Reads (p : Parser τ α) (xs : List τ) (a : α) (rest : List τ) : Prop := p.run (xs ++ rest) = some (a, rest)

theorem Reads.map (f : α → β) (h : Reads p xs a rest) : Reads (f <$> p) xs (f a) rest := by
  unfold Reads at h ⊢
  rw [StateT.run_map, h]
  rfl

theorem Reads.seq {f : α → β} {p : Parser τ (α → β)} {q : Parser τ α}
    (hp : Reads p xs f (ys ++ rest)) (hq : Reads q ys a rest) :
    Reads (p <*> q) (xs ++ ys) (f a) rest := by
  unfold Reads at hp hq ⊢
  rw [StateT.run_seq, append_assoc, hp]
  simp [hq]

theorem Reads.filterMap {f : α → Option β} {b : β} (h : Reads p xs a rest) (hf : f a = some b) :
    Reads (p.filterMap f) xs b rest := by
  show (p.run (xs ++ rest)).bind _ = _
  rw [h]
  simp [hf]

theorem reads_next (t : τ) (rest : List τ) : Reads next [t] t rest := rfl

theorem Reads.next_bind {t : τ} {f : τ → Parser τ α} (h : Reads (f t) xs a rest) :
    Reads (next >>= f) (t :: xs) a rest := h

theorem reads_remaining (xs : List τ) : Reads remaining xs xs [] := by
  simp [Reads, remaining, StateT.run]

theorem reads_takeUntil {stop : τ → Bool} {t : τ} (hstop : stop t = true) (rest : List τ) :
    ∀ xs : List τ, (∀ x ∈ xs, stop x = false) → Reads (takeUntil stop) (xs ++ [t]) xs rest
  | [], _ => by simp [Reads, takeUntil, StateT.run, hstop]
  | x :: xs, hxs => by
    have ih := reads_takeUntil hstop rest xs fun y hy => hxs y (by simp [hy])
    simp only [Reads, StateT.run, append_assoc, singleton_append] at ih
    simp [Reads, takeUntil, StateT.run, hxs x (by simp), ih]

variable {enc : α → List τ}

theorem reads_times (rest : List τ) : ∀ as : List α, (∀ a ∈ as, ∀ rest, Reads p (enc a) a rest) →
      Reads (times p as.length) (as.flatMap enc) as rest
  | [], _ => rfl
  | a :: as, h => by
    have ih := reads_times rest as fun b hb => h b (by simp [hb])
    exact ((h a (by simp) _).map cons).seq ih

theorem Reads.within (h : Reads p xs a []) (rest : List τ) : Reads (p.within xs.length) xs a rest := by
  have hrun : p.run xs = some (a, []) := by simpa [Reads] using h
  simp [Reads, Parser.within, StateT.run] at hrun ⊢
  rw [hrun]

theorem many_nil : Reads (many p) [] [] [] := by
  simp [Reads, StateT.run, many]

theorem many_cons {as : List α} (hne : xs ≠ []) (hp : Reads p xs a ys)
    (hrest : Reads (many p) ys as []) : Reads (many p) (xs ++ ys) (a :: as) [] := by
  obtain ⟨t, ts, rfl⟩ := exists_cons_of_ne_nil hne
  have hrun : p (t :: (ts ++ ys)) = some (a, ys) := hp
  have hmany : many p ys = some (as, []) := by simpa [Reads, StateT.run] using hrest
  have hlt : ys.length < (t :: (ts ++ ys)).length := by
    simp only [length_cons, length_append]
    omega
  show many p (t :: ts ++ ys ++ []) = some (a :: as, [])
  rw [append_nil, cons_append, many, StateT.run, hrun]
  simp only [Option.bind_eq_bind, Option.bind_some, dif_pos hlt, hmany]
  rfl

theorem Reads.ne_nil (hnil : p.run [] = none) (h : Reads p xs a []) : xs ≠ [] := by
  rintro rfl
  rw [Reads, append_nil, hnil] at h
  cases h

theorem reads_many (hnil : p.run [] = none) :
    ∀ as : List α, (∀ a ∈ as, ∀ rest, Reads p (enc a) a rest) → Reads (many p) (as.flatMap enc) as []
  | [], _ => many_nil
  | a :: as, h => by
    have ha := h a (by simp)
    exact many_cons ((ha []).ne_nil hnil) (ha _) (reads_many hnil as fun b hb => h b (by simp [hb]))

/-! ## Little-endian numbers -/

/-- The lowest `n` bytes of a number, the lowest first. -/
def leBytes : Nat → Nat → List UInt8
  | 0, _ => []
  | n + 1, v => UInt8.ofNat v :: leBytes n (v / 256)

/-- The number that the bytes are. -/
def ofLeBytes : List UInt8 → Nat
  | [] => 0
  | b :: bs => b.toNat + 256 * ofLeBytes bs

/-- A number of `n` bytes, the lowest first. -/
def le (n : Nat) : Parser UInt8 Nat := ofLeBytes <$> times next n

@[simp] theorem length_leBytes (n v : Nat) : (leBytes n v).length = n := by
  induction n generalizing v with
  | zero => rfl
  | succ n ih => simp [leBytes, ih]

theorem ofLeBytes_leBytes (n v : Nat) (hv : v < 256 ^ n) : ofLeBytes (leBytes n v) = v := by
  induction n generalizing v with
  | zero =>
    simp [leBytes, ofLeBytes]
    omega
  | succ n ih =>
    have hdiv : v / 256 < 256 ^ n := Nat.div_lt_of_lt_mul (by rwa [Nat.pow_succ'] at hv)
    simp only [leBytes, ofLeBytes, ih _ hdiv, UInt8.toNat_ofNat']
    omega

theorem reads_le (n v : Nat) (hv : v < 256 ^ n) (rest : List UInt8) : Reads (le n) (leBytes n v) v rest := by
  have h := reads_times rest (leBytes n v) fun b _ rest => reads_next b rest
  have hmap := h.map ofLeBytes
  rw [ofLeBytes_leBytes n v hv] at hmap
  simpa [le] using hmap

end Parser

end RustVmm.Lib
