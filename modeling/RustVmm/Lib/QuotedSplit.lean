import Mathlib.Data.List.Basic

/-!
# Splitting at separators outside of quotes

Every quote character changes between inside and outside; nothing else is special, and the quotes stay in the pieces.

* `splitOutside_eq_singleton` — a line is one piece exactly if it is `Whole`.
* `splitOutside_intercalate` — pieces that are joined come back exactly if each is whole.
-/

set_option autoImplicit false

namespace RustVmm.Lib

open List

variable {α : Type} [DecidableEq α] {sep quote : α}

/-- The pieces of a line; `quoted` says whether it starts inside of quotes. -/
def splitOutside (sep quote : α) : Bool → List α → List (List α)
  | _, [] => [[]]
  | quoted, c :: cs =>
    if c = sep ∧ quoted = false then [] :: splitOutside sep quote false cs
    else (splitOutside sep quote (quoted != decide (c = quote)) cs).modifyHead (c :: ·)

def stateAfter (quote : α) (quoted : Bool) (s : List α) : Bool := s.foldl (fun q c => q != decide (c = quote)) quoted

/-- All separators of the item are inside of quotes. -/
def Whole (sep quote : α) : Bool → List α → Prop
  | _, [] => True
  | quoted, c :: cs => (c = sep → quoted = true) ∧ Whole sep quote (quoted != decide (c = quote)) cs

theorem stateAfter_cons (quoted : Bool) (c : α) (s : List α) :
    stateAfter quote quoted (c :: s) = stateAfter quote (quoted != decide (c = quote)) s := rfl

theorem stateAfter_append (quoted : Bool) (s t : List α) :
    stateAfter quote quoted (s ++ t) = stateAfter quote (stateAfter quote quoted s) t :=
  foldl_append

theorem stateAfter_eq (quoted : Bool) (s : List α) :
    stateAfter quote quoted s = (quoted != decide (s.count quote % 2 = 1)) := by
  induction s generalizing quoted with
  | nil => simp [stateAfter]
  | cons c s ih =>
    rw [stateAfter_cons, ih, count_cons]
    by_cases hc : c = quote
    · rw [decide_eq_true hc, if_pos (by simpa using hc)]
      rcases Nat.mod_two_eq_zero_or_one (s.count quote) with hmod | hmod
      · rw [hmod, show (s.count quote + 1) % 2 = 1 by omega]
        cases quoted <;> rfl
      · rw [hmod, show (s.count quote + 1) % 2 = 0 by omega]
        cases quoted <;> rfl
    · rw [decide_eq_false hc, if_neg (by simpa using hc), Nat.add_zero, Bool.bne_false]

variable {s item : List α}

theorem stateAfter_of_not_mem (h : quote ∉ s) (quoted : Bool) : stateAfter quote quoted s = quoted := by
  rw [stateAfter_eq, count_eq_zero.2 h]
  exact Bool.bne_false quoted

variable {quoted : Bool}

theorem whole_append {t : List α} : Whole sep quote quoted (s ++ t) ↔
      Whole sep quote quoted s ∧ Whole sep quote (stateAfter quote quoted s) t := by
  induction s generalizing quoted with
  | nil => exact (and_iff_right trivial).symm
  | cons c s ih =>
    show _ ∧ Whole sep quote _ (s ++ t) ↔ (_ ∧ Whole sep quote _ s) ∧ _
    rw [ih, and_assoc]
    rfl

theorem whole_of_not_mem (h : sep ∉ s) (quoted : Bool) : Whole sep quote quoted s := by
  induction s generalizing quoted with
  | nil => trivial
  | cons c s ih =>
    rw [mem_cons, not_or] at h
    exact ⟨fun hc => absurd hc.symm h.1, ih h.2 _⟩

variable {c : α}

theorem whole_cons_of_ne (h : c ≠ sep) :
    Whole sep quote quoted (c :: s) ↔ Whole sep quote (quoted != decide (c = quote)) s :=
  and_iff_right fun hc => absurd hc h

theorem whole_cons_plain (hsep : c ≠ sep) (hquote : c ≠ quote) :
    Whole sep quote quoted (c :: s) ↔ Whole sep quote quoted s := by
  rw [whole_cons_of_ne hsep, decide_eq_false hquote, Bool.bne_false]

theorem whole_true_of_no_quote (h : quote ∉ s) : Whole sep quote true s := by
  induction s with
  | nil => trivial
  | cons c s ih =>
    rw [mem_cons, not_or] at h
    refine ⟨fun _ => rfl, ?_⟩
    rw [decide_eq_false (Ne.symm h.1)]
    exact ih h.2

theorem whole_false_of_no_quote (h : quote ∉ s) : Whole sep quote false s ↔ sep ∉ s := by
  refine ⟨fun hw hmem => ?_, fun hno => whole_of_not_mem hno false⟩
  obtain ⟨before, after, rfl⟩ := append_of_mem hmem
  obtain ⟨_, hsep, _⟩ := whole_append.1 hw
  rw [stateAfter_of_not_mem fun hm => h (mem_append_left _ hm)] at hsep
  cases hsep rfl

/-! ## Pieces -/

variable {pieces : List (List α)}

omit [DecidableEq α] in
theorem modifyHead_cons_eq {rest : List (List α)} :
    pieces.modifyHead (c :: ·) = (c :: item) :: rest ↔ pieces = item :: rest := by
  cases pieces with
  | nil => simp
  | cons p ps => simp

omit [DecidableEq α] in
theorem not_splits : ¬ (c = sep ∧ quoted = false) ↔ (c = sep → quoted = true) := by
  cases quoted <;> simp

theorem splitOutside_append_sep {rest : List α} : splitOutside sep quote quoted (item ++ sep :: rest) = item :: pieces ↔
      Whole sep quote quoted item ∧ stateAfter quote quoted item = false ∧
        splitOutside sep quote false rest = pieces := by
  induction item generalizing quoted with
  | nil =>
    rw [nil_append, splitOutside]
    cases quoted with
    | false =>
      simp [Whole, stateAfter]
    | true =>
      cases splitOutside sep quote (true != decide (sep = quote)) rest <;> simp [stateAfter]
  | cons c item ih =>
    rw [cons_append, splitOutside, stateAfter_cons]
    by_cases hc : c = sep ∧ quoted = false
    · rw [if_pos hc]
      refine iff_of_false nofun ?_
      rintro ⟨⟨hquoted, _⟩, _⟩
      exact not_splits.2 hquoted hc
    · rw [if_neg hc, modifyHead_cons_eq, ih]
      show _ ↔ (_ ∧ _) ∧ _
      rw [and_iff_right (not_splits.1 hc)]

theorem splitOutside_ne_nil (quoted : Bool) (s : List α) : splitOutside sep quote quoted s ≠ [] := by
  induction s generalizing quoted with
  | nil => exact cons_ne_nil _ _
  | cons c s ih =>
    rw [splitOutside]
    split
    · exact cons_ne_nil _ _
    · exact fun h => ih _ (modifyHead_eq_nil_iff.1 h)

theorem splitOutside_append_of_outside (hne : sep ≠ quote) {before : List α}
    (h : stateAfter quote quoted before = false) (rest : List α) :
    splitOutside sep quote quoted (before ++ sep :: rest) =
      splitOutside sep quote quoted before ++ splitOutside sep quote false rest := by
  induction before generalizing quoted with
  | nil =>
    obtain rfl : quoted = false := h
    exact if_pos ⟨rfl, rfl⟩
  | cons c before ih =>
    rw [cons_append, splitOutside, splitOutside]
    split
    · rename_i hc
      rw [stateAfter_cons, hc.1, hc.2, decide_eq_false hne] at h
      exact congrArg ([] :: ·) (ih h)
    · rw [ih h]
      cases hpieces : splitOutside sep quote (quoted != decide (c = quote)) before with
      | nil => exact absurd hpieces (splitOutside_ne_nil _ _)
      | cons piece pieces => rfl

theorem splitOutside_eq_singleton : splitOutside sep quote quoted item = [item] ↔ Whole sep quote quoted item := by
  induction item generalizing quoted with
  | nil => exact iff_of_true rfl trivial
  | cons c item ih =>
    rw [splitOutside]
    by_cases hc : c = sep ∧ quoted = false
    · rw [if_pos hc]
      refine iff_of_false nofun ?_
      rintro ⟨hquoted, _⟩
      exact not_splits.2 hquoted hc
    · rw [if_neg hc, modifyHead_cons_eq, ih]
      show _ ↔ _ ∧ _
      rw [and_iff_right (not_splits.1 hc)]

theorem splitOutside_intercalate {items : List (List α)} (hitems : items ≠ []) :
    splitOutside sep quote false ([sep].intercalate items) = items ↔ (∀ item ∈ items, Whole sep quote false item) ∧
        ∀ item ∈ items.dropLast, stateAfter quote false item = false := by
  induction items with
  | nil => exact absurd rfl hitems
  | cons item items ih =>
    cases items with
    | nil =>
      have hjoin : [sep].intercalate [item] = item := by simp [intercalate]
      rw [hjoin, splitOutside_eq_singleton]
      simp
    | cons item' items =>
      rw [intercalate_cons_cons, append_assoc, singleton_append,
        splitOutside_append_sep, ih (cons_ne_nil _ _), dropLast_cons_cons,
        forall_mem_cons (l := item' :: items), forall_mem_cons (l := (item' :: items).dropLast)]
      constructor
      · rintro ⟨hwhole, hstate, hrest, hclosed⟩
        exact ⟨⟨hwhole, hrest⟩, hstate, hclosed⟩
      · rintro ⟨⟨hwhole, hrest⟩, hstate, hclosed⟩
        exact ⟨hwhole, hstate, hrest, hclosed⟩

end RustVmm.Lib
