import Mathlib.Data.List.Basic

/-!
# Binary search

`binary_search_by` of a slice, as the standard library computes it: the range in which the element can be is halved
until one element is left, which is compared once more.

* `binarySearchBy_ok`, `binarySearchBy_error` — an index that is found, and the place where the element is missing.
-/

set_option autoImplicit false

namespace RustVmm.Lib

variable {α : Type}

/-- The loop of `binary_search_by`: the element, if there is one, is among the `size` elements from
`base` on. -/
def binarySearchFrom (xs : List α) (f : α → Ordering) (base size : Nat) (hpos : 0 < size)
    (hle : base + size ≤ xs.length) : Fin xs.length :=
  if _h : 1 < size then
    let half := size / 2
    let mid := base + half
    if f (xs.get ⟨mid, by omega⟩) = .gt then
      binarySearchFrom xs f base (size - half) (by omega) (by omega)
    else binarySearchFrom xs f mid (size - half) (by omega) (by omega)
  else ⟨base, by omega⟩
termination_by size
decreasing_by
  · exact Nat.sub_lt hpos (Nat.div_pos _h (by decide))
  · exact Nat.sub_lt hpos (Nat.div_pos _h (by decide))

/-- `binary_search_by`: the index of an element that is equal, or the index where one would have to be
inserted. -/
def binarySearchBy (xs : List α) (f : α → Ordering) : Except Nat (Fin xs.length) :=
  if h : 0 < xs.length then
    let base := binarySearchFrom xs f 0 xs.length h (by omega)
    match f (xs.get base) with
    | .eq => .ok base
    | .lt => .error (base + 1)
    | .gt => .error base
  else .error 0

def SortedFor (f : α → Ordering) (xs : List α) : Prop :=
  xs.Pairwise fun a b => (f b = .lt → f a = .lt) ∧ (f a = .gt → f b = .gt)

variable {xs : List α} {f : α → Ordering}

variable {i j : Fin xs.length}

theorem SortedFor.get_lt (h : SortedFor f xs) (hij : i < j) (hj : f (xs.get j) = .lt) : f (xs.get i) = .lt :=
  (List.pairwise_iff_getElem.1 h i j i.isLt j.isLt hij).1 hj

theorem SortedFor.get_gt (h : SortedFor f xs) (hij : i ≤ j) (hi : f (xs.get i) = .gt) : f (xs.get j) = .gt := by
  rcases Fin.lt_or_eq_of_le hij with hlt | rfl
  · exact (List.pairwise_iff_getElem.1 h i j i.isLt j.isLt hlt).2 hi
  · exact hi

theorem binarySearchFrom_spec (h : SortedFor f xs) {base size : Nat} (hpos : 0 < size) (hle : base + size ≤ xs.length)
    (hbase : ∀ i : Fin xs.length, i.val = base → base = 0 ∨ f (xs.get i) ≠ .gt)
    (habove : ∀ i : Fin xs.length, base + size ≤ i.val → f (xs.get i) = .gt) :
    let i := binarySearchFrom xs f base size hpos hle
    (i.val = 0 ∨ f (xs.get i) ≠ .gt) ∧ ∀ j, i < j → f (xs.get j) = .gt := by
  fun_induction binarySearchFrom xs f base size hpos hle with
  | case1 base size hpos hle hsize half mid hgt ih =>
    -- the middle is above: so is all that follows it
    refine ih hbase fun i hi => ?_
    by_cases hmid : mid ≤ i.val
    · exact h.get_gt hmid hgt
    · exact habove i (by omega)
  | case2 base size hpos hle hsize half mid hgt ih =>
    refine ih (fun i hi => .inr ?_) fun i hi => habove i (by omega)
    rwa [show i = ⟨mid, by omega⟩ from Fin.ext hi]
  | case3 base size hpos hle hsize =>
    refine ⟨hbase ⟨base, by omega⟩ rfl, fun j hj => habove j ?_⟩
    have hj : base < j.val := hj
    omega

theorem binarySearchBy_ok (h : binarySearchBy xs f = .ok i) : f (xs.get i) = .eq := by
  unfold binarySearchBy at h
  split at h
  · dsimp only at h
    split at h
    · rename_i heq
      cases h
      exact heq
    · cases h
    · cases h
  · cases h

theorem binarySearchBy_error (hf : SortedFor f xs) {n : Nat} (h : binarySearchBy xs f = .error n) :
    n ≤ xs.length ∧ (∀ i : Fin xs.length, i.val < n → f (xs.get i) = .lt) ∧
      ∀ i : Fin xs.length, n ≤ i.val → f (xs.get i) = .gt := by
  unfold binarySearchBy at h
  split at h
  · rename_i hpos
    obtain ⟨hbase, habove⟩ := binarySearchFrom_spec hf hpos (Nat.le_of_eq (Nat.zero_add xs.length))
      (fun _ _ => .inl rfl) fun i hi => absurd i.isLt (by omega)
    dsimp only at h
    generalize binarySearchFrom xs f 0 xs.length hpos _ = base at h hbase habove
    split at h
    · cases h
    · rename_i hlt
      cases h
      refine ⟨base.isLt, fun i hi => ?_, fun i hi => habove i hi⟩
      rcases Fin.lt_or_eq_of_le (show i ≤ base from Nat.lt_succ_iff.1 hi) with hi | rfl
      · exact hf.get_lt hi hlt
      · exact hlt
    · rename_i hgt
      cases h
      have hzero : base.val = 0 := hbase.resolve_right fun hne => hne hgt
      exact ⟨Nat.le_of_lt base.isLt, fun i hi => by omega, fun i hi => hf.get_gt hi hgt⟩
  · cases h
    exact ⟨Nat.zero_le _, fun i hi => absurd i.isLt (by omega), fun i _ => absurd i.isLt (by omega)⟩

end RustVmm.Lib
