import RustVmm.Lib.Outcome
import RustVmm.Lib.U64

/-!
# Ranges, constraints and errors of the address allocator

Model of `vm-allocator/src/lib.rs` and of the alignment helpers of `allocation_engine/interval_tree.rs`.  An address is
a natural number not above `U64_MAX`; what a caller hands over is a `UInt64`.

* `RangeInclusive`, `Constraint` — carry what their constructors check.
* `exists_new`, `RangeInclusive.new_eq_ok`, `Constraint.new_eq_ok` — when the constructors succeed.
* `alignDown_spec`, `alignUp_spec` — the bit tricks give multiples of the alignment.
-/

set_option autoImplicit false

namespace RustVmm.VmAllocator

open Lib

inductive NodeState where
  | free
  | allocated
  deriving DecidableEq, Repr

def NodeState.isFree (s : NodeState) : Bool := s == .free

/-- A closed interval `[start, end]`; the full range `[0, u64::MAX]` has no `u64` length and is
excluded. -/
structure RangeInclusive where
  start : Nat
  end_ : Nat
  start_le : start ≤ end_
  end_le : end_ ≤ U64_MAX
  proper : ¬ (start = 0 ∧ end_ = U64_MAX)
  deriving DecidableEq, Repr

inductive Error where
  | overflow
  | outOfRange (id : UInt32)
  | alreadyReleased (id : UInt32)
  | neverAllocated (id : UInt32)
  | resourceNotAvailable
  | invalidRange (start end_ : Nat)
  | invalidAlignment
  | overlap (key existing : RangeInclusive)
  | invalidStateTransition (key : RangeInclusive) (state : NodeState)
  | unalignedAddress
  | underflow
  | invalidSize (size : UInt64)
  deriving DecidableEq, Repr

namespace RangeInclusive

def new (start end_ : Nat) : Outcome Error RangeInclusive :=
  if h : start ≤ end_ ∧ end_ ≤ U64_MAX ∧ ¬ (start = 0 ∧ end_ = U64_MAX) then
    .ok ⟨start, end_, h.1, h.2.1, h.2.2⟩
  else .err (.invalidRange start end_)

/-- `end - start + 1`; it fits a `u64` because the full range is excluded. -/
def len (r : RangeInclusive) : Nat := r.end_ - r.start + 1

def overlaps (r other : RangeInclusive) : Bool := max r.start other.start ≤ min r.end_ other.end_

def contains (r other : RangeInclusive) : Bool := r.start ≤ other.start && r.end_ ≥ other.end_

/-- The derived `Ord`: by start, then by end. -/
def cmp (r other : RangeInclusive) : Ordering := (compare r.start other.start).then (compare r.end_ other.end_)

/-- The addresses of a range. -/
instance : Membership Nat RangeInclusive := ⟨fun r a => r.start ≤ a ∧ a ≤ r.end_⟩

instance (a : Nat) (r : RangeInclusive) : Decidable (a ∈ r) := inferInstanceAs (Decidable (r.start ≤ a ∧ a ≤ r.end_))

/-- No address is in both ranges. -/
def Disjoint (r q : RangeInclusive) : Prop := r.end_ < q.start ∨ q.end_ < r.start

variable {r q : RangeInclusive}

theorem mem_def {a : Nat} : a ∈ r ↔ r.start ≤ a ∧ a ≤ r.end_ := Iff.rfl

theorem ext_bounds (h1 : r.start = q.start) (h2 : r.end_ = q.end_) : r = q := by
  cases r; cases q; simp_all

theorem exists_new {s e : Nat} (h1 : s ≤ e) (h2 : e ≤ U64_MAX) (h3 : ¬ (s = 0 ∧ e = U64_MAX)) :
    ∃ r, new s e = .ok r ∧ r.start = s ∧ r.end_ = e :=
  ⟨⟨s, e, h1, h2, h3⟩, dif_pos ⟨h1, h2, h3⟩, rfl, rfl⟩

theorem new_eq_ok {s e : Nat} : new s e = .ok r ↔ r.start = s ∧ r.end_ = e := by
  unfold new
  split
  · constructor
    · intro h; cases h; exact ⟨rfl, rfl⟩
    · rintro ⟨rfl, rfl⟩; rfl
  · rename_i h
    constructor
    · intro h'; cases h'
    · rintro ⟨rfl, rfl⟩
      exact absurd ⟨r.start_le, r.end_le, r.proper⟩ h

theorem new_ne_panic (s e : Nat) : new s e ≠ .panic := by
  unfold new; split <;> simp

theorem overlaps_iff : r.overlaps q = true ↔ r.start ≤ q.end_ ∧ q.start ≤ r.end_ := by
  have := r.start_le
  have := q.start_le
  simp only [overlaps, decide_eq_true_eq]
  omega

theorem not_overlaps_iff : r.overlaps q = false ↔ r.Disjoint q := by
  rw [← Bool.not_eq_true, overlaps_iff, Disjoint]
  omega

theorem contains_iff : r.contains q = true ↔ r.start ≤ q.start ∧ q.end_ ≤ r.end_ := by
  simp [contains]

theorem contains_self (r : RangeInclusive) : r.contains r = true := contains_iff.2 ⟨Nat.le_refl _, Nat.le_refl _⟩

theorem cmp_eq_iff : r.cmp q = .eq ↔ r = q := by
  simp only [cmp, Ordering.then_eq_eq, Nat.compare_eq_eq]
  exact ⟨fun h => ext_bounds h.1 h.2, fun h => by subst h; exact ⟨rfl, rfl⟩⟩

theorem cmp_lt_iff : r.cmp q = .lt ↔ r.start < q.start ∨ (r.start = q.start ∧ r.end_ < q.end_) := by
  simp [cmp, Ordering.then_eq_lt, Nat.compare_eq_lt]

theorem cmp_gt_iff : r.cmp q = .gt ↔ q.start < r.start ∨ (r.start = q.start ∧ q.end_ < r.end_) := by
  simp [cmp, Ordering.then_eq_gt, Nat.compare_eq_gt]

theorem Disjoint.symm (h : r.Disjoint q) : q.Disjoint r := Or.symm h

end RangeInclusive

/-! ## Alignment -/

def alignDown (address alignment : Nat) : Outcome Error Nat :=
  if ¬ alignment.isPowerOfTwo then .err .invalidAlignment
  else .ok (alignDownMask address alignment)

def alignUp (address alignment : Nat) : Outcome Error Nat :=
  if alignment = 0 then .err .invalidAlignment
  else
    match checkedAdd address (alignment - 1) with
    | some intermediaryAddress => alignDown intermediaryAddress alignment
    | none => .err .overflow

variable {a al r : Nat}

theorem alignDown_eq_ok (h : alignDown a al = .ok r) : ∃ k, al = 2 ^ k ∧ r = alignDownMask a (2 ^ k) := by
  unfold alignDown at h
  split at h
  · cases h
  · rename_i hp
    obtain ⟨k, rfl⟩ := Classical.not_not.1 hp
    cases h
    exact ⟨k, rfl, rfl⟩

theorem alignDown_spec (ha : a ≤ U64_MAX) (hal : al ≤ U64_MAX) (h : alignDown a al = .ok r) : r ≤ a ∧ r % al = 0 := by
  obtain ⟨k, rfl, rfl⟩ := alignDown_eq_ok h
  exact ⟨alignDownMask_le ha hal, alignDownMask_mod ha hal⟩

theorem alignUp_spec (hal : al ≤ U64_MAX) (h : alignUp a al = .ok r) : a ≤ r ∧ r % al = 0 := by
  unfold alignUp at h
  split at h
  · cases h
  · split at h
    · rename_i x hx
      obtain ⟨hle, rfl⟩ := checkedAdd_eq_some.1 hx
      obtain ⟨k, rfl, rfl⟩ := alignDown_eq_ok h
      refine ⟨?_, alignDownMask_mod hle hal⟩
      rw [alignDownMask_eq hle hal]
      have := Nat.div_add_mod (a + (2 ^ k - 1)) (2 ^ k)
      rw [Nat.mul_comm]
      omega
    · cases h

theorem alignDown_ne_panic (a al : Nat) : alignDown a al ≠ .panic := by
  unfold alignDown; split <;> simp

theorem alignUp_ne_panic (a al : Nat) : alignUp a al ≠ .panic := by
  unfold alignUp
  split
  · simp
  · split
    · exact alignDown_ne_panic _ _
    · simp

/-! ## Constraints -/

inductive AllocPolicy where
  | firstMatch
  | lastMatch
  | exactMatch (startAddress : UInt64)
  deriving DecidableEq, Repr

/-- A validated allocation request. -/
structure Constraint where
  size : UInt64
  align : UInt64
  policy : AllocPolicy
  size_pos : 0 < size.toNat
  align_pow : align.toNat.isPowerOfTwo
  aligned : ∀ a, policy = .exactMatch a → a.toNat % align.toNat = 0

def Constraint.new (size align : UInt64) (policy : AllocPolicy) : Outcome Error Constraint :=
  if hs : size.toNat = 0 then .err (.invalidSize size)
  else if ha : ¬ align.toNat.isPowerOfTwo ∨ align.toNat = 0 then .err .invalidAlignment
  else
    match policy with
    | .exactMatch a =>
      if hm : a.toNat % align.toNat ≠ 0 then .err .unalignedAddress
      else .ok ⟨size, align, .exactMatch a, Nat.pos_of_ne_zero hs, Classical.not_not.1 (not_or.1 ha).1, fun _ h => by
          cases h; exact Classical.not_not.1 hm⟩
    | .firstMatch => .ok ⟨size, align, .firstMatch, Nat.pos_of_ne_zero hs,
        Classical.not_not.1 (not_or.1 ha).1, fun _ h => by cases h⟩
    | .lastMatch => .ok ⟨size, align, .lastMatch, Nat.pos_of_ne_zero hs,
        Classical.not_not.1 (not_or.1 ha).1, fun _ h => by cases h⟩

theorem Constraint.align_le (c : Constraint) : c.align.toNat ≤ U64_MAX := by
  have := c.align.toNat_lt
  rw [U64_MAX_eq]
  omega

theorem Constraint.new_eq_ok {size align : UInt64} {policy : AllocPolicy} {c : Constraint}
    (h : Constraint.new size align policy = .ok c) :
    c.size = size ∧ c.align = align ∧ c.policy = policy := by
  unfold Constraint.new at h
  split at h
  · cases h
  split at h
  · cases h
  split at h
  · split at h
    · cases h
    · cases h; exact ⟨rfl, rfl, rfl⟩
  · cases h; exact ⟨rfl, rfl, rfl⟩
  · cases h; exact ⟨rfl, rfl, rfl⟩

theorem Constraint.new_ne_panic (size align : UInt64) (policy : AllocPolicy) :
    Constraint.new size align policy ≠ .panic := by
  unfold Constraint.new
  split
  · simp
  split
  · simp
  split
  · split <;> simp
  · simp
  · simp

end RustVmm.VmAllocator
