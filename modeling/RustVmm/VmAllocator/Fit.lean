import Mathlib.Order.Bounds.Basic
import RustVmm.VmAllocator.Runs

/-!
# Which request finds its place

The exact conditions under which the three policies do what they are named for.  `start + size` is computed before one
is subtracted, so a request that ends at `u64::MAX` is refused; `LastMatch` computes `end - size` before it adds one, so
`[0, size - 1]` is skipped; `ExactMatch` probes two addresses, so the last one of a node cannot be had.

* `checkConstraint_first_le`, `checkConstraint_last_ge` — one node offers its lowest and its highest place.
* `firstMatch_isLeast`, `lastMatch_isGreatest` — so do the searches.
* `firstMatch_lowest_iff`, `lastMatch_highest_iff`, `exactMatch_honoured_iff` — the conditions.
* `firstMatch_overflow_at_max`, `lastMatch_skips_node_at_zero`, `exactMatch_refuses_last_address` — where they fail.
-/

set_option autoImplicit false

namespace RustVmm.VmAllocator

open Lib AvlTree InnerNode Outcome List IntervalTree AddressAllocator

/-! ## Places -/

/-- `[x, x + size - 1]` lies in the range `k`, and `x` is a multiple of `align`. -/
def FitsIn (size align : UInt64) (k : RangeInclusive) (x : Nat) : Prop :=
  k.start ≤ x ∧ x + size.toNat ≤ k.end_ + 1 ∧ x % align.toNat = 0

/-- The addresses at which a request lies inside a single free node. -/
def fits (size align : UInt64) (t : InnerNode) : Set Nat :=
  {x | ∃ v ∈ t, v.nodeState = .free ∧ FitsIn size align v.key x}

/-- The answer is the range of `size` addresses from `x` on. -/
def HandsOut (size : UInt64) (x : Nat) (o : Outcome Error RangeInclusive) : Prop :=
  ∃ r, o = .ok r ∧ r.start = x ∧ r.end_ + 1 = x + size.toNat

variable {x a al r : Nat}
variable {o : Outcome Error RangeInclusive}

theorem HandsOut.not_err {size : UInt64} (h : HandsOut size x o) : ¬ ∃ e, o = .err e := by
  obtain ⟨r, rfl, _⟩ := h
  simp

/-! ## Alignment -/

theorem div_mul_le_of_dvd (h : a ≤ x + (al - 1)) (hx : x % al = 0) (hal : 0 < al) : a / al * al ≤ x := by
  obtain ⟨q, rfl⟩ := Nat.dvd_of_mod_eq_zero hx
  have hlt : a / al < q + 1 := by
    rw [Nat.div_lt_iff_lt_mul hal, Nat.add_mul, Nat.mul_comm]
    omega
  rw [Nat.mul_comm]
  exact Nat.mul_le_mul_left al (by omega)

theorem alignUp_least (hal : al ≤ U64_MAX) (h : alignUp a al = .ok r) (hle : a ≤ x) (hx : x % al = 0) : r ≤ x := by
  unfold alignUp at h
  split at h
  · cases h
  · split at h
    · rename_i y hy
      obtain ⟨hmax, rfl⟩ := checkedAdd_eq_some.1 hy
      obtain ⟨k, rfl, rfl⟩ := alignDown_eq_ok h
      rw [alignDownMask_eq hmax hal]
      exact div_mul_le_of_dvd (by omega) hx (Nat.two_pow_pos k)
    · cases h

variable {e : Error}

theorem alignUp_err {k : Nat} (hk : 2 ^ k ≤ U64_MAX) (h : alignUp a (2 ^ k) = .err e) (hle : a ≤ x)
    (hx : x ≤ U64_MAX) : x % 2 ^ k ≠ 0 := by
  have hpos := Nat.two_pow_pos k
  have hover : U64_MAX < a + (2 ^ k - 1) := by
    unfold alignUp at h
    rw [if_neg (by omega)] at h
    split at h
    · unfold alignDown at h
      rw [if_neg (not_not.2 ⟨k, rfl⟩)] at h
      cases h
    · rename_i hnone
      by_contra hle
      rw [checkedAdd_of_le (by omega)] at hnone
      cases hnone
  intro hmod
  -- the alignment divides `2 ^ 64`, so it divides the distance from `x` to there
  have hk64 : k ≤ 64 := by
    rw [U64_MAX_eq] at hk
    by_contra hge
    have := Nat.pow_le_pow_right (show 0 < 2 by decide) (Nat.le_of_not_le hge)
    omega
  rw [U64_MAX_eq] at hover hx
  have hdvd : 2 ^ k ∣ 2 ^ 64 - x := Nat.dvd_sub (Nat.pow_dvd_pow 2 hk64) (Nat.dvd_of_mod_eq_zero hmod)
  have := Nat.le_of_dvd (by omega) hdvd
  omega

theorem alignDown_greatest (ha : a ≤ U64_MAX) (hal : al ≤ U64_MAX) (h : alignDown a al = .ok r) (hle : x ≤ a)
    (hx : x % al = 0) : x ≤ r := by
  obtain ⟨k, rfl, rfl⟩ := alignDown_eq_ok h
  rw [alignDownMask_eq ha hal]
  obtain ⟨q, rfl⟩ := Nat.dvd_of_mod_eq_zero hx
  rw [Nat.mul_comm]
  refine Nat.mul_le_mul_right _ ?_
  rw [Nat.le_div_iff_mul_le (Nat.two_pow_pos k), Nat.mul_comm]
  exact hle

theorem alignDown_of_pow (h : al.isPowerOfTwo) : alignDown a al = .ok (alignDownMask a al) := by
  unfold alignDown
  rw [if_neg (not_not.2 h)]

/-! ## One node -/

section Node

variable {c : Constraint} {v : Slot} {x : Nat}
variable {r : RangeInclusive}

theorem FitsIn.of_checkConstraint (h : checkConstraint v c = .ok r) : FitsIn c.size c.align v.key r.start :=
  (checkConstraint_spec h).2

theorem rangeStart_of_checkConstraint (h : checkConstraint v c = .ok r) : rangeStart v.key c = .ok r.start := by
  unfold checkConstraint at h
  split at h
  · cases h
  obtain ⟨a, ha, h⟩ := bind_eq_ok.1 h
  obtain ⟨key, hk, h⟩ := bind_eq_ok.1 h
  obtain ⟨hks, _⟩ := RangeInclusive.new_eq_ok.1 hk
  split at h
  · cases h
    rw [ha, hks]
  · cases h

theorem checkConstraint_of_rangeStart {a : Nat} (hfree : v.nodeState = .free)
    (ha : rangeStart v.key c = .ok a) (hroom : a + c.size.toNat ≤ v.key.end_ + 1) :
    ∃ r, checkConstraint v c = .ok r := by
  have hsize := c.size_pos
  have hstart := (rangeStart_spec ha).1
  have hend := v.key.end_le
  have hproper := v.key.proper
  have hlen : ¬ v.key.len < c.size.toNat := by
    unfold RangeInclusive.len
    omega
  obtain ⟨r, hr, hrs, hre⟩ := RangeInclusive.exists_new (s := a) (e := v.key.end_) (by omega) (by omega) (by omega)
  refine ⟨r, ?_⟩
  unfold checkConstraint
  rw [if_neg (by simpa [hfree, NodeState.isFree] using hlen), ha, ok_bind, hr, ok_bind, if_pos]
  unfold RangeInclusive.len
  omega

theorem checkConstraint_first_le (hp : c.policy = .firstMatch) (h : checkConstraint v c = .ok r)
    (hx : FitsIn c.size c.align v.key x) : r.start ≤ x := by
  have hs := rangeStart_of_checkConstraint h
  unfold rangeStart at hs
  rw [hp] at hs
  exact alignUp_least c.align_le hs hx.1 hx.2.2

theorem checkConstraint_first_complete (hp : c.policy = .firstMatch) (hfree : v.nodeState = .free)
    (hx : FitsIn c.size c.align v.key x) : ∃ r, checkConstraint v c = .ok r := by
  obtain ⟨hle, hroom, hmod⟩ := hx
  have hsize := c.size_pos
  have hend := v.key.end_le
  have hs : rangeStart v.key c = alignUp v.key.start c.align.toNat := by
    unfold rangeStart
    rw [hp]
  cases ha : alignUp v.key.start c.align.toNat with
  | panic => exact absurd ha (alignUp_ne_panic _ _)
  | err e =>
    obtain ⟨k, hk⟩ := c.align_pow
    have hal := c.align_le
    rw [hk] at ha hmod hal
    exact absurd hmod (alignUp_err hal ha hle (by omega))
  | ok a =>
    have hax := alignUp_least c.align_le ha hle hmod
    exact checkConstraint_of_rangeStart hfree (hs.trans ha) (by omega)

theorem checkConstraint_last_ge (hp : c.policy = .lastMatch) (h : checkConstraint v c = .ok r) :
    c.size.toNat ≤ v.key.end_ ∧ ∀ x, FitsIn c.size c.align v.key x → x ≤ r.start := by
  have hs := rangeStart_of_checkConstraint h
  unfold rangeStart at hs
  rw [hp] at hs
  obtain ⟨p, hsub, h₁⟩ := bind_eq_ok.1 hs
  obtain ⟨q, hadd, h₂⟩ := bind_eq_ok.1 h₁
  obtain ⟨z, hdown, h₃⟩ := bind_eq_ok.1 h₂
  obtain ⟨hsle, rfl⟩ := checkedSub_eq_some.1 (okOr_eq_ok.1 hsub)
  obtain ⟨hale, rfl⟩ := checkedAdd_eq_some.1 (okOr_eq_ok.1 hadd)
  refine ⟨hsle, fun x ⟨hle, hroom, hmod⟩ => ?_⟩
  have hxz := alignDown_greatest hale c.align_le hdown (by omega) hmod
  split at h₃
  · cases h₃
  · cases h₃
    exact hxz

theorem checkConstraint_last_complete (hp : c.policy = .lastMatch) (hfree : v.nodeState = .free)
    (hx : FitsIn c.size c.align v.key x) (hsize : c.size.toNat ≤ v.key.end_) :
    ∃ r, checkConstraint v c = .ok r := by
  obtain ⟨hle, hroom, hmod⟩ := hx
  have hend := v.key.end_le
  have hpos := c.size_pos
  have hq : v.key.end_ - c.size.toNat + 1 ≤ U64_MAX := by omega
  have hdown := alignDown_of_pow (a := v.key.end_ - c.size.toNat + 1) c.align_pow
  have hge := alignDown_greatest hq c.align_le hdown (by omega) hmod
  have hbelow := (alignDown_spec hq c.align_le hdown).1
  refine checkConstraint_of_rangeStart
    (a := alignDownMask (v.key.end_ - c.size.toNat + 1) c.align.toNat) hfree ?_ (by omega)
  unfold rangeStart
  rw [hp]
  rw [checkedSub_of_le hsize, okOr_some, ok_bind, checkedAdd_of_le hq,
    okOr_some, ok_bind, hdown, ok_bind, if_neg (by omega)]

theorem FitsIn.eq_zero {size align : UInt64} {k : RangeInclusive} (hx : FitsIn size align k x)
    (hsize : ¬ size.toNat ≤ k.end_) : x = 0 ∧ k.start = 0 ∧ k.end_ + 1 = size.toNat := by
  obtain ⟨hle, hroom, _⟩ := hx
  omega

end Node

/-! ## The searches -/

section Search

variable {f : Slot → Outcome Error (Slot × RangeInclusive)} {c : Constraint} {t : InnerNode}
variable {e : Error}

theorem firstOf_eq_err (hf : ∀ v e, f v = .err e → e = .resourceNotAvailable) {vs : List Slot}
    (h : firstOf f vs = .err e) : ∀ v ∈ vs, ∀ b, f v ≠ .ok b := by
  induction vs with
  | nil => exact fun v hv => absurd hv not_mem_nil
  | cons u vs ih =>
    intro v hv b hb
    rw [firstOf] at h
    split at h
    · rename_i hu
      rcases mem_cons.1 hv with rfl | hv
      · rw [hu] at hb
        cases hb
      · exact ih h v hv b hb
    · rename_i hne
      exact hne (hf u e h ▸ h)

variable {v w : Slot} {r q : RangeInclusive}

theorem candidate_of_ok (h : checkConstraint v c = .ok r) : candidate v c = .ok (v, r) := by
  unfold candidate
  rw [h]

theorem candidate_err (h : candidate v c = .err e) : e = .resourceNotAvailable := by
  unfold candidate at h
  split at h
  · cases h
  · cases h
    rfl
  · cases h

theorem firstOf_first {vs : List Slot} {R : Slot → Slot → Prop} (ho : vs.Pairwise R)
    (h : firstOf (candidate · c) vs = .ok (v, r)) (hw : w ∈ vs) (hq : checkConstraint w c = .ok q) : w = v ∨ R v w := by
  obtain ⟨u, _, hu, before, after, rfl, hall⟩ := firstOf_eq_ok h
  obtain ⟨rfl, _⟩ := candidate_eq_ok hu
  rw [mem_append, mem_cons] at hw
  rw [pairwise_append, pairwise_cons] at ho
  rcases hw with hw | hw | hw
  · have hfail := hall w hw
    rw [candidate_of_ok hq] at hfail
    cases hfail
  · exact .inl hw
  · exact .inr (ho.2.1.1 w hw)

theorem firstMatch_first (ho : Ordered t) (h : firstMatch c t = .ok (v, r)) (hw : w ∈ t)
    (hq : checkConstraint w c = .ok q) : w = v ∨ v.Before w :=
  firstOf_first ho (firstMatch_eq.symm.trans h) hw hq

theorem lastMatch_last (ho : Ordered t) (h : lastMatch c t = .ok (v, r)) (hw : w ∈ t)
    (hq : checkConstraint w c = .ok q) : w = v ∨ w.Before v :=
  firstOf_first (pairwise_reverse.2 ho) (lastMatch_eq.symm.trans h) (mem_reverse.2 hw) hq

theorem firstMatch_err (h : firstMatch c t = .err e) : ∀ w ∈ t, ∀ q, checkConstraint w c ≠ .ok q := by
  rw [firstMatch_eq] at h
  intro w hw q hq
  exact firstOf_eq_err (fun _ _ => candidate_err) h w hw _ (candidate_of_ok hq)

theorem lastMatch_err (h : lastMatch c t = .err e) : ∀ w ∈ t, ∀ q, checkConstraint w c ≠ .ok q := by
  rw [lastMatch_eq] at h
  intro w hw q hq
  exact firstOf_eq_err (fun _ _ => candidate_err) h w (mem_reverse.2 hw) _ (candidate_of_ok hq)

end Search

/-! ## What each policy finds -/

variable {r : RangeInclusive} {v : Slot}

section Policies

variable {c : Constraint} {t : InnerNode}

theorem firstMatch_isLeast (hp : c.policy = .firstMatch) (ho : Ordered t) (h : firstMatch c t = .ok (v, r)) :
    v.nodeState = .free ∧ IsLeast (fits c.size c.align t) r.start := by
  obtain ⟨hv, hr⟩ := firstMatch_spec h
  have hfree := (checkConstraint_spec hr).1
  have hin := FitsIn.of_checkConstraint hr
  refine ⟨hfree, ⟨v, hv, hfree, hin⟩, ?_⟩
  rintro x ⟨w, hw, hwf, hx⟩
  obtain ⟨q, hq⟩ := checkConstraint_first_complete hp hwf hx
  rcases firstMatch_first ho h hw hq with rfl | hbefore
  · exact checkConstraint_first_le hp hr hx
  · have hroom := hin.2.1
    have hle := hx.1
    unfold Slot.Before at hbefore
    omega

theorem fits_eq_empty_of_firstMatch (hp : c.policy = .firstMatch)
    (h : firstMatch c t = .err e) : fits c.size c.align t = ∅ := by
  refine Set.eq_empty_of_forall_notMem ?_
  rintro x ⟨w, hw, hwf, hx⟩
  obtain ⟨q, hq⟩ := checkConstraint_first_complete hp hwf hx
  exact firstMatch_err h w hw q hq

/-- The node `[0, size - 1]` is free: `end - size` underflows there. -/
def SkippedByLast (size : UInt64) (t : InnerNode) (x : Nat) : Prop :=
  x = 0 ∧ ∃ v ∈ t, v.nodeState = .free ∧ v.key.start = 0 ∧ v.key.end_ + 1 = size.toNat

theorem lastMatch_isGreatest (hp : c.policy = .lastMatch) (ho : Ordered t) (h : lastMatch c t = .ok (v, r)) :
    v.nodeState = .free ∧ IsGreatest (fits c.size c.align t) r.start ∧ ¬ SkippedByLast c.size t r.start := by
  obtain ⟨hv, hr⟩ := lastMatch_spec h
  have hfree := (checkConstraint_spec hr).1
  have hin := FitsIn.of_checkConstraint hr
  refine ⟨hfree, ⟨⟨v, hv, hfree, hin⟩, ?_⟩, ?_⟩
  · rintro x ⟨w, hw, hwf, hx⟩
    by_cases hsize : c.size.toNat ≤ w.key.end_
    · obtain ⟨q, hq⟩ := checkConstraint_last_complete hp hwf hx hsize
      rcases lastMatch_last ho h hw hq with rfl | hbefore
      · exact (checkConstraint_last_ge hp hr).2 x hx
      · have hroom := hx.2.1
        have hle := hin.1
        unfold Slot.Before at hbefore
        omega
    · rw [(hx.eq_zero hsize).1]
      exact Nat.zero_le _
  · rintro ⟨h0, w, hw, _, hws, hwe⟩
    -- the node the search stopped at holds address 0 as well
    have hwz : 0 ∈ w.key := ⟨by omega, by omega⟩
    have hvz : 0 ∈ v.key := ⟨by have := hin.1; omega, by omega⟩
    have hvw := ho.eq_of_mem hv hw hvz hwz
    have hsize := (checkConstraint_last_ge hp hr).1
    rw [hvw] at hsize
    omega

theorem skippedByLast_of_lastMatch (hp : c.policy = .lastMatch)
    (h : lastMatch c t = .err e) {x : Nat} (hx : x ∈ fits c.size c.align t) :
    SkippedByLast c.size t x := by
  obtain ⟨w, hw, hwf, hx⟩ := hx
  have hsize : ¬ c.size.toNat ≤ w.key.end_ := by
    intro hsize
    obtain ⟨q, hq⟩ := checkConstraint_last_complete hp hwf hx hsize
    exact lastMatch_err h w hw q hq
  obtain ⟨h0, hs, he⟩ := hx.eq_zero hsize
  exact ⟨h0, w, hw, hwf, hs, he⟩

theorem exactMatch_of_next (ho : Ordered t) {x : UInt64} (hv : v ∈ t)
    (hx : FitsIn c.size c.align v.key x.toNat) (hnext : x.toNat + 1 ≤ v.key.end_) :
    ∃ q, exactMatch x c t = .ok (v, q) ∧ q.start = x.toNat := by
  obtain ⟨hle, hroom, _⟩ := hx
  have hpos := c.size_pos
  have hend := v.key.end_le
  have hproper := v.key.proper
  obtain ⟨probe, hprobe, hps, hpe⟩ := RangeInclusive.exists_new (s := x.toNat) (e := x.toNat + 1)
    (by omega) (by omega) (by rw [U64_MAX_eq]; omega)
  obtain ⟨q, hq, hqs, hqe⟩ := RangeInclusive.exists_new (s := x.toNat) (e := x.toNat + (c.size.toNat - 1))
    (by omega) (by omega) (by omega)
  have hsearch : searchSuperset probe t = some v :=
    (searchSuperset_eq_some ho).2 ⟨hv, RangeInclusive.contains_iff.2 ⟨by omega, by omega⟩⟩
  have hcontains : v.key.contains q = true := RangeInclusive.contains_iff.2 ⟨by omega, by omega⟩
  refine ⟨q, ?_, hqs⟩
  unfold exactMatch
  rw [checkedAdd_of_le (by omega), okOr_some, ok_bind, hprobe, ok_bind,
    hsearch, okOr_some, ok_bind, checkedSub_of_le hpos, okOr_some,
    ok_bind, checkedAdd_of_le (by omega), okOr_some, ok_bind, hq,
    ok_bind, hcontains]
  rfl

end Policies

/-! ## From the candidate to the answer -/

section Plan

variable {c : Constraint} {t : IntervalTree} {v : Slot} {q r : RangeInclusive}

theorem findCandidate_of_plan (h : plan c t = .ok (v, r)) :
    ∃ q, findCandidate c t.root = .ok (v, q) ∧ resultRange q c = .ok r := by
  obtain ⟨root, hroot, h⟩ := bind_eq_ok.1 h
  obtain ⟨⟨w, q⟩, hf, h⟩ := bind_eq_ok.1 h
  obtain ⟨result, hres, h⟩ := bind_eq_ok.1 h
  cases h
  rw [unwrap_eq_some (okOr_eq_ok.1 hroot)] at hf
  exact ⟨q, hf, hres⟩

theorem plan_of_findCandidate (hne : t.root ≠ .nil) (h : findCandidate c t.root = .ok (v, q)) :
    plan c t = (resultRange q c >>= fun r => .ok (v, r)) := by
  have hroot : unwrap t.root = some t.root := by
    cases ht : t.root with
    | nil => exact absurd ht hne
    | node => rfl
  unfold plan
  rw [hroot, okOr_some, ok_bind, h]
  rfl

theorem plan_of_le (hne : t.root ≠ .nil) (h : findCandidate c t.root = .ok (v, q))
    (hmax : q.start + c.size.toNat ≤ U64_MAX) :
    ∃ r, plan c t = .ok (v, r) ∧ r.start = q.start ∧ r.end_ + 1 = q.start + c.size.toNat := by
  have hpos := c.size_pos
  obtain ⟨r, hr, _, _⟩ := RangeInclusive.exists_new (s := q.start) (e := q.start + c.size.toNat - 1)
    (by omega) (by omega) (by omega)
  have hres : resultRange q c = .ok r := by
    unfold resultRange
    rw [checkedAdd_of_le hmax, okOr_some, ok_bind, checkedSub_of_le (by omega), okOr_some, ok_bind, hr]
  exact ⟨r, by rw [plan_of_findCandidate hne h, hres]; rfl, resultRange_eq_ok hres⟩

theorem le_of_resultRange (h : resultRange q c = .ok r) : q.start + c.size.toNat ≤ U64_MAX := by
  obtain ⟨a, ha, _⟩ := bind_eq_ok.1 h
  exact (checkedAdd_eq_some.1 (okOr_eq_ok.1 ha)).1

theorem plan_err (h : ∀ v r, plan c t ≠ .ok (v, r)) : ∃ e, plan c t = .err e := by
  cases hp : plan c t with
  | ok p => exact absurd hp (h p.1 p.2)
  | err e => exact ⟨e, rfl⟩
  | panic => exact absurd hp (plan_ne_panic c t)

end Plan

/-! ## Room below the insertion depth limit -/

section Room

variable {t : IntervalTree} {c : Constraint}

theorem allocate_of_plan (hw : WellFormed t.root) (hh : t.root.height ≤ 47)
    (hp : plan c t = .ok (v, r)) (hfree : v.nodeState = .free) : (allocate c t).1 = .ok r := by
  have hcases := allocate_cases hw c
  revert hcases
  generalize (allocate c t).1 = o
  generalize (allocate c t).2 = t'
  intro hcases
  cases hcases with
  | noCandidate hp' =>
    rw [hp] at hp'
    cases hp'
  | taken hp' hs =>
    rw [hp] at hp'
    cases hp'
    rw [hfree] at hs
    cases hs
  | whole hp' | split hp' =>
    rw [hp] at hp'
    cases hp'
    rfl
  | @lost v r _ _ hlow =>
    have := rests_le v.key r
    omega

theorem allocate_of_plan_err (hp : plan c t = .err e) : allocate c t = (.err e, t) := by
  rw [allocate_eq, hp]

theorem plan_of_allocate (hw : WellFormed t.root) (h : (allocate c t).1 = .ok r) :
    ∃ v, plan c t = .ok (v, r) := by
  have hcases := allocate_cases hw c
  rw [h] at hcases
  generalize (allocate c t).2 = t' at hcases
  cases hcases with
  | whole hp | split hp => exact ⟨_, hp⟩

end Room

/-! ## The three policies -/

theorem Constraint.new_of_valid {size align : UInt64} (policy : AllocPolicy)
    (hs : 0 < size.toNat) (hal : align.toNat.isPowerOfTwo)
    (hx : ∀ x, policy = .exactMatch x → x.toNat % align.toNat = 0) :
    ∃ c, Constraint.new size align policy = .ok c := by
  have hpos : align.toNat ≠ 0 := by
    obtain ⟨k, hk⟩ := hal
    have := Nat.two_pow_pos k
    omega
  unfold Constraint.new
  rw [dif_neg (by omega), dif_neg (by simp [hal, hpos])]
  cases policy with
  | firstMatch | lastMatch => exact ⟨_, rfl⟩
  | exactMatch x =>
    dsimp only
    rw [dif_neg (not_not.2 (hx x rfl))]
    exact ⟨_, rfl⟩

section Allocator

variable {a : AddressAllocator} {size align : UInt64} {policy : AllocPolicy} {c : Constraint}

theorem allocate_eq_onTree (hc : Constraint.new size align policy = .ok c) :
    allocate size align policy a = ((allocate c a.intervalTree).1,
        { a with intervalTree := (allocate c a.intervalTree).2 }) := by
  unfold AddressAllocator.allocate
  rw [Exec.bind_apply, hc]
  rfl

theorem allocate_without_candidate (hc : Constraint.new size align policy = .ok c)
    (hf : findCandidate c a.intervalTree.root = .err e) :
    ∃ e, allocate size align policy a = (.err e, a) := by
  obtain ⟨e', he⟩ : ∃ e, plan c a.intervalTree = .err e := by
    refine plan_err fun v r hp => ?_
    obtain ⟨q, hq, _⟩ := findCandidate_of_plan hp
    rw [hf] at hq
    cases hq
  exact ⟨e', by rw [allocate_eq_onTree hc, allocate_of_plan_err he]⟩

theorem allocate_candidate (ha : TreeInv a.intervalTree) (hh : a.intervalTree.root.height ≤ 47)
    (hc : Constraint.new size align policy = .ok c) {q : RangeInclusive}
    (hf : findCandidate c a.intervalTree.root = .ok (v, q)) (hv : v ∈ a.intervalTree.root)
    (hfree : v.nodeState = .free) :
    (q.start + size.toNat ≤ U64_MAX ∧ HandsOut size q.start (allocate size align policy a).1) ∨
    (¬ q.start + size.toNat ≤ U64_MAX ∧ ∃ e, allocate size align policy a = (.err e, a)) := by
  obtain ⟨rfl, _, _⟩ := Constraint.new_eq_ok hc
  rw [allocate_eq_onTree hc]
  by_cases hmax : q.start + c.size.toNat ≤ U64_MAX
  · obtain ⟨r, hp, hrs, hre⟩ := plan_of_le (ne_nil_of_mem hv) hf hmax
    exact .inl ⟨hmax, r, allocate_of_plan ha.wf hh hp hfree, hrs, hre⟩
  · obtain ⟨e, he⟩ : ∃ e, plan c a.intervalTree = .err e := by
      refine plan_err fun v' r hp => ?_
      obtain ⟨q', hq, hres⟩ := findCandidate_of_plan hp
      rw [hf] at hq
      cases hq
      exact hmax (le_of_resultRange hres)
    exact .inr ⟨hmax, e, by rw [allocate_of_plan_err he]⟩

theorem finds_best_iff {S : Set Nat} {best good : Nat → Prop} {refused : Prop}
    (huniq : ∀ x y, best x → best y → x = y) (hmem : ∀ x, best x → x ∈ S) (hrefused : refused → ∃ e, o = .err e)
    (h : (∃ x, best x ∧ good x ∧ HandsOut size x o) ∨ (∃ x, best x ∧ ¬ good x ∧ refused) ∨ (S = ∅ ∧ refused)) :
    ((∀ x, best x → HandsOut size x o) ∧ (refused ↔ S = ∅)) ↔ ∀ x, best x → good x := by
  have hne : ∀ x, best x → S ≠ ∅ := by
    intro x hx hS
    have := hmem x hx
    rw [hS] at this
    exact this
  rcases h with ⟨x, hx, hgood, hout⟩ | ⟨x, hx, hbad, href⟩ | ⟨hS, href⟩
  · refine iff_of_true ⟨fun y hy => huniq x y hx hy ▸ hout, ?_⟩ fun y hy => huniq x y hx hy ▸ hgood
    exact iff_of_false (fun href => hout.not_err (hrefused href)) (hne x hx)
  · refine iff_of_false (fun h => hne x hx (h.2.1 href)) fun h => hbad (h x hx)
  · refine iff_of_true ⟨fun x hx => absurd hS (hne x hx), ?_⟩ fun x hx => absurd hS (hne x hx)
    exact iff_of_true href hS

theorem allocate_firstMatch (ha : TreeInv a.intervalTree) (hh : a.intervalTree.root.height ≤ 47)
    (hc : Constraint.new size align .firstMatch = .ok c) : let S := fits size align a.intervalTree.root
    let out := allocate size align .firstMatch a
    (∃ x, IsLeast S x ∧ x + size.toNat ≤ U64_MAX ∧ HandsOut size x out.1) ∨
    (∃ x, IsLeast S x ∧ ¬ x + size.toNat ≤ U64_MAX ∧ ∃ e, out = (.err e, a)) ∨
    (S = ∅ ∧ ∃ e, out = (.err e, a)) := by
  obtain ⟨hcs, hca, hcp⟩ := Constraint.new_eq_ok hc
  have hfind : findCandidate c a.intervalTree.root = firstMatch c a.intervalTree.root := by
    unfold findCandidate
    rw [hcp]
  cases hf : firstMatch c a.intervalTree.root with
  | panic => exact absurd hf (firstMatch_ne_panic (.inl hcp) _)
  | err e =>
    have hS := fits_eq_empty_of_firstMatch hcp hf
    rw [hcs, hca] at hS
    exact .inr (.inr ⟨hS, allocate_without_candidate hc (hfind.trans hf)⟩)
  | ok p =>
    obtain ⟨v, q⟩ := p
    obtain ⟨hfree, hleast⟩ := firstMatch_isLeast hcp ha.wf.ordered hf
    rw [hcs, hca] at hleast
    rcases allocate_candidate ha hh hc (hfind.trans hf) (firstMatch_spec hf).1 hfree with
      ⟨hmax, hout⟩ | ⟨hmax, herr⟩
    · exact .inl ⟨q.start, hleast, hmax, hout⟩
    · exact .inr (.inl ⟨q.start, hleast, hmax, herr⟩)

theorem allocate_lastMatch (ha : TreeInv a.intervalTree) (hh : a.intervalTree.root.height ≤ 47)
    (hc : Constraint.new size align .lastMatch = .ok c) : let S := fits size align a.intervalTree.root
    let good := fun x => x + size.toNat ≤ U64_MAX ∧ ¬ SkippedByLast size a.intervalTree.root x
    let out := allocate size align .lastMatch a
    (∃ x, IsGreatest S x ∧ good x ∧ HandsOut size x out.1) ∨
    (∃ x, IsGreatest S x ∧ ¬ good x ∧ ∃ e, out = (.err e, a)) ∨
    (S = ∅ ∧ ∃ e, out = (.err e, a)) := by
  intro S good out
  obtain ⟨hcs, hca, hcp⟩ := Constraint.new_eq_ok hc
  have hfind : findCandidate c a.intervalTree.root = lastMatch c a.intervalTree.root := by
    unfold findCandidate
    rw [hcp]
  cases hf : lastMatch c a.intervalTree.root with
  | panic => exact absurd hf (lastMatch_ne_panic (.inr hcp) _)
  | err e =>
    have herr := allocate_without_candidate hc (hfind.trans hf)
    rcases Set.eq_empty_or_nonempty S with hS | ⟨x, hx⟩
    · exact .inr (.inr ⟨hS, herr⟩)
    -- only the node `[0, size - 1]` is skipped, so address 0 is the one fit
    have hskip : ∀ y ∈ S, SkippedByLast size a.intervalTree.root y := by
      intro y hy
      have hy' : y ∈ fits c.size c.align a.intervalTree.root := by rw [hcs, hca]; exact hy
      rw [← hcs]
      exact skippedByLast_of_lastMatch hcp hf hy'
    refine .inr (.inl ⟨x, ⟨hx, fun y hy => ?_⟩, fun hgood => hgood.2 (hskip x hx), herr⟩)
    rw [(hskip y hy).1]
    exact Nat.zero_le x
  | ok p =>
    obtain ⟨v, q⟩ := p
    obtain ⟨hfree, hgreatest, hskip⟩ := lastMatch_isGreatest hcp ha.wf.ordered hf
    rw [hcs, hca] at hgreatest
    rw [hcs] at hskip
    rcases allocate_candidate ha hh hc (hfind.trans hf) (lastMatch_spec hf).1 hfree with
      ⟨hmax, hout⟩ | ⟨hmax, herr⟩
    · exact .inl ⟨q.start, hgreatest, ⟨hmax, hskip⟩, hout⟩
    · exact .inr (.inl ⟨q.start, hgreatest, fun hgood => hmax hgood.1, herr⟩)

end Allocator

section Reachable

variable {base len : UInt64} {a₀ : AddressAllocator}

/-- **Exact condition for the lowest fit.**  In every reachable allocator with room below the
insertion depth limit, `FirstMatch` hands out the lowest place for the request, and refuses it
without a change exactly when there is none, if and only if the range at the lowest place does
not end at `u64::MAX`. -/
theorem firstMatch_lowest_iff (hnew : AddressAllocator.new base len = .ok a₀) (calls : List Call)
    (a : AddressAllocator) (ha : run AddressAllocator.step a₀ calls = a)
    (hh : a.intervalTree.root.height ≤ 47) (size align : UInt64) (hs : 0 < size.toNat)
    (hal : align.toNat.isPowerOfTwo) :
    ((∀ x, IsLeast (fits size align a.intervalTree.root) x →
        HandsOut size x (AddressAllocator.allocate size align .firstMatch a).1) ∧
      ((∃ e, AddressAllocator.allocate size align .firstMatch a = (.err e, a)) ↔
        fits size align a.intervalTree.root = ∅)) ↔
    ∀ x, IsLeast (fits size align a.intervalTree.root) x → x + size.toNat ≤ U64_MAX := by
  have hinv : TreeInv a.intervalTree := ha ▸ run_treeInv hnew calls
  obtain ⟨c, hc⟩ := Constraint.new_of_valid .firstMatch hs hal (fun x hx => by cases hx)
  refine finds_best_iff (fun x y hx hy => hx.unique hy) (fun x hx => hx.1) ?_
    (allocate_firstMatch hinv hh hc)
  rintro ⟨e, he⟩
  exact ⟨e, by rw [he]⟩

theorem firstMatch_lowest_page : ∃ a₀ : AddressAllocator, AddressAllocator.new 0 0x1000 = .ok a₀ ∧
      let a := run AddressAllocator.step a₀ [.allocate 0x100 1 .firstMatch]
      ∀ x, IsLeast (fits 0x80 0x40 a.intervalTree.root) x →
        HandsOut 0x80 x (AddressAllocator.allocate 0x80 0x40 .firstMatch a).1 := by
  let a := run AddressAllocator.step page [.allocate 0x100 1 .firstMatch]
  have hend : ∀ v ∈ a.intervalTree.root.toList, v.key.end_ ≤ 0xfff := by decide
  refine ⟨page, new_page, ((firstMatch_lowest_iff new_page [.allocate 0x100 1 .firstMatch] a rfl (by decide)
    0x80 0x40 (by decide) (by decide)).2 ?_).1⟩
  rintro x ⟨⟨v, hv, _, _, hroom, _⟩, _⟩
  have := hend v hv
  rw [U64_MAX_eq]
  omega

theorem firstMatch_overflow_at_max :
    ∃ a₀ : AddressAllocator, ∃ k₁ k₂ : RangeInclusive, AddressAllocator.new 1 1 = .ok a₀ ∧
      let a := run AddressAllocator.step a₀ [.allocate 1 1 .firstMatch, .free k₁, .free k₂]
      a.addressSpace.end_ < U64_MAX ∧ a.intervalTree.root.height ≤ 47 ∧
      IsLeast (fits 0xfffffffffffffffb 1 a.intervalTree.root) 5 ∧
      AddressAllocator.allocate 0xfffffffffffffffb 1 .firstMatch a = (.err .overflow, a) := by
  let space : RangeInclusive := ⟨1, 1, by decide, by decide, by decide⟩
  let k₂ : RangeInclusive := ⟨5, U64_MAX, by decide, by decide, by decide⟩
  let a₀ : AddressAllocator := ⟨space, new space⟩
  let a := run AddressAllocator.step a₀ [.allocate 1 1 .firstMatch, .free space, .free k₂]
  have hroot : a.intervalTree.root = new k₂ .free := by decide
  refine ⟨a₀, space, k₂, by decide, by decide, by decide, ⟨?_, ?_⟩, by decide⟩
  · exact ⟨⟨k₂, .free⟩, by rw [hroot]; simp [InnerNode.new], rfl, by decide, by decide, by decide⟩
  · rintro x ⟨v, hv, _, hle, _⟩
    have hvk : v = ⟨k₂, .free⟩ := by
      rw [hroot] at hv
      simpa [InnerNode.new] using hv
    rw [hvk] at hle
    exact hle

/-- **Exact condition for the highest fit.**  The same for `LastMatch`, which also skips the node
`[0, size - 1]`. -/
theorem lastMatch_highest_iff (hnew : AddressAllocator.new base len = .ok a₀) (calls : List Call)
    (a : AddressAllocator) (ha : run AddressAllocator.step a₀ calls = a)
    (hh : a.intervalTree.root.height ≤ 47) (size align : UInt64) (hs : 0 < size.toNat)
    (hal : align.toNat.isPowerOfTwo) :
    ((∀ x, IsGreatest (fits size align a.intervalTree.root) x →
        HandsOut size x (AddressAllocator.allocate size align .lastMatch a).1) ∧
      ((∃ e, (AddressAllocator.allocate size align .lastMatch a).1 = .err e) ↔
        fits size align a.intervalTree.root = ∅)) ↔
    ∀ x, IsGreatest (fits size align a.intervalTree.root) x →
      x + size.toNat ≤ U64_MAX ∧ ¬ SkippedByLast size a.intervalTree.root x := by
  have hinv : TreeInv a.intervalTree := ha ▸ run_treeInv hnew calls
  obtain ⟨c, hc⟩ := Constraint.new_of_valid .lastMatch hs hal (fun x hx => by cases hx)
  refine finds_best_iff (fun x y hx hy => hx.unique hy) (fun x hx => hx.1) id ?_
  have hfst : ∀ out : Outcome Error RangeInclusive × AddressAllocator,
      (∃ e, out = (.err e, a)) → ∃ e, out.1 = .err e := by
    rintro out ⟨e, rfl⟩
    exact ⟨e, rfl⟩
  rcases allocate_lastMatch hinv hh hc with h | ⟨x, hx, hbad, herr⟩ | ⟨hS, herr⟩
  · exact .inl h
  · exact .inr (.inl ⟨x, hx, hbad, hfst _ herr⟩)
  · exact .inr (.inr ⟨hS, hfst _ herr⟩)

theorem lastMatch_highest_page : ∃ a₀ : AddressAllocator, AddressAllocator.new 0x1000 0x1000 = .ok a₀ ∧
      ∀ x, IsGreatest (fits 0x100 0x10 a₀.intervalTree.root) x →
        HandsOut 0x100 x (AddressAllocator.allocate 0x100 0x10 .lastMatch a₀).1 := by
  let space : RangeInclusive := ⟨0x1000, 0x1fff, by decide, by decide, by decide⟩
  let a₀ : AddressAllocator := ⟨space, new space⟩
  have hnew : new 0x1000 0x1000 = .ok a₀ := by decide
  have hend : ∀ v ∈ a₀.intervalTree.root.toList, v.key.start = 0x1000 ∧ v.key.end_ ≤ 0x1fff := by
    decide
  refine ⟨a₀, hnew, ((lastMatch_highest_iff hnew [] a₀ rfl (by decide) 0x100 0x10 (by decide)
    (by decide)).2 ?_).1⟩
  rintro x ⟨⟨v, hv, _, _, hroom, _⟩, _⟩
  have hv' := hend v hv
  refine ⟨by rw [U64_MAX_eq]; omega, ?_⟩
  rintro ⟨_, w, hw, _, hws, _⟩
  omega

theorem lastMatch_skips_node_at_zero : ∃ a₀ : AddressAllocator, AddressAllocator.new 0 0x1000 = .ok a₀ ∧
      a₀.intervalTree.root.height ≤ 47 ∧ IsGreatest (fits 0x1000 1 a₀.intervalTree.root) 0 ∧
      AddressAllocator.allocate 0x1000 1 .lastMatch a₀ = (.err .resourceNotAvailable, a₀) := by
  refine ⟨page, new_page, by decide, ⟨?_, ?_⟩, by decide⟩
  · exact ⟨⟨pageSpace, .free⟩, by decide, rfl, by decide, by decide, by decide⟩
  · rintro x ⟨v, hv, _, _, hroom, _⟩
    have hvk : v = ⟨pageSpace, .free⟩ := by simpa [page, IntervalTree.new, InnerNode.new] using hv
    rw [hvk] at hroom
    have hroom' : x + 0x1000 ≤ 0xfff + 1 := hroom
    omega

/-- **Exact condition for the requested address.**  A range that lies in a free node is handed
out on request if and only if its first address is not the last one of the node and its last
address is not `u64::MAX`. -/
theorem exactMatch_honoured_iff (hnew : AddressAllocator.new base len = .ok a₀) (calls : List Call)
    (a : AddressAllocator) (ha : run AddressAllocator.step a₀ calls = a)
    (hh : a.intervalTree.root.height ≤ 47) (size align x : UInt64) (hs : 0 < size.toNat)
    (hal : align.toNat.isPowerOfTwo) {v : Slot} (hv : v ∈ a.intervalTree.root)
    (hfree : v.nodeState = .free) (hx : FitsIn size align v.key x.toNat) :
    HandsOut size x.toNat (AddressAllocator.allocate size align (.exactMatch x) a).1 ↔
      x.toNat + 1 ≤ v.key.end_ ∧ x.toNat + size.toNat ≤ U64_MAX := by
  have hinv : TreeInv a.intervalTree := ha ▸ run_treeInv hnew calls
  have ho := hinv.wf.ordered
  obtain ⟨c, hc⟩ := Constraint.new_of_valid (.exactMatch x) hs hal
    (fun y hy => by cases hy; exact hx.2.2)
  obtain ⟨rfl, rfl, hcp⟩ := Constraint.new_eq_ok hc
  have hfind : findCandidate c a.intervalTree.root = exactMatch x c a.intervalTree.root := by
    unfold findCandidate
    rw [hcp]
  constructor
  · rintro ⟨r, hr, _⟩
    rw [allocate_eq_onTree hc] at hr
    obtain ⟨w, hp⟩ := plan_of_allocate hinv.wf hr
    obtain ⟨q, hq, hres⟩ := findCandidate_of_plan hp
    obtain ⟨hw, hqs, hle, hnext, _⟩ := exactMatch_spec ho (hfind ▸ hq)
    -- the node that was found holds the address, so it is the given one
    have hroom := hx.2.1
    have hvx : x.toNat ∈ v.key := ⟨hx.1, by omega⟩
    have hwv := ho.eq_of_mem hw hv ⟨hle, by omega⟩ hvx
    rw [hwv] at hnext
    exact ⟨hnext, hqs ▸ le_of_resultRange hres⟩
  · rintro ⟨hnext, hmax⟩
    obtain ⟨q, hq, hqs⟩ := exactMatch_of_next ho hv hx hnext
    rw [← hqs] at hmax ⊢
    rcases allocate_candidate hinv hh hc (hfind.trans hq) hv hfree with ⟨_, hout⟩ | ⟨hover, _⟩
    · exact hout
    · exact absurd hmax hover

theorem exactMatch_honoured_page : ∃ a₀ : AddressAllocator, AddressAllocator.new 0 0x1000 = .ok a₀ ∧
      HandsOut 0x100 0x800 (AddressAllocator.allocate 0x100 0x100 (.exactMatch 0x800) a₀).1 := by
  have hv : ⟨pageSpace, .free⟩ ∈ page.intervalTree.root := by decide
  exact ⟨page, new_page, (exactMatch_honoured_iff new_page [] page rfl (by decide) 0x100 0x100 0x800 (by decide)
    (by decide) hv rfl ⟨by decide, by decide, by decide⟩).2 (by decide)⟩

theorem exactMatch_refuses_last_address : ∃ a₀ : AddressAllocator, ∃ v : Slot, AddressAllocator.new 0 0x1000 = .ok a₀ ∧
      a₀.addressSpace.end_ < U64_MAX ∧ a₀.intervalTree.root.height ≤ 47 ∧
      v ∈ a₀.intervalTree.root ∧ v.nodeState = .free ∧ FitsIn 1 1 v.key 0xfff ∧
      (AddressAllocator.allocate 1 1 (.exactMatch 0xfff) a₀).1 = .err .resourceNotAvailable :=
  ⟨page, ⟨pageSpace, .free⟩, new_page, by decide, by decide, by decide, rfl, ⟨by decide, by decide, by decide⟩,
    by decide⟩

end Reachable

end RustVmm.VmAllocator
