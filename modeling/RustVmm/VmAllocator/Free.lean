import RustVmm.VmAllocator.Allocate

/-!
# What a release does to the tree

The nodes must lie in one valid range (`Within`): merging then never builds the full range.

* `mergeLeft_cases`, `mergeRight_cases` — the merged range, which skips neighbours of one address.
* `deleteLeft_spec`, `deleteRight_spec` — the neighbours that were merged go out.
* `free_cases` — all answers, each with the tree it leaves (`Frees`).
-/

set_option autoImplicit false

namespace RustVmm.VmAllocator

open Lib AvlTree RangeInclusive IntervalTree Exec

def Within (H : RangeInclusive) (t : InnerNode) : Prop := ∀ e ∈ t, H.contains e.key = true

/-! ## The merged range -/

def MergesLeft (t : InnerNode) (k : RangeInclusive) (a : Nat) : Prop :=
  (∃ e ∈ t, e.nodeState = .free ∧ e.key.end_ + 1 = k.start ∧ e.key.start < e.key.end_ ∧ a = e.key.start) ∨
  (a = k.start ∧ ∀ e ∈ t, e.nodeState = .free → e.key.end_ + 1 = k.start → e.key.start = e.key.end_)

/-- `b` is where the range ends after merging `k` to the right. -/
def MergesRight (t : InnerNode) (k : RangeInclusive) (b : Nat) : Prop :=
  (∃ e ∈ t, e.nodeState = .free ∧ e.key.start = k.end_ + 1 ∧ e.key.start < e.key.end_ ∧ b = e.key.end_) ∨
  (b = k.end_ ∧ ∀ e ∈ t, e.nodeState = .free → e.key.start = k.end_ + 1 → e.key.start = e.key.end_)

variable {t : InnerNode} {k probe H r : RangeInclusive}

theorem MergesLeft.le {a : Nat} (h : MergesLeft t k a) : a ≤ k.start := by
  rcases h with ⟨e, _, _, h1, h2, rfl⟩ | ⟨rfl, _⟩
  · omega
  · exact Nat.le_refl _

theorem MergesRight.le {b : Nat} (h : MergesRight t k b) : k.end_ ≤ b := by
  rcases h with ⟨e, _, _, h1, h2, rfl⟩ | ⟨rfl, _⟩
  · omega
  · exact Nat.le_refl _

theorem probe_cases (hw : WellFormed t) {a b : Nat} (hab : a ≤ b) (hb : b ≤ U64_MAX) (hproper : ¬ (a = 0 ∧ b = U64_MAX))
    (found : Slot → Outcome Error RangeInclusive) (stay : RangeInclusive) :
    let x : Exec IntervalTree Error RangeInclusive := do
      let probe ← .lift (new a b)
      match searchSuperset probe ⟨t⟩ with
      | some v => if v.nodeState = .free then .lift (found v) else pure stay
      | none => pure stay
    (∃ v ∈ t, v.nodeState = .free ∧ v.key.start ≤ a ∧ b ≤ v.key.end_ ∧ x ⟨t⟩ = (found v, ⟨t⟩)) ∨
    (∀ e ∈ t, e.nodeState = .free → ¬ (e.key.start ≤ a ∧ b ≤ e.key.end_)) ∧ x ⟨t⟩ = (.ok stay, ⟨t⟩) := by
  intro x
  obtain ⟨probe, hp, rfl, rfl⟩ := exists_new hab hb hproper
  have hx : x ⟨t⟩ = _ := bind_of_ok (by rw [lift_apply, hp]) _
  rw [hx]
  unfold searchSuperset
  cases hs : InnerNode.searchSuperset probe t with
  | none =>
    refine .inr ⟨fun e he _ hc => ?_, rfl⟩
    rw [(searchSuperset_eq_some hw.ordered).2 ⟨he, contains_iff.2 hc⟩] at hs
    cases hs
  | some v =>
    obtain ⟨hv, hc⟩ := (searchSuperset_eq_some hw.ordered).1 hs
    obtain ⟨hvs, hve⟩ := contains_iff.1 hc
    dsimp only
    by_cases hfree : v.nodeState = .free
    · exact .inl ⟨v, hv, hfree, hvs, hve, by rw [if_pos hfree, lift_apply]⟩
    · refine .inr ⟨fun e he hef hec => ?_, by rw [if_neg hfree]; rfl⟩
      rw [(searchSuperset_eq_some hw.ordered).2 ⟨he, contains_iff.2 hec⟩] at hs
      cases hs
      exact hfree hef

theorem mergeLeft_cases (hw : WellFormed t) (hH : Within H t) (hHk : H.contains k = true)
    (hd : ∀ e ∈ t, e.key.Disjoint k) : (k.start = 1 ∧ mergeLeft k ⟨t⟩ = (.err .underflow, ⟨t⟩)) ∨
    (k.start ≠ 1 ∧ ∃ r, mergeLeft k ⟨t⟩ = (.ok r, ⟨t⟩) ∧ r.end_ = k.end_ ∧
      MergesLeft t k r.start ∧ H.contains r = true) := by
  have hks := k.start_le
  have hke := k.end_le
  obtain ⟨hHs, hHe⟩ := contains_iff.1 hHk
  -- no free neighbour was found: the range stays as it is
  have hstay : (∀ e ∈ t, e.nodeState = .free → e.key.end_ + 1 = k.start →
      e.key.start = e.key.end_) → MergesLeft t k k.start := fun h => .inr ⟨rfl, h⟩
  rcases Nat.lt_or_ge k.start 2 with hlt | h2
  · rcases Nat.eq_zero_or_pos k.start with h0 | hpos
    · refine .inr ⟨by omega, k, ?_, rfl, hstay fun e _ _ he => by omega, hHk⟩
      rw [mergeLeft, if_neg (by omega)]
      rfl
    · refine .inl ⟨by omega, ?_⟩
      rw [mergeLeft, if_pos hpos, checkedSub_of_lt hlt]
      rfl
  · refine .inr ⟨by omega, ?_⟩
    rw [mergeLeft, if_pos (by omega), checkedSub_of_le h2, checkedSub_of_le (by omega)]
    rcases probe_cases hw (a := k.start - 2) (b := k.start - 1) (by omega) (by omega) (by omega)
      (fun v => new v.key.start k.end_) k with ⟨v, hv, hfree, hvs, hve, heq⟩ | ⟨hnone, heq⟩
    · have hvk := hd v hv
      unfold RangeInclusive.Disjoint at hvk
      obtain ⟨hHv, _⟩ := contains_iff.1 (hH v hv)
      obtain ⟨r, hr, hrs, hre⟩ := exists_new (s := v.key.start) (by omega) hke
        (by have := H.proper; have := H.end_le; omega)
      refine ⟨r, heq.trans (by rw [hr]), hre, .inl ⟨v, hv, hfree, by omega, by omega, hrs⟩, ?_⟩
      exact contains_iff.2 ⟨by omega, by omega⟩
    · refine ⟨k, heq, rfl, hstay fun e he hef hend => ?_, hHk⟩
      by_contra hne
      exact hnone e he hef ⟨by have := e.key.start_le; omega, by omega⟩

theorem mergeRight_cases (hw : WellFormed t) {q : RangeInclusive} (hH : Within H t) (hHq : H.contains q = true)
    (hd : ∀ e ∈ t, e.key.Disjoint k) (hqs : q.start ≤ k.start) (hqe : q.end_ = k.end_) :
    (k.end_ + 1 = U64_MAX ∧ mergeRight q ⟨t⟩ = (.err .overflow, ⟨t⟩)) ∨
    (k.end_ + 1 ≠ U64_MAX ∧ ∃ r, mergeRight q ⟨t⟩ = (.ok r, ⟨t⟩) ∧
      r.start = q.start ∧ MergesRight t k r.end_ ∧ H.contains r = true) := by
  have hks := k.start_le
  have hke := k.end_le
  obtain ⟨hHs, hHe⟩ := contains_iff.1 hHq
  have hstay : (∀ e ∈ t, e.nodeState = .free → e.key.start = k.end_ + 1 →
      e.key.start = e.key.end_) → MergesRight t k q.end_ := fun h => .inr ⟨hqe, h⟩
  rcases Nat.lt_or_ge U64_MAX (k.end_ + 2) with hlt | h2
  · by_cases hmax : k.end_ = U64_MAX
    · refine .inr ⟨by omega, q, ?_, rfl, hstay fun e _ _ he => ?_, hHq⟩
      · rw [mergeRight, if_neg (by omega)]
        rfl
      · have := e.key.start_le
        have := e.key.end_le
        omega
    · refine .inl ⟨by omega, ?_⟩
      rw [mergeRight, if_pos (by omega), checkedAdd_of_le (by omega), checkedAdd_of_lt (by omega)]
      rfl
  · refine .inr ⟨by omega, ?_⟩
    rw [mergeRight, if_pos (by omega), checkedAdd_of_le (by omega), checkedAdd_of_le (by omega)]
    rcases probe_cases hw (a := q.end_ + 1) (b := q.end_ + 2) (by omega) (by omega) (by omega)
      (fun v => new q.start v.key.end_) q with ⟨v, hv, hfree, hvs, hve, heq⟩ | ⟨hnone, heq⟩
    · have hvk := hd v hv
      unfold RangeInclusive.Disjoint at hvk
      obtain ⟨_, hHv⟩ := contains_iff.1 (hH v hv)
      have hvl := v.key.end_le
      obtain ⟨r, hr, hrs, hre⟩ := exists_new (s := q.start) (by omega) hvl
        (by have := H.proper; have := H.end_le; omega)
      refine ⟨r, heq.trans (by rw [hr]), hrs, .inl ⟨v, hv, hfree, by omega, by omega, hre⟩, ?_⟩
      exact contains_iff.2 ⟨by omega, by omega⟩
    · refine ⟨q, heq, rfl, hstay fun e he hef hstart => ?_, hHq⟩
      by_contra hne
      exact hnone e he hef ⟨by omega, by have := e.key.start_le; omega⟩

/-! ## Taking out what was merged -/

theorem deleteNeighbour_spec (hw : WellFormed t) {P : Prop} {Keep : Slot → Prop} {x : Exec IntervalTree Error Unit}
    {a b : Nat} (hsome : P → (∃ v ∈ t, v.key.start = a ∧ v.key.end_ = b) ∧
      x ⟨t⟩ = (lift (new a b) >>= delete) ⟨t⟩) (hnone : ¬ P → x ⟨t⟩ = (.ok (), ⟨t⟩))
    (hkeep : ∀ e ∈ t, Keep e ↔ (P → e.key.end_ < a ∨ b < e.key.start)) :
    ∃ t', x ⟨t⟩ = (.ok (), ⟨t'⟩) ∧ WellFormed t' ∧ t'.height ≤ t.height ∧ ∀ e, e ∈ t' ↔ e ∈ t ∧ Keep e := by
  by_cases hP : P
  · obtain ⟨⟨v, hv, rfl, rfl⟩, hx⟩ := hsome hP
    have hnew : new v.key.start v.key.end_ = .ok v.key := new_eq_ok.2 ⟨rfl, rfl⟩
    obtain ⟨t', ht, hdel⟩ := delete_present hw hv
    refine ⟨t', by rw [hx, bind_of_ok (by rw [lift_apply, hnew]), ht], hdel.wf, hdel.height_le, fun e => ?_⟩
    rw [hdel.mem]
    refine and_congr_right fun he => ?_
    rw [hkeep e he, imp_iff_right hP]
    refine ⟨hw.ordered.disjoint_of_ne he hv, fun hd hk => ?_⟩
    have := v.key.start_le
    rw [hk] at hd
    omega
  · exact ⟨t, hnone hP, hw, Nat.le_refl _, fun e => ⟨fun he => ⟨he, (hkeep e he).2 fun h => absurd h hP⟩, And.left⟩⟩

theorem deleteLeft_spec (hw : WellFormed t) (hd : ∀ e ∈ t, e.key.Disjoint k) (hm : MergesLeft t k r.start) :
    ∃ t', deleteLeft k r ⟨t⟩ = (.ok (), ⟨t'⟩) ∧ WellFormed t' ∧ t'.height ≤ t.height ∧
      ∀ e, e ∈ t' ↔ e ∈ t ∧ (e.key.end_ < r.start ∨ k.end_ < e.key.start) := by
  have hks := k.start_le
  have hle := hm.le
  unfold deleteLeft
  refine deleteNeighbour_spec hw (P := r.start < k.start) (a := r.start) (b := k.start - 1)
    (fun hlt => ⟨?_, ?_⟩) (fun hlt => ?_) fun e he => ?_
  · rcases hm with ⟨v, hv, _, hend, _, hrs⟩ | ⟨hrs, _⟩
    · exact ⟨v, hv, hrs.symm, by omega⟩
    · omega
  · rw [if_pos hlt, checkedSub_of_le (by omega)]
    rfl
  · rw [if_neg hlt]
    rfl
  · have hdis := hd e he
    have := e.key.start_le
    unfold RangeInclusive.Disjoint at hdis
    omega

theorem deleteRight_spec (hw : WellFormed t) (hd : ∀ e ∈ t, e.key.end_ < r.start ∨ k.end_ < e.key.start)
    (hrs : r.start ≤ k.start) (hm : MergesRight t k r.end_) :
    ∃ t', deleteRight k r ⟨t⟩ = (.ok (), ⟨t'⟩) ∧ WellFormed t' ∧ t'.height ≤ t.height ∧
      ∀ e, e ∈ t' ↔ e ∈ t ∧ e.key.Disjoint r := by
  have hks := k.start_le
  have hre := r.end_le
  have hge := hm.le
  unfold deleteRight
  refine deleteNeighbour_spec hw (P := k.end_ < r.end_) (a := k.end_ + 1) (b := r.end_)
    (fun hlt => ⟨?_, ?_⟩) (fun hlt => ?_) fun e he => ?_
  · rcases hm with ⟨v, hv, _, hstart, _, hend⟩ | ⟨hend, _⟩
    · exact ⟨v, hv, hstart, hend.symm⟩
    · omega
  · rw [if_pos hlt, checkedAdd_of_le (by omega)]
    rfl
  · rw [if_neg hlt]
    rfl
  · have := hd e he
    have := e.key.start_le
    unfold RangeInclusive.Disjoint
    omega

/-! ## All outcomes -/

def Releasable (k : RangeInclusive) (t : InnerNode) : Prop := t = .nil ∨ ∃ v ∈ t, v.key = k

variable {t : IntervalTree}

theorem delete_releasable (hw : WellFormed t.root) (hr : Releasable k t.root) :
    ∃ t', delete k t = (.ok (), ⟨t'⟩) ∧ Deleted k t.root t' := by
  obtain ⟨root⟩ := t
  rcases hr with rfl | ⟨v, hv, rfl⟩
  · exact ⟨.nil, delete_nil k, .refl .nil fun e he => absurd he (not_mem_nil e)⟩
  · exact delete_present hw hv

/-- The range that takes the place of the freed node. -/
structure Merged (k r : RangeInclusive) (t : InnerNode) : Prop where
  left : MergesLeft t k r.start
  right : MergesRight t k r.end_

/-! What the deletion of the freed key leaves for the merges. -/

section AfterDelete

variable {k : RangeInclusive} {t d : InnerNode} (hd : Deleted k t d)

include hd

theorem Deleted.disjoint (hw : WellFormed t) (hr : Releasable k t) : ∀ e ∈ d, e.key.Disjoint k := by
  intro e he
  obtain ⟨hm, hne⟩ := (hd.mem e).1 he
  rcases hr with h | ⟨v, hv, rfl⟩
  · rw [h] at hm
    exact absurd hm (not_mem_nil e)
  · exact hw.ordered.disjoint_of_ne hm hv hne

theorem Deleted.within {H : RangeInclusive} (hH : Within H t) (hr : Releasable k t) :
    ∃ H', Within H' d ∧ H'.contains k = true := by
  rcases hr with h | ⟨v, hv, rfl⟩
  · refine ⟨k, fun e he => ?_, k.contains_self⟩
    have hm := ((hd.mem e).1 he).1
    rw [h] at hm
    exact absurd hm (not_mem_nil e)
  · exact ⟨H, fun e he => hH e ((hd.mem e).1 he).1, hH v hv⟩

-- the freed key is no neighbour of its own, so the neighbours are those of the tree before

theorem MergesLeft.of_deleted {s : Nat} (hm : MergesLeft d k s) : MergesLeft t k s := by
  rcases hm with ⟨e, he, h⟩ | ⟨hs, hnone⟩
  · exact .inl ⟨e, ((hd.mem e).1 he).1, h⟩
  · refine .inr ⟨hs, fun e he hf hend => hnone e ((hd.mem e).2 ⟨he, ?_⟩) hf hend⟩
    rintro rfl
    have := e.key.start_le
    omega

theorem MergesRight.of_deleted {s : Nat} (hm : MergesRight d k s) : MergesRight t k s := by
  rcases hm with ⟨e, he, h⟩ | ⟨hs, hnone⟩
  · exact .inl ⟨e, ((hd.mem e).1 he).1, h⟩
  · refine .inr ⟨hs, fun e he hf hstart => hnone e ((hd.mem e).2 ⟨he, ?_⟩) hf hstart⟩
    rintro rfl
    have := e.key.start_le
    omega

end AfterDelete

/-- The searches for the neighbours of the range do not leave the address type. -/
def EdgesClear (k : RangeInclusive) : Prop := k.start ≠ 1 ∧ k.end_ + 1 ≠ U64_MAX

instance (k : RangeInclusive) : Decidable (EdgesClear k) := inferInstanceAs (Decidable (_ ∧ _))

theorem free_releasable (hw : WellFormed t.root) (hH : Within H t.root) (hr : Releasable k t.root) :
    (¬ EdgesClear k ∧ ∃ e t', free k t = (.err e, ⟨t'⟩) ∧ Deleted k t.root t') ∨
    (EdgesClear k ∧ ∃ r t', free k t = insert r .free ⟨t'⟩ ∧ Merged k r t.root ∧ WellFormed t' ∧
      t'.height ≤ t.root.height ∧ ∀ e, e ∈ t' ↔ e ∈ t.root ∧ e.key.Disjoint r) := by
  obtain ⟨d, hdel, hd⟩ := delete_releasable hw hr
  have hdk := hd.disjoint hw hr
  obtain ⟨H', hH', hHk⟩ := hd.within hH hr
  unfold free
  rw [bind_of_ok hdel]
  rcases mergeLeft_cases hd.wf hH' hHk hdk with ⟨h1, hl⟩ | ⟨h1, q, hl, hqe, hml, hHq⟩
  · exact .inl ⟨fun h => h.1 h1, .underflow, d, by rw [bind_of_err hl], hd⟩
  rw [bind_of_ok hl]
  rcases mergeRight_cases hd.wf hH' hHq hdk hml.le hqe with ⟨h2, hr'⟩ | ⟨h2, r, hr', hrs, hmr, _⟩
  · exact .inl ⟨fun h => h.2 h2, .overflow, d, by rw [bind_of_err hr'], hd⟩
  rw [bind_of_ok hr']
  rw [← hrs] at hml
  obtain ⟨d₁, hdl, hw₁, hh₁, hm₁⟩ := deleteLeft_spec hd.wf hdk hml
  rw [bind_of_ok hdl]
  -- the right neighbour is still there after the left one has gone
  have hmr₁ : MergesRight d₁ k r.end_ := by
    rcases hmr with ⟨e, he, hf, hs, h⟩ | ⟨hend, hnone⟩
    · exact .inl ⟨e, (hm₁ e).2 ⟨he, .inr (by omega)⟩, hf, hs, h⟩
    · exact .inr ⟨hend, fun e he => hnone e ((hm₁ e).1 he).1⟩
  obtain ⟨d₂, hdr, hw₂, hh₂, hm₂⟩ := deleteRight_spec hw₁ (fun e he => ((hm₁ e).1 he).2) hml.le hmr₁
  rw [bind_of_ok hdr]
  refine .inr ⟨⟨h1, h2⟩, r, d₂, rfl, ⟨hml.of_deleted hd, hmr.of_deleted hd⟩, hw₂,
    (hh₂.trans hh₁).trans hd.height_le, fun e => ?_⟩
  have hle := hml.le
  have hge := hmr.le
  have hks := k.start_le
  rw [hm₂, hm₁, hd.mem]
  refine ⟨fun h => ⟨h.1.1.1, h.2⟩, fun ⟨he, hdis⟩ => ⟨⟨⟨he, ?_⟩, ?_⟩, hdis⟩⟩
  · rintro rfl
    unfold RangeInclusive.Disjoint at hdis
    omega
  · unfold RangeInclusive.Disjoint at hdis
    omega

/-- What `IntervalTree::free` can answer, and the tree it leaves. -/
inductive Frees (k : RangeInclusive) (t : IntervalTree) : Outcome Error Unit → IntervalTree → Prop
  /-- The key is no node of the tree. -/
  | absent (hne : t.root ≠ .nil) (hk : ∀ e ∈ t.root, e.key ≠ k) : Frees k t (.err .resourceNotAvailable) t
  /-- The search for a neighbour leaves the address type; the node is already deleted. -/
  | edge {e : Error} {t' : InnerNode} (hr : Releasable k t.root) (hedge : ¬ EdgesClear k)
      (hd : Deleted k t.root t') : Frees k t (.err e) ⟨t'⟩
  /-- The merged range does not fit below the height limit. -/
  | lost (hr : Releasable k t.root) (hclear : EdgesClear k) (hh : 50 ≤ t.root.height) :
      Frees k t (.err .overflow) ⟨.nil⟩
  /-- The merged range replaces the node and its free neighbours. -/
  | merged {r : RangeInclusive} {t' : InnerNode} (hr : Releasable k t.root) (hclear : EdgesClear k)
      (hm : Merged k r t.root) (hw : WellFormed t')
      (mem : ∀ e, e ∈ t' ↔ e = ⟨r, .free⟩ ∨ (e ∈ t.root ∧ e.key.Disjoint r)) :
      Frees k t (.ok ()) ⟨t'⟩

theorem free_cases (hw : WellFormed t.root) (hH : Within H t.root) (k : RangeInclusive) :
    Frees k t (free k t).1 (free k t).2 := by
  by_cases hr : Releasable k t.root
  · rcases free_releasable hw hH hr with ⟨hedge, e, t', hfree, hd⟩ | ⟨hclear, r, d, hfree, hm, hwd, hheight, hmd⟩
    · rw [hfree]
      exact .edge hr hedge hd
    · have hdis : ∀ e ∈ d, e.key.Disjoint r := fun e he => ((hmd e).1 he).2
      rw [hfree]
      rcases insert_cases hwd .free hdis with ⟨hh, hi⟩ | ⟨_, t', hi, hins⟩
      · rw [hi]
        exact .lost hr hclear (hh.trans hheight)
      · rw [hi]
        refine .merged hr hclear hm hins.wf fun e => ?_
        rw [hins.mem, hmd]
  · have hne : t.root ≠ .nil := fun h => hr (.inl h)
    have hk : ∀ e ∈ t.root, e.key ≠ k := fun e he hek => hr (.inr ⟨e, he, hek⟩)
    have hfree : free k t = (.err .resourceNotAvailable, t) := bind_of_err (delete_absent hw hne hk) _
    rw [hfree]
    exact .absent hne hk

end RustVmm.VmAllocator
