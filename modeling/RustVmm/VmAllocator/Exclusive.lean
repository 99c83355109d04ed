import RustVmm.VmAllocator.Conservation

/-!
# When a range is handed out to one owner only

A `Ledger` notes which ranges are held.  A range that lies inside an allocated node can be had by `ExactMatch`.

* `Ledger.Inv.step`, `Ledger.Inv.exclusive` — calls that meet `ExclusiveWhen` keep what is held apart.
* `run_exclusive` — along such calls nothing is handed out twice.
* `exact_match_double_allocation` — without the condition it is.
-/

set_option autoImplicit false

namespace RustVmm.VmAllocator

open Lib AvlTree RangeInclusive AddressAllocator

/-- An allocator and the ranges that are held. -/
structure Ledger where
  allocator : AddressAllocator
  held : List RangeInclusive
  deriving DecidableEq, Repr

namespace Ledger

/-- The ranges held after a call with the given answer. -/
def update (held : List RangeInclusive) : Call → Outcome Error (Option RangeInclusive) → List RangeInclusive
  | .allocate _ _ _, .ok (some r) => r :: held
  | .free k, .ok _ => held.filter (fun q => decide (q ≠ k))
  | _, _ => held

def step (s : Ledger) (call : Call) : Ledger :=
  ⟨s.allocator.step call, update s.held call (AddressAllocator.exec call s.allocator).1⟩

/-- A range that the call hands out is what was asked for, and nobody holds any of it. -/
def Exclusive (s : Ledger) : Call → Prop
  | .allocate size alignment policy =>
    ∀ r, (AddressAllocator.exec (.allocate size alignment policy) s.allocator).1 = .ok (some r) →
      s.allocator.addressSpace.contains r = true ∧ r.len = size.toNat ∧
      r.start % alignment.toNat = 0 ∧ ∀ q ∈ s.held, r.Disjoint q
  | .free _ => True

def ExclusiveWhen (s : Ledger) : Call → Prop
  | .allocate size _ (.exactMatch x) =>
    ∀ v ∈ s.allocator.intervalTree.root, v.nodeState = .allocated → v.key.start ≤ x.toNat →
      x.toNat + 1 ≤ v.key.end_ → x.toNat + size.toNat ≤ v.key.end_ + 1 →
      v.key.start = x.toNat ∧ v.key.end_ + 1 = x.toNat + size.toNat
  | .allocate _ _ _ => True
  | .free k => s.allocator.intervalTree.root = .nil →
      s.allocator.addressSpace.contains k = true ∧ ∀ q ∈ s.held, q ≠ k → k.Disjoint q

structure Inv (s : Ledger) : Prop where
  tree : TreeInv s.allocator.intervalTree
  within : Within s.allocator.addressSpace s.allocator.intervalTree.root
  apart : ∀ q ∈ s.held, ∀ e ∈ s.allocator.intervalTree.root,
    e.key.Disjoint q ∨ (e.nodeState = .allocated ∧ e.key = q)

/-! ## Allocation -/

variable {r k q : RangeInclusive}

theorem disjoint_of_le (h1 : k.start ≤ r.start) (h2 : r.end_ ≤ k.end_) (hd : k.Disjoint q) : r.Disjoint q := by
  unfold RangeInclusive.Disjoint at hd ⊢
  omega

variable {s : Ledger} {size alignment : UInt64} {policy : AllocPolicy} {c : Constraint}

theorem plan_free (hi : Inv s) (hw : ExclusiveWhen s (.allocate size alignment policy))
    (hc : Constraint.new size alignment policy = .ok c) {v : Slot} (hp : plan c s.allocator.intervalTree = .ok (v, r)) :
    v.nodeState = .free ∨ v.key = r := by
  obtain ⟨hcs, _, hcp⟩ := Constraint.new_eq_ok hc
  have hg := plan_spec hi.tree.wf.ordered hp
  rcases hg.state with h | ⟨x, hx, hrx, hnext⟩
  · exact .inl h
  · cases hs : v.nodeState with
    | free => exact .inl rfl
    | allocated =>
      rw [hcp] at hx
      subst hx
      have hsize := hg.size
      have hle := hg.start_le
      have hend := hg.le_end
      rw [hcs] at hsize
      obtain ⟨h1, h2⟩ := hw v hg.mem hs (by omega) hnext (by omega)
      exact .inr (ext_bounds (by omega) (by omega))

variable {t t' : IntervalTree}

theorem granted_free (hi : Inv s) (hw : ExclusiveWhen s (.allocate size alignment policy))
    (hc : Constraint.new size alignment policy = .ok c) (h : Allocates c s.allocator.intervalTree (.ok r) t) :
    ∃ v, plan c s.allocator.intervalTree = .ok (v, r) ∧ v.nodeState = .free := by
  cases h with
  | @whole v _ hp hs => exact ⟨v, hp, hs⟩
  | @split v _ _ hp hne =>
    rcases plan_free hi hw hc hp with hs | hk
    · exact ⟨v, hp, hs⟩
    · exact absurd hk hne

theorem Inv.free_disjoint (hi : Inv s) (hq : q ∈ s.held) {v : Slot} (hv : v ∈ s.allocator.intervalTree.root)
    (hf : v.nodeState = .free) : v.key.Disjoint q := by
  rcases hi.apart q hq v hv with h | ⟨h, _⟩
  · exact h
  · rw [hf] at h
    cases h

theorem Inv.granted (hi : Inv s) (hw : ExclusiveWhen s (.allocate size alignment policy))
    (hc : Constraint.new size alignment policy = .ok c) (h : Allocates c s.allocator.intervalTree (.ok r) t) :
    s.allocator.addressSpace.contains r = true ∧ r.len = size.toNat ∧
      r.start % alignment.toNat = 0 ∧ ∀ q ∈ s.held, r.Disjoint q := by
  obtain ⟨v, hp, hfree⟩ := granted_free hi hw hc h
  obtain ⟨hcs, hca, _⟩ := Constraint.new_eq_ok hc
  have hg := plan_spec hi.tree.wf.ordered hp
  obtain ⟨h1, h2⟩ := contains_iff.1 (hi.within v hg.mem)
  refine ⟨?_, ?_, ?_, ?_⟩
  · exact contains_iff.2 ⟨Nat.le_trans h1 hg.start_le, Nat.le_trans hg.le_end h2⟩
  · have hsize := hg.size
    have := r.start_le
    rw [hcs] at hsize
    unfold len
    omega
  · rw [← hca]
    exact hg.aligned
  · intro q hq
    exact disjoint_of_le hg.start_le hg.le_end (hi.free_disjoint hq hg.mem hfree)

theorem apart_new (hw : WellFormed t.root) (h : Allocates c t (.ok r) t') :
    ∀ e ∈ t'.root, e.key.Disjoint r ∨ (e.nodeState = .allocated ∧ e.key = r) := by
  -- an old node shares no address with the one the range was taken from
  have hold : ∀ v r, plan c t = .ok (v, r) → ∀ e ∈ t.root, e.key ≠ v.key → e.key.Disjoint r := by
    intro v r hp e he hne
    have hg := plan_spec hw.ordered hp
    have hd := hw.ordered.disjoint_of_ne he hg.mem hne
    exact (disjoint_of_le hg.start_le hg.le_end hd.symm).symm
  intro e he
  cases h with
  | whole hp _ hm =>
    rcases (hm.mem e).1 he with rfl | ⟨he, hne⟩
    · exact .inr ⟨rfl, rfl⟩
    · exact .inl (hold _ _ hp e he hne)
  | split hp _ hsp =>
    rcases (hsp.mem e).1 he with rfl | ⟨_, _, h2⟩ | ⟨_, h1, _⟩ | ⟨he, hne⟩
    · exact .inr ⟨rfl, rfl⟩
    · exact .inl (.inl (by omega))
    · exact .inl (.inr (by omega))
    · exact .inl (hold _ _ hp e he hne)

theorem apart_old (hw : WellFormed t.root) (h : Allocates c t (.ok r) t') {v : Slot} (hp : plan c t = .ok (v, r))
    (hv : v.key.Disjoint q) (hq : ∀ e ∈ t.root, e.key.Disjoint q ∨ (e.nodeState = .allocated ∧ e.key = q)) :
    ∀ e ∈ t'.root, e.key.Disjoint q ∨ (e.nodeState = .allocated ∧ e.key = q) := by
  have hg := plan_spec hw.ordered hp
  have hrs := r.start_le
  have hle := hg.start_le
  have hend := hg.le_end
  intro e he
  cases h with
  | whole hp' _ hm =>
    rw [hp] at hp'
    cases hp'
    rcases (hm.mem e).1 he with rfl | ⟨he, _⟩
    · exact .inl hv
    · exact hq e he
  | split hp' _ hsp =>
    rw [hp] at hp'
    cases hp'
    rcases (hsp.mem e).1 he with rfl | ⟨_, h1, h2⟩ | ⟨_, h1, h2⟩ | ⟨he, _⟩
    · exact .inl (disjoint_of_le hle hend hv)
    · exact .inl (disjoint_of_le (by omega) (by omega) hv)
    · exact .inl (disjoint_of_le (by omega) (by omega) hv)
    · exact hq e he

theorem Inv.allocate (hi : Inv s) (hw : ExclusiveWhen s (.allocate size alignment policy))
    (hc : Constraint.new size alignment policy = .ok c) {o : Outcome Error RangeInclusive}
    (h : Allocates c s.allocator.intervalTree o t) : Inv ⟨{ s.allocator with intervalTree := t },
      update s.held (.allocate size alignment policy) (some <$> o)⟩ := by
  have htree := h.treeInv hi.tree
  have hwithin := h.within hi.tree.wf hi.within
  cases o with
  | ok r =>
    obtain ⟨v, hp, hfree⟩ := granted_free hi hw hc h
    have hg := plan_spec hi.tree.wf.ordered hp
    refine ⟨htree, hwithin, fun q hq => ?_⟩
    rcases List.mem_cons.1 hq with rfl | hq
    · exact apart_new hi.tree.wf h
    · exact apart_old hi.tree.wf h hp (hi.free_disjoint hq hg.mem hfree) (hi.apart q hq)
  | err e =>
    refine ⟨htree, hwithin, fun q hq => ?_⟩
    cases h with
    | noCandidate | taken => exact hi.apart q hq
    | lost => exact fun e he => absurd he (not_mem_nil e)
  | panic => exact absurd rfl h.ne_panic

/-! ## Release -/

theorem Inv.merged_disjoint (hi : Inv s) (hw : ExclusiveWhen s (.free k))
    (hr : Releasable k s.allocator.intervalTree.root) (hm : Merged k r s.allocator.intervalTree.root) (hq : q ∈ s.held)
    (hne : q ≠ k) : r.Disjoint q := by
  have hkq : k.Disjoint q := by
    rcases hr with hnil | ⟨v, hv, hvk⟩
    · exact (hw hnil).2 q hq hne
    · rcases hi.apart q hq v hv with h | ⟨_, h⟩
      · exact hvk ▸ h
      · exact absurd (h.symm.trans hvk) hne
  exact hm.disjoint hkq fun e he hs => hi.free_disjoint hq he hs

theorem Inv.free (hi : Inv s) (hw : ExclusiveWhen s (.free k)) {o : Outcome Error Unit}
    (h : Frees k s.allocator.intervalTree o t) : Inv ⟨{ s.allocator with intervalTree := t },
      update s.held (.free k) ((fun _ => none) <$> o)⟩ := by
  have htree := h.treeInv hi.tree
  have hkin : Releasable k s.allocator.intervalTree.root → s.allocator.addressSpace.contains k = true := by
    rintro (hnil | ⟨v, hv, rfl⟩)
    · exact (hw hnil).1
    · exact hi.within v hv
  have hwithin := h.within hi.within hkin
  refine ⟨htree, hwithin, fun q hq e he => ?_⟩
  cases h with
  | absent => exact hi.apart q hq e he
  | edge _ _ hd => exact hi.apart q hq e ((hd.mem e).1 he).1
  | lost => exact absurd he (not_mem_nil e)
  | merged hr _ hm _ mem =>
    obtain ⟨hq, hne⟩ := List.mem_filter.1 hq
    rcases (mem e).1 he with rfl | ⟨he, _⟩
    · exact .inl (hi.merged_disjoint hw hr hm hq (by simpa using hne))
    · exact hi.apart q hq e he

/-! ## Runs -/

theorem Inv.step (hi : Inv s) {call : Call} (hw : ExclusiveWhen s call) : Inv (s.step call) := by
  have h := exec_cases hi.tree call
  unfold Ledger.step
  revert h
  generalize (exec call s.allocator).1 = o
  generalize s.allocator.step call = a'
  intro h
  cases h with
  | invalid => exact ⟨hi.tree, hi.within, hi.apart⟩
  | allocate hc h => exact hi.allocate hw hc h
  | free h => exact hi.free hw h

theorem Inv.exclusive (hi : Inv s) {call : Call} (hw : ExclusiveWhen s call) : Exclusive s call := by
  have h := exec_cases hi.tree call
  revert h
  generalize s.allocator.step call = a'
  intro h
  cases call with
  | free k => trivial
  | allocate size alignment policy =>
    intro r hr
    rw [hr] at h
    generalize ho : Outcome.ok (some r) = o at h
    cases h with
    | invalid => cases ho
    | @allocate _ _ _ c o t hc h =>
      cases o with
      | ok r' => cases ho; exact hi.granted hw hc h
      | err e | panic => cases ho

theorem Inv.new {base : UInt64} {a : AddressAllocator} (h : new base size = .ok a) : Inv ⟨a, []⟩ := by
  refine ⟨new_treeInv h, ?_, fun q hq => absurd hq List.not_mem_nil⟩
  intro e he
  have htree : a.intervalTree = IntervalTree.new a.addressSpace := new_eq_ok h
  have hin : e ∈ (IntervalTree.new a.addressSpace).root := htree ▸ he
  have he' : e = ⟨a.addressSpace, .free⟩ := by
    simpa [IntervalTree.new, InnerNode.new] using hin
  rw [he']
  exact a.addressSpace.contains_self

/-- **No double allocation**, under the condition: along every run from a new allocator whose
calls meet `ExclusiveWhen`, every range handed out lies in the address space, has the requested
length and alignment, and is disjoint from every range handed out before and not yet released. -/
theorem run_exclusive {base size : UInt64} {a₀ : AddressAllocator}
    (hnew : AddressAllocator.new base size = .ok a₀) (calls : List Call)
    (hw : Along Ledger.step ExclusiveWhen ⟨a₀, []⟩ calls) :
    Along Ledger.step Exclusive ⟨a₀, []⟩ calls :=
  Along.of_invariant (fun _ _ hi h => Inv.step hi h) (fun _ _ hi h => Inv.exclusive hi h)
    (Inv.new hnew) hw

theorem run_exclusive_page : ∃ a₀ : AddressAllocator, AddressAllocator.new 0 0x1000 = .ok a₀ ∧
      Along Ledger.step Exclusive ⟨a₀, []⟩
        [.allocate 0x100 1 (.exactMatch 0), .allocate 0x80 1 (.exactMatch 0x100)] := by
  refine ⟨page, new_page, run_exclusive new_page _ ⟨?_, ?_, trivial⟩⟩
  · have h : ∀ v ∈ page.intervalTree.root.toList, v.nodeState ≠ .allocated := by decide
    intro v hv hs
    exact absurd hs (h v hv)
  · have h : ∀ v ∈ (page.step (.allocate 0x100 1 (.exactMatch 0))).intervalTree.root.toList,
        v.nodeState = .allocated → v.key.end_ < 0x101 := by decide
    intro v hv hs _ hnext
    have := h v hv hs
    simp at hnext
    omega

theorem exact_match_double_allocation : ∃ a₀ : AddressAllocator, AddressAllocator.new 0 0x1000 = .ok a₀ ∧
      ¬ Along Ledger.step Exclusive ⟨a₀, []⟩ [.allocate 0x100 1 (.exactMatch 0), .allocate 0x80 1 (.exactMatch 0)] := by
  let r : RangeInclusive := ⟨0, 0xff, by decide, by decide, by decide⟩
  let q : RangeInclusive := ⟨0, 0x7f, by decide, by decide, by decide⟩
  refine ⟨page, new_page, ?_⟩
  rintro ⟨_, h, _⟩
  have hdis : q.Disjoint r := (h q (by decide)).2.2.2 r (by decide)
  rcases hdis with h | h
  · exact absurd h (by decide)
  · exact absurd h (by decide)

end Ledger

end RustVmm.VmAllocator
