import RustVmm.VmAllocator.Exclusive

/-!
# Which keys a release accepts

`free` takes any key that is a node of the tree, whatever the state of the node, and any key if the tree is empty;
then it fails at the edges of the address type.  So a range can be released twice, and a live range may be refused.

* `Live` is the invariant: allocated nodes are live ranges, and a live range that is clear of the edges is an
  allocated node.  It holds along all runs that search for the first or the last fit in trees with room for what is
  inserted (`run_live`).
* `free_accepts_live_iff` says for which keys the answer is right, by what is held and what the tree is before the
  call.
-/

set_option autoImplicit false

namespace RustVmm.VmAllocator

open Lib AvlTree AddressAllocator List

variable {k : RangeInclusive} {t : IntervalTree} {o : Outcome Error Unit}

theorem Frees.ok_iff {t' : IntervalTree} (h : Frees k t o t') (hlow : t.root.height ≤ 47) :
    o = .ok () ↔ Releasable k t.root ∧ EdgesClear k := by
  cases h with
  | absent hne hk =>
    refine iff_of_false (by simp) ?_
    rintro ⟨hnil | ⟨v, hv, hvk⟩, _⟩
    · exact hne hnil
    · exact hk v hv hvk
  | edge _ hedge => exact iff_of_false (by simp) fun h => hedge h.2
  | lost _ _ hh => omega
  | merged hr hclear => exact iff_of_true rfl ⟨hr, hclear⟩

variable {a : AddressAllocator}

theorem free_ok_iff (ha : TreeInv a.intervalTree) (hlow : a.intervalTree.root.height ≤ 47) (k : RangeInclusive) :
    (free k a).1 = .ok () ↔ Releasable k a.intervalTree.root ∧ EdgesClear k := by
  obtain ⟨H, hH⟩ := ha.within
  exact (free_cases ha.wf hH k).ok_iff hlow

/-- The call is a release, or it asks for the first or the last fit. -/
def Call.Searches : Call → Prop
  | .allocate _ _ .firstMatch => True
  | .allocate _ _ .lastMatch => True
  | .allocate _ _ (.exactMatch _) => False
  | .free _ => True

variable {policy : AllocPolicy} {c : Constraint}

theorem Call.Searches.plan_free {size alignment : UInt64}
    (hcall : (Call.allocate size alignment policy).Searches) (hc : Constraint.new size alignment policy = .ok c)
    (ho : Ordered t.root) {v : Slot} {r : RangeInclusive} (hp : plan c t = .ok (v, r)) : v.nodeState = .free := by
  obtain ⟨_, _, hpolicy⟩ := Constraint.new_eq_ok hc
  rcases (plan_spec ho hp).state with hfree | ⟨x, hx, _⟩
  · exact hfree
  · rw [hpolicy] at hx
    subst hx
    exact hcall.elim

namespace Ledger

/-- What is allocated in the tree is what is held; a held range may be missing from the tree only at the edges. -/
structure Live (s : Ledger) : Prop where
  tree : TreeInv s.allocator.intervalTree
  held : ∀ e ∈ s.allocator.intervalTree.root, e.nodeState = .allocated → e.key ∈ s.held
  present : ∀ k ∈ s.held, EdgesClear k → ⟨k, .allocated⟩ ∈ s.allocator.intervalTree.root

/-- The call searches, and it finds a tree with room for what it inserts. -/
def Low (s : Ledger) (call : Call) : Prop := s.allocator.intervalTree.root.height ≤ 47 ∧ call.Searches

variable {base size : UInt64}

theorem Live.new (h : new base size = .ok a) : Live ⟨a, []⟩ := by
  refine ⟨new_treeInv h, fun e he hs => ?_, fun k hk => absurd hk not_mem_nil⟩
  have hin : e ∈ (IntervalTree.new a.addressSpace).root := new_eq_ok h ▸ he
  have hfree : e = ⟨a.addressSpace, .free⟩ := by
    simpa [IntervalTree.new, InnerNode.new] using hin
  rw [hfree] at hs
  cases hs

variable {s : Ledger}

theorem Live.allocate (hl : Live s) {alignment : UInt64}
    {o : Outcome Error RangeInclusive} (hlow : Low s (.allocate size alignment policy))
    (hc : Constraint.new size alignment policy = .ok c) (h : Allocates c s.allocator.intervalTree o t) :
    Live ⟨{ s.allocator with intervalTree := t }, update s.held (.allocate size alignment policy) (some <$> o)⟩ := by
  have htree := h.treeInv hl.tree
  have hordered := hl.tree.wf.ordered
  cases h with
  | noCandidate | taken => exact ⟨htree, hl.held, hl.present⟩
  | @lost v r _ _ hh =>
    have := rests_le v.key r
    have := hlow.1
    omega
  | @whole v _ _ _ hm =>
    refine ⟨htree, fun e he hs => ?_, fun k hk hclear => (hm.mem _).2 ?_⟩
    · rcases (hm.mem e).1 he with rfl | ⟨he, _⟩
      · exact mem_cons_self
      · exact mem_cons_of_mem _ (hl.held e he hs)
    · by_cases hkv : k = v.key
      · exact .inl (by rw [hkv])
      · exact .inr ⟨hl.present k ((mem_cons.1 hk).resolve_left hkv) hclear, hkv⟩
  | @split v r _ hp _ hsp =>
    refine ⟨htree, fun e he hs => ?_, fun k hk hclear => (hsp.mem _).2 ?_⟩
    · rcases (hsp.mem e).1 he with rfl | ⟨hf, _⟩ | ⟨hf, _⟩ | ⟨he, _⟩
      · exact mem_cons_self
      · rw [hf] at hs
        cases hs
      · rw [hf] at hs
        cases hs
      · exact mem_cons_of_mem _ (hl.held e he hs)
    · rcases mem_cons.1 hk with rfl | hk
      · exact .inl rfl
      · -- the node that is split is free, so no held range is lost with it
        have hin := hl.present k hk hclear
        refine .inr (.inr (.inr ⟨hin, fun hkv => ?_⟩))
        have hfree := hlow.2.plan_free hc hordered hp
        rw [← hordered.eq_of_key hin (plan_spec hordered hp).mem hkv] at hfree
        cases hfree

theorem Live.free (hl : Live s) (hlow : Low s (.free k)) (h : Frees k s.allocator.intervalTree o t) :
    Live ⟨{ s.allocator with intervalTree := t }, update s.held (.free k) ((fun _ => none) <$> o)⟩ := by
  have htree := h.treeInv hl.tree
  have hordered := hl.tree.wf.ordered
  cases h with
  | absent => exact ⟨htree, hl.held, hl.present⟩
  | edge _ hedge hd =>
    refine ⟨htree, fun e he hs => hl.held e ((hd.mem e).1 he).1 hs, fun q hq hclear => (hd.mem _).2 ?_⟩
    exact ⟨hl.present q hq hclear, fun hqk => hedge (hqk ▸ hclear)⟩
  | lost _ _ hh =>
    have := hlow.1
    omega
  | @merged r _ hr _ hm _ mem =>
    refine ⟨htree, fun e he hs => ?_, fun q hq hclear => (mem _).2 (.inr ?_)⟩
    · rcases (mem e).1 he with rfl | ⟨he, hdis⟩
      · cases hs
      · refine mem_filter.2 ⟨hl.held e he hs, decide_eq_true ?_⟩
        -- the merged range covers the key, so a node apart from it is another one
        rintro rfl
        have hle := hm.left.le
        have hge := hm.right.le
        have := e.key.start_le
        unfold RangeInclusive.Disjoint at hdis
        omega
    · obtain ⟨hq, hne⟩ := mem_filter.1 hq
      have hin := hl.present q hq hclear
      rcases hr with hnil | ⟨v, hv, rfl⟩
      · rw [hnil] at hin
        exact absurd hin (not_mem_nil _)
      · refine ⟨hin, (hm.disjoint ?_ fun e he hs => ?_).symm⟩
        · exact hordered.disjoint_of_ne hv hin (Ne.symm (of_decide_eq_true hne))
        · refine (hordered.eq_or_disjoint he hin).resolve_left ?_
          rintro rfl
          cases hs

theorem Live.step (hl : Live s) {call : Call} (hlow : Low s call) : Live (s.step call) := by
  have h := exec_cases hl.tree call
  unfold Ledger.step
  revert h
  generalize (exec call s.allocator).1 = o
  generalize s.allocator.step call = a'
  intro h
  cases h with
  | invalid => exact ⟨hl.tree, hl.held, hl.present⟩
  | allocate hc h => exact hl.allocate hlow hc h
  | free h => exact hl.free hlow h

theorem run_live {a₀ : AddressAllocator} (hnew : new base size = .ok a₀) {calls : List Call}
    (hrun : Along Ledger.step Low ⟨a₀, []⟩ calls) : Live (run Ledger.step ⟨a₀, []⟩ calls) :=
  Along.run_invariant (fun _ _ hl hlow => hl.step hlow) (Live.new hnew) hrun

theorem Live.releasable_iff (hl : Live s) (hk : ¬ k ∈ s.held) : Releasable k s.allocator.intervalTree.root ↔
      s.allocator.intervalTree.root = .nil ∨ ⟨k, .free⟩ ∈ s.allocator.intervalTree.root := by
  refine or_congr Iff.rfl ⟨?_, fun h => ⟨_, h, rfl⟩⟩
  rintro ⟨⟨key, state⟩, hv, rfl⟩
  cases state with
  | free => exact hv
  | allocated => exact absurd (hl.held _ hv rfl) hk

/-- **When a release is accepted exactly if its key is live.**  After any run of searches and releases in trees of
height at most 47, `free(k)` gives the right answer if and only if `k` is clear of the edges if it is live, and,
if it is not live but clear of the edges, the tree is not empty and `k` is no free node of it. -/
theorem free_accepts_live_iff {base size : UInt64} {a₀ : AddressAllocator}
    (hnew : AddressAllocator.new base size = .ok a₀) (calls : List Call)
    (hrun : Along Ledger.step Low ⟨a₀, []⟩ calls) (s : Ledger) (hs : run Ledger.step ⟨a₀, []⟩ calls = s)
    (hlow : s.allocator.intervalTree.root.height ≤ 47) (k : RangeInclusive) :
    ((AddressAllocator.free k s.allocator).1 = .ok () ↔ k ∈ s.held) ↔
      (k ∈ s.held → EdgesClear k) ∧
      (¬ k ∈ s.held → EdgesClear k →
        s.allocator.intervalTree.root ≠ .nil ∧ ¬ ⟨k, .free⟩ ∈ s.allocator.intervalTree.root) := by
  have hl : Live s := hs ▸ run_live hnew hrun
  rw [free_ok_iff hl.tree hlow]
  by_cases hk : k ∈ s.held
  · have hin : EdgesClear k → Releasable k s.allocator.intervalTree.root :=
      fun hclear => .inr ⟨_, hl.present k hk hclear, rfl⟩
    simp only [hk, iff_true, true_imp_iff, not_true, false_imp_iff, and_true]
    exact ⟨And.right, fun hclear => ⟨hin hclear, hclear⟩⟩
  · rw [hl.releasable_iff hk]
    simp only [hk, iff_false, false_imp_iff, not_false_eq_true, true_imp_iff, true_and, ne_eq, ← not_or]
    exact not_and'

/-- Two ranges are handed out at the two ends, and one is released; the other one is still accepted. -/
theorem live_range_accepted : ∃ a₀ : AddressAllocator, ∃ j k : RangeInclusive,
      AddressAllocator.new 0 0x1000 = .ok a₀ ∧
      let s := run Ledger.step ⟨a₀, []⟩ [.allocate 0x200 1 .firstMatch, .allocate 0x100 1 .lastMatch, .free j]
      k ∈ s.held ∧ ¬ j ∈ s.held ∧ ((AddressAllocator.free k s.allocator).1 = .ok () ↔ k ∈ s.held) := by
  let j : RangeInclusive := ⟨0, 0x1ff, by decide, by decide, by decide⟩
  let k : RangeInclusive := ⟨0xf00, 0xfff, by decide, by decide, by decide⟩
  let calls : List Call := [.allocate 0x200 1 .firstMatch, .allocate 0x100 1 .lastMatch, .free j]
  let s := run Ledger.step ⟨page, []⟩ calls
  have hk : k ∈ s.held := by decide
  have hrun : Along Ledger.step Low ⟨page, []⟩ calls :=
    ⟨⟨by decide, trivial⟩, ⟨by decide, trivial⟩, ⟨by decide, trivial⟩, trivial⟩
  refine ⟨page, j, k, new_page, hk, by decide, (free_accepts_live_iff new_page calls hrun s rfl (by decide) k).2 ?_⟩
  exact ⟨fun _ => by decide, fun h => absurd hk h⟩

theorem double_free_accepted : ∃ a₀ : AddressAllocator, ∃ k : RangeInclusive, AddressAllocator.new 0 0x1000 = .ok a₀ ∧
      let s := run Ledger.step ⟨a₀, []⟩ [.allocate 0x1000 1 .firstMatch, .free k]
      ¬ k ∈ s.held ∧ (AddressAllocator.free k s.allocator).1 = .ok () :=
  ⟨page, pageSpace, new_page, by decide, by decide⟩

end Ledger

end RustVmm.VmAllocator
