import RustVmm.VmAllocator.Runs

/-!
# When free ranges stay coalesced

A released range should be merged with the free ranges next to it, but a neighbour of one address is not found.

* `Split.coalesced_iff`, `Merged.coalesced_iff` — when one call leaves no two free nodes adjacent.
* `run_coalesced_iff` — the exact condition along runs of successful calls.
* `free_leaves_neighbour` — a run that leaves two.
-/

set_option autoImplicit false

namespace RustVmm.VmAllocator

open Lib AvlTree AddressAllocator

/-- No two free nodes are adjacent. -/
def Coalesced (t : InnerNode) : Prop :=
  ∀ u ∈ t, ∀ v ∈ t, u.nodeState = .free → v.nodeState = .free → u.key.end_ + 1 ≠ v.key.start

/-- A successful call keeps the free nodes apart. -/
def CoalescesWhen (a : AddressAllocator) : Call → Prop
  | .allocate size alignment policy =>
    ∀ c v r, Constraint.new size alignment policy = .ok c → plan c a.intervalTree = .ok (v, r) →
      ∀ e ∈ a.intervalTree.root, e.nodeState = .free → (v.key.start < r.start → e.key.end_ + 1 ≠ v.key.start) ∧
        (r.end_ < v.key.end_ → e.key.start ≠ v.key.end_ + 1)
  | .free k =>
    ∀ e ∈ a.intervalTree.root, e.nodeState = .free →
      e.key.end_ + 1 = k.start ∨ e.key.start = k.end_ + 1 → e.key.start < e.key.end_

theorem Coalesced.new (key : RangeInclusive) (s : NodeState) : Coalesced (InnerNode.new key s) := by
  intro u hu v hv _ _
  have hu' : u = ⟨key, s⟩ := by simpa [InnerNode.new] using hu
  have hv' : v = ⟨key, s⟩ := by simpa [InnerNode.new] using hv
  rw [hu', hv']
  have := key.start_le
  dsimp only
  omega

/-! ## Allocation -/

variable {t t' : InnerNode} {k r : RangeInclusive}

theorem Marked.coalesced (hm : Marked k t t') (hco : Coalesced t) : Coalesced t' := by
  intro u hu v hv hus hvs
  rcases (hm.mem u).1 hu with rfl | ⟨hu, _⟩
  · cases hus
  rcases (hm.mem v).1 hv with rfl | ⟨hv, _⟩
  · cases hvs
  exact hco u hu v hv hus hvs

theorem Split.coalesced_iff (hw : WellFormed t) {v : Slot} (hv : v ∈ t) (hk : v.key.start ≤ r.start)
    (hr : r.end_ ≤ v.key.end_) (hs : Split v r t t') (hco : Coalesced t) : Coalesced t' ↔ ∀ e ∈ t, e.nodeState = .free →
      (v.key.start < r.start → e.key.end_ + 1 ≠ v.key.start) ∧
      (r.end_ < v.key.end_ → e.key.start ≠ v.key.end_ + 1) := by
  have hrs := r.start_le
  have hve := v.key.end_le
  constructor
  · intro hco' e he hes
    constructor
    · intro hlt hadj
      -- the neighbour survives, and touches what is left below
      have hek : e.key ≠ v.key := by
        intro h
        rw [h] at hadj
        omega
      have hbelow : (⟨⟨v.key.start, r.start - 1, by omega, by omega, by omega⟩, .free⟩ : Slot) ∈ t' :=
        (hs.mem _).2 (.inr (.inl ⟨rfl, rfl, by dsimp only; omega⟩))
      exact hco' e ((hs.mem e).2 (.inr (.inr (.inr ⟨he, hek⟩)))) _ hbelow hes rfl hadj
    · intro hlt hadj
      have hek : e.key ≠ v.key := by
        intro h
        rw [h] at hadj
        omega
      have habove : (⟨⟨r.end_ + 1, v.key.end_, by omega, by omega, by omega⟩, .free⟩ : Slot) ∈ t' :=
        (hs.mem _).2 (.inr (.inr (.inl ⟨rfl, rfl, rfl⟩)))
      exact hco' _ habove e ((hs.mem e).2 (.inr (.inr (.inr ⟨he, hek⟩)))) rfl hes hadj.symm
  · intro hcond u hu w hw' hus hws hadj
    have hul := u.key.start_le
    have hwl := w.key.start_le
    rcases (hs.mem u).1 hu with rfl | ⟨_, b1, b2⟩ | ⟨_, b1, b2⟩ | ⟨hu, hune⟩
    · cases hus
    · rcases (hs.mem w).1 hw' with rfl | ⟨_, d1, d2⟩ | ⟨_, d1, d2⟩ | ⟨hwt, hwne⟩
      · cases hws
      · omega
      · omega
      · have := hw.ordered.disjoint_of_ne hwt hv hwne
        unfold RangeInclusive.Disjoint at this
        omega
    · rcases (hs.mem w).1 hw' with rfl | ⟨_, d1, d2⟩ | ⟨_, d1, d2⟩ | ⟨hwt, hwne⟩
      · cases hws
      · omega
      · omega
      · exact (hcond w hwt hws).2 (by omega) (by omega)
    · rcases (hs.mem w).1 hw' with rfl | ⟨_, d1, d2⟩ | ⟨_, d1, d2⟩ | ⟨hwt, hwne⟩
      · cases hws
      · exact (hcond u hu hus).1 (by omega) (by omega)
      · have := hw.ordered.disjoint_of_ne hu hv hune
        unfold RangeInclusive.Disjoint at this
        omega
      · exact hco u hu w hwt hus hws hadj

theorem Allocates.coalesced_iff {a : AddressAllocator} (ha : TreeInv a.intervalTree)
    (hco : Coalesced a.intervalTree.root) {size alignment : UInt64} {policy : AllocPolicy} {c : Constraint}
    (hc : Constraint.new size alignment policy = .ok c) {t : IntervalTree} (h : Allocates c a.intervalTree (.ok r) t) :
    Coalesced t.root ↔ CoalescesWhen a (.allocate size alignment policy) := by
  cases h with
  | whole hp _ hm =>
    refine iff_of_true (hm.coalesced hco) ?_
    intro c' v' r' hc' hp' e _ _
    rw [hc] at hc'
    cases hc'
    rw [hp] at hp'
    cases hp'
    exact ⟨fun h => absurd h (Nat.lt_irrefl _), fun h => absurd h (Nat.lt_irrefl _)⟩
  | split hp _ hsp =>
    have hg := plan_spec ha.wf.ordered hp
    refine (hsp.coalesced_iff ha.wf hg.mem hg.start_le hg.le_end hco).trans ⟨?_, ?_⟩
    · intro h c' v' r' hc' hp'
      rw [hc] at hc'
      cases hc'
      rw [hp] at hp'
      cases hp'
      exact h
    · intro h
      exact h c _ _ hc hp

/-! ## Release -/

theorem Merged.start_eq (hw : WellFormed t) (hm : Merged k r t) {e : Slot} (he : e ∈ t)
    (hadj : e.key.end_ + 1 = k.start) (hsingle : e.key.start = e.key.end_) : r.start = k.start := by
  rcases hm.left with ⟨x, hx, hxs, h1, h2, h3⟩ | ⟨h1, _⟩
  · have hxe : x = e := hw.ordered.eq_of_mem hx he (x := e.key.end_)
      ⟨by omega, by omega⟩ ⟨by omega, by omega⟩
    rw [hxe] at h2
    omega
  · exact h1

theorem Merged.end_eq (hw : WellFormed t) (hm : Merged k r t) {e : Slot} (he : e ∈ t) (hadj : e.key.start = k.end_ + 1)
    (hsingle : e.key.start = e.key.end_) : r.end_ = k.end_ := by
  rcases hm.right with ⟨x, hx, hxs, h1, h2, h3⟩ | ⟨h1, _⟩
  · have hxe : x = e := hw.ordered.eq_of_mem hx he (x := e.key.start)
      ⟨by omega, by omega⟩ ⟨by omega, by omega⟩
    rw [hxe] at h2
    omega
  · exact h1

theorem Merged.coalesced_iff (hw : WellFormed t) (hm : Merged k r t) (hco : Coalesced t)
    (mem : ∀ e, e ∈ t' ↔ e = ⟨r, .free⟩ ∨ (e ∈ t ∧ e.key.Disjoint r)) : Coalesced t' ↔ ∀ e ∈ t, e.nodeState = .free →
      e.key.end_ + 1 = k.start ∨ e.key.start = k.end_ + 1 → e.key.start < e.key.end_ := by
  have hrs := r.start_le
  have hrmem : (⟨r, .free⟩ : Slot) ∈ t' := (mem _).2 (.inl rfl)
  constructor
  · intro hco' e he hes hadj
    by_contra hone
    have hsingle : e.key.start = e.key.end_ := by
      have := e.key.start_le
      omega
    -- a neighbour of one address is still there, next to the merged range
    rcases hadj with hadj | hadj
    · have hstart := hm.start_eq hw he hadj hsingle
      have hdis : e.key.Disjoint r := .inl (by omega)
      exact hco' e ((mem e).2 (.inr ⟨he, hdis⟩)) _ hrmem hes rfl (by dsimp only; omega)
    · have hend := hm.end_eq hw he hadj hsingle
      have hdis : e.key.Disjoint r := .inr (by omega)
      exact hco' _ hrmem e ((mem e).2 (.inr ⟨he, hdis⟩)) rfl hes (by dsimp only; omega)
  · intro hcond u hu v hv hus hvs hadj
    rcases (mem u).1 hu with rfl | ⟨hu, hud⟩
    · rcases (mem v).1 hv with rfl | ⟨hv, hvd⟩
      · dsimp only at hadj
        omega
      · -- `v` begins right after the merged range
        dsimp only at hadj
        rcases hm.right with ⟨x, hx, hxs, h1, h2, h3⟩ | ⟨h1, hnone⟩
        · exact hco x hx v hv hxs hvs (by omega)
        · have := hcond v hv hvs (.inr (by omega))
          have := hnone v hv hvs (by omega)
          omega
    · rcases (mem v).1 hv with rfl | ⟨hv, hvd⟩
      · dsimp only at hadj
        rcases hm.left with ⟨x, hx, hxs, h1, h2, h3⟩ | ⟨h1, hnone⟩
        · exact hco u hu x hx hus hxs (by omega)
        · have := hcond u hu hus (.inl (by omega))
          have := hnone u hu hus (by omega)
          omega
      · exact hco u hu v hv hus hvs hadj

/-! ## Runs of successful calls -/

def Succeeds (a : AddressAllocator) (call : Call) : Prop := ∃ x, (AddressAllocator.exec call a).1 = .ok x

theorem Performs.coalesced_iff {a a' : AddressAllocator} (ha : TreeInv a.intervalTree)
    (hco : Coalesced a.intervalTree.root) {call : Call} {x : Option RangeInclusive}
    {o : Outcome Error (Option RangeInclusive)} (h : a.Performs call o a') (ho : o = .ok x) :
    Coalesced a'.intervalTree.root ↔ CoalescesWhen a call := by
  cases h with
  | invalid => cases ho
  | allocate hc h =>
    obtain ⟨r, rfl, -⟩ := Outcome.map_eq_ok.1 ho
    exact h.coalesced_iff ha hco hc
  | free h =>
    obtain ⟨r, rfl, -⟩ := Outcome.map_eq_ok.1 ho
    cases h with
    | merged _ _ hm _ mem => exact hm.coalesced_iff ha.wf hco mem

/-- **Exact condition for coalescing.**  Along every run of successful calls from a new
allocator, every state reached has no adjacent free nodes if and only if every call meets
`CoalescesWhen`. -/
theorem run_coalesced_iff {base size : UInt64} {a₀ : AddressAllocator}
    (hnew : AddressAllocator.new base size = .ok a₀) (calls : List Call)
    (hok : Along AddressAllocator.step Succeeds a₀ calls) :
    Along AddressAllocator.step (fun a call => Coalesced (a.step call).intervalTree.root) a₀ calls ↔
      Along AddressAllocator.step CoalescesWhen a₀ calls := by
  -- the invariant: a well-formed tree, coalesced so far
  let inv := fun a : AddressAllocator => TreeInv a.intervalTree ∧ Coalesced a.intervalTree.root
  let kept := fun (a : AddressAllocator) (call : Call) =>
    Succeeds a call ∧ Coalesced (a.step call).intervalTree.root
  have hstep : ∀ a call, inv a → kept a call → inv (a.step call) :=
    fun a call hi hk => ⟨(exec_cases hi.1 call).treeInv hi.1, hk.2⟩
  have hiff : ∀ a call, inv a → (kept a call ↔ Succeeds a call ∧ CoalescesWhen a call) := by
    intro a call hi
    refine and_congr_right fun hs => ?_
    obtain ⟨x, hx⟩ := hs
    exact Performs.coalesced_iff hi.1 hi.2 (exec_cases hi.1 call) hx
  have h₀ : inv a₀ := by
    refine ⟨new_treeInv hnew, ?_⟩
    rw [new_eq_ok hnew]
    exact Coalesced.new _ _
  have hrun : Along step kept a₀ calls ↔
      Along step (fun a call => Succeeds a call ∧ CoalescesWhen a call) a₀ calls :=
    along_congr hiff hstep h₀
  rw [along_and, along_and] at hrun
  exact ⟨fun h => (hrun.1 ⟨hok, h⟩).2, fun h => (hrun.2 ⟨hok, h⟩).2⟩

-- The second release merges with both neighbours.
theorem run_coalesced_page : ∃ a₀ : AddressAllocator, ∃ x y : RangeInclusive,
      AddressAllocator.new 0 0x1000 = .ok a₀ ∧
      let calls : List Call :=
        [.allocate 0x800 1 .firstMatch, .allocate 0x400 1 .firstMatch, .free x, .free y]
      Along step Succeeds a₀ calls ∧
      Along step (fun a call => Coalesced (a.step call).intervalTree.root) a₀ calls ∧
      (run step a₀ calls).intervalTree = a₀.intervalTree := by
  let x : RangeInclusive := ⟨0, 0x7ff, by decide, by decide, by decide⟩
  let y : RangeInclusive := ⟨0x800, 0xbff, by decide, by decide, by decide⟩
  let rest : RangeInclusive := ⟨0x800, 0xfff, by decide, by decide, by decide⟩
  let calls : List Call := [.allocate 0x800 1 .firstMatch, .allocate 0x400 1 .firstMatch, .free x, .free y]
  have hok : Along step Succeeds page calls :=
    ⟨⟨some x, by decide⟩, ⟨some y, by decide⟩, ⟨none, by decide⟩, ⟨none, by decide⟩, trivial⟩
  refine ⟨page, x, y, new_page, hok, (run_coalesced_iff new_page calls hok).2 ⟨?_, ?_, ?_, ?_, trivial⟩, by decide⟩
  · intro c v r hc hp
    cases (show Constraint.new 0x800 1 .firstMatch = .ok _ from rfl).symm.trans hc
    cases (show plan _ page.intervalTree = .ok (⟨pageSpace, .free⟩, x) by decide).symm.trans hp
    show ∀ e ∈ page.intervalTree.root.toList, _
    decide
  · intro c v r hc hp
    cases (show Constraint.new 0x400 1 .firstMatch = .ok _ from rfl).symm.trans hc
    cases (show plan _ _ = .ok (⟨rest, .free⟩, y) by decide).symm.trans hp
    show ∀ e ∈ toList _, _
    decide
  · show ∀ e ∈ toList _, _
    decide
  · show ∀ e ∈ toList _, _
    decide

theorem free_leaves_neighbour : ∃ a₀ : AddressAllocator, ∃ x y : RangeInclusive, AddressAllocator.new 2 4 = .ok a₀ ∧
      let calls : List Call :=
        [.allocate 1 1 .firstMatch, .allocate 1 1 .firstMatch, .free x, .free y]
      Along step Succeeds a₀ calls ∧
      ¬ Coalesced (run step a₀ calls).intervalTree.root := by
  let space : RangeInclusive := ⟨2, 5, by decide, by decide, by decide⟩
  let x : RangeInclusive := ⟨2, 2, by decide, by decide, by decide⟩
  let y : RangeInclusive := ⟨3, 3, by decide, by decide, by decide⟩
  let z : RangeInclusive := ⟨3, 5, by decide, by decide, by decide⟩
  refine ⟨⟨space, IntervalTree.new space⟩, x, y, by decide, ?_, ?_⟩
  · exact ⟨⟨some x, by decide⟩, ⟨some y, by decide⟩, ⟨none, by decide⟩, ⟨none, by decide⟩, trivial⟩
  · intro h
    exact h ⟨x, .free⟩ (by decide) ⟨z, .free⟩ (by decide) rfl rfl rfl

end RustVmm.VmAllocator
