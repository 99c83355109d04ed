import RustVmm.Lib.Run
import RustVmm.VmAllocator.Free

/-!
# Runs of the interval tree and of the allocator

* `Allocates.treeInv`, `Frees.treeInv` — every call keeps the tree well formed, whatever it answers.
* `reachable_tree_wellFormed` — so does any sequence of calls, and none panics.
* `exec_cases` — one call on an allocator (`Performs`), from which later modules argue.
* `run_treeInv` — the invariant of every allocator that calls lead to.
-/

set_option autoImplicit false

namespace RustVmm.VmAllocator

open Lib AvlTree IntervalTree RangeInclusive Exec Outcome

/-- The tree is well formed, and its nodes lie in one valid range. -/
structure TreeInv (t : IntervalTree) : Prop where
  wf : WellFormed t.root
  within : ∃ H, Within H t.root

theorem TreeInv.new (key : RangeInclusive) : TreeInv (new key) := by
  refine ⟨WellFormed.new key .free, key, fun e he => ?_⟩
  have : e = ⟨key, .free⟩ := by simpa [IntervalTree.new, InnerNode.new] using he
  rw [this]
  exact key.contains_self

/-! ## What one call keeps -/

section Within

variable {H k r : RangeInclusive} {t t' : InnerNode} {v : Slot}

theorem Within.nil : Within H .nil := fun e he => absurd he (not_mem_nil e)

theorem Within.deleted (hH : Within H t) (hd : Deleted k t t') : Within H t' := fun e he => hH e ((hd.mem e).1 he).1

theorem Within.marked (hH : Within H t) (hv : v ∈ t) (hm : Marked v.key t t') : Within H t' := by
  intro e he
  rcases (hm.mem e).1 he with rfl | ⟨he, _⟩
  · exact hH v hv
  · exact hH e he

theorem Within.split (hH : Within H t) (hv : v ∈ t) (hk : v.key.start ≤ r.start)
    (hr : r.end_ ≤ v.key.end_) (hs : Split v r t t') : Within H t' := by
  intro e he
  have hrs := r.start_le
  obtain ⟨h1, h2⟩ := contains_iff.1 (hH v hv)
  rcases (hs.mem e).1 he with rfl | ⟨_, hb1, hb2⟩ | ⟨_, ha1, ha2⟩ | ⟨he, _⟩
  · exact contains_iff.2 ⟨Nat.le_trans h1 hk, Nat.le_trans hr h2⟩
  · exact contains_iff.2 ⟨by omega, by omega⟩
  · exact contains_iff.2 ⟨by omega, by omega⟩
  · exact hH e he

theorem Merged.within (hm : Merged k r t) (hH : Within H t) (hk : H.contains k = true) : H.contains r = true := by
  obtain ⟨h1, h2⟩ := contains_iff.1 hk
  refine contains_iff.2 ⟨?_, ?_⟩
  · rcases hm.left with ⟨e, he, _, _, _, hs⟩ | ⟨hs, _⟩
    · rw [hs]
      exact (contains_iff.1 (hH e he)).1
    · omega
  · rcases hm.right with ⟨e, he, _, _, _, hs⟩ | ⟨hs, _⟩
    · rw [hs]
      exact (contains_iff.1 (hH e he)).2
    · omega

end Within

section Calls

variable {t t' : IntervalTree} {H : RangeInclusive}

variable {c : Constraint} {o : Outcome Error RangeInclusive}

theorem Allocates.within (h : Allocates c t o t') (hw : WellFormed t.root) (hH : Within H t.root) :
    Within H t'.root := by
  cases h with
  | noCandidate => exact hH
  | taken => exact hH
  | whole hp _ hm => exact hH.marked (plan_spec hw.ordered hp).mem hm
  | split hp _ hsp =>
    have hg := plan_spec hw.ordered hp
    exact hH.split hg.mem hg.start_le hg.le_end hsp
  | lost => exact .nil

theorem Allocates.treeInv (h : Allocates c t o t') (ht : TreeInv t) : TreeInv t' := by
  obtain ⟨H, hH⟩ := ht.within
  refine ⟨?_, H, h.within ht.wf hH⟩
  cases h with
  | noCandidate | taken => exact ht.wf
  | whole _ _ hm => exact hm.wf
  | split _ _ hsp => exact hsp.wf
  | lost => exact .nil

theorem Allocates.ne_panic (h : Allocates c t o t') : o ≠ .panic := by
  cases h <;> simp

variable {k : RangeInclusive} {o : Outcome Error Unit}

theorem Frees.within (h : Frees k t o t') (hH : Within H t.root)
    (hk : Releasable k t.root → H.contains k = true) : Within H t'.root := by
  cases h with
  | absent => exact hH
  | edge _ _ hd => exact hH.deleted hd
  | lost => exact .nil
  | merged hr _ hm _ mem =>
    intro e he
    rcases (mem e).1 he with rfl | ⟨he, _⟩
    · exact hm.within hH (hk hr)
    · exact hH e he

theorem Frees.treeInv (h : Frees k t o t') (ht : TreeInv t) : TreeInv t' := by
  obtain ⟨H, hH⟩ := ht.within
  refine ⟨?_, ?_⟩
  · cases h with
    | absent => exact ht.wf
    | edge _ _ hd => exact hd.wf
    | lost => exact .nil
    | merged _ _ _ hw => exact hw
  · by_cases hnil : t.root = .nil
    · -- an empty tree takes any key; it then lies in the range of that key
      refine ⟨k, h.within (fun e he => ?_) fun _ => k.contains_self⟩
      rw [hnil] at he
      exact absurd he (not_mem_nil e)
    · refine ⟨H, h.within hH fun hr => ?_⟩
      rcases hr with hr | ⟨v, hv, rfl⟩
      · exact absurd hr hnil
      · exact hH v hv

theorem Frees.ne_panic (h : Frees k t o t') : o ≠ .panic := by
  cases h <;> simp

end Calls

/-! ## Calls on a tree -/

inductive TreeCall where
  | allocate (constraint : Constraint)
  | free (key : RangeInclusive)

namespace IntervalTree

/-- Execute a call; the answer of an allocation is the range. -/
def exec : TreeCall → Exec IntervalTree Error (Option RangeInclusive)
  | .allocate constraint => do
    let range ← allocate constraint
    return some range
  | .free key => do
    free key
    return none

def step (t : IntervalTree) (call : TreeCall) : IntervalTree := (exec call t).2

end IntervalTree

theorem TreeInv.step {t : IntervalTree} (ht : TreeInv t) (call : TreeCall) :
    TreeInv (t.step call) ∧ (exec call t).1 ≠ .panic := by
  obtain ⟨H, hH⟩ := ht.within
  unfold IntervalTree.step
  cases call with
  | allocate c =>
    have hc := allocate_cases ht.wf c
    rw [exec, bind_pure_apply]
    exact ⟨hc.treeInv ht, map_ne_panic hc.ne_panic⟩
  | free k =>
    have hc := free_cases ht.wf hH k
    rw [exec, bind_pure_apply]
    exact ⟨hc.treeInv ht, map_ne_panic hc.ne_panic⟩

/-- **Representation invariant.**  After any calls on a new tree, successful or failing, the
keys are in increasing order and disjoint, the cached heights are right and the tree is
balanced; no call on the way panics. -/
theorem reachable_tree_wellFormed (key : RangeInclusive) (calls : List TreeCall) :
    WellFormed (run IntervalTree.step (IntervalTree.new key) calls).root ∧
      Along IntervalTree.step (fun t call => (IntervalTree.exec call t).1 ≠ .panic) (IntervalTree.new key) calls := by
  have hstep : ∀ t call, TreeInv t → TreeInv (step t call) := fun t call ht => (ht.step call).1
  exact ⟨(run_stays hstep (TreeInv.new key) calls).wf, (along_true _ _).of_invariant
    (fun t call ht _ => hstep t call ht) (fun t call ht _ => (ht.step call).2) (TreeInv.new key)⟩

/-! ## Calls on an allocator -/

inductive Call where
  | allocate (size alignment : UInt64) (policy : AllocPolicy)
  | free (key : RangeInclusive)
  deriving DecidableEq, Repr

namespace AddressAllocator

def exec : Call → Exec AddressAllocator Error (Option RangeInclusive)
  | .allocate size alignment policy => do
    let range ← allocate size alignment policy
    return some range
  | .free key => do
    free key
    return none

def step (a : AddressAllocator) (call : Call) : AddressAllocator := (exec call a).2

inductive Performs (a : AddressAllocator) : Call → Outcome Error (Option RangeInclusive) → AddressAllocator → Prop
  | invalid {size alignment : UInt64} {policy : AllocPolicy} {e : Error}
      (hc : Constraint.new size alignment policy = .err e) :
      Performs a (.allocate size alignment policy) (.err e) a
  | allocate {size alignment : UInt64} {policy : AllocPolicy} {c : Constraint}
      {o : Outcome Error RangeInclusive} {t : IntervalTree}
      (hc : Constraint.new size alignment policy = .ok c)
      (h : Allocates c a.intervalTree o t) :
      Performs a (.allocate size alignment policy) (some <$> o) { a with intervalTree := t }
  | free {key : RangeInclusive} {o : Outcome Error Unit} {t : IntervalTree}
      (h : Frees key a.intervalTree o t) :
      Performs a (.free key) ((fun _ => none) <$> o) { a with intervalTree := t }

variable {a a' : AddressAllocator}

theorem exec_cases (ha : TreeInv a.intervalTree) (call : Call) : Performs a call (exec call a).1 (a.step call) := by
  obtain ⟨H, hH⟩ := ha.within
  unfold step
  cases call with
  | allocate size alignment policy =>
    rw [exec, bind_pure_apply, AddressAllocator.allocate, bind_apply]
    cases hc : Constraint.new size alignment policy with
    | ok c => exact .allocate hc (allocate_cases ha.wf c)
    | err e => exact .invalid hc
    | panic => exact absurd hc (Constraint.new_ne_panic _ _ _)
  | free key =>
    rw [exec, bind_pure_apply]
    exact .free (free_cases ha.wf hH key)

variable {size base : UInt64}

theorem allocate_ok (ha : TreeInv a.intervalTree) {alignment : UInt64} {policy : AllocPolicy} {r : RangeInclusive}
    (h : allocate size alignment policy a = (.ok r, a')) : ∃ c t', Constraint.new size alignment policy = .ok c ∧
      Allocates c a.intervalTree (.ok r) t' ∧ a' = { a with intervalTree := t' } := by
  rw [AddressAllocator.allocate, bind_apply] at h
  cases hc : Constraint.new size alignment policy with
  | err e | panic => rw [hc] at h; cases h
  | ok c =>
    rw [hc] at h
    have hcase := allocate_cases ha.wf c
    have h1 : (IntervalTree.allocate c a.intervalTree).1 = .ok r := congrArg Prod.fst h
    have h2 : { a with intervalTree := (IntervalTree.allocate c a.intervalTree).2 } = a' := congrArg Prod.snd h
    rw [h1] at hcase
    exact ⟨c, _, rfl, hcase, h2.symm⟩

theorem free_ok (ha : TreeInv a.intervalTree) {k : RangeInclusive} (h : free k a = (.ok (), a')) :
    ∃ t', Frees k a.intervalTree (.ok ()) t' ∧ a' = { a with intervalTree := t' } := by
  obtain ⟨H, hH⟩ := ha.within
  have hcase := free_cases ha.wf hH k
  have h1 : (IntervalTree.free k a.intervalTree).1 = .ok () := congrArg Prod.fst h
  have h2 : { a with intervalTree := (IntervalTree.free k a.intervalTree).2 } = a' := congrArg Prod.snd h
  rw [h1] at hcase
  exact ⟨_, hcase, h2.symm⟩

theorem Performs.treeInv {call : Call} {o : Outcome Error (Option RangeInclusive)} (h : Performs a call o a')
    (ha : TreeInv a.intervalTree) : TreeInv a'.intervalTree := by
  cases h with
  | invalid => exact ha
  | allocate _ h | free h => exact h.treeInv ha

theorem new_eq_ok (h : new base size = .ok a) : a.intervalTree = IntervalTree.new a.addressSpace := by
  obtain ⟨_, _, h⟩ := bind_eq_ok.1 h
  obtain ⟨_, _, h⟩ := bind_eq_ok.1 h
  obtain ⟨_, _, h⟩ := bind_eq_ok.1 h
  cases h
  rfl

theorem new_treeInv (h : new base size = .ok a) : TreeInv a.intervalTree := by
  rw [new_eq_ok h]
  exact TreeInv.new _

theorem run_treeInv (h : new base size = .ok a) (calls : List Call) : TreeInv (run step a calls).intervalTree := by
  have hstep : ∀ (a : AddressAllocator) (call : Call), TreeInv a.intervalTree → TreeInv (a.step call).intervalTree :=
    fun a call ha => (exec_cases ha call).treeInv ha
  exact run_stays hstep (new_treeInv h) calls

/-- The addresses of a page. -/
def pageSpace : RangeInclusive := ⟨0, 0xfff, by decide, by decide, by decide⟩

/-- A new allocator of a page. -/
def page : AddressAllocator := ⟨pageSpace, IntervalTree.new pageSpace⟩

theorem new_page : new 0 0x1000 = .ok page := by decide

end AddressAllocator

end RustVmm.VmAllocator
