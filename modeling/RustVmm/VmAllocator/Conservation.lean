import RustVmm.VmAllocator.Runs

/-!
# Addresses are neither lost nor duplicated

The abstract allocator maps addresses to states (`AddressMap`).

* `Allocates.refines` — an allocation fills its range with `allocated`, where all was free.
* `Frees.refines` — a release fills its key with `free`, and the merges change nothing else.
* `reachable_conserves_addresses` — both, in every allocator that calls lead to.
-/

set_option autoImplicit false

namespace RustVmm.VmAllocator

open Lib AvlTree RangeInclusive AddressAllocator

/-- The abstract allocator: the state of each managed address. -/
def AddressMap := Nat → Option NodeState

/-- Give every address of `r` the state `s`. -/
def AddressMap.fill (m : AddressMap) (r : RangeInclusive) (s : NodeState) : AddressMap :=
  fun x => if x ∈ r then some s else m x

/-- The state of an address: that of the node that covers it. -/
def stateAt (t : InnerNode) : AddressMap := fun x =>
  (t.toList.find? fun v => decide (x ∈ v.key)).map Slot.nodeState

variable {t t' : InnerNode} {x : Nat}

theorem stateAt_eq_some (ho : Ordered t) {s : NodeState} :
    stateAt t x = some s ↔ ∃ v ∈ t, x ∈ v.key ∧ v.nodeState = s := by
  unfold stateAt
  constructor
  · intro h
    obtain ⟨v, hf, hs⟩ := Option.map_eq_some_iff.1 h
    have hx := List.find?_some hf
    exact ⟨v, List.mem_of_find?_eq_some hf, by simpa using hx, hs⟩
  · rintro ⟨v, hv, hx, hs⟩
    cases hf : t.toList.find? fun v => decide (x ∈ v.key) with
    | none =>
      have := List.find?_eq_none.1 hf v hv
      simp [hx] at this
    | some w =>
      have hw : x ∈ w.key := by simpa using List.find?_some hf
      have : w = v := ho.eq_of_mem (List.mem_of_find?_eq_some hf) hv hw hx
      rw [this, Option.map_some, hs]

variable {v : Slot}

theorem stateAt_of_mem (ho : Ordered t) (hv : v ∈ t) (hx : x ∈ v.key) : stateAt t x = some v.nodeState :=
  (stateAt_eq_some ho).2 ⟨v, hv, hx, rfl⟩

theorem stateAt_isSome (ho : Ordered t) : (∃ s, stateAt t x = some s) ↔ ∃ v ∈ t, x ∈ v.key := by
  constructor
  · rintro ⟨s, hs⟩
    obtain ⟨v, hv, hx, _⟩ := (stateAt_eq_some ho).1 hs
    exact ⟨v, hv, hx⟩
  · rintro ⟨v, hv, hx⟩
    exact ⟨v.nodeState, stateAt_of_mem ho hv hx⟩

variable {r k : RangeInclusive}

theorem stateAt_eq_fill (ho : Ordered t) (ho' : Ordered t') {s : NodeState}
    (hin : ∀ x, x ∈ r → ∃ v ∈ t', x ∈ v.key ∧ v.nodeState = s)
    (hold : ∀ x, ¬ x ∈ r → ∀ v ∈ t, x ∈ v.key → ∃ w ∈ t', x ∈ w.key ∧ w.nodeState = v.nodeState)
    (hnew : ∀ x, ¬ x ∈ r → ∀ w ∈ t', x ∈ w.key → ∃ v ∈ t, x ∈ v.key ∧ v.nodeState = w.nodeState) :
    stateAt t' = (stateAt t).fill r s := by
  funext x
  unfold AddressMap.fill
  by_cases hx : x ∈ r
  · rw [if_pos hx]
    exact (stateAt_eq_some ho').2 (hin x hx)
  · rw [if_neg hx]
    apply Option.ext
    intro s'
    rw [stateAt_eq_some ho', stateAt_eq_some ho]
    constructor
    · rintro ⟨w, hw, hxw, rfl⟩
      exact hnew x hx w hw hxw
    · rintro ⟨v, hv, hxv, rfl⟩
      exact hold x hx v hv hxv

/-! ## Allocation -/

theorem Marked.refines (hw : WellFormed t) (hm : Marked v.key t t') :
    stateAt t' = (stateAt t).fill v.key .allocated := by
  apply stateAt_eq_fill hw.ordered hm.wf.ordered
  · intro x hx
    exact ⟨_, (hm.mem _).2 (.inl rfl), hx, rfl⟩
  · intro x hx w hwt hxw
    refine ⟨w, (hm.mem w).2 (.inr ⟨hwt, ?_⟩), hxw, rfl⟩
    intro hk
    exact hx (hk ▸ hxw)
  · intro x hx w hwt hxw
    rcases (hm.mem w).1 hwt with rfl | ⟨hwt, _⟩
    · exact absurd hxw hx
    · exact ⟨w, hwt, hxw, rfl⟩

theorem Split.exists_rest (hs : Split v r t t') (hxv : x ∈ v.key) (hxr : ¬ x ∈ r) :
    ∃ e ∈ t', x ∈ e.key ∧ e.nodeState = .free := by
  rw [RangeInclusive.mem_def] at hxv hxr
  have hre := r.end_le
  have hve := v.key.end_le
  have hrs := r.start_le
  by_cases hlt : x < r.start
  · refine ⟨⟨⟨v.key.start, r.start - 1, by omega, by omega, by omega⟩, .free⟩, ?_, ?_, rfl⟩
    · exact (hs.mem _).2 (.inr (.inl ⟨rfl, rfl, by dsimp only; omega⟩))
    · exact ⟨hxv.1, by dsimp only; omega⟩
  · refine ⟨⟨⟨r.end_ + 1, v.key.end_, by omega, by omega, by omega⟩, .free⟩, ?_, ?_, rfl⟩
    · exact (hs.mem _).2 (.inr (.inr (.inl ⟨rfl, rfl, rfl⟩)))
    · exact ⟨by dsimp only; omega, hxv.2⟩

theorem Split.refines (hw : WellFormed t) (hv : v ∈ t) (hfree : v.nodeState = .free) (hk : v.key.start ≤ r.start)
    (hr : r.end_ ≤ v.key.end_) (hs : Split v r t t') : stateAt t' = (stateAt t).fill r .allocated := by
  have hrs := r.start_le
  apply stateAt_eq_fill hw.ordered hs.wf.ordered
  · intro x hx
    exact ⟨_, (hs.mem _).2 (.inl rfl), hx, rfl⟩
  · intro x hx w hwt hxw
    by_cases hkey : w.key = v.key
    · have hwv : w = v := hw.ordered.eq_of_key hwt hv hkey
      rw [hwv] at hxw ⊢
      rw [hfree]
      exact hs.exists_rest hxw hx
    · exact ⟨w, (hs.mem w).2 (.inr (.inr (.inr ⟨hwt, hkey⟩))), hxw, rfl⟩
  · intro x hx w hwt hxw
    rcases (hs.mem w).1 hwt with rfl | ⟨hst, h1, h2⟩ | ⟨hst, h1, h2⟩ | ⟨hwt, _⟩
    · exact absurd hxw hx
    · rw [RangeInclusive.mem_def] at hxw
      exact ⟨v, hv, ⟨by omega, by omega⟩, by rw [hfree, hst]⟩
    · rw [RangeInclusive.mem_def] at hxw
      exact ⟨v, hv, ⟨by omega, by omega⟩, by rw [hfree, hst]⟩
    · exact ⟨w, hwt, hxw, rfl⟩

theorem Allocates.refines {c : Constraint} {t t' : IntervalTree} (h : Allocates c t (.ok r) t') (hw : WellFormed t.root)
    (hp : c.policy = .firstMatch ∨ c.policy = .lastMatch) : (∀ x, x ∈ r → stateAt t.root x = some .free) ∧
      stateAt t'.root = (stateAt t.root).fill r .allocated := by
  have hfree : ∀ v r, plan c t = .ok (v, r) → v.nodeState = .free := by
    intro v r hplan
    rcases (plan_spec hw.ordered hplan).state with hs | ⟨x, hx, _⟩
    · exact hs
    · rw [hx] at hp
      simp at hp
  cases h with
  | whole hplan hs hm =>
    have hg := plan_spec hw.ordered hplan
    refine ⟨fun x hx => ?_, hm.refines hw⟩
    rw [stateAt_of_mem hw.ordered hg.mem hx, hs]
  | @split v _ _ hplan _ hsp =>
    have hg := plan_spec hw.ordered hplan
    have hs := hfree v r hplan
    refine ⟨fun x hx => ?_, hsp.refines hw hg.mem hs hg.start_le hg.le_end⟩
    have hxv : x ∈ v.key := ⟨Nat.le_trans hg.start_le hx.1, Nat.le_trans hx.2 hg.le_end⟩
    rw [stateAt_of_mem hw.ordered hg.mem hxv, hs]

/-! ## Release -/

theorem Merged.cover (hm : Merged k r t) (hx : x ∈ r) :
    x ∈ k ∨ ∃ e ∈ t, e.nodeState = .free ∧ x ∈ e.key ∧ r.contains e.key = true := by
  have hl := hm.left.le
  have hr := hm.right.le
  have hks := k.start_le
  rw [RangeInclusive.mem_def] at hx
  by_cases hlt : x < k.start
  · rcases hm.left with ⟨e, he, hs, h1, h2, h3⟩ | ⟨h1, _⟩
    · refine .inr ⟨e, he, hs, ⟨by omega, by omega⟩, contains_iff.2 ?_⟩
      exact ⟨by omega, by omega⟩
    · omega
  · by_cases hgt : k.end_ < x
    · rcases hm.right with ⟨e, he, hs, h1, h2, h3⟩ | ⟨h1, _⟩
      · refine .inr ⟨e, he, hs, ⟨by omega, by omega⟩, contains_iff.2 ?_⟩
        exact ⟨by omega, by omega⟩
      · omega
    · exact .inl ⟨by omega, by omega⟩

theorem Merged.disjoint {q : RangeInclusive} (hm : Merged k r t) (hkq : k.Disjoint q)
    (hfree : ∀ e ∈ t, e.nodeState = .free → e.key.Disjoint q) : r.Disjoint q := by
  by_contra hov
  -- a common address is in the key or in a free node; neither overlaps `q`
  have hqs := q.start_le
  have hrs := r.start_le
  have hx : max r.start q.start ∈ r ∧ max r.start q.start ∈ q := by
    unfold RangeInclusive.Disjoint at hov
    exact ⟨⟨by omega, by omega⟩, ⟨by omega, by omega⟩⟩
  generalize max r.start q.start = x at hx
  have hnot : ∀ p : RangeInclusive, p.Disjoint q → ¬ x ∈ p := by
    intro p hp hxp
    have hxq := hx.2
    rw [RangeInclusive.mem_def] at hxp hxq
    unfold RangeInclusive.Disjoint at hp
    omega
  rcases hm.cover hx.1 with hxk | ⟨e, he, hs, hxe, _⟩
  · exact hnot k hkq hxk
  · exact hnot e.key (hfree e he hs) hxe

theorem Merged.contains_key (hm : Merged k r t) : r.contains k = true := contains_iff.2 ⟨hm.left.le, hm.right.le⟩

theorem Merged.of_overlap (hm : Merged k r t) (ho : Ordered t) (hv : v ∈ t) (hvk : v.key = k) {w : Slot} (hw : w ∈ t)
    (hov : ¬ w.key.Disjoint r) : w = v ∨ (w.nodeState = .free ∧ r.contains w.key = true) := by
  obtain ⟨x, hxw, hxr⟩ : ∃ x, x ∈ w.key ∧ x ∈ r := by
    have := w.key.start_le
    have := r.start_le
    unfold RangeInclusive.Disjoint at hov
    refine ⟨max w.key.start r.start, ⟨by omega, by omega⟩, ⟨by omega, by omega⟩⟩
  rcases hm.cover hxr with hxk | ⟨e, he, hs, hxe, hc⟩
  · exact .inl (ho.eq_of_mem hw hv hxw (hvk ▸ hxk))
  · rw [ho.eq_of_mem hw he hxw hxe]
    exact .inr ⟨hs, hc⟩

theorem Frees.refines {t t' : IntervalTree} (h : Frees k t (.ok ()) t') (hw : WellFormed t.root)
    (hv : ⟨k, .allocated⟩ ∈ t.root) : (∀ x, x ∈ k → stateAt t.root x = some .allocated) ∧
      stateAt t'.root = (stateAt t.root).fill k .free := by
  refine ⟨fun x hx => stateAt_of_mem hw.ordered hv hx, ?_⟩
  cases h with
  | @merged r _ _ _ hm hw' mem =>
    obtain ⟨h1, h2⟩ := contains_iff.1 hm.contains_key
    apply stateAt_eq_fill hw.ordered hw'.ordered
    · intro x hx
      exact ⟨_, (mem _).2 (.inl rfl), ⟨Nat.le_trans h1 hx.1, Nat.le_trans hx.2 h2⟩, rfl⟩
    · intro x hx w hwt hxw
      by_cases hdis : w.key.Disjoint r
      · exact ⟨w, (mem w).2 (.inr ⟨hwt, hdis⟩), hxw, rfl⟩
      · rcases hm.of_overlap hw.ordered hv rfl hwt hdis with rfl | ⟨hs, hc⟩
        · exact absurd hxw hx
        · obtain ⟨c1, c2⟩ := contains_iff.1 hc
          exact ⟨_, (mem _).2 (.inl rfl), ⟨Nat.le_trans c1 hxw.1, Nat.le_trans hxw.2 c2⟩, hs.symm⟩
    · intro x hx w hwt hxw
      rcases (mem w).1 hwt with rfl | ⟨hwt, _⟩
      · rcases hm.cover hxw with hxk | ⟨e, he, hs, hxe, _⟩
        · exact absurd hxk hx
        · exact ⟨e, he, hxe, hs⟩
      · exact ⟨w, hwt, hxw, rfl⟩

/-! ## Every reachable allocator -/

theorem covered_congr (ho : Ordered t) (ho' : Ordered t') {s s' : NodeState} (hin : ∀ x, x ∈ r → stateAt t x = some s)
    (hfill : stateAt t' = (stateAt t).fill r s') (x : Nat) : (∃ v ∈ t', x ∈ v.key) ↔ ∃ v ∈ t, x ∈ v.key := by
  rw [← stateAt_isSome ho, ← stateAt_isSome ho', hfill]
  unfold AddressMap.fill
  by_cases hx : x ∈ r
  · simp [if_pos hx, hin x hx]
  · simp [if_neg hx]

/-- **Address conservation.**  In every reachable allocator, a successful first-match or
last-match allocation turns exactly its range from free to allocated, a successful release of an
allocated node turns exactly its key from allocated to free, and neither changes the set of
managed addresses. -/
theorem reachable_conserves_addresses {base size : UInt64} {a₀ : AddressAllocator}
    (hnew : AddressAllocator.new base size = .ok a₀) (calls : List Call) (a : AddressAllocator)
    (ha : run AddressAllocator.step a₀ calls = a) :
    (∀ size alignment policy r a', policy = .firstMatch ∨ policy = .lastMatch →
      AddressAllocator.allocate size alignment policy a = (.ok r, a') →
        (∀ x, x ∈ r → stateAt a.intervalTree.root x = some .free) ∧
        stateAt a'.intervalTree.root = (stateAt a.intervalTree.root).fill r .allocated ∧
        ∀ x, (∃ v ∈ a'.intervalTree.root, x ∈ v.key) ↔ ∃ v ∈ a.intervalTree.root, x ∈ v.key) ∧
    (∀ k a', ⟨k, .allocated⟩ ∈ a.intervalTree.root → AddressAllocator.free k a = (.ok (), a') →
        (∀ x, x ∈ k → stateAt a.intervalTree.root x = some .allocated) ∧
        stateAt a'.intervalTree.root = (stateAt a.intervalTree.root).fill k .free ∧
        ∀ x, (∃ v ∈ a'.intervalTree.root, x ∈ v.key) ↔ ∃ v ∈ a.intervalTree.root, x ∈ v.key) := by
  have hinv : TreeInv a.intervalTree := ha ▸ run_treeInv hnew calls
  constructor
  · intro size alignment policy r a' hp h
    obtain ⟨c, t', hc, hcase, rfl⟩ := allocate_ok hinv h
    have hpol : c.policy = policy := (Constraint.new_eq_ok hc).2.2
    obtain ⟨hin, hfill⟩ := hcase.refines hinv.wf (hpol ▸ hp)
    have hwf' := (hcase.treeInv hinv).wf
    exact ⟨hin, hfill, covered_congr hinv.wf.ordered hwf'.ordered hin hfill⟩
  · intro k a' hk h
    obtain ⟨t', hcase, rfl⟩ := free_ok hinv h
    obtain ⟨hin, hfill⟩ := hcase.refines hinv.wf hk
    have hwf' := (hcase.treeInv hinv).wf
    exact ⟨hin, hfill, covered_congr hinv.wf.ordered hwf'.ordered hin hfill⟩

theorem conserves_addresses_page : ∃ a₀ a₁ a₂ : AddressAllocator, ∃ r : RangeInclusive,
      AddressAllocator.new 0 0x1000 = .ok a₀ ∧
      AddressAllocator.allocate 0x100 1 .firstMatch a₀ = (.ok r, a₁) ∧
      AddressAllocator.free r a₁ = (.ok (), a₂) ∧
      stateAt a₁.intervalTree.root = (stateAt a₀.intervalTree.root).fill r .allocated ∧
      stateAt a₂.intervalTree.root = (stateAt a₁.intervalTree.root).fill r .free := by
  let r : RangeInclusive := ⟨0, 0xff, by decide, by decide, by decide⟩
  let a₁ : AddressAllocator := page.step (.allocate 0x100 1 .firstMatch)
  let a₂ : AddressAllocator := a₁.step (.free r)
  have h₁ : allocate 0x100 1 .firstMatch page = (.ok r, a₁) := by decide
  have h₂ : free r a₁ = (.ok (), a₂) := by decide
  refine ⟨page, a₁, a₂, r, new_page, h₁, h₂, ?_, ?_⟩
  · exact ((reachable_conserves_addresses new_page [] page rfl).1 _ _ _ r a₁ (.inl rfl) h₁).2.1
  · exact ((reachable_conserves_addresses new_page [.allocate 0x100 1 .firstMatch] a₁ rfl).2 r a₂ (by decide) h₂).2.1

end RustVmm.VmAllocator
