import RustVmm.VmAllocator.Nodes

/-!
# What an allocation does to the tree

Invariants are derived from `allocate_cases`; nothing later unfolds `allocate`.

* `plan`, `plan_spec` — the part that only reads, and that the range it grants is in a node and aligned.
* `split_cases` — the range is cut out of the node, or an insertion meets the height limit half-way.
* `allocate_cases` — all answers, each with the tree it leaves (`Allocates`).
-/

set_option autoImplicit false

namespace RustVmm.VmAllocator

open Lib AvlTree InnerNode Outcome RangeInclusive List IntervalTree Exec

/-! ## Candidates -/

variable {key r q k : RangeInclusive} {c : Constraint}

theorem rangeStart_spec {a : Nat} (h : rangeStart key c = .ok a) : key.start ≤ a ∧ a % c.align.toNat = 0 := by
  unfold rangeStart at h
  split at h
  · exact alignUp_spec c.align_le h
  · obtain ⟨x, hx, h⟩ := bind_eq_ok.1 h
    obtain ⟨y, hy, h⟩ := bind_eq_ok.1 h
    obtain ⟨z, hz, h⟩ := bind_eq_ok.1 h
    split at h
    · cases h
    · rename_i hlt
      cases h
      obtain ⟨hxy, rfl⟩ := checkedAdd_eq_some.1 (okOr_eq_ok.1 hy)
      exact ⟨Nat.le_of_not_lt hlt, (alignDown_spec hxy c.align_le hz).2⟩
  · cases h

variable {v : Slot}

theorem checkConstraint_spec (h : checkConstraint v c = .ok r) :
    v.nodeState = .free ∧ v.key.start ≤ r.start ∧ r.start + c.size.toNat ≤ v.key.end_ + 1 ∧
      r.start % c.align.toNat = 0 := by
  unfold checkConstraint at h
  split at h
  · cases h
  rename_i hg
  obtain ⟨a, ha, h⟩ := bind_eq_ok.1 h
  obtain ⟨key, hk, h⟩ := bind_eq_ok.1 h
  split at h
  · rename_i hlen
    cases h
    obtain ⟨rfl, hke⟩ := new_eq_ok.1 hk
    obtain ⟨hle, hal⟩ := rangeStart_spec ha
    refine ⟨?_, hle, ?_, hal⟩
    · cases hs : v.nodeState with
      | free => rfl
      | allocated => simp [hs, NodeState.isFree] at hg
    · have := r.start_le
      unfold len at hlen
      omega
  · cases h

theorem candidate_eq_ok {w : Slot} (h : candidate v c = .ok (w, r)) : w = v ∧ checkConstraint v c = .ok r := by
  unfold candidate at h
  split at h
  · rename_i range hr
    cases h
    exact ⟨rfl, hr⟩
  · cases h
  · cases h

/-! Both searches try the nodes one after the other, in increasing and in decreasing order. -/

variable {r : RangeInclusive}

section Search

variable {f : Slot → Outcome Error (Slot × RangeInclusive)}

/-- The first answer that is not `ResourceNotAvailable`. -/
def firstOf (f : Slot → Outcome Error (Slot × RangeInclusive)) : List Slot → Outcome Error (Slot × RangeInclusive)
  | [] => .err .resourceNotAvailable
  | v :: vs =>
    match f v with
    | .err .resourceNotAvailable => firstOf f vs
    | res => res

theorem firstOf_append (xs ys : List Slot) : firstOf f (xs ++ ys) =
      match firstOf f xs with
      | .err .resourceNotAvailable => firstOf f ys
      | res => res := by
  induction xs with
  | nil => simp [firstOf]
  | cons v vs ih =>
    rw [cons_append, firstOf, firstOf]
    split
    · exact ih
    · rename_i hne
      split
      · rename_i h
        exact absurd h hne
      · rfl

theorem firstOf_eq_ok {vs : List Slot} {b : Slot × RangeInclusive} (h : firstOf f vs = .ok b) : ∃ v ∈ vs, f v = .ok b ∧
      ∃ before after, vs = before ++ v :: after ∧ ∀ w ∈ before, f w = .err .resourceNotAvailable := by
  induction vs with
  | nil => cases h
  | cons u vs ih =>
    rw [firstOf] at h
    split at h
    · rename_i hu
      obtain ⟨v, hv, hb, before, after, rfl, hall⟩ := ih h
      refine ⟨v, mem_cons_of_mem u hv, hb, u :: before, after, rfl, fun w hw => ?_⟩
      rcases mem_cons.1 hw with rfl | hw
      · exact hu
      · exact hall w hw
    · exact ⟨u, mem_cons_self, h, [], vs, rfl, fun w hw => absurd hw not_mem_nil⟩

theorem firstOf_ne_panic (hf : ∀ v, f v ≠ .panic) (vs : List Slot) : firstOf f vs ≠ .panic := by
  induction vs with
  | nil => simp [firstOf]
  | cons v vs ih =>
    rw [firstOf]
    split
    · exact ih
    · exact hf v

variable {c : Constraint} {t : InnerNode}

theorem firstMatch_eq : firstMatch c t = firstOf (candidate · c) t.toList := by
  induction t with
  | nil => rfl
  | node v left right h ihl ihr =>
    have happend := firstOf_append (f := (candidate · c)) left.toList (v :: right.toList)
    rw [firstOf, ← ihl, ← ihr] at happend
    exact happend.symm

theorem lastMatch_eq : lastMatch c t = firstOf (candidate · c) t.toList.reverse := by
  induction t with
  | nil => rfl
  | node v left right h ihl ihr =>
    have happend := firstOf_append (f := (candidate · c)) right.toList.reverse
      (v :: left.toList.reverse)
    rw [firstOf, ← ihl, ← ihr] at happend
    rw [toList_node, reverse_append, reverse_cons, append_assoc]
    exact happend.symm

theorem firstOf_candidate {vs : List Slot} {v : Slot}
    (h : firstOf (candidate · c) vs = .ok (v, r)) : v ∈ vs ∧ checkConstraint v c = .ok r := by
  obtain ⟨w, hw, hc, -⟩ := firstOf_eq_ok h
  obtain ⟨rfl, hr⟩ := candidate_eq_ok hc
  exact ⟨hw, hr⟩

theorem firstMatch_spec {v : Slot} (h : firstMatch c t = .ok (v, r)) :
    v ∈ t ∧ checkConstraint v c = .ok r :=
  firstOf_candidate (firstMatch_eq.symm.trans h)

theorem lastMatch_spec {v : Slot} (h : lastMatch c t = .ok (v, r)) :
    v ∈ t ∧ checkConstraint v c = .ok r :=
  (firstOf_candidate (lastMatch_eq.symm.trans h)).imp_left mem_reverse.1

end Search

theorem exactMatch_spec {t : InnerNode} (ho : Ordered t) {x : UInt64} (h : exactMatch x c t = .ok (v, r)) :
    v ∈ t ∧ r.start = x.toNat ∧ v.key.start ≤ x.toNat ∧ x.toNat + 1 ≤ v.key.end_ ∧
      x.toNat + c.size.toNat ≤ v.key.end_ + 1 := by
  obtain ⟨next, hn, h⟩ := bind_eq_ok.1 h
  obtain ⟨probe, hp, h⟩ := bind_eq_ok.1 h
  obtain ⟨node, hnode, h⟩ := bind_eq_ok.1 h
  obtain ⟨span, hs, h⟩ := bind_eq_ok.1 h
  obtain ⟨last, hl, h⟩ := bind_eq_ok.1 h
  obtain ⟨range, hr, h⟩ := bind_eq_ok.1 h
  have hn' := (checkedAdd_eq_some.1 (okOr_eq_ok.1 hn)).2
  have hs' := (checkedSub_eq_some.1 (okOr_eq_ok.1 hs)).2
  have hl' := (checkedAdd_eq_some.1 (okOr_eq_ok.1 hl)).2
  obtain ⟨hps, hpe⟩ := new_eq_ok.1 hp
  obtain ⟨hrs, hre⟩ := new_eq_ok.1 hr
  obtain ⟨hm, hc⟩ := (searchSuperset_eq_some ho).1 (okOr_eq_ok.1 hnode)
  obtain ⟨hcs, hce⟩ := contains_iff.1 hc
  split at h
  · cases h
  · rename_i hcr
    cases h
    obtain ⟨_, hre'⟩ := contains_iff.1 (by simpa using hcr)
    exact ⟨hm, hrs, by omega, by omega, by omega⟩

/-! The searches do not panic: `check_constraint` is called for two policies only. -/

theorem candidate_ne_panic (hp : c.policy = .firstMatch ∨ c.policy = .lastMatch) (v : Slot) :
    candidate v c ≠ .panic := by
  have hs : rangeStart v.key c ≠ .panic := by
    unfold rangeStart
    split
    · exact alignUp_ne_panic _ _
    · refine bind_ne_panic (okOr_ne_panic _ _) fun x _ => ?_
      refine bind_ne_panic (okOr_ne_panic _ _) fun y _ => ?_
      refine bind_ne_panic (alignDown_ne_panic _ _) fun z _ => ?_
      split <;> simp
    · rename_i hx
      rw [hx] at hp
      simp at hp
  have hc : checkConstraint v c ≠ .panic := by
    unfold checkConstraint
    split
    · simp
    · refine bind_ne_panic hs fun a _ => ?_
      refine bind_ne_panic (new_ne_panic _ _) fun key _ => ?_
      split <;> simp
  unfold candidate
  split
  · simp
  · simp
  · rename_i h
    exact absurd h hc

theorem firstMatch_ne_panic (hp : c.policy = .firstMatch ∨ c.policy = .lastMatch) (t : InnerNode) :
    firstMatch c t ≠ .panic := by
  rw [firstMatch_eq]
  exact firstOf_ne_panic (candidate_ne_panic hp) _

theorem lastMatch_ne_panic (hp : c.policy = .firstMatch ∨ c.policy = .lastMatch) (t : InnerNode) :
    lastMatch c t ≠ .panic := by
  rw [lastMatch_eq]
  exact firstOf_ne_panic (candidate_ne_panic hp) _

theorem exactMatch_ne_panic (x : UInt64) (c : Constraint) (t : InnerNode) : exactMatch x c t ≠ .panic := by
  refine bind_ne_panic (okOr_ne_panic _ _) fun _ _ => ?_
  refine bind_ne_panic (new_ne_panic _ _) fun _ _ => ?_
  refine bind_ne_panic (okOr_ne_panic _ _) fun _ _ => ?_
  refine bind_ne_panic (okOr_ne_panic _ _) fun _ _ => ?_
  refine bind_ne_panic (okOr_ne_panic _ _) fun _ _ => ?_
  refine bind_ne_panic (new_ne_panic _ _) fun _ _ => ?_
  split <;> simp

theorem findCandidate_ne_panic (c : Constraint) (t : InnerNode) : findCandidate c t ≠ .panic := by
  unfold findCandidate
  split
  · rename_i h; exact firstMatch_ne_panic (.inl h) t
  · rename_i h; exact lastMatch_ne_panic (.inr h) t
  · exact exactMatch_ne_panic _ c t

theorem resultRange_ne_panic (r : RangeInclusive) (c : Constraint) : resultRange r c ≠ .panic := by
  refine bind_ne_panic (okOr_ne_panic _ _) fun _ _ => ?_
  refine bind_ne_panic (okOr_ne_panic _ _) fun _ _ => ?_
  exact new_ne_panic _ _

/-! ## The plan of an allocation -/

/-- The read-only part of `IntervalTree::allocate`: the candidate node and the range to hand
out. -/
def plan (c : Constraint) (t : IntervalTree) : Outcome Error (Slot × RangeInclusive) := do
  let root ← .okOr (AvlTree.unwrap t.root) .resourceNotAvailable
  let (v, range) ← InnerNode.findCandidate c root
  let result ← IntervalTree.resultRange range c
  return (v, result)

structure Grant (c : Constraint) (t : InnerNode) (v : Slot) (r : RangeInclusive) : Prop where
  mem : v ∈ t
  start_le : v.key.start ≤ r.start
  le_end : r.end_ ≤ v.key.end_
  size : r.end_ + 1 = r.start + c.size.toNat
  aligned : r.start % c.align.toNat = 0
  state : v.nodeState = .free ∨ ∃ x, c.policy = .exactMatch x ∧ r.start = x.toNat ∧ x.toNat + 1 ≤ v.key.end_

theorem resultRange_eq_ok (h : resultRange q c = .ok r) : r.start = q.start ∧ r.end_ + 1 = q.start + c.size.toNat := by
  obtain ⟨a, ha, h⟩ := bind_eq_ok.1 h
  obtain ⟨b, hb, h⟩ := bind_eq_ok.1 h
  have ha' := (checkedAdd_eq_some.1 (okOr_eq_ok.1 ha)).2
  have hb' := checkedSub_eq_some.1 (okOr_eq_ok.1 hb)
  obtain ⟨hs, he⟩ := new_eq_ok.1 h
  exact ⟨hs, by omega⟩

theorem findCandidate_spec {t : InnerNode} (ho : Ordered t) (h : findCandidate c t = .ok (v, q))
    (hr : resultRange q c = .ok r) : Grant c t v r := by
  obtain ⟨hs, he⟩ := resultRange_eq_ok hr
  have hfree : v ∈ t ∧ checkConstraint v c = .ok q → Grant c t v r := by
    rintro ⟨hm, hc⟩
    obtain ⟨hst, hle, hfit, hal⟩ := checkConstraint_spec hc
    exact ⟨hm, by omega, by omega, by omega, by rw [hs]; exact hal, .inl hst⟩
  unfold findCandidate at h
  split at h
  · exact hfree (firstMatch_spec h)
  · exact hfree (lastMatch_spec h)
  · rename_i x hp
    obtain ⟨hm, hq, hle, hnext, hfit⟩ := exactMatch_spec ho h
    refine ⟨hm, by omega, by omega, by omega, ?_, .inr ⟨x, hp, by omega, hnext⟩⟩
    rw [hs, hq]
    exact c.aligned x hp

theorem unwrap_eq_some {t u : InnerNode} (h : unwrap t = some u) : u = t := by
  cases t with
  | nil => cases h
  | node v l r hh => cases h; rfl

variable {t : IntervalTree}

theorem plan_spec (ho : Ordered t.root) (h : plan c t = .ok (v, r)) : Grant c t.root v r := by
  obtain ⟨root, hroot, h⟩ := bind_eq_ok.1 h
  obtain ⟨⟨w, range⟩, hf, h⟩ := bind_eq_ok.1 h
  obtain ⟨result, hres, h⟩ := bind_eq_ok.1 h
  cases h
  rw [unwrap_eq_some (okOr_eq_ok.1 hroot)] at hf
  exact findCandidate_spec ho hf hres

theorem plan_ne_panic (c : Constraint) (t : IntervalTree) : plan c t ≠ .panic := by
  refine bind_ne_panic (okOr_ne_panic _ _) fun root _ => ?_
  refine bind_ne_panic (findCandidate_ne_panic c root) fun p _ => ?_
  refine bind_ne_panic (resultRange_ne_panic p.2 c) fun r _ => ?_
  simp

/-! ## The methods on the whole tree -/

theorem insert_cases (hw : WellFormed t.root) (s : NodeState) (hd : ∀ e ∈ t.root, e.key.Disjoint key) :
    (50 ≤ t.root.height ∧ insert key s t = (.err .overflow, ⟨.nil⟩)) ∨
    (t.root.height < 50 ∧ ∃ t', insert key s t = (.ok (), ⟨t'⟩) ∧ Inserted key s t.root t') := by
  unfold IntervalTree.insert
  by_cases hh : t.root.height < 50
  · obtain ⟨t', ht, hi⟩ := insert_ok hw s hh hd
    exact .inr ⟨hh, t', by rw [ht], hi⟩
  · exact .inl ⟨by omega, by rw [insert_full (by omega)]⟩

theorem delete_nil (key : RangeInclusive) : delete key ⟨.nil⟩ = (.ok (), ⟨.nil⟩) := rfl

theorem ne_nil_of_mem {t : InnerNode} (hv : v ∈ t) : t ≠ .nil := by
  rintro rfl
  exact not_mem_nil v hv

theorem delete_eq (hne : t.root ≠ .nil) (key : RangeInclusive) :
    delete key t = match search key t.root with
      | none => (.err .resourceNotAvailable, t)
      | some _ =>
        match delete key t.root with
        | some root => (.ok (), ⟨root⟩)
        | none => (.panic, ⟨.nil⟩) := by
  obtain ⟨root⟩ := t
  cases root with
  | nil => exact absurd rfl hne
  | node v l r h => rfl

theorem markAsAllocated_eq (hne : t.root ≠ .nil) (key : RangeInclusive) :
    markAsAllocated key t = match markAsAllocated key t.root with
      | .ok root => (.ok (), ⟨root⟩)
      | .err e => (.err e, t)
      | .panic => (.panic, t) := by
  obtain ⟨root⟩ := t
  cases root with
  | nil => exact absurd rfl hne
  | node v l r h => rfl

theorem delete_present (hw : WellFormed t.root) (hv : v ∈ t.root) :
    ∃ t', delete v.key t = (.ok (), ⟨t'⟩) ∧ Deleted v.key t.root t' := by
  obtain ⟨t', ht, hd⟩ := delete_spec hw v.key
  refine ⟨t', ?_, hd⟩
  have hs := (search_eq_some hw.ordered).2 ⟨hv, rfl⟩
  rw [delete_eq (ne_nil_of_mem hv), hs, ht]

theorem delete_absent (hw : WellFormed t.root) (hne : t.root ≠ .nil) (hk : ∀ e ∈ t.root, e.key ≠ key) :
    delete key t = (.err .resourceNotAvailable, t) := by
  have hs := (search_eq_none hw.ordered).2 hk
  rw [delete_eq hne, hs]

theorem markAsAllocated_free (hw : WellFormed t.root) (hm : ⟨key, .free⟩ ∈ t.root) :
    ∃ t', markAsAllocated key t = (.ok (), ⟨t'⟩) ∧ Marked key t.root t' := by
  obtain ⟨t', ht, hk⟩ := markAsAllocated_spec hw hm
  refine ⟨t', ?_, hk⟩
  rw [markAsAllocated_eq (ne_nil_of_mem hm), ht]

theorem markAsAllocated_taken (hw : WellFormed t.root) (hm : ⟨key, .allocated⟩ ∈ t.root) :
    markAsAllocated key t = (.err (.invalidStateTransition key .allocated), t) := by
  have ht := markAsAllocated_allocated hw.ordered hm
  rw [markAsAllocated_eq (ne_nil_of_mem hm), ht]

/-! ## Splitting a node -/

/-- The free node left of `r` when `r` is cut out of `k`. -/
def Below (k r : RangeInclusive) (e : Slot) : Prop :=
  e.nodeState = .free ∧ e.key.start = k.start ∧ e.key.end_ + 1 = r.start

/-- The free node right of `r` when `r` is cut out of `k`. -/
def Above (k r : RangeInclusive) (e : Slot) : Prop :=
  e.nodeState = .free ∧ e.key.start = r.end_ + 1 ∧ e.key.end_ = k.end_

theorem eq_of_state {e : Slot} {s : NodeState} (hs : e.nodeState = s) (h1 : e.key.start = key.start)
    (h2 : e.key.end_ = key.end_) : e = ⟨key, s⟩ := by
  cases e
  simp only at hs h1 h2
  rw [hs, ext_bounds h1 h2]

/-- A rest of the node, of which there is one if `P` holds, has been inserted, or the tree is too high for it. -/
def InsertsRest (P : Prop) (Rest : Slot → Prop) (t : IntervalTree) (x : Outcome Error Unit × IntervalTree) : Prop :=
  (P ∧ 50 ≤ t.root.height ∧ x = (.err .overflow, ⟨.nil⟩)) ∨
  ∃ t', x = (.ok (), ⟨t'⟩) ∧ WellFormed t' ∧ (t'.height ≤ t.root.height ∨ P ∧ t'.height ≤ t.root.height + 1) ∧
    ∀ e, e ∈ t' ↔ e ∈ t.root ∨ Rest e

theorem insertRest_cases (hw : WellFormed t.root) {P : Prop} {Rest : Slot → Prop} {x : Exec IntervalTree Error Unit}
    {a b : Nat} (hsome : P → a ≤ b ∧ b ≤ U64_MAX ∧ ¬ (a = 0 ∧ b = U64_MAX) ∧
      (∀ e ∈ t.root, e.key.end_ < a ∨ b < e.key.start) ∧
      x t = (lift (new a b) >>= fun range => insert range .free) t) (hnone : ¬ P → x t = (.ok (), t))
    (hrest : ∀ e, Rest e ↔ P ∧ e.nodeState = .free ∧ e.key.start = a ∧ e.key.end_ = b) :
    InsertsRest P Rest t (x t) := by
  by_cases hP : P
  · obtain ⟨hle, hmax, hproper, hd, hx⟩ := hsome hP
    obtain ⟨key, hnew, rfl, rfl⟩ := exists_new hle hmax hproper
    rw [hx, bind_of_ok (by rw [lift_apply, hnew])]
    rcases insert_cases hw .free hd with ⟨hh, hi⟩ | ⟨hh, t', ht, hi⟩
    · exact .inl ⟨hP, hh, hi⟩
    · refine .inr ⟨t', ht, hi.wf, .inr ⟨hP, hi.height_le⟩, fun e => ?_⟩
      rw [hi.mem, or_comm, hrest, and_iff_right hP]
      refine or_congr_right ⟨?_, fun ⟨hs, h1, h2⟩ => eq_of_state hs h1 h2⟩
      rintro rfl
      exact ⟨rfl, rfl, rfl⟩
  · refine .inr ⟨t.root, hnone hP, hw, .inl (Nat.le_refl _), fun e => ?_⟩
    rw [or_iff_left fun h => hP ((hrest e).1 h).1]

theorem insertBefore_spec (hw : WellFormed t.root) (hr : r.end_ ≤ k.end_)
    (hd : ∀ e ∈ t.root, e.key.Disjoint k) : InsertsRest (k.start < r.start) (Below k r) t (insertBefore k r t) := by
  have hre := r.end_le
  have hrs := r.start_le
  unfold insertBefore
  refine insertRest_cases hw (a := k.start) (b := r.start - 1)
    (fun hlt => ⟨by omega, by omega, by omega, fun e he => ?_, ?_⟩) (fun hlt => ?_) fun e => ?_
  · have := hd e he
    unfold RangeInclusive.Disjoint at this
    omega
  · rw [if_pos hlt, checkedSub_of_le (by omega)]
    rfl
  · rw [if_neg hlt]
    rfl
  · have := e.key.start_le
    exact ⟨fun ⟨hs, h1, h2⟩ => ⟨by omega, hs, h1, by omega⟩, fun ⟨hlt, hs, h1, h2⟩ => ⟨hs, h1, by omega⟩⟩

theorem insertAfter_spec (hw : WellFormed t.root) (hd : ∀ e ∈ t.root, e.key.end_ ≤ r.end_ ∨ k.end_ < e.key.start) :
    InsertsRest (r.end_ < k.end_) (Above k r) t (insertAfter k r t) := by
  have hke := k.end_le
  unfold insertAfter
  refine insertRest_cases hw (a := r.end_ + 1) (b := k.end_)
    (fun hlt => ⟨by omega, by omega, by omega, fun e he => ?_, ?_⟩) (fun hlt => ?_) fun e => ?_
  · have := hd e he
    omega
  · rw [if_pos hlt, checkedAdd_of_le (by omega)]
    rfl
  · rw [if_neg hlt]
    rfl
  · have := e.key.start_le
    exact ⟨fun ⟨hs, h1, h2⟩ => ⟨by omega, hs, h1, h2⟩, fun ⟨_, hs, h1, h2⟩ => ⟨hs, h1, h2⟩⟩

/-- The number of rests when `r` is cut out of `k`. -/
def rests (k r : RangeInclusive) : Nat := (if k.start < r.start then 1 else 0) + (if r.end_ < k.end_ then 1 else 0)

theorem rests_le (k r : RangeInclusive) : rests k r ≤ 2 := by
  unfold rests
  split <;> split <;> omega

/-- The nodes after `r` has been cut out of the node `v`. -/
structure Split (v : Slot) (r : RangeInclusive) (t t' : InnerNode) : Prop where
  wf : WellFormed t'
  mem : ∀ e, e ∈ t' ↔ e = ⟨r, .allocated⟩ ∨ Below v.key r e ∨ Above v.key r e ∨ (e ∈ t ∧ e.key ≠ v.key)

theorem split_cases (hw : WellFormed t.root) (hv : v ∈ t.root) (hk : v.key.start ≤ r.start) (hr : r.end_ ≤ v.key.end_) :
    (∃ t', split v.key r t = (.ok r, ⟨t'⟩) ∧ Split v r t.root t') ∨
    (50 ≤ t.root.height + rests v.key r ∧ split v.key r t = (.err .overflow, ⟨.nil⟩)) := by
  have hrs := r.start_le
  unfold split rests
  -- the node goes out, and what is left is disjoint from it
  obtain ⟨d, hdel, hd⟩ := delete_present hw hv
  have hdk : ∀ e ∈ d, e.key.Disjoint v.key := by
    intro e he
    obtain ⟨hm, hne⟩ := (hd.mem e).1 he
    exact hw.ordered.disjoint_of_ne hm hv hne
  have hheight := hd.height_le
  rw [bind_of_ok hdel]
  rcases insertBefore_spec hd.wf hr hdk with ⟨_, hh, hb⟩ | ⟨t₂, hb, hw₂, hheight₂, hm₂⟩
  · exact .inr ⟨Nat.le_trans (Nat.le_trans hh hheight) (Nat.le_add_right _ _), by rw [bind_of_err hb]⟩
  rw [bind_of_ok hb]
  dsimp only at hheight₂
  -- the middle piece
  have hd₂ : ∀ e ∈ t₂, e.key.Disjoint r := by
    intro e he
    rcases (hm₂ e).1 he with he | ⟨_, _, h2⟩
    · have := hdk e he
      unfold RangeInclusive.Disjoint at this ⊢
      omega
    · exact .inl (by omega)
  rcases insert_cases hw₂ .allocated hd₂ with ⟨hh, hi⟩ | ⟨hh, t₃, hi, hins⟩
  · exact .inr ⟨by dsimp only at hh; split <;> omega, by rw [bind_of_err hi]⟩
  rw [bind_of_ok hi]
  -- what is left above
  have hd₃ : ∀ e ∈ t₃, e.key.end_ ≤ r.end_ ∨ v.key.end_ < e.key.start := by
    intro e he
    rcases (hins.mem e).1 he with rfl | he
    · exact .inl (Nat.le_refl _)
    rcases (hm₂ e).1 he with he | ⟨_, _, h2⟩
    · have := hdk e he
      unfold RangeInclusive.Disjoint at this
      omega
    · exact .inl (by omega)
  rcases insertAfter_spec hins.wf hd₃ with ⟨hlt, hh', ha⟩ | ⟨t₄, ha, hw₄, _, hm₄⟩
  · have hheight₃ := hins.height_le
    refine .inr ⟨?_, by rw [bind_of_err ha]⟩
    dsimp only at hh' hheight₃
    rw [if_pos hlt]
    split <;> omega
  refine .inl ⟨t₄, by rw [bind_of_ok ha]; rfl, hw₄, fun e => ?_⟩
  rw [hm₄, hins.mem, hm₂, hd.mem]
  rw [or_assoc, or_assoc, or_comm (a := e ∈ t.root ∧ _), or_assoc]

/-! ## All outcomes -/

/-- What `IntervalTree::allocate` can answer, and the tree it leaves. -/
inductive Allocates (c : Constraint) (t : IntervalTree) : Outcome Error RangeInclusive → IntervalTree → Prop
  /-- No node satisfies the request. -/
  | noCandidate {e : Error} (hp : plan c t = .err e) : Allocates c t (.err e) t
  /-- The candidate is exactly the range and already allocated. -/
  | taken {v : Slot} (hp : plan c t = .ok (v, v.key)) (hs : v.nodeState = .allocated) :
      Allocates c t (.err (.invalidStateTransition v.key .allocated)) t
  /-- The candidate is exactly the range: its state changes. -/
  | whole {v : Slot} {t' : InnerNode} (hp : plan c t = .ok (v, v.key)) (hs : v.nodeState = .free)
      (hm : Marked v.key t.root t') : Allocates c t (.ok v.key) ⟨t'⟩
  /-- The range is cut out of the candidate. -/
  | split {v : Slot} {r : RangeInclusive} {t' : InnerNode} (hp : plan c t = .ok (v, r))
      (hne : v.key ≠ r) (hsp : Split v r t.root t') : Allocates c t (.ok r) ⟨t'⟩
  /-- An insertion met the height limit after the candidate had been deleted. -/
  | lost {v : Slot} {r : RangeInclusive} (hp : plan c t = .ok (v, r)) (hne : v.key ≠ r)
      (hh : 50 ≤ t.root.height + rests v.key r) : Allocates c t (.err .overflow) ⟨.nil⟩

theorem allocate_eq (c : Constraint) (t : IntervalTree) : allocate c t =
      match plan c t with
      | .ok (v, r) =>
        if v.key.start = r.start ∧ v.key.len = c.size.toNat then
          (do markAsAllocated v.key; return v.key : Exec IntervalTree Error _) t
        else split v.key r t
      | .err e => (.err e, t)
      | .panic => (.panic, t) := by
  unfold allocate plan
  rw [bind_apply, get_apply]
  dsimp only
  rw [bind_apply, lift_apply]
  cases hu : okOr (unwrap t.root) Error.resourceNotAvailable with
  | err e => rfl
  | panic => rfl
  | ok root =>
    dsimp only
    rw [bind_apply, lift_apply, ok_bind]
    cases hf : findCandidate c root with
    | err e => rfl
    | panic => rfl
    | ok p =>
      dsimp only
      rw [bind_apply, lift_apply, ok_bind]
      cases hr : resultRange p.2 c with
      | err e => rfl
      | panic => rfl
      | ok r =>
        rw [ok_bind, pure_eq]
        dsimp only
        split <;> rfl

theorem allocate_cases (hw : WellFormed t.root) (c : Constraint) : Allocates c t (allocate c t).1 (allocate c t).2 := by
  rw [allocate_eq]
  cases hp : plan c t with
  | err e => exact .noCandidate hp
  | panic => exact absurd hp (plan_ne_panic c t)
  | ok p =>
    obtain ⟨v, r⟩ := p
    have hg := plan_spec hw.ordered hp
    have hsize := hg.size
    have hks := v.key.start_le
    dsimp only
    split
    · rename_i hwhole
      have hkr : r = v.key := ext_bounds hwhole.1.symm (by
          have := hwhole.2
          unfold len at this
          omega)
      subst hkr
      cases hs : v.nodeState with
      | free =>
        have hm : ⟨v.key, .free⟩ ∈ t.root := hs ▸ hg.mem
        obtain ⟨t', ht, hmk⟩ := markAsAllocated_free hw hm
        rw [bind_of_ok ht]
        exact .whole hp hs hmk
      | allocated =>
        have hm : ⟨v.key, .allocated⟩ ∈ t.root := hs ▸ hg.mem
        rw [bind_of_err (markAsAllocated_taken hw hm)]
        exact .taken hp hs
    · rename_i hpart
      have hne : v.key ≠ r := by
        rintro rfl
        exact hpart ⟨rfl, by unfold len; omega⟩
      rcases split_cases hw hg.mem hg.start_le hg.le_end with ⟨t', ht, hsp⟩ | ⟨hh, ht⟩
      · rw [ht]; exact .split hp hne hsp
      · rw [ht]; exact .lost hp hne hh

end RustVmm.VmAllocator
