import RustVmm.VmAllocator.IntervalTree

/-!
# What the node operations do to the tree

One specification lemma for each method of `InnerNode`, over trees that are balanced, with keys in increasing order
and without overlap (`WellFormed`).  Later modules never unfold the methods.

* `search_eq_some`, `searchSuperset_eq_some` — the searches find the one node there can be.
* `insert_ok`, `insert_full` — `insert` adds a node below the height limit, and fails at it.
* `delete_spec`, `markAsAllocated_spec` — the other two changes, none of which panics.
-/

set_option autoImplicit false

namespace RustVmm.VmAllocator

open Lib AvlTree InnerNode Outcome List

/-- `a` lies below `b`, without touching it. -/
def Slot.Before (a b : Slot) : Prop := a.key.end_ < b.key.start

variable {a b v e : Slot}

theorem Slot.Before.trans {c : Slot} (h : a.Before b) (h' : b.Before c) : a.Before c := by
  have := b.key.start_le
  unfold Slot.Before at *
  omega

theorem Slot.Before.disjoint (h : a.Before b) : a.key.Disjoint b.key := Or.inl h

/-- Keys in increasing order, pairwise disjoint. -/
def Ordered (t : InnerNode) : Prop := t.toList.Pairwise Slot.Before

/-- The representation invariant of a tree of nodes. -/
structure WellFormed (t : InnerNode) : Prop where
  balanced : t.Balanced
  ordered : Ordered t

theorem ordered_nil : Ordered .nil := List.Pairwise.nil

variable {l r t r' l' t' : InnerNode} {h : Nat}

theorem ordered_node : Ordered (.node v l r h) ↔
      Ordered l ∧ Ordered r ∧ (∀ a ∈ l, a.Before v) ∧ (∀ b ∈ r, v.Before b) := by
  unfold Ordered
  rw [toList_node, pairwise_append, pairwise_cons]
  constructor
  · rintro ⟨hl, ⟨hv, hr⟩, hlr⟩
    exact ⟨hl, hr, fun a ha => hlr a ha v (mem_cons_self ..), hv⟩
  · rintro ⟨hl, hr, hlv, hvr⟩
    refine ⟨hl, ⟨hvr, hr⟩, fun a ha b hb => ?_⟩
    rcases mem_cons.1 hb with rfl | hb
    · exact hlv a ha
    · exact (hlv a ha).trans (hvr b hb)

theorem WellFormed.nil : WellFormed .nil := ⟨balanced_nil, ordered_nil⟩

theorem WellFormed.new (key : RangeInclusive) (s : NodeState) : WellFormed (InnerNode.new key s) := by
  refine ⟨⟨balanced_nil, balanced_nil, rfl, by simp, by simp⟩, ?_⟩
  simp [Ordered, InnerNode.new]

theorem WellFormed.left (hw : WellFormed (.node v l r h)) :
    WellFormed l := ⟨hw.balanced.1, (ordered_node.1 hw.ordered).1⟩

theorem WellFormed.right (hw : WellFormed (.node v l r h)) : WellFormed r :=
  ⟨hw.balanced.2.1, (ordered_node.1 hw.ordered).2.1⟩

theorem Ordered.eq_or_disjoint (ho : Ordered t) (ha : a ∈ t) (hb : b ∈ t) : a = b ∨ a.key.Disjoint b.key := by
  induction t with
  | nil => exact absurd ha (not_mem_nil a)
  | node v l r h ihl ihr =>
    obtain ⟨hol, hor, hlv, hvr⟩ := ordered_node.1 ho
    rcases mem_node.1 ha with ha' | rfl | ha' <;> rcases mem_node.1 hb with hb' | rfl | hb'
    · exact ihl hol ha' hb'
    · exact .inr (hlv a ha').disjoint
    · exact .inr ((hlv a ha').trans (hvr b hb')).disjoint
    · exact .inr (hlv b hb').disjoint.symm
    · exact .inl rfl
    · exact .inr (hvr b hb').disjoint
    · exact .inr ((hlv b hb').trans (hvr a ha')).disjoint.symm
    · exact .inr (hvr a ha').disjoint.symm
    · exact ihr hor ha' hb'

theorem Ordered.disjoint_of_ne (ho : Ordered t) (ha : a ∈ t) (hb : b ∈ t) (hne : a.key ≠ b.key) :
    a.key.Disjoint b.key :=
  (ho.eq_or_disjoint ha hb).resolve_left fun h => hne (h ▸ rfl)

theorem Ordered.eq_of_mem (ho : Ordered t) (ha : a ∈ t) (hb : b ∈ t) {x : Nat} (hax : x ∈ a.key) (hbx : x ∈ b.key) :
    a = b := by
  rcases ho.eq_or_disjoint ha hb with h | h
  · exact h
  · rw [RangeInclusive.mem_def] at hax hbx
    unfold RangeInclusive.Disjoint at h
    omega

theorem Ordered.eq_of_key (ho : Ordered t) (ha : a ∈ t) (hb : b ∈ t) (hk : a.key = b.key) : a = b := by
  have hm : a.key.start ∈ a.key := ⟨Nat.le_refl _, a.key.start_le⟩
  exact ho.eq_of_mem ha hb hm (hk ▸ hm)

/-! Where the comparison at a node rules a key out. -/

variable {key : RangeInclusive}

theorem ne_of_mem_left (ho : Ordered (.node v l r h)) (hc : v.key.cmp key ≠ .gt) : ∀ e ∈ l, e.key ≠ key := by
  rintro e he rfl
  have hb : e.key.end_ < v.key.start := (ordered_node.1 ho).2.2.1 e he
  have := e.key.start_le
  exact hc (RangeInclusive.cmp_gt_iff.2 (.inl (by omega)))

theorem ne_of_mem_right (ho : Ordered (.node v l r h)) (hc : v.key.cmp key ≠ .lt) : ∀ e ∈ r, e.key ≠ key := by
  rintro e he rfl
  have hb : v.key.end_ < e.key.start := (ordered_node.1 ho).2.2.2 e he
  have := v.key.start_le
  exact hc (RangeInclusive.cmp_lt_iff.2 (.inl (by omega)))

theorem ne_of_cmp (hc : v.key.cmp key ≠ .eq) : v.key ≠ key := fun h => hc (RangeInclusive.cmp_eq_iff.2 h)

theorem mem_right_of_cmp (ho : Ordered (.node v l r h)) (hc : v.key.cmp e.key = .lt) (he : e ∈ node v l r h) :
    e ∈ r := by
  rcases mem_node.1 he with he | rfl | he
  · exact absurd rfl (ne_of_mem_left ho (by simp [hc]) e he)
  · exact absurd rfl (ne_of_cmp (v := e) (by simp [hc]))
  · exact he

theorem mem_left_of_cmp (ho : Ordered (.node v l r h)) (hc : v.key.cmp e.key = .gt) (he : e ∈ node v l r h) :
    e ∈ l := by
  rcases mem_node.1 he with he | rfl | he
  · exact he
  · exact absurd rfl (ne_of_cmp (v := e) (by simp [hc]))
  · exact absurd rfl (ne_of_mem_right ho (by simp [hc]) e he)

/-! ## Searching -/

theorem search_eq_some (ho : Ordered t) : search key t = some v ↔ v ∈ t ∧ v.key = key := by
  induction t with
  | nil => simp [search]
  | node w l r h ihl ihr =>
    obtain ⟨hol, hor, hlw, hwr⟩ := ordered_node.1 ho
    rw [search]
    split
    · rename_i hc
      have hwk := RangeInclusive.cmp_eq_iff.1 hc
      constructor
      · intro h'; cases h'; exact ⟨by simp, hwk⟩
      · rintro ⟨hm, hk⟩
        rw [ho.eq_of_key (by simp) hm (hwk.trans hk.symm)]
    · rename_i hc
      rw [ihr hor]
      constructor
      · rintro ⟨hm, hk⟩; exact ⟨by simp [hm], hk⟩
      · rintro ⟨hm, rfl⟩; exact ⟨mem_right_of_cmp ho hc hm, rfl⟩
    · rename_i hc
      rw [ihl hol]
      constructor
      · rintro ⟨hm, hk⟩; exact ⟨by simp [hm], hk⟩
      · rintro ⟨hm, rfl⟩; exact ⟨mem_left_of_cmp ho hc hm, rfl⟩

theorem search_eq_none (ho : Ordered t) : search key t = none ↔ ∀ v ∈ t, v.key ≠ key := by
  rw [Option.eq_none_iff_forall_ne_some]
  constructor
  · intro h v hv hk
    exact h v ((search_eq_some ho).2 ⟨hv, hk⟩)
  · intro h v hv
    obtain ⟨hm, hk⟩ := (search_eq_some ho).1 hv
    exact h v hm hk

theorem searchSuperset_eq_some (ho : Ordered t) :
    searchSuperset key t = some v ↔ v ∈ t ∧ v.key.contains key = true := by
  induction t with
  | nil => simp [searchSuperset]
  | node w l r h ihl ihr =>
    obtain ⟨hol, hor, hlw, hwr⟩ := ordered_node.1 ho
    rw [searchSuperset]
    have hks := key.start_le
    split
    · rename_i hc
      constructor
      · intro h'; cases h'; exact ⟨by simp, hc⟩
      · rintro ⟨hm, hk⟩
        rw [RangeInclusive.contains_iff] at hc hk
        have h1 : key.start ∈ w.key := ⟨hc.1, by omega⟩
        have h2 : key.start ∈ v.key := ⟨hk.1, by omega⟩
        rw [ho.eq_of_mem (by simp) hm h1 h2]
    · rename_i hc
      split
      · rw [ihl hol]
        constructor
        · rintro ⟨hm, hk⟩; exact ⟨by simp [hm], hk⟩
        · rintro ⟨hm, hk⟩
          rcases mem_node.1 hm with hm | rfl | hm
          · exact ⟨hm, hk⟩
          · exact absurd hk hc
          · have hb := hwr v hm
            have := w.key.start_le
            rw [RangeInclusive.contains_iff] at hk
            unfold Slot.Before at hb
            omega
      · rw [ihr hor]
        constructor
        · rintro ⟨hm, hk⟩; exact ⟨by simp [hm], hk⟩
        · rintro ⟨hm, hk⟩
          rcases mem_node.1 hm with hm | rfl | hm
          · have hb := hlw v hm
            rw [RangeInclusive.contains_iff] at hk
            unfold Slot.Before at hb
            omega
          · exact absurd hk hc
          · exact ⟨hm, hk⟩

/-! ## Inserting -/

theorem lt_of_cmp_gt (hd : v.key.Disjoint key) (hc : v.key.cmp key = .gt) : key.end_ < v.key.start := by
  have hgt := RangeInclusive.cmp_gt_iff.1 hc
  have := v.key.start_le
  unfold RangeInclusive.Disjoint at hd
  omega

theorem lt_of_cmp_lt (hd : v.key.Disjoint key) (hc : v.key.cmp key = .lt) : v.key.end_ < key.start := by
  have hlt := RangeInclusive.cmp_lt_iff.1 hc
  have := key.start_le
  unfold RangeInclusive.Disjoint at hd
  omega

variable {s : NodeState}

theorem insert_full (h : 50 ≤ t.height) : insert key s t = .err .overflow := by
  cases t with
  | nil => simp at h
  | node v l r hh =>
    simp only [height_node] at h
    rw [InnerNode.insert, if_pos (by omega)]

/-- What a successful `insert` gives. -/
structure Inserted (key : RangeInclusive) (s : NodeState) (t t' : InnerNode) : Prop where
  wf : WellFormed t'
  grown : Grown t t'
  mem : ∀ e, e ∈ t' ↔ e = ⟨key, s⟩ ∨ e ∈ t

theorem Inserted.height_le {s : NodeState} (hi : Inserted key s t t') : t'.height ≤ t.height + 1 := by
  rcases hi.grown with h | h
  · exact Nat.le_succ_of_le (Nat.le_of_eq h)
  · exact Nat.le_of_eq h

theorem WellFormed.of_toList (hb : t.Balanced) (ho : Ordered (.node v l r h))
    (hlist : t.toList = l.toList ++ v :: r.toList) : WellFormed t ∧ ∀ e, e ∈ t ↔ e ∈ l ∨ e = v ∨ e ∈ r := by
  rw [← toList_node v l r h] at hlist
  refine ⟨⟨hb, by rw [Ordered, hlist]; exact ho⟩, fun e => ?_⟩
  rw [mem_def, hlist, ← mem_def, mem_node]

theorem Inserted.rotate_right (hw : WellFormed (.node v l r h)) (hi : Inserted key s r r')
    (hlt : v.key.end_ < key.start) : ∃ t', rotate (updateCachedHeight (.node v l r' h)) = some t' ∧
      Inserted key s (.node v l r h) t' := by
  obtain ⟨hol, hor, hlv, hvr⟩ := ordered_node.1 hw.ordered
  obtain ⟨t', ht, hb, hlist, hg⟩ := rotate_grown hw.balanced hw.balanced.1 hi.wf.balanced (.inr ⟨rfl, hi.grown⟩)
  have ho : Ordered (.node v l r' h) := by
    refine ordered_node.2 ⟨hol, hi.wf.ordered, hlv, fun b hb => ?_⟩
    rcases (hi.mem b).1 hb with rfl | hb
    · exact hlt
    · exact hvr b hb
  obtain ⟨hwf, hmem⟩ := WellFormed.of_toList hb ho hlist
  refine ⟨t', ht, hwf, hg, fun e => ?_⟩
  rw [hmem, mem_node, hi.mem, or_left_comm (b := e = ⟨key, s⟩), or_left_comm]

theorem Inserted.rotate_left (hw : WellFormed (.node v l r h)) (hi : Inserted key s l l') (hlt : key.end_ < v.key.start) :
    ∃ t', rotate (updateCachedHeight (.node v l' r h)) = some t' ∧ Inserted key s (.node v l r h) t' := by
  obtain ⟨hol, hor, hlv, hvr⟩ := ordered_node.1 hw.ordered
  obtain ⟨t', ht, hb, hlist, hg⟩ := rotate_grown hw.balanced hi.wf.balanced hw.balanced.2.1 (.inl ⟨hi.grown, rfl⟩)
  have ho : Ordered (.node v l' r h) := by
    refine ordered_node.2 ⟨hi.wf.ordered, hor, fun a ha => ?_, hvr⟩
    rcases (hi.mem a).1 ha with rfl | ha
    · exact hlt
    · exact hlv a ha
  obtain ⟨hwf, hmem⟩ := WellFormed.of_toList hb ho hlist
  refine ⟨t', ht, hwf, hg, fun e => ?_⟩
  rw [hmem, mem_node, hi.mem, or_assoc]

theorem insert_spec (hw : WellFormed t) (key : RangeInclusive) (s : NodeState) :
    (∃ e, insert key s t = .err e) ∨ ∃ t', insert key s t = .ok t' ∧ Inserted key s t t' := by
  induction t with
  | nil =>
    refine .inr ⟨_, rfl, WellFormed.new key s, .inr rfl, fun e => ?_⟩
    simp [new]
  | node v l r h ihl ihr =>
    rw [InnerNode.insert]
    split
    · exact .inl ⟨_, rfl⟩
    split
    · exact .inl ⟨_, rfl⟩
    rename_i hov
    have hd : v.key.Disjoint key := RangeInclusive.not_overlaps_iff.1 (by simpa using hov)
    split
    · -- equal keys overlap, so the `unreachable!` arm is dead
      rename_i hc
      have hk := RangeInclusive.cmp_eq_iff.1 hc
      have := key.start_le
      rw [hk] at hd
      unfold RangeInclusive.Disjoint at hd
      omega
    · rename_i hc
      rcases ihr hw.right with ⟨e, he⟩ | ⟨r', hr', hi⟩
      · exact .inl ⟨e, by rw [he]; rfl⟩
      · obtain ⟨t', ht, hins⟩ := hi.rotate_right hw (lt_of_cmp_lt hd hc)
        exact .inr ⟨t', by rw [hr', ok_bind, ht]; rfl, hins⟩
    · rename_i hc
      rcases ihl hw.left with ⟨e, he⟩ | ⟨l', hl', hi⟩
      · exact .inl ⟨e, by rw [he]; rfl⟩
      · obtain ⟨t', ht, hins⟩ := hi.rotate_left hw (lt_of_cmp_gt hd hc)
        exact .inr ⟨t', by rw [hl', ok_bind, ht]; rfl, hins⟩

theorem insert_ne_err (hb : t.Balanced) (hh : t.height < 50) (hd : ∀ e ∈ t, e.key.Disjoint key) (e : Error) :
    insert key s t ≠ .err e := by
  induction t with
  | nil => simp [InnerNode.insert]
  | node v l r h ihl ihr =>
    obtain ⟨hbl, hbr, hheight, _, _⟩ := hb
    simp only [height_node] at hh
    have hov : v.key.overlaps key = false := RangeInclusive.not_overlaps_iff.2 (hd v (by simp))
    have hl := ihl hbl (by omega) (fun a ha => hd a (by simp [ha]))
    have hr := ihr hbr (by omega) (fun a ha => hd a (by simp [ha]))
    rw [InnerNode.insert, if_neg (by omega), if_neg (by simp [hov])]
    split
    · simp
    · cases hi : insert key s r with
      | ok r' => rw [ok_bind]; cases rotate (updateCachedHeight (.node v l r' h)) <;> simp [Outcome.unwrap]
      | err e' => rw [hi] at hr; simpa using hr
      | panic => simp
    · cases hi : insert key s l with
      | ok l' => rw [ok_bind]; cases rotate (updateCachedHeight (.node v l' r h)) <;> simp [Outcome.unwrap]
      | err e' => rw [hi] at hl; simpa using hl
      | panic => simp

theorem insert_ok (hw : WellFormed t) (s : NodeState) (hh : t.height < 50) (hd : ∀ e ∈ t, e.key.Disjoint key) :
    ∃ t', insert key s t = .ok t' ∧ Inserted key s t t' := by
  rcases insert_spec hw key s with ⟨e, he⟩ | h
  · exact absurd he (insert_ne_err hw.balanced hh hd e)
  · exact h

/-! ## Deleting -/

/-- What `delete` gives. -/
structure Deleted (key : RangeInclusive) (t t' : InnerNode) : Prop where
  wf : WellFormed t'
  shrunk : Shrunk t t'
  mem : ∀ e, e ∈ t' ↔ e ∈ t ∧ e.key ≠ key

theorem Deleted.height_le (hd : Deleted key t t') : t'.height ≤ t.height := by
  rcases hd.shrunk with h | h
  · exact Nat.le_of_eq h
  · exact h ▸ Nat.le_succ _

theorem Deleted.refl (hw : WellFormed t) (hk : ∀ e ∈ t, e.key ≠ key) : Deleted key t t :=
  ⟨hw, .inl rfl, fun e => ⟨fun he => ⟨he, hk e he⟩, fun he => he.1⟩⟩

theorem Deleted.rotate (hw : WellFormed (.node v l r h)) (hl : Deleted key l l') (hr : Deleted key r r')
    (hvk : v.key ≠ key) (hs : (Shrunk l l' ∧ r'.height = r.height) ∨ (l'.height = l.height ∧ Shrunk r r')) :
    ∃ t', rotate (updateCachedHeight (.node v l' r' h)) = some t' ∧ Deleted key (.node v l r h) t' := by
  obtain ⟨_, _, hlv, hvr⟩ := ordered_node.1 hw.ordered
  obtain ⟨t', ht, hb, hlist, hg⟩ := rotate_shrunk hw.balanced hl.wf.balanced hr.wf.balanced hs
  have ho : Ordered (.node v l' r' h) := ordered_node.2 ⟨hl.wf.ordered, hr.wf.ordered,
    fun a ha => hlv a ((hl.mem a).1 ha).1, fun b hb => hvr b ((hr.mem b).1 hb).1⟩
  obtain ⟨hwf, hmem⟩ := WellFormed.of_toList hb ho hlist
  refine ⟨t', ht, hwf, hg, fun e => ?_⟩
  rw [hmem, mem_node, hl.mem, hr.mem]
  constructor
  · rintro (⟨he, hk⟩ | rfl | ⟨he, hk⟩)
    · exact ⟨.inl he, hk⟩
    · exact ⟨.inr (.inl rfl), hvk⟩
    · exact ⟨.inr (.inr he), hk⟩
  · rintro ⟨he | he | he, hk⟩
    · exact .inl ⟨he, hk⟩
    · exact .inr (.inl he)
    · exact .inr (.inr ⟨he, hk⟩)

theorem deleteRoot_deleted (hw : WellFormed (.node v l r h)) :
    ∃ t', deleteRoot (.node v l r h) = some t' ∧ Deleted v.key (.node v l r h) t' := by
  obtain ⟨t', ht, hb, hlist, hs⟩ := deleteRoot_spec hw.balanced
  have hsub : t'.toList.Sublist (node v l r h).toList := by
    rw [hlist]
    exact (List.Sublist.refl _).append (sublist_cons_self v _)
  refine ⟨t', ht, ⟨hb, hw.ordered.sublist hsub⟩, hs, fun e => ?_⟩
  rw [mem_def, hlist, mem_append, mem_node]
  have hc : v.key.cmp v.key = .eq := RangeInclusive.cmp_eq_iff.2 rfl
  constructor
  · rintro (he | he)
    · exact ⟨.inl he, ne_of_mem_left hw.ordered (by simp [hc]) e he⟩
    · exact ⟨.inr (.inr he), ne_of_mem_right hw.ordered (by simp [hc]) e he⟩
  · rintro ⟨he | rfl | he, hk⟩
    · exact .inl he
    · exact absurd rfl hk
    · exact .inr he

theorem delete_spec (hw : WellFormed t) (key : RangeInclusive) : ∃ t', delete key t = some t' ∧ Deleted key t t' := by
  induction t with
  | nil => exact ⟨.nil, rfl, .refl .nil (fun e he => absurd he (not_mem_nil e))⟩
  | node v l r h ihl ihr =>
    rw [delete.eq_def]
    dsimp only
    split
    · rename_i hc
      rw [← RangeInclusive.cmp_eq_iff.1 hc]
      exact deleteRoot_deleted hw
    · rename_i hc
      have hvk : v.key ≠ key := ne_of_cmp (by simp [hc])
      have hl : Deleted key l l := .refl hw.left (ne_of_mem_left hw.ordered (by simp [hc]))
      obtain ⟨r', hr', hi⟩ := ihr hw.right
      obtain ⟨t', ht, hdel⟩ := hl.rotate hw hi hvk (.inr ⟨rfl, hi.shrunk⟩)
      split
      · -- no right subtree: the key is absent and the node is returned as it was
        refine ⟨_, rfl, .refl hw fun e he => ?_⟩
        rcases mem_node.1 he with he | rfl | he
        · exact ((hl.mem e).1 he).2
        · exact hvk
        · exact absurd he (not_mem_nil e)
      · exact ⟨t', by rw [hr']; exact ht, hdel⟩
    · rename_i hc
      have hvk : v.key ≠ key := ne_of_cmp (by simp [hc])
      have hr : Deleted key r r := .refl hw.right (ne_of_mem_right hw.ordered (by simp [hc]))
      obtain ⟨l', hl', hi⟩ := ihl hw.left
      obtain ⟨t', ht, hdel⟩ := hi.rotate hw hr hvk (.inl ⟨hi.shrunk, rfl⟩)
      split
      · refine ⟨_, rfl, .refl hw fun e he => ?_⟩
        rcases mem_node.1 he with he | rfl | he
        · exact absurd he (not_mem_nil e)
        · exact hvk
        · exact ((hr.mem e).1 he).2
      · exact ⟨t', by rw [hl']; exact ht, hdel⟩

/-! ## Changing a state -/

/-- What a successful `mark_as_allocated` gives. -/
structure Marked (key : RangeInclusive) (t t' : InnerNode) : Prop where
  wf : WellFormed t'
  height : t'.height = t.height
  mem : ∀ e, e ∈ t' ↔ e = ⟨key, .allocated⟩ ∨ (e ∈ t ∧ e.key ≠ key)

/-- The slot once its key is allocated. -/
def Slot.mark (key : RangeInclusive) (e : Slot) : Slot := if e.key = key then ⟨key, .allocated⟩ else e

theorem Slot.key_mark (e : Slot) : (e.mark key).key = e.key := by
  unfold Slot.mark
  split
  · rename_i hk
    exact hk.symm
  · rfl

theorem map_mark (hk : ∀ e ∈ t, e.key ≠ key) : t.toList.map (Slot.mark key) = t.toList :=
  (map_congr_left fun e he => if_neg (hk e he)).trans (map_id _)

theorem markAsAllocated_toList (hw : WellFormed t) (hm : ⟨key, .free⟩ ∈ t) : ∃ t', markAsAllocated key t = .ok t' ∧
      t'.Balanced ∧ t'.height = t.height ∧ t'.toList = t.toList.map (Slot.mark key) := by
  induction t with
  | nil => exact absurd hm (not_mem_nil _)
  | node v l r h ihl ihr =>
    obtain ⟨hbl, hbr, hbal⟩ := hw.balanced
    rw [markAsAllocated, toList_node, map_append, map_cons]
    split
    · rename_i hc
      have hv : v = ⟨key, .free⟩ := hw.ordered.eq_of_key (by simp) hm (RangeInclusive.cmp_eq_iff.1 hc)
      subst hv
      refine ⟨_, if_neg (by simp), hw.balanced, rfl, ?_⟩
      rw [map_mark (ne_of_mem_left hw.ordered (by simp [hc])), map_mark (ne_of_mem_right hw.ordered (by simp [hc])),
        Slot.mark, if_pos rfl, toList_node]
    · rename_i hc
      obtain ⟨r', hr', hb, hh, hlist⟩ := ihr hw.right (mem_right_of_cmp hw.ordered hc hm)
      refine ⟨.node v l r' h, by rw [hr']; rfl, ⟨hbl, hb, by rw [hh]; exact hbal⟩, rfl, ?_⟩
      rw [map_mark (ne_of_mem_left hw.ordered (by simp [hc])), Slot.mark, if_neg (ne_of_cmp (by simp [hc])), ← hlist,
        toList_node]
    · rename_i hc
      obtain ⟨l', hl', hb, hh, hlist⟩ := ihl hw.left (mem_left_of_cmp hw.ordered hc hm)
      refine ⟨.node v l' r h, by rw [hl']; rfl, ⟨hb, hbr, by rw [hh]; exact hbal⟩, rfl, ?_⟩
      rw [map_mark (ne_of_mem_right hw.ordered (by simp [hc])), Slot.mark, if_neg (ne_of_cmp (by simp [hc])), ← hlist,
        toList_node]

theorem markAsAllocated_spec (hw : WellFormed t) (hm : ⟨key, .free⟩ ∈ t) :
    ∃ t', markAsAllocated key t = .ok t' ∧ Marked key t t' := by
  obtain ⟨t', ht, hb, hh, hlist⟩ := markAsAllocated_toList hw hm
  refine ⟨t', ht, ⟨hb, ?_⟩, hh, fun e => ?_⟩
  · -- the keys stay, and the order is one of keys
    rw [Ordered, hlist, pairwise_map]
    refine hw.ordered.imp fun hab => ?_
    rwa [Slot.Before, Slot.key_mark, Slot.key_mark]
  · rw [mem_def, hlist, mem_map]
    constructor
    · rintro ⟨a, ha, rfl⟩
      by_cases hk : a.key = key
      · exact .inl (if_pos hk)
      · rw [Slot.mark, if_neg hk]
        exact .inr ⟨ha, hk⟩
    · rintro (rfl | ⟨he, hk⟩)
      · exact ⟨_, hm, if_pos rfl⟩
      · exact ⟨e, he, if_neg hk⟩

theorem markAsAllocated_allocated (ho : Ordered t) (hm : ⟨key, .allocated⟩ ∈ t) :
    markAsAllocated key t = .err (.invalidStateTransition key .allocated) := by
  induction t with
  | nil => exact absurd hm (not_mem_nil _)
  | node v l r h ihl ihr =>
    obtain ⟨hol, hor, _, _⟩ := ordered_node.1 ho
    rw [markAsAllocated]
    split
    · rename_i hc
      have hv : v = ⟨key, .allocated⟩ := ho.eq_of_key (by simp) hm (RangeInclusive.cmp_eq_iff.1 hc)
      subst hv
      rw [if_pos (by simp)]
    · rename_i hc
      rw [ihr hor (mem_right_of_cmp ho hc hm), err_bind]
    · rename_i hc
      rw [ihl hol (mem_left_of_cmp ho hc hm), err_bind]

end RustVmm.VmAllocator
