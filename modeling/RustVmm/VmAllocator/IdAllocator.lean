import RustVmm.Lib.OrdMap
import RustVmm.Lib.Run
import RustVmm.VmAllocator.Basic

/-!
# The id allocator

Model of `vm-allocator/src/id_allocator.rs`.  Below a mark every id has been handed out once (`next_id`, `None` past the
end of `u32`); the ids below it that were given back are a set, kept as an ordered map to `()`.

* `IdAllocator.Tracks` — what ties an allocator to the ids in use.
* `Tracks.allocateId_cases`, `Tracks.freeId_cases` — what each call does.
* `run_tracks_live_ids` — the least free id is handed out, along every history.
-/

set_option autoImplicit false

namespace RustVmm.VmAllocator

open Lib OrdMap

structure IdAllocator where
  rangeBase : UInt32
  nextId : Option UInt32
  rangeEnd : UInt32
  freedIds : OrdMap UInt32 Unit UInt32.toNat

namespace IdAllocator

/-- `u32::checked_add(1)`. -/
def checkedSucc (id : UInt32) : Option UInt32 := if id = 0xffffffff then none else some (id + 1)

def new (rangeBase rangeEnd : UInt32) : Outcome Error IdAllocator :=
  if rangeEnd < rangeBase then .err (.invalidRange rangeBase.toNat rangeEnd.toNat)
  else .ok ⟨rangeBase, some rangeBase, rangeEnd, .empty⟩

def idInRange (a : IdAllocator) (id : UInt32) : Bool := a.rangeBase ≤ id && id ≤ a.rangeEnd

/-- `allocate_id`: the least released id if there is one, the id at the mark otherwise. -/
def allocateId : Exec IdAllocator Error UInt32 := fun a =>
  match a.freedIds.firstKey with
  | some id => (.ok id, { a with freedIds := (a.freedIds.remove id).2 })
  | none =>
    match a.nextId with
    | some next =>
      if next > a.rangeEnd then (.err .resourceNotAvailable, a)
      else (.ok next, { a with nextId := checkedSucc next })
    | none => (.err .overflow, a)

def isAllocated (a : IdAllocator) (id : UInt32) : Bool :=
  if !a.idInRange id || a.freedIds.containsKey id then false
  else
    match a.nextId with
    | some next => id < next
    | none => true

/-- `free_id`; `BTreeSet::insert` says whether the id was not there yet. -/
def freeId (id : UInt32) : Exec IdAllocator Error UInt32 := fun a =>
  if !a.idInRange id then (.err (.outOfRange id), a)
  else if a.nextId.any (· ≤ id) then (.err (.neverAllocated id), a)
  else if a.freedIds.containsKey id then (.err (.alreadyReleased id), a)
  else (.ok id, { a with freedIds := a.freedIds.insert id () })

/-- Ids below the mark have been handed out at least once. -/
def mark (a : IdAllocator) : Nat :=
  match a.nextId with
  | some next => next.toNat
  | none => 2 ^ 32

variable {a : IdAllocator} {id : UInt32}

theorem idInRange_iff : a.idInRange id = true ↔ a.rangeBase.toNat ≤ id.toNat ∧ id.toNat ≤ a.rangeEnd.toNat := by
  unfold idInRange
  rw [Bool.and_eq_true, decide_eq_true_eq, decide_eq_true_eq, UInt32.le_iff_toNat_le, UInt32.le_iff_toNat_le]

theorem isAllocated_iff : a.isAllocated id = true ↔
      a.idInRange id = true ∧ a.freedIds.containsKey id = false ∧ id.toNat < a.mark := by
  have hlt := id.toNat_lt
  unfold isAllocated mark
  cases a.idInRange id <;> cases a.freedIds.containsKey id <;> cases a.nextId <;>
    simp [UInt32.lt_iff_toNat_lt, hlt]

theorem any_le_iff : a.nextId.any (· ≤ id) = true ↔ a.mark ≤ id.toNat := by
  have hlt := id.toNat_lt
  unfold mark
  cases a.nextId with
  | none =>
    exact iff_of_false Bool.false_ne_true (Nat.not_le.2 hlt)
  | some next => simp [UInt32.le_iff_toNat_le]

theorem mark_checkedSucc (a : IdAllocator) (id : UInt32) :
    ({ a with nextId := checkedSucc id } : IdAllocator).mark = id.toNat + 1 := by
  have hlt := id.toNat_lt
  unfold mark checkedSucc
  by_cases h : id = 0xffffffff
  · rw [h]
    rfl
  · rw [if_neg h]
    have hne : id.toNat ≠ 0xffffffff := fun h' => h (UInt32.toNat_inj.1 h')
    show (id + 1).toNat = id.toNat + 1
    exact Nat.mod_eq_of_lt (by show id.toNat + 1 < 2 ^ 32; omega)

end IdAllocator

/-! ## The representation -/

/-- What ties an allocator of `[base, end]` to the ids in use. -/
structure IdAllocator.Tracks (base end_ : UInt32) (a : IdAllocator) (live : List UInt32) : Prop where
  base_eq : a.rangeBase = base
  end_eq : a.rangeEnd = end_
  mark_ge : base.toNat ≤ a.mark
  mark_le : a.mark ≤ end_.toNat + 1
  freed : ∀ id, a.freedIds.containsKey id = true → base.toNat ≤ id.toNat ∧ id.toNat < a.mark
  mem_live : ∀ id, id ∈ live ↔ base.toNat ≤ id.toNat ∧ id.toNat < a.mark ∧ a.freedIds.containsKey id = false

/-- The least id of `[base, end]` that is not in use. -/
def LeastFree (base end_ : UInt32) (live : List UInt32) (id : UInt32) : Prop :=
  (base ≤ id ∧ id ≤ end_ ∧ id ∉ live) ∧ ∀ other, base ≤ other → other ≤ end_ → other ∉ live → id ≤ other

theorem LeastFree.unique {base end_ id other : UInt32} {live : List UInt32} (h : LeastFree base end_ live id)
    (h' : LeastFree base end_ live other) : id = other := by
  obtain ⟨⟨hge, hle, hfree⟩, hleast⟩ := h
  obtain ⟨⟨hge', hle', hfree'⟩, hleast'⟩ := h'
  exact UInt32.le_antisymm (hleast other hge' hle' hfree') (hleast' id hge hle hfree)

namespace IdAllocator.Tracks

variable {base end_ : UInt32} {a : IdAllocator} {live : List UInt32}

variable {id next : UInt32}

theorem idInRange_iff (h : Tracks base end_ a live) :
    a.idInRange id = true ↔ base.toNat ≤ id.toNat ∧ id.toNat ≤ end_.toNat := by
  rw [IdAllocator.idInRange_iff, h.base_eq, h.end_eq]

theorem isAllocated_iff (h : Tracks base end_ a live) : a.isAllocated id = true ↔ id ∈ live := by
  have hmark := h.mark_le
  rw [IdAllocator.isAllocated_iff, h.idInRange_iff, h.mem_live]
  constructor
  · rintro ⟨⟨hge, _⟩, hkept, hlt⟩
    exact ⟨hge, hlt, hkept⟩
  · rintro ⟨hge, hlt, hkept⟩
    exact ⟨⟨hge, by omega⟩, hkept, hlt⟩

theorem not_mem_live (h : Tracks base end_ a live) (hid : a.freedIds.containsKey id = true) : id ∉ live := by
  intro hmem
  rw [((h.mem_live id).1 hmem).2.2] at hid
  cases hid

theorem released_or_above (h : Tracks base end_ a live) (hge : base ≤ id) (hid : id ∉ live) :
    a.freedIds.containsKey id = true ∨ a.mark ≤ id.toNat := by
  rcases Nat.lt_or_ge id.toNat a.mark with hlt | hle
  · refine .inl ?_
    by_contra hkept
    exact hid ((h.mem_live id).2 ⟨hge, hlt, Bool.eq_false_iff.2 hkept⟩)
  · exact .inr hle

/-! ### The three changes of an allocator -/

theorem reuse (h : Tracks base end_ a live) (hid : a.freedIds.containsKey id = true) :
    Tracks base end_ { a with freedIds := (a.freedIds.remove id).2 } (id :: live) := by
  obtain ⟨hge, hlt⟩ := h.freed id hid
  refine { h with
    freed := fun other hother => h.freed other (containsKey_remove.1 hother).1
    mem_live := fun other => ?_ }
  rw [List.mem_cons, h.mem_live, ← Bool.not_eq_true, ← Bool.not_eq_true, containsKey_remove, not_and,
    not_ne_iff, UInt32.toNat_inj]
  constructor
  · rintro (rfl | ⟨hge', hlt', hkept⟩)
    · exact ⟨hge, hlt, fun _ => rfl⟩
    · exact ⟨hge', hlt', fun hreleased => absurd hreleased hkept⟩
  · rintro ⟨hge', hlt', himp⟩
    by_cases hreleased : a.freedIds.containsKey other = true
    · exact .inl (himp hreleased)
    · exact .inr ⟨hge', hlt', hreleased⟩

theorem extend (h : Tracks base end_ a live) (hnext : a.nextId = some next) (hle : next ≤ end_) :
    Tracks base end_ { a with nextId := checkedSucc next } (next :: live) := by
  have hmark : a.mark = next.toNat := by
    unfold mark
    rw [hnext]
  have hmark' := mark_checkedSucc a next
  have hge := h.mark_ge
  refine ⟨h.base_eq, h.end_eq, by omega, ?_, fun id hid => ?_, fun id => ?_⟩
  · rw [hmark']
    exact Nat.succ_le_succ hle
  · obtain ⟨hge', hlt'⟩ := h.freed id hid
    exact ⟨hge', by omega⟩
  · rw [List.mem_cons, h.mem_live, hmark, ← UInt32.toNat_inj]
    constructor
    · rintro (heq | ⟨hge', hlt', hkept⟩)
      · refine ⟨by omega, by omega, ?_⟩
        by_contra hreleased
        have hbelow := (h.freed id (by simpa using hreleased)).2
        omega
      · exact ⟨hge', by omega, hkept⟩
    · rintro ⟨hge', hlt', hkept⟩
      rcases Nat.lt_or_ge id.toNat next.toNat with hlt | hge''
      · exact .inr ⟨hge', hlt, hkept⟩
      · exact .inl (by omega)

theorem release (h : Tracks base end_ a live) (hid : id ∈ live) :
    Tracks base end_ { a with freedIds := a.freedIds.insert id () } (live.filter fun other => decide (other ≠ id)) := by
  obtain ⟨hge, hlt, hkept⟩ := (h.mem_live id).1 hid
  refine ⟨h.base_eq, h.end_eq, h.mark_ge, h.mark_le, fun other hother => ?_, fun other => ?_⟩
  · rcases (containsKey_insert_of_fresh hkept).1 hother with heq | hold
    · obtain rfl := UInt32.toNat_inj.1 heq
      exact ⟨hge, hlt⟩
    · exact h.freed other hold
  · rw [List.mem_filter, decide_eq_true_eq, h.mem_live, ← Bool.not_eq_true, ← Bool.not_eq_true,
      containsKey_insert_of_fresh hkept, UInt32.toNat_inj]
    tauto

/-! ### What each call does

If nothing is released, then the ids that are not in use start at the mark. -/

theorem mark_le_of_not_mem (h : Tracks base end_ a live) (hnone : a.freedIds.firstKey = none) (hge : base ≤ id)
    (hid : id ∉ live) : a.mark ≤ id.toNat := by
  rcases h.released_or_above hge hid with hreleased | habove
  · rw [firstKey_eq_none.1 hnone id] at hreleased
    cases hreleased
  · exact habove

theorem full_of_lt_mark (h : Tracks base end_ a live) (hnone : a.freedIds.firstKey = none)
    (hmark : end_.toNat < a.mark) : ∀ id, base ≤ id → id ≤ end_ → id ∈ live := by
  intro id hge hle
  by_contra hid
  have habove := h.mark_le_of_not_mem hnone hge hid
  rw [UInt32.le_iff_toNat_le] at hle
  omega

theorem leastFree_released (h : Tracks base end_ a live) (hfirst : a.freedIds.firstKey = some id) :
    LeastFree base end_ live id := by
  obtain ⟨hid, hleast⟩ := firstKey_eq_some hfirst
  obtain ⟨hge, hlt⟩ := h.freed id hid
  have hmark := h.mark_le
  refine ⟨⟨hge, ?_, h.not_mem_live hid⟩, fun other hge' _ hother => ?_⟩
  · rw [UInt32.le_iff_toNat_le]
    omega
  · rw [UInt32.le_iff_toNat_le]
    rcases h.released_or_above hge' hother with hreleased | habove
    · exact hleast other hreleased
    · omega

theorem leastFree_next (h : Tracks base end_ a live) (hnone : a.freedIds.firstKey = none) (hnext : a.mark = next.toNat)
    (hle : next ≤ end_) : LeastFree base end_ live next := by
  have hge : base.toNat ≤ next.toNat := hnext ▸ h.mark_ge
  refine ⟨⟨hge, hle, fun hmem => ?_⟩, fun other hge' _ hother => ?_⟩
  · have hlt := ((h.mem_live next).1 hmem).2.1
    omega
  · have habove := h.mark_le_of_not_mem hnone hge' hother
    rw [hnext] at habove
    exact habove

theorem allocateId_cases (h : Tracks base end_ a live) :
    (∃ id a', allocateId a = (.ok id, a') ∧ LeastFree base end_ live id ∧ Tracks base end_ a' (id :: live)) ∨
      ∃ e, allocateId a = (.err e, a) ∧ ∀ id, base ≤ id → id ≤ end_ → id ∈ live := by
  unfold allocateId
  split
  · rename_i id hfirst
    exact .inl ⟨id, _, rfl, h.leastFree_released hfirst, h.reuse (firstKey_eq_some hfirst).1⟩
  · rename_i hnone
    split
    · rename_i next hnext
      have hmark : a.mark = next.toNat := by
        unfold mark
        rw [hnext]
      split
      · rename_i hgt
        rw [h.end_eq] at hgt
        exact .inr ⟨_, rfl, h.full_of_lt_mark hnone (hmark ▸ hgt)⟩
      · rename_i hgt
        rw [h.end_eq] at hgt
        have hle : next ≤ end_ := UInt32.not_lt.1 hgt
        exact .inl ⟨next, _, rfl, h.leastFree_next hnone hmark hle, h.extend hnext hle⟩
    · rename_i hnext
      have hmark : a.mark = 2 ^ 32 := by
        unfold mark
        rw [hnext]
      exact .inr ⟨_, rfl, h.full_of_lt_mark hnone (hmark ▸ end_.toNat_lt)⟩

theorem freeId_cases (h : Tracks base end_ a live) (id : UInt32) : (id ∈ live ∧ ∃ a', freeId id a = (.ok id, a') ∧
        Tracks base end_ a' (live.filter fun other => decide (other ≠ id))) ∨
      id ∉ live ∧ ∃ e, freeId id a = (.err e, a) := by
  unfold freeId
  have hin := h.mem_live id
  split
  · rename_i hrange
    refine .inr ⟨fun hmem => ?_, _, rfl⟩
    rw [(IdAllocator.isAllocated_iff.1 (h.isAllocated_iff.2 hmem)).1] at hrange
    cases hrange
  split
  · rename_i hnever
    have hle := any_le_iff.1 hnever
    exact .inr ⟨fun hmem => Nat.not_lt.2 hle (hin.1 hmem).2.1, _, rfl⟩
  split
  · rename_i hreleased
    exact .inr ⟨h.not_mem_live hreleased, _, rfl⟩
  · rename_i hrange hnever hkept
    have hge := (h.idInRange_iff.1 (by simpa using hrange)).1
    have hlt := Nat.lt_of_not_le fun hle => hnever (any_le_iff.2 hle)
    have hmem := hin.2 ⟨hge, hlt, by simpa using hkept⟩
    exact .inl ⟨hmem, _, rfl, h.release hmem⟩

theorem allocateId_eq_ok (h : Tracks base end_ a live) : (allocateId a).1 = .ok id ↔ LeastFree base end_ live id := by
  rcases h.allocateId_cases with ⟨id', a', hrun, hleast, _⟩ | ⟨e, hrun, hfull⟩
  · rw [hrun]
    constructor
    · rintro ⟨⟩
      exact hleast
    · intro hid
      rw [hleast.unique hid]
  · rw [hrun]
    refine ⟨nofun, fun hid => ?_⟩
    obtain ⟨⟨hge, hle, hout⟩, _⟩ := hid
    exact absurd (hfull id hge hle) hout

theorem allocateId_fails (h : Tracks base end_ a live) :
    (∃ e, (allocateId a).1 = .err e) ↔ ∀ id, base ≤ id → id ≤ end_ → id ∈ live := by
  rcases h.allocateId_cases with ⟨id, a', hrun, ⟨⟨hge, hle, hout⟩, _⟩, _⟩ | ⟨e, hrun, hfull⟩
  · rw [hrun]
    exact ⟨nofun, fun hall => absurd (hall id hge hle) hout⟩
  · rw [hrun]
    exact iff_of_true ⟨e, rfl⟩ hfull

theorem freeId_eq_ok (h : Tracks base end_ a live) (id : UInt32) : (freeId id a).1 = .ok id ↔ id ∈ live := by
  rcases h.freeId_cases id with ⟨hmem, a', hrun, _⟩ | ⟨hout, e, hrun⟩
  · rw [hrun]
    exact iff_of_true rfl hmem
  · rw [hrun]
    exact iff_of_false nofun hout

theorem freeId_fails (h : Tracks base end_ a live) (id : UInt32) : (∃ e, (freeId id a).1 = .err e) ↔ id ∉ live := by
  rcases h.freeId_cases id with ⟨hmem, a', hrun, _⟩ | ⟨hout, e, hrun⟩
  · rw [hrun]
    exact ⟨nofun, fun hout => absurd hmem hout⟩
  · rw [hrun]
    exact iff_of_true ⟨e, rfl⟩ hout

end IdAllocator.Tracks

/-! ## Histories -/

inductive IdCall where
  | allocateId
  | freeId (id : UInt32)
  deriving DecidableEq, Repr

def IdAllocator.exec : IdCall → Exec IdAllocator Error UInt32
  | .allocateId => IdAllocator.allocateId
  | .freeId id => IdAllocator.freeId id

/-- An allocator and the ids in use: those it returned that were not successfully given back since. -/
structure Ids where
  allocator : IdAllocator
  live : List UInt32

namespace Ids

/-- The ids in use after a call with the given answer. -/
def update (live : List UInt32) : IdCall → Outcome Error UInt32 → List UInt32
  | .allocateId, .ok id => id :: live
  | .freeId id, .ok _ => live.filter fun other => decide (other ≠ id)
  | _, _ => live

def step (s : Ids) (call : IdCall) : Ids :=
  ⟨(IdAllocator.exec call s.allocator).2, update s.live call (IdAllocator.exec call s.allocator).1⟩

variable {base end_ : UInt32}

theorem step_tracks (s : Ids) (call : IdCall) (h : s.allocator.Tracks base end_ s.live) :
    (s.step call).allocator.Tracks base end_ (s.step call).live := by
  unfold step
  cases call with
  | allocateId =>
    rcases h.allocateId_cases with ⟨id, a', hrun, _, htracks⟩ | ⟨e, hrun, _⟩
    · simpa only [IdAllocator.exec, hrun, update] using htracks
    · simpa only [IdAllocator.exec, hrun, update] using h
  | freeId id =>
    rcases h.freeId_cases id with ⟨_, a', hrun, htracks⟩ | ⟨_, e, hrun⟩
    · simpa only [IdAllocator.exec, hrun, update] using htracks
    · simpa only [IdAllocator.exec, hrun, update] using h

theorem step_of_err {s : Ids} {call : IdCall} {e : Error} (h : s.allocator.Tracks base end_ s.live)
    (he : (IdAllocator.exec call s.allocator).1 = .err e) : s.step call = s := by
  have hsame : (IdAllocator.exec call s.allocator).2 = s.allocator := by
    cases call with
    | allocateId =>
      rcases h.allocateId_cases with ⟨id, a', hrun, _⟩ | ⟨e, hrun, _⟩
      · rw [IdAllocator.exec, hrun] at he
        cases he
      · rw [IdAllocator.exec, hrun]
    | freeId id =>
      rcases h.freeId_cases id with ⟨_, a', hrun, _⟩ | ⟨_, e, hrun⟩
      · rw [IdAllocator.exec, hrun] at he
        cases he
      · rw [IdAllocator.exec, hrun]
  unfold step
  rw [hsame, he]
  cases call <;> rfl

theorem new_tracks {a : IdAllocator} (h : IdAllocator.new base end_ = .ok a) : a.Tracks base end_ [] := by
  unfold IdAllocator.new at h
  split at h
  · cases h
  · rename_i hlt
    cases h
    have hle : base.toNat ≤ end_.toNat := UInt32.not_lt.1 hlt
    refine ⟨rfl, rfl, Nat.le_refl _, Nat.le_succ_of_le hle, fun _ => nofun, fun id => ⟨nofun, ?_⟩⟩
    rintro ⟨hge, hbelow, _⟩
    exact absurd hge (Nat.not_le.2 hbelow)

theorem run_tracks {a : IdAllocator} (h : IdAllocator.new base end_ = .ok a) (calls : List IdCall) :
    (run step ⟨a, []⟩ calls).allocator.Tracks base end_ (run step ⟨a, []⟩ calls).live :=
  run_stays step_tracks (new_tracks h) calls

/-- **The id allocator tracks the ids in use**: after every history, `is_allocated` holds of the ids in use,
`allocate_id` returns the least id of the range that is not in use and fails when there is none, `free_id`
succeeds on the ids in use, no call panics, and a call that fails changes nothing. -/
theorem run_tracks_live_ids {base end_ : UInt32} {a : IdAllocator} (h : IdAllocator.new base end_ = .ok a)
    (calls : List IdCall) :
    let s := run step ⟨a, []⟩ calls
    (∀ id, s.allocator.isAllocated id = true ↔ id ∈ s.live) ∧
      (∀ id, (IdAllocator.allocateId s.allocator).1 = .ok id ↔ LeastFree base end_ s.live id) ∧
      ((∃ e, (IdAllocator.allocateId s.allocator).1 = .err e) ↔ ∀ id, base ≤ id → id ≤ end_ → id ∈ s.live) ∧
      (∀ id, (IdAllocator.freeId id s.allocator).1 = .ok id ↔ id ∈ s.live) ∧
      (∀ id, (∃ e, (IdAllocator.freeId id s.allocator).1 = .err e) ↔ id ∉ s.live) ∧
      ∀ call e, (IdAllocator.exec call s.allocator).1 = .err e → s.step call = s := by
  have htracks := run_tracks h calls
  exact ⟨fun _ => htracks.isAllocated_iff, fun _ => htracks.allocateId_eq_ok, htracks.allocateId_fails,
    htracks.freeId_eq_ok, htracks.freeId_fails, fun _ _ => step_of_err htracks⟩

theorem run_tracks_live_ids_at_max :
    let s := run step ⟨⟨0xfffffffe, some 0xfffffffe, 0xffffffff, .empty⟩, []⟩
      [.allocateId, .allocateId, .freeId 0xfffffffe]
    s.live = [0xffffffff] ∧ s.allocator.nextId = none ∧ (IdAllocator.allocateId s.allocator).1 = .ok 0xfffffffe := by
  refine ⟨by decide, by decide, ?_⟩
  have hlaw := @run_tracks_live_ids 0xfffffffe 0xffffffff _ rfl [.allocateId, .allocateId, .freeId 0xfffffffe]
  exact (hlaw.2.1 0xfffffffe).2 ⟨by decide, fun other hge _ _ => hge⟩

end Ids

end RustVmm.VmAllocator
