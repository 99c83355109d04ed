import Mathlib.Data.List.Basic
import RustVmm.Lib.Outcome

/-!
# Maps from ranges of numbers to values

The crate `rangemap` is not part of the repository, so what the code uses of it is a class of laws.

* `RangeMapLike` has the operations of the crate's `RangeMap`, over the maximal runs of a partial function, and
  what they do to the runs.
* `RangeMapLike.get_insert` and `get_remove` derive from the laws that only the range changes.
* `RangeMapLike.mem_gaps` derives that the gaps are exactly the maximal ranges without values.
* `RangeMap` is a list of runs, which shows that the laws can be satisfied.

The B-tree of the crate and the order of its steps are not modelled.
-/

set_option autoImplicit false

namespace RustVmm.Lib

open List

/-- The numbers from `start` to below `stop` have one value. -/
structure Run (V : Type) where
  start : Nat
  stop : Nat
  value : V
  lt : start < stop

variable {V : Type}

namespace Run

def Has (r : Run V) (a : Nat) : Prop := r.start ≤ a ∧ a < r.stop

instance (r : Run V) (a : Nat) : Decidable (r.Has a) := inferInstanceAs (Decidable (_ ∧ _))

/-- The second run begins after the first one, and does not continue it. -/
def Apart (r s : Run V) : Prop := r.stop < s.start ∨ r.stop = s.start ∧ r.value ≠ s.value

theorem Apart.le {r s : Run V} (h : r.Apart s) : r.stop ≤ s.start := by
  unfold Apart at h
  omega

/-- What a range leaves of a run. -/
def cut (lo hi : Nat) (r : Run V) : List (Run V) :=
  (if h : r.start < min r.stop lo then [⟨r.start, min r.stop lo, r.value, h⟩] else []) ++
    (if h : max r.start hi < r.stop then [⟨max r.start hi, r.stop, r.value, h⟩] else [])

/-- A piece of a run, on one side of the range. -/
structure PieceOf (lo hi : Nat) (r x : Run V) : Prop where
  start_le : r.start ≤ x.start
  stop_le : x.stop ≤ r.stop
  value_eq : x.value = r.value
  side : x.stop ≤ lo ∨ hi ≤ x.start

theorem pieceOf_of_mem_cut {lo hi : Nat} {r x : Run V} (h : x ∈ r.cut lo hi) : PieceOf lo hi r x := by
  rcases mem_append.1 h with h | h
  · split at h
    · rw [mem_singleton.1 h]
      exact ⟨Nat.le_refl _, Nat.min_le_left _ _, rfl, .inl (Nat.min_le_right _ _)⟩
    · cases h
  · split at h
    · rw [mem_singleton.1 h]
      exact ⟨Nat.le_max_left _ _, Nat.le_refl _, rfl, .inr (Nat.le_max_right _ _)⟩
    · cases h

theorem exists_mem_cut {lo hi a : Nat} {r : Run V} (ha : r.Has a) (hout : a < lo ∨ hi ≤ a) :
    ∃ x ∈ r.cut lo hi, x.Has a := by
  unfold Has at *
  rcases hout with hlt | hge
  · refine ⟨⟨r.start, min r.stop lo, r.value, by omega⟩, ?_, by dsimp only; omega⟩
    apply mem_append_left
    rw [dif_pos (by omega)]
    exact mem_cons_self
  · refine ⟨⟨max r.start hi, r.stop, r.value, by omega⟩, ?_, by dsimp only; omega⟩
    apply mem_append_right
    rw [dif_pos (by omega)]
    exact mem_cons_self

theorem pairwise_cut {lo hi : Nat} (hlt : lo < hi) (r : Run V) : (r.cut lo hi).Pairwise Apart := by
  unfold cut
  split <;> split
  · refine pairwise_pair.2 (.inl ?_)
    show min r.stop lo < max r.start hi
    omega
  · exact pairwise_singleton _ _
  · exact pairwise_singleton _ _
  · exact .nil

/-- A run in front of others; it is merged with the first one if that continues it. -/
def merge [DecidableEq V] (r : Run V) : List (Run V) → List (Run V)
  | [] => [r]
  | s :: runs =>
    if r.stop = s.start ∧ r.value = s.value then
      ⟨r.start, max r.stop s.stop, r.value, Nat.lt_of_lt_of_le r.lt (Nat.le_max_left _ _)⟩ :: runs
    else r :: s :: runs

end Run

/-- The runs give the number the value. -/
def MapsTo (runs : List (Run V)) (a : Nat) (v : V) : Prop := ∃ r ∈ runs, r.Has a ∧ r.value = v

theorem mapsTo_append {first second : List (Run V)} {a : Nat} {v : V} :
    MapsTo (first ++ second) a v ↔ MapsTo first a v ∨ MapsTo second a v := by
  simp only [MapsTo, mem_append, or_and_right, exists_or]

theorem mapsTo_cons {r : Run V} {runs : List (Run V)} {a : Nat} {v : V} :
    MapsTo (r :: runs) a v ↔ r.Has a ∧ r.value = v ∨ MapsTo runs a v := by
  simp [MapsTo]

/-- A range in `[lo, hi)` that is not empty, and ends there or at numbers with a value. -/
structure EndsAtRuns (hi lo : Nat) (runs : List (Run V)) (g : Nat × Nat) : Prop where
  le : lo ≤ g.1
  lt : g.1 < g.2
  le_hi : g.2 ≤ hi
  left : g.1 = lo ∨ ∃ r ∈ runs, r.Has (g.1 - 1)
  right : g.2 = hi ∨ ∃ r ∈ runs, r.Has g.2

/-- The type `RangeMap<u64, V>` of the crate `rangemap`, by what its operations do to the runs. -/
class RangeMapLike (M : Type → Type) where
  /-- What `iter` yields. -/
  runs {V : Type} : M V → List (Run V)
  apart {V : Type} (m : M V) : (runs m).Pairwise Run.Apart
  /-- The empty map; also the map after `clear`. -/
  empty {V : Type} : M V
  runs_empty {V : Type} : runs (empty : M V) = []
  /-- `get_key_value`: the run of a number. -/
  getKeyValue {V : Type} : M V → Nat → Option (Run V)
  getKeyValue_eq_some {V : Type} {m : M V} {a : Nat} {r : Run V} : getKeyValue m a = some r ↔ r ∈ runs m ∧ r.Has a
  /-- `insert`, which panics on an empty range. -/
  insert {V ε : Type} [DecidableEq V] : M V → Nat → Nat → V → Outcome ε (M V)
  insert_of_lt {V ε : Type} [DecidableEq V] (m : M V) {lo hi : Nat} (v : V) (h : lo < hi) :
    ∃ m', (insert m lo hi v : Outcome ε (M V)) = .ok m' ∧
      ∀ a w, MapsTo (runs m') a w ↔ if lo ≤ a ∧ a < hi then v = w else MapsTo (runs m) a w
  insert_of_le {V ε : Type} [DecidableEq V] (m : M V) {lo hi : Nat} (v : V) (h : hi ≤ lo) :
    (insert m lo hi v : Outcome ε (M V)) = .panic
  /-- `remove`, which panics on an empty range. -/
  remove {V ε : Type} : M V → Nat → Nat → Outcome ε (M V)
  remove_of_lt {V ε : Type} (m : M V) {lo hi : Nat} (h : lo < hi) :
    ∃ m', (remove m lo hi : Outcome ε (M V)) = .ok m' ∧
      ∀ a w, MapsTo (runs m') a w ↔ MapsTo (runs m) a w ∧ (a < lo ∨ hi ≤ a)
  remove_of_le {V ε : Type} (m : M V) {lo hi : Nat} (h : hi ≤ lo) : (remove m lo hi : Outcome ε (M V)) = .panic
  /-- `overlapping`: the runs that meet a range, uncut. -/
  overlapping {V : Type} : M V → Nat → Nat → List (Run V)
  mem_overlapping {V : Type} {m : M V} {lo hi : Nat} {r : Run V} :
    r ∈ overlapping m lo hi ↔ r ∈ runs m ∧ r.start < hi ∧ lo < r.stop
  /-- `gaps`: the maximal ranges without a value in a range. -/
  gaps {V : Type} : M V → Nat → Nat → List (Nat × Nat)
  exists_mem_gaps {V : Type} (m : M V) (lo hi a : Nat) :
    (∃ g ∈ gaps m lo hi, g.1 ≤ a ∧ a < g.2) ↔ lo ≤ a ∧ a < hi ∧ ∀ r ∈ runs m, ¬ r.Has a
  of_mem_gaps {V : Type} (m : M V) (lo hi : Nat) : ∀ g ∈ gaps m lo hi, EndsAtRuns hi lo (runs m) g
  pairwise_gaps {V : Type} (m : M V) (lo hi : Nat) : (gaps m lo hi).Pairwise fun g g' => g.2 < g'.1

namespace RangeMapLike

variable {M : Type → Type} [RangeMapLike M] {m m' : M V} {lo hi a : Nat}

def get (m : M V) (a : Nat) : Option V := (getKeyValue m a).map Run.value

theorem get_eq_some {v : V} : get m a = some v ↔ MapsTo (runs m) a v := by
  unfold get MapsTo
  rw [Option.map_eq_some_iff]
  simp only [getKeyValue_eq_some, and_assoc]

theorem get_eq_none : get m a = none ↔ ∀ r ∈ runs m, ¬ r.Has a := by
  rw [Option.eq_none_iff_forall_ne_some]
  simp only [ne_eq, get_eq_some, MapsTo, not_exists, not_and]
  exact ⟨fun h r hr ha => h _ r hr ha rfl, fun h v r hr ha _ => h r hr ha⟩

theorem get_empty (a : Nat) : get (empty : M V) a = none := by
  rw [get_eq_none, runs_empty]
  exact nofun

theorem get_remove (ε : Type) (m : M V) (h : lo < hi) : ∃ m', (remove m lo hi : Outcome ε (M V)) = .ok m' ∧
      ∀ a, get m' a = if lo ≤ a ∧ a < hi then none else get m a := by
  obtain ⟨m', hm', hruns⟩ := remove_of_lt (ε := ε) m h
  refine ⟨m', hm', fun a => Option.ext fun v => ?_⟩
  rw [get_eq_some, hruns]
  split
  · simp only [reduceCtorEq, iff_false]
    omega
  · rw [get_eq_some, and_iff_left (by omega)]

theorem get_insert (ε : Type) [DecidableEq V] (m : M V) (v : V) (h : lo < hi) :
    ∃ m', (insert m lo hi v : Outcome ε (M V)) = .ok m' ∧
      ∀ a, get m' a = if lo ≤ a ∧ a < hi then some v else get m a := by
  obtain ⟨m', hm', hruns⟩ := insert_of_lt (ε := ε) m v h
  refine ⟨m', hm', fun a => Option.ext fun w => ?_⟩
  rw [get_eq_some, hruns]
  split
  · rw [Option.some.injEq]
  · rw [get_eq_some]

theorem mem_gaps_cover (m : M V) (lo hi a : Nat) :
    (∃ g ∈ gaps m lo hi, g.1 ≤ a ∧ a < g.2) ↔ lo ≤ a ∧ a < hi ∧ get m a = none := by
  rw [get_eq_none]
  exact exists_mem_gaps m lo hi a

/-- A range without values that cannot be extended inside of `[lo, hi)`. -/
structure IsGap (f : Nat → Option V) (lo hi : Nat) (g : Nat × Nat) : Prop where
  le : lo ≤ g.1
  lt : g.1 < g.2
  le_hi : g.2 ≤ hi
  unmapped : ∀ a, g.1 ≤ a → a < g.2 → f a = none
  left : g.1 = lo ∨ f (g.1 - 1) ≠ none
  right : g.2 = hi ∨ f g.2 ≠ none

variable {g : Nat × Nat}

theorem IsGap.eq {f : Nat → Option V} {g' : Nat × Nat} (h : IsGap f lo hi g) (h' : IsGap f lo hi g') (ha : g.1 ≤ a ∧ a < g.2)
    (ha' : g'.1 ≤ a ∧ a < g'.2) : g = g' := by
  have hstart : ∀ {x y : Nat × Nat}, IsGap f lo hi x → IsGap f lo hi y → x.1 ≤ a ∧ a < x.2 →
      y.1 ≤ a ∧ a < y.2 → x.1 ≤ y.1 := by
    intro x y hx hy hxa hya
    by_contra hlt
    have := hy.le
    rcases hx.left with heq | hsome
    · omega
    · exact hsome (hy.unmapped (x.1 - 1) (by omega) (by omega))
  have hstop : ∀ {x y : Nat × Nat}, IsGap f lo hi x → IsGap f lo hi y → x.1 ≤ a ∧ a < x.2 →
      y.1 ≤ a ∧ a < y.2 → y.2 ≤ x.2 := by
    intro x y hx hy hxa hya
    by_contra hlt
    have := hy.le_hi
    rcases hx.right with heq | hsome
    · omega
    · exact hsome (hy.unmapped x.2 (by omega) (by omega))
  exact Prod.ext (Nat.le_antisymm (hstart h h' ha ha') (hstart h' h ha' ha))
    (Nat.le_antisymm (hstop h' h ha' ha) (hstop h h' ha ha'))

theorem isGap_of_mem (h : g ∈ gaps m lo hi) : IsGap (get m) lo hi g := by
  obtain ⟨hle, hlt, hhi, hleft, hright⟩ := of_mem_gaps m lo hi g h
  have hsome : ∀ a, (∃ r ∈ runs m, r.Has a) → get m a ≠ none := by
    rintro a ⟨r, hr, ha⟩ hnone
    exact get_eq_none.1 hnone r hr ha
  refine ⟨hle, hlt, hhi, fun a hga hag => ?_, hleft.imp_right (hsome _), hright.imp_right (hsome _)⟩
  exact ((mem_gaps_cover m lo hi a).1 ⟨g, h, hga, hag⟩).2.2

theorem mem_gaps : g ∈ gaps m lo hi ↔ IsGap (get m) lo hi g := by
  constructor
  · exact isGap_of_mem
  · intro h
    have hnone := h.unmapped g.1 (Nat.le_refl _) h.lt
    have hlt := Nat.lt_of_lt_of_le h.lt h.le_hi
    obtain ⟨g', hg', hle', hlt'⟩ := (mem_gaps_cover m lo hi g.1).2 ⟨h.le, hlt, hnone⟩
    rw [h.eq (isGap_of_mem hg') ⟨Nat.le_refl _, h.lt⟩ ⟨hle', hlt'⟩]
    exact hg'

end RangeMapLike

/-- Runs that touch and agree are merged. -/
def coalesce [DecidableEq V] (runs : List (Run V)) : List (Run V) := runs.foldr Run.merge []

section Coalesce

variable [DecidableEq V]

theorem mapsTo_merge (r : Run V) (runs : List (Run V)) (a : Nat) (v : V) :
    MapsTo (r.merge runs) a v ↔ r.Has a ∧ r.value = v ∨ MapsTo runs a v := by
  cases runs with
  | nil => rw [Run.merge, mapsTo_cons]
  | cons s runs =>
    rw [Run.merge]
    split
    · rename_i h
      obtain ⟨htouch, hval⟩ := h
      have hr := r.lt
      rw [mapsTo_cons, mapsTo_cons, ← or_assoc, ← hval, ← or_and_right]
      refine or_congr_left (and_congr_left fun _ => ?_)
      unfold Run.Has
      dsimp only
      omega
    · rw [mapsTo_cons]

theorem mapsTo_coalesce (runs : List (Run V)) (a : Nat) (v : V) : MapsTo (coalesce runs) a v ↔ MapsTo runs a v := by
  induction runs with
  | nil => rfl
  | cons r runs ih =>
    rw [mapsTo_cons, ← ih]
    exact mapsTo_merge r (coalesce runs) a v

variable {r x : Run V}

theorem exists_start_of_mem_merge (runs : List (Run V)) (h : x ∈ r.merge runs) :
    ∃ y ∈ r :: runs, y.start = x.start := by
  cases runs with
  | nil => exact ⟨x, h, rfl⟩
  | cons s runs =>
    rw [Run.merge] at h
    split at h
    · rcases mem_cons.1 h with rfl | h
      · exact ⟨r, mem_cons_self, rfl⟩
      · exact ⟨x, mem_cons_of_mem _ (mem_cons_of_mem _ h), rfl⟩
    · exact ⟨x, h, rfl⟩

variable {runs : List (Run V)}

theorem exists_start_of_mem_coalesce (h : x ∈ coalesce runs) : ∃ y ∈ runs, y.start = x.start := by
  induction runs generalizing x with
  | nil => cases h
  | cons r runs ih =>
    obtain ⟨y, hy, hstart⟩ := exists_start_of_mem_merge (coalesce runs) h
    rcases mem_cons.1 hy with rfl | hy
    · exact ⟨y, mem_cons_self, hstart⟩
    · obtain ⟨z, hz, hzstart⟩ := ih hy
      exact ⟨z, mem_cons_of_mem _ hz, hzstart.trans hstart⟩

theorem pairwise_merge (h : runs.Pairwise Run.Apart) (hr : ∀ s ∈ runs, r.stop ≤ s.start) :
    (r.merge runs).Pairwise Run.Apart := by
  cases runs with
  | nil => exact pairwise_singleton _ _
  | cons s runs =>
    obtain ⟨hs, hrest⟩ := pairwise_cons.1 h
    have hlt := s.lt
    have hle := hr s mem_cons_self
    rw [Run.merge]
    split
    · rename_i htouch
      refine pairwise_cons.2 ⟨fun t ht => ?_, hrest⟩
      have hmax : max r.stop s.stop = s.stop := by omega
      have hst := hs t ht
      unfold Run.Apart at hst ⊢
      dsimp only
      rw [hmax, htouch.2]
      exact hst
    · rename_i htouch
      refine pairwise_cons.2 ⟨fun t ht => ?_, h⟩
      rcases mem_cons.1 ht with rfl | ht
      · by_cases heq : r.stop = t.start
        · exact .inr ⟨heq, fun hval => htouch ⟨heq, hval⟩⟩
        · exact .inl (by omega)
      · have := (hs t ht).le
        exact .inl (by omega)

theorem pairwise_coalesce (h : runs.Pairwise fun r s => r.stop ≤ s.start) : (coalesce runs).Pairwise Run.Apart := by
  induction runs with
  | nil => exact .nil
  | cons r runs ih =>
    obtain ⟨hr, hrest⟩ := pairwise_cons.1 h
    refine pairwise_merge (ih hrest) fun s hs => ?_
    obtain ⟨y, hy, hstart⟩ := exists_start_of_mem_coalesce hs
    rw [← hstart]
    exact hr y hy

end Coalesce

/-! ## The map -/

/-- The maximal runs of a partial function, in order. -/
structure RangeMap (V : Type) where
  runs : List (Run V)
  apart : runs.Pairwise Run.Apart

namespace RangeMap

/-- The empty map; also the map after `clear`. -/
def empty : RangeMap V := ⟨[], .nil⟩

/-- `get_key_value`: the run of a number. -/
def getKeyValue (m : RangeMap V) (a : Nat) : Option (Run V) := m.runs.find? fun r => r.Has a

/-- The runs without a range. -/
def cutRuns (m : RangeMap V) (lo hi : Nat) : List (Run V) := m.runs.flatMap (Run.cut lo hi)

variable {lo hi a : Nat}

theorem pairwise_cutRuns (m : RangeMap V) (h : lo < hi) : (m.cutRuns lo hi).Pairwise Run.Apart := by
  refine pairwise_flatMap.2 ⟨fun r _ => Run.pairwise_cut h r, m.apart.imp ?_⟩
  intro r s hrs x hx y hy
  have hx := Run.pieceOf_of_mem_cut hx
  have hy := Run.pieceOf_of_mem_cut hy
  have hle := hrs.le
  have := hx.stop_le
  have := hy.start_le
  by_cases heq : x.stop = y.start
  · refine .inr ⟨heq, ?_⟩
    rw [hx.value_eq, hy.value_eq]
    rcases hrs with hlt | ⟨_, hne⟩
    · omega
    · exact hne
  · exact .inl (by omega)

theorem mapsTo_cutRuns (m : RangeMap V) (lo hi a : Nat) (v : V) :
    MapsTo (m.cutRuns lo hi) a v ↔ MapsTo m.runs a v ∧ (a < lo ∨ hi ≤ a) := by
  constructor
  · rintro ⟨x, hx, hax, hv⟩
    obtain ⟨r, hr, hx⟩ := mem_flatMap.1 hx
    have hp := Run.pieceOf_of_mem_cut hx
    have := hp.start_le
    have := hp.stop_le
    have := hp.side
    unfold Run.Has at hax
    exact ⟨⟨r, hr, ⟨by omega, by omega⟩, hp.value_eq ▸ hv⟩, by omega⟩
  · rintro ⟨⟨r, hr, har, hv⟩, hout⟩
    obtain ⟨x, hx, hax⟩ := Run.exists_mem_cut har hout
    exact ⟨x, mem_flatMap.2 ⟨r, hr, hx⟩, hax, (Run.pieceOf_of_mem_cut hx).value_eq ▸ hv⟩

/-- `remove`, which panics on an empty range. -/
def remove {ε : Type} (m : RangeMap V) (lo hi : Nat) : Outcome ε (RangeMap V) :=
  if h : lo < hi then .ok ⟨m.cutRuns lo hi, m.pairwise_cutRuns h⟩ else .panic

/-- The runs with a range overwritten, before they are merged. -/
def spliced (m : RangeMap V) {lo hi : Nat} (h : lo < hi) (v : V) : List (Run V) :=
  (m.cutRuns lo hi).filter (fun r => r.stop ≤ lo) ++ ⟨lo, hi, v, h⟩ :: (m.cutRuns lo hi).filter fun r => hi ≤ r.start

theorem pairwise_spliced (m : RangeMap V) (h : lo < hi) (v : V) :
    (m.spliced h v).Pairwise fun r s => r.stop ≤ s.start := by
  have hcut := (m.pairwise_cutRuns h).imp fun hrs => Run.Apart.le hrs
  refine pairwise_append.2 ⟨hcut.filter _, pairwise_cons.2 ⟨?_, hcut.filter _⟩, ?_⟩
  · simp
  · intro r hr s hs
    have hrlo : r.stop ≤ lo := by simpa using (mem_filter.1 hr).2
    rcases mem_cons.1 hs with rfl | hs
    · exact hrlo
    · have hshi : hi ≤ s.start := by simpa using (mem_filter.1 hs).2
      omega

theorem mapsTo_spliced (m : RangeMap V) (h : lo < hi) (v : V) (a : Nat) (w : V) : MapsTo (m.spliced h v) a w ↔
      if lo ≤ a ∧ a < hi then v = w else MapsTo m.runs a w := by
  -- the pieces on the two sides are all pieces
  have hsides : MapsTo ((m.cutRuns lo hi).filter fun r => r.stop ≤ lo) a w ∨
      MapsTo ((m.cutRuns lo hi).filter fun r => hi ≤ r.start) a w ↔ MapsTo (m.cutRuns lo hi) a w := by
    constructor
    · rintro (⟨r, hr, h⟩ | ⟨r, hr, h⟩) <;> exact ⟨r, (mem_filter.1 hr).1, h⟩
    · rintro ⟨x, hx, hax⟩
      obtain ⟨r, _, hx'⟩ := mem_flatMap.1 hx
      rcases (Run.pieceOf_of_mem_cut hx').side with hside | hside
      · exact .inl ⟨x, mem_filter.2 ⟨hx, by simpa using hside⟩, hax⟩
      · exact .inr ⟨x, mem_filter.2 ⟨hx, by simpa using hside⟩, hax⟩
  rw [spliced, mapsTo_append, mapsTo_cons, or_left_comm, hsides, m.mapsTo_cutRuns]
  unfold Run.Has
  split
  · rename_i hin
    simp only [hin, true_and, and_self]
    exact or_iff_left fun hout => by omega
  · rename_i hin
    rw [or_iff_right fun hnew => hin hnew.1, and_iff_left (by omega)]

/-- `insert`, which panics on an empty range. -/
def insert {ε : Type} [DecidableEq V] (m : RangeMap V) (lo hi : Nat) (v : V) : Outcome ε (RangeMap V) :=
  if h : lo < hi then .ok ⟨coalesce (m.spliced h v), pairwise_coalesce (m.pairwise_spliced h v)⟩
  else .panic

variable {m : RangeMap V} {r : Run V}

theorem getKeyValue_eq_some : m.getKeyValue a = some r ↔ r ∈ m.runs ∧ r.Has a := by
  unfold getKeyValue
  constructor
  · intro h
    exact ⟨mem_of_find?_eq_some h, by simpa using find?_some h⟩
  · rintro ⟨hr, ha⟩
    obtain ⟨before, after, hsplit⟩ := append_of_mem hr
    have hapart := m.apart
    rw [hsplit] at hapart ⊢
    rw [find?_append, find?_eq_none.2, Option.none_or, find?_cons_of_pos (by simpa using ha)]
    intro s hs
    have hle := ((pairwise_append.1 hapart).2.2 s hs r mem_cons_self).le
    have hno : ¬ s.Has a := by
      unfold Run.Has at ha ⊢
      omega
    simpa using hno

/-! ## Overlapping runs and gaps -/

/-- `overlapping`: the runs that meet a range, uncut. -/
def overlapping (m : RangeMap V) (lo hi : Nat) : List (Run V) := m.runs.filter fun r => r.start < hi ∧ lo < r.stop

theorem mem_overlapping : r ∈ m.overlapping lo hi ↔ r ∈ m.runs ∧ r.start < hi ∧ lo < r.stop := by
  simp [overlapping]

def gapsFrom (hi : Nat) : Nat → List (Run V) → List (Nat × Nat)
  | lo, [] => if lo < hi then [(lo, hi)] else []
  | lo, r :: runs =>
    if r.stop ≤ lo then gapsFrom hi lo runs
    else if hi ≤ r.start then if lo < hi then [(lo, hi)] else []
    else if lo < r.start then (lo, r.start) :: gapsFrom hi r.stop runs
    else gapsFrom hi r.stop runs

/-- `gaps`: the maximal ranges without a value in a range. -/
def gaps (m : RangeMap V) (lo hi : Nat) : List (Nat × Nat) := gapsFrom hi lo m.runs

variable {runs : List (Run V)}

theorem exists_mem_gapsFrom (h : runs.Pairwise Run.Apart) : (∃ g ∈ gapsFrom hi lo runs, g.1 ≤ a ∧ a < g.2) ↔
      lo ≤ a ∧ a < hi ∧ ∀ r ∈ runs, ¬ r.Has a := by
  fun_induction gapsFrom hi lo runs with
  | case1 lo hlt => simp
  | case2 lo hlt =>
    simp only [not_mem_nil, false_and, exists_false, false_iff]
    omega
  | case3 lo r runs hstop ih =>
    rw [ih (pairwise_cons.1 h).2, forall_mem_cons]
    unfold Run.Has
    constructor
    · rintro ⟨hle, hlt, hrest⟩
      exact ⟨hle, hlt, by omega, hrest⟩
    · rintro ⟨hle, hlt, _, hrest⟩
      exact ⟨hle, hlt, hrest⟩
  | case4 lo r runs hstop hstart hlt =>
    have hrest := (pairwise_cons.1 h).1
    have hr := r.lt
    simp only [mem_singleton, exists_eq_left, forall_mem_cons]
    unfold Run.Has
    constructor
    · rintro ⟨hle, hlt⟩
      refine ⟨hle, hlt, by omega, fun s hs => ?_⟩
      have := (hrest s hs).le
      omega
    · rintro ⟨hle, hlt, _⟩
      exact ⟨hle, hlt⟩
  | case5 lo r runs hstop hstart hlt =>
    simp only [not_mem_nil, false_and, exists_false, false_iff]
    omega
  | case6 lo r runs hstop hstart hlt ih =>
    have hrest := (pairwise_cons.1 h).1
    simp only [exists_mem_cons_iff, ih (pairwise_cons.1 h).2, forall_mem_cons]
    unfold Run.Has
    constructor
    · rintro (⟨hle, hlt'⟩ | ⟨hle, hlt', hno⟩)
      · refine ⟨hle, by omega, by omega, fun s hs => ?_⟩
        have := (hrest s hs).le
        have := r.lt
        omega
      · exact ⟨by omega, hlt', by omega, hno⟩
    · rintro ⟨hle, hlt', hr, hno⟩
      by_cases ha : a < r.start
      · exact .inl ⟨hle, ha⟩
      · exact .inr ⟨by omega, hlt', hno⟩
  | case7 lo r runs hstop hstart hlt ih =>
    rw [ih (pairwise_cons.1 h).2, forall_mem_cons]
    unfold Run.Has
    constructor
    · rintro ⟨hle, hlt', hno⟩
      exact ⟨by omega, hlt', by omega, hno⟩
    · rintro ⟨hle, hlt', hr, hno⟩
      exact ⟨by omega, hlt', hno⟩

variable {g : Nat × Nat}

theorem ends_cons (h : EndsAtRuns hi lo runs g) (r : Run V) : EndsAtRuns hi lo (r :: runs) g :=
  ⟨h.le, h.lt, h.le_hi, h.left.imp_right fun ⟨s, hs, ha⟩ => ⟨s, mem_cons_of_mem r hs, ha⟩,
    h.right.imp_right fun ⟨s, hs, ha⟩ => ⟨s, mem_cons_of_mem r hs, ha⟩⟩

theorem ends_cons_of_le (h : EndsAtRuns hi r.stop runs g) (hlo : lo ≤ r.stop) :
    EndsAtRuns hi lo (r :: runs) g := by
  have hr := r.lt
  refine ⟨Nat.le_trans hlo h.le, h.lt, h.le_hi, .inr ?_, (ends_cons h r).right⟩
  rcases (ends_cons h r).left with heq | hrun
  · exact ⟨r, mem_cons_self, by unfold Run.Has; omega⟩
  · exact hrun

theorem of_mem_gapsFrom : ∀ g ∈ gapsFrom hi lo runs, EndsAtRuns hi lo runs g := by
  fun_induction gapsFrom hi lo runs with
  | case1 lo hlt =>
    intro g hg
    rw [mem_singleton.1 hg]
    exact ⟨Nat.le_refl _, hlt, Nat.le_refl _, .inl rfl, .inl rfl⟩
  | case2 lo hlt => nofun
  | case3 lo r runs hstop ih => exact fun g hg => ends_cons (ih g hg) r
  | case4 lo r runs hstop hstart hlt =>
    intro g hg
    rw [mem_singleton.1 hg]
    exact ⟨Nat.le_refl _, hlt, Nat.le_refl _, .inl rfl, .inl rfl⟩
  | case5 lo r runs hstop hstart hlt => nofun
  | case6 lo r runs hstop hstart hlt ih =>
    intro g hg
    rcases mem_cons.1 hg with rfl | hg
    · exact ⟨Nat.le_refl _, hlt, by dsimp only; omega, .inl rfl, .inr ⟨r, mem_cons_self, Nat.le_refl _, r.lt⟩⟩
    · exact ends_cons_of_le (ih g hg) (by omega)
  | case7 lo r runs hstop hstart hlt ih => exact fun g hg => ends_cons_of_le (ih g hg) (by omega)

theorem pairwise_gapsFrom (h : runs.Pairwise Run.Apart) : (gapsFrom hi lo runs).Pairwise fun g g' => g.2 < g'.1 := by
  fun_induction gapsFrom hi lo runs with
  | case1 lo hlt => exact pairwise_singleton _ _
  | case2 lo hlt => exact .nil
  | case3 lo r runs hstop ih => exact ih (pairwise_cons.1 h).2
  | case4 lo r runs hstop hstart hlt => exact pairwise_singleton _ _
  | case5 lo r runs hstop hstart hlt => exact .nil
  | case6 lo r runs hstop hstart hlt ih =>
    have hrest := (pairwise_cons.1 h).2
    refine pairwise_cons.2 ⟨fun g hg => ?_, ih hrest⟩
    have := (of_mem_gapsFrom g hg).le
    have := r.lt
    omega
  | case7 lo r runs hstop hstart hlt ih => exact ih (pairwise_cons.1 h).2

instance : RangeMapLike RangeMap where
  runs := RangeMap.runs
  apart := apart
  empty := empty
  runs_empty := rfl
  getKeyValue := getKeyValue
  getKeyValue_eq_some := getKeyValue_eq_some
  insert := insert
  insert_of_lt m _ _ v h := ⟨_, dif_pos h, fun a w => (mapsTo_coalesce _ a w).trans (m.mapsTo_spliced h v a w)⟩
  insert_of_le _ _ _ _ h := dif_neg (Nat.not_lt.2 h)
  remove := remove
  remove_of_lt m lo hi h := ⟨_, dif_pos h, fun a w => m.mapsTo_cutRuns lo hi a w⟩
  remove_of_le _ _ _ h := dif_neg (Nat.not_lt.2 h)
  overlapping := overlapping
  mem_overlapping := mem_overlapping
  gaps := gaps
  exists_mem_gaps m _ _ _ := exists_mem_gapsFrom m.apart
  of_mem_gaps _ _ _ := of_mem_gapsFrom
  pairwise_gaps m _ _ := pairwise_gapsFrom m.apart

end RangeMap

end RustVmm.Lib
