import Mathlib.Data.List.Pairwise
import Mathlib.Data.List.Sort

/-!
# Ordered maps whose order looks at a part of the key

A `BTreeMap` compares its keys by their `Ord` instance only.  Here this is a function `rank`, which need not be
injective: keys of the same rank are the same key.  The map is the list of its entries in order.

* `mem_insert_of_fresh`, `mem_remove` — what the changes do to the entries.
* `lastUpTo_eq_some`, `firstKey_eq_some` — what the searches find.
-/

set_option autoImplicit false

namespace RustVmm.Lib

open List

structure OrdMap (K V : Type) (rank : K → Nat) where
  entries : List (K × V)
  sorted : entries.Pairwise fun a b => rank a.1 < rank b.1

namespace OrdMap

variable {K V : Type} {rank : K → Nat}

def empty : OrdMap K V rank := ⟨[], .nil⟩

instance : Membership (K × V) (OrdMap K V rank) where
  mem m e := e ∈ m.entries

variable {e : K × V}

theorem not_mem_empty : e ∉ (empty : OrdMap K V rank) := not_mem_nil

variable {m : OrdMap K V rank}

theorem eq_of_rank {a b : K × V} (ha : a ∈ m) (hb : b ∈ m) (h : rank a.1 = rank b.1) : a = b := by
  have : Std.Symm fun a b : K × V => rank a.1 ≠ rank b.1 := ⟨fun _ _ hne => hne.symm⟩
  have hdistinct : m.entries.Pairwise fun a b => rank a.1 ≠ rank b.1 := m.sorted.imp Nat.ne_of_lt
  by_contra hne
  exact hdistinct.forall ha hb hne h

theorem ext_mem {m' : OrdMap K V rank} (h : ∀ e, e ∈ m ↔ e ∈ m') : m = m' := by
  have hentries : m.entries = m'.entries := m.sorted.eq_of_mem_iff m'.sorted h
  cases m'
  cases hentries
  rfl

/-! ## Insertion -/

def insertInto (rank : K → Nat) (k : K) (v : V) : List (K × V) → List (K × V)
  | [] => [(k, v)]
  | e :: es =>
    if rank k < rank e.1 then (k, v) :: e :: es
    else if rank k = rank e.1 then (e.1, v) :: es
    else e :: insertInto rank k v es

variable {k k' : K} {v : V} {es : List (K × V)}

theorem rank_of_mem_insertInto (h : e ∈ insertInto rank k v es) :
    rank e.1 = rank k ∨ ∃ e' ∈ es, rank e.1 = rank e'.1 := by
  fun_induction insertInto rank k v es with
  | case1 => exact .inl (by rw [mem_singleton.1 h])
  | case2 e₀ es hlt =>
    rcases mem_cons.1 h with rfl | h
    · exact .inl rfl
    · exact .inr ⟨e, h, rfl⟩
  | case3 e₀ es hlt heq =>
    rcases mem_cons.1 h with rfl | h
    · exact .inl heq.symm
    · exact .inr ⟨e, mem_cons_of_mem _ h, rfl⟩
  | case4 e₀ es hlt heq ih =>
    rcases mem_cons.1 h with rfl | h
    · exact .inr ⟨e, mem_cons_self, rfl⟩
    · exact (ih h).imp_right fun ⟨e', he', hr⟩ => ⟨e', mem_cons_of_mem _ he', hr⟩

theorem sorted_insertInto (h : es.Pairwise fun a b => rank a.1 < rank b.1) :
    (insertInto rank k v es).Pairwise fun a b => rank a.1 < rank b.1 := by
  fun_induction insertInto rank k v es with
  | case1 => exact pairwise_singleton _ _
  | case2 e es hlt =>
    refine pairwise_cons.2 ⟨fun e' he' => ?_, h⟩
    rcases mem_cons.1 he' with rfl | he'
    · exact hlt
    · exact Nat.lt_trans hlt ((pairwise_cons.1 h).1 e' he')
  | case3 e es hlt heq => exact pairwise_cons.2 (pairwise_cons.1 h)
  | case4 e es hlt heq ih =>
    obtain ⟨hfirst, hrest⟩ := pairwise_cons.1 h
    refine pairwise_cons.2 ⟨fun e' he' => ?_, ih hrest⟩
    rcases rank_of_mem_insertInto he' with hr | ⟨e₁, he₁, hr⟩
    · omega
    · rw [hr]
      exact hfirst e₁ he₁

def insert (m : OrdMap K V rank) (k : K) (v : V) : OrdMap K V rank :=
  ⟨insertInto rank k v m.entries, sorted_insertInto m.sorted⟩

theorem mem_insertInto_of_fresh (h : ∀ e ∈ es, rank e.1 ≠ rank k) :
    e ∈ insertInto rank k v es ↔ e = (k, v) ∨ e ∈ es := by
  fun_induction insertInto rank k v es with
  | case1 => rw [mem_singleton, or_iff_left not_mem_nil]
  | case2 e₀ es hlt => exact mem_cons
  | case3 e₀ es hlt heq => exact absurd heq.symm (h e₀ mem_cons_self)
  | case4 e₀ es hlt heq ih =>
    rw [mem_cons, mem_cons, ih fun e' he' => h e' (mem_cons_of_mem _ he')]
    exact or_left_comm

theorem mem_insert_of_fresh (h : ∀ e ∈ m, rank e.1 ≠ rank k) : e ∈ m.insert k v ↔ e = (k, v) ∨ e ∈ m :=
  mem_insertInto_of_fresh h

/-! ## Removal -/

/-- `BTreeMap::remove`, with the value that is returned. -/
def remove (m : OrdMap K V rank) (k : K) : Option V × OrdMap K V rank :=
  ((m.entries.find? fun e => rank e.1 = rank k).map Prod.snd,
    ⟨m.entries.filter fun e => rank e.1 ≠ rank k, m.sorted.filter _⟩)

theorem mem_remove : e ∈ (m.remove k).2 ↔ e ∈ m ∧ rank e.1 ≠ rank k := by
  show e ∈ m.entries.filter _ ↔ _
  rw [mem_filter, decide_eq_true_eq]
  exact Iff.rfl

theorem remove_eq_some (h : e ∈ m) : (m.remove e.1).1 = some e.2 := by
  have hfound : (m.entries.find? fun e' => rank e'.1 = rank e.1).isSome = true :=
    find?_isSome.2 ⟨e, h, decide_eq_true rfl⟩
  obtain ⟨e', he'⟩ := Option.isSome_iff_exists.1 hfound
  have hrank : rank e'.1 = rank e.1 := by simpa using find?_some he'
  have heq : e' = e := eq_of_rank (mem_of_find?_eq_some he') h hrank
  unfold remove
  rw [he', heq]
  rfl

/-! ## The last entry up to a key -/

/-- `range(..=k).nth_back(0)`. -/
def lastUpTo (m : OrdMap K V rank) (k : K) : Option (K × V) := (m.entries.filter fun e => rank e.1 ≤ rank k).getLast?

theorem lastUpTo_eq_none : m.lastUpTo k = none ↔ ∀ e ∈ m, rank k < rank e.1 := by
  unfold lastUpTo
  rw [getLast?_eq_none_iff, filter_eq_nil_iff]
  simp only [decide_eq_true_eq, Nat.not_le]
  exact Iff.rfl

theorem lastUpTo_eq_some : m.lastUpTo k = some e ↔
      e ∈ m ∧ rank e.1 ≤ rank k ∧ ∀ e' ∈ m, rank e'.1 ≤ rank k → rank e'.1 ≤ rank e.1 := by
  have hgreatest : ∀ {last : K × V}, m.lastUpTo k = some last →
      last ∈ m ∧ rank last.1 ≤ rank k ∧ ∀ e' ∈ m, rank e'.1 ≤ rank k → rank e'.1 ≤ rank last.1 := by
    intro last h
    obtain ⟨before, hsplit⟩ := getLast?_eq_some_iff.1 h
    have hmem : ∀ {e' : K × V}, e' ∈ before ++ [last] ↔ e' ∈ m ∧ rank e'.1 ≤ rank k := by
      intro e'
      rw [← hsplit, mem_filter, decide_eq_true_eq]
      exact Iff.rfl
    have hsorted := m.sorted.filter fun e => decide (rank e.1 ≤ rank k)
    rw [hsplit] at hsorted
    obtain ⟨hlast, hle⟩ := hmem.1 (mem_append_right before (mem_singleton_self last))
    refine ⟨hlast, hle, fun e' he' hle' => ?_⟩
    rcases mem_append.1 (hmem.2 ⟨he', hle'⟩) with hbefore | hsame
    · exact Nat.le_of_lt ((pairwise_append.1 hsorted).2.2 e' hbefore last (mem_singleton_self last))
    · obtain rfl := mem_singleton.1 hsame
      exact Nat.le_refl _
  constructor
  · exact hgreatest
  · rintro ⟨he, hle, hmax⟩
    cases hlast : m.lastUpTo k with
    | none => exact absurd hle (Nat.not_le.2 (lastUpTo_eq_none.1 hlast e he))
    | some last =>
      obtain ⟨hmem, hle', hmax'⟩ := hgreatest hlast
      rw [eq_of_rank hmem he (Nat.le_antisymm (hmax last hmem hle') (hmax' e he hle))]

/-! ## Keys -/

def containsKey (m : OrdMap K V rank) (k : K) : Bool := m.entries.any fun e => rank e.1 = rank k

theorem containsKey_iff : m.containsKey k = true ↔ ∃ e ∈ m, rank e.1 = rank k := by
  unfold containsKey
  rw [any_eq_true]
  simp only [decide_eq_true_eq]
  exact Iff.rfl

def firstKey (m : OrdMap K V rank) : Option K := m.entries.head?.map Prod.fst

theorem firstKey_eq_none : m.firstKey = none ↔ ∀ k, m.containsKey k = false := by
  unfold firstKey containsKey
  rw [Option.map_eq_none_iff, head?_eq_none_iff]
  constructor
  · intro h k
    rw [h]
    rfl
  · intro h
    cases hes : m.entries with
    | nil => rfl
    | cons e es =>
      have hfirst := h e.1
      rw [hes] at hfirst
      simp at hfirst

theorem firstKey_eq_some (h : m.firstKey = some k) :
    m.containsKey k = true ∧ ∀ k', m.containsKey k' = true → rank k ≤ rank k' := by
  obtain ⟨e, he, rfl⟩ := Option.map_eq_some_iff.1 h
  obtain ⟨es, hes⟩ := head?_eq_some_iff.1 he
  have hsorted := m.sorted
  rw [hes] at hsorted
  have hmem : e ∈ m.entries := hes ▸ mem_cons_self
  refine ⟨containsKey_iff.2 ⟨e, hmem, rfl⟩, fun k' hk' => ?_⟩
  obtain ⟨e', he', hrank⟩ := containsKey_iff.1 hk'
  have hcases : e' ∈ e :: es := hes ▸ he'
  rw [← hrank]
  rcases mem_cons.1 hcases with rfl | hrest
  · exact Nat.le_refl _
  · exact Nat.le_of_lt ((pairwise_cons.1 hsorted).1 e' hrest)

theorem containsKey_insert_of_fresh (h : m.containsKey k = false) :
    (m.insert k v).containsKey k' = true ↔ rank k' = rank k ∨ m.containsKey k' = true := by
  have hfresh : ∀ e ∈ m, rank e.1 ≠ rank k := by
    intro e he hrank
    rw [containsKey_iff.2 ⟨e, he, hrank⟩] at h
    cases h
  simp only [containsKey_iff, mem_insert_of_fresh hfresh]
  constructor
  · rintro ⟨e, rfl | he, hrank⟩
    · exact .inl hrank.symm
    · exact .inr ⟨e, he, hrank⟩
  · rintro (hrank | ⟨e, he, hrank⟩)
    · exact ⟨(k, v), .inl rfl, hrank.symm⟩
    · exact ⟨e, .inr he, hrank⟩

theorem containsKey_remove : (m.remove k).2.containsKey k' = true ↔ m.containsKey k' = true ∧ rank k' ≠ rank k := by
  simp only [containsKey_iff, mem_remove]
  constructor
  · rintro ⟨e, ⟨he, hne⟩, hrank⟩
    exact ⟨⟨e, he, hrank⟩, hrank ▸ hne⟩
  · rintro ⟨⟨e, he, hrank⟩, hne⟩
    exact ⟨e, ⟨he, hrank.symm ▸ hne⟩, hrank⟩

end OrdMap

end RustVmm.Lib
