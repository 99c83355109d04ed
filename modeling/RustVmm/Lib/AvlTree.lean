import Mathlib.Logic.Basic

/-!
# Binary trees with cached heights

Height-balanced trees whose nodes store their height.  Nothing here compares elements: every operation is described by
what it does to the in-order sequence `toList`, to the height and to the balance.

* `rotate_spec` — on children that differ by at most two, `rotate` restores the balance and keeps the sequence.
* `rotate_grown`, `rotate_shrunk` — its two forms, for a child that grew or shrank by one.
* `deleteRoot_spec` — the root goes out, and the height shrinks by at most one.
-/

set_option autoImplicit false

namespace RustVmm.Lib

/-- A binary tree; `nil` is the missing child. -/
inductive AvlTree (α : Type) where
  | nil
  | node (val : α) (left right : AvlTree α) (height : Nat)
  deriving DecidableEq, Repr

namespace AvlTree

variable {α : Type}

/-- Cached height of an optional subtree. -/
def height : AvlTree α → Nat
  | nil => 0
  | node _ _ _ h => h

def toList : AvlTree α → List α
  | nil => []
  | node v l r _ => l.toList ++ v :: r.toList

instance : Membership α (AvlTree α) := ⟨fun t a => a ∈ t.toList⟩

instance [DecidableEq α] (a : α) (t : AvlTree α) : Decidable (a ∈ t) := inferInstanceAs (Decidable (a ∈ t.toList))

variable {a v : α}

theorem mem_def {t : AvlTree α} : a ∈ t ↔ a ∈ t.toList := Iff.rfl

@[simp] theorem height_nil : (nil : AvlTree α).height = 0 := rfl

@[simp] theorem height_node (v : α) (l r : AvlTree α) (h : Nat) : (node v l r h).height = h := rfl

@[simp] theorem toList_nil : (nil : AvlTree α).toList = [] := rfl

@[simp] theorem toList_node (v : α) (l r : AvlTree α) (h : Nat) :
    (node v l r h).toList = l.toList ++ v :: r.toList := rfl

@[simp] theorem not_mem_nil (a : α) : ¬ a ∈ (nil : AvlTree α) := by simp [mem_def]

variable {l r l' r' : AvlTree α} {h : Nat}

@[simp] theorem mem_node : a ∈ node v l r h ↔ a ∈ l ∨ a = v ∨ a ∈ r := by
  simp [mem_def]

def updateCachedHeight : AvlTree α → AvlTree α
  | nil => nil
  | node v l r _ => node v l r (max l.height r.height + 1)

/-- Single left rotation; `nil` if there is no right child. -/
def rotateLeft : AvlTree α → AvlTree α
  | node v l (node rv rl rr rh) h =>
    updateCachedHeight (node rv (updateCachedHeight (node v l rl h)) rr rh)
  | _ => nil

/-- Single right rotation; `nil` if there is no left child. -/
def rotateRight : AvlTree α → AvlTree α
  | node v (node lv ll lr lh) r h =>
    updateCachedHeight (node lv ll (updateCachedHeight (node v lr r h)) lh)
  | _ => nil

def rotateLeftSuccessor : AvlTree α → AvlTree α
  | node v (node lv ll lr lh) r h =>
    if ll.height < lr.height then
      rotateRight (updateCachedHeight (node v (rotateLeft (node lv ll lr lh)) r h))
    else
      rotateRight (node v (node lv ll lr lh) r h)
  | _ => nil

def rotateRightSuccessor : AvlTree α → AvlTree α
  | node v l (node rv rl rr rh) h =>
    if rl.height > rr.height then
      rotateLeft (updateCachedHeight (node v l (rotateRight (node rv rl rr rh)) h))
    else
      rotateLeft (node v l (node rv rl rr rh) h)
  | _ => nil

/-- `unwrap` of an optional subtree. -/
def unwrap : AvlTree α → Option (AvlTree α)
  | nil => none
  | t => some t

/-- Rebalance at the root; `none` is a panic. -/
def rotate : AvlTree α → Option (AvlTree α)
  | nil => none
  | node v l r h =>
    let d := (l.height : Int) - (r.height : Int)
    if -1 ≤ d ∧ d ≤ 1 then some (node v l r h)
    else if d = 2 then unwrap (rotateLeftSuccessor (node v l r h))
    else if d = -2 then unwrap (rotateRightSuccessor (node v l r h))
    else none

/-- Detach the leftmost node: `(min_node, remaining)`.  The detached node keeps its old
cached height. -/
def getNewRoot : AvlTree α → Option (AvlTree α × AvlTree α)
  | nil => none
  | node v nil r h => some (node v nil nil h, r)
  | node v (node lv ll lr lh) r h => do
    let (minNode, left) ← getNewRoot (node lv ll lr lh)
    let self ← rotate (updateCachedHeight (node v left r h))
    return (minNode, self)

/-- Join two subtrees under the leftmost node of the right one. -/
def combineSubtrees (l r : AvlTree α) : Option (AvlTree α) := do
  match ← getNewRoot r with
  | (node v _ _ h, remaining) => rotate (updateCachedHeight (node v l remaining h))
  | (nil, _) => none

def deleteRoot : AvlTree α → Option (AvlTree α)
  | nil => none
  | node _ nil nil _ => some nil
  | node _ l nil _ => some l
  | node _ nil r _ => some r
  | node _ l r _ => combineSubtrees l r

/-! ## Balance -/

/-- Cached heights are right and sibling heights differ by at most one. -/
def Balanced : AvlTree α → Prop
  | nil => True
  | node _ l r h =>
    l.Balanced ∧ r.Balanced ∧ h = max l.height r.height + 1 ∧ l.height ≤ r.height + 1 ∧ r.height ≤ l.height + 1

@[simp] theorem balanced_nil : (nil : AvlTree α).Balanced := trivial

/-- A node that knows its height. -/
def join (v : α) (l r : AvlTree α) : AvlTree α := node v l r (max l.height r.height + 1)

@[simp] theorem height_join : (join v l r).height = max l.height r.height + 1 := rfl

@[simp] theorem toList_join : (join v l r).toList = l.toList ++ v :: r.toList := rfl

theorem balanced_join (hl : l.Balanced) (hr : r.Balanced) (h1 : l.height ≤ r.height + 1)
    (h2 : r.height ≤ l.height + 1) : (join v l r).Balanced := ⟨hl, hr, rfl, h1, h2⟩

theorem rotateLeftSuccessor_spec (hl : l.Balanced) (hr : r.Balanced) (hd : l.height = r.height + 2) :
    ∃ t', unwrap (rotateLeftSuccessor (node v l r h)) = some t' ∧ t'.Balanced ∧
      t'.toList = l.toList ++ v :: r.toList ∧ l.height ≤ t'.height ∧ t'.height ≤ l.height + 1 := by
  cases l with
  | nil => simp at hd
  | node lv ll lr lh =>
    obtain ⟨hll, hlr, hlh, h1, h2⟩ := hl
    simp only [height_node] at hd ⊢
    by_cases hdouble : ll.height < lr.height
    · -- the inner grandchild is the higher one: double rotation
      cases lr with
      | nil => simp at hdouble
      | node mv ml mr mh =>
        obtain ⟨hml, hmr, hmh, h3, h4⟩ := hlr
        simp only [height_node] at hdouble h1 h2 hlh
        refine ⟨join mv (join lv ll ml) (join v mr r), by rw [rotateLeftSuccessor, height_node, if_pos hdouble]; rfl,
          balanced_join (balanced_join hll hml ?_ ?_) (balanced_join hmr hr ?_ ?_) ?_ ?_, by simp, ?_, ?_⟩
        all_goals try simp only [height_join]
        all_goals omega
    · refine ⟨join lv ll (join v lr r), by rw [rotateLeftSuccessor, if_neg hdouble]; rfl,
        balanced_join hll (balanced_join hlr hr ?_ ?_) ?_ ?_, by simp, ?_, ?_⟩
      all_goals try simp only [height_join]
      all_goals omega

theorem rotateRightSuccessor_spec (hl : l.Balanced) (hr : r.Balanced) (hd : r.height = l.height + 2) :
    ∃ t', unwrap (rotateRightSuccessor (node v l r h)) = some t' ∧ t'.Balanced ∧
      t'.toList = l.toList ++ v :: r.toList ∧ r.height ≤ t'.height ∧ t'.height ≤ r.height + 1 := by
  cases r with
  | nil => simp at hd
  | node rv rl rr rh =>
    obtain ⟨hrl, hrr, hrh, h1, h2⟩ := hr
    simp only [height_node] at hd ⊢
    by_cases hdouble : rl.height > rr.height
    · cases rl with
      | nil => simp at hdouble
      | node mv ml mr mh =>
        obtain ⟨hml, hmr, hmh, h3, h4⟩ := hrl
        simp only [height_node] at hdouble h1 h2 hrh
        refine ⟨join mv (join v l ml) (join rv mr rr), by rw [rotateRightSuccessor, height_node, if_pos hdouble]; rfl,
          balanced_join (balanced_join hl hml ?_ ?_) (balanced_join hmr hrr ?_ ?_) ?_ ?_, by simp, ?_, ?_⟩
        all_goals try simp only [height_join]
        all_goals omega
    · refine ⟨join rv (join v l rl) rr, by rw [rotateRightSuccessor, if_neg hdouble]; rfl,
        balanced_join (balanced_join hl hrl ?_ ?_) hrr ?_ ?_, by simp, ?_, ?_⟩
      all_goals try simp only [height_join]
      all_goals omega

theorem rotate_spec (hl : l.Balanced) (hr : r.Balanced) (h1 : l.height ≤ r.height + 2) (h2 : r.height ≤ l.height + 2) :
    ∃ t', rotate (updateCachedHeight (node v l r h)) = some t' ∧ t'.Balanced ∧ t'.toList = l.toList ++ v :: r.toList ∧
      max l.height r.height ≤ t'.height ∧ t'.height ≤ max l.height r.height + 1 ∧
      (l.height ≤ r.height + 1 → r.height ≤ l.height + 1 → t'.height = max l.height r.height + 1) := by
  simp only [updateCachedHeight, rotate]
  by_cases hd : -1 ≤ (l.height : Int) - r.height ∧ (l.height : Int) - r.height ≤ 1
  · rw [if_pos hd]
    exact ⟨_, rfl, ⟨hl, hr, rfl, by omega, by omega⟩, rfl, by simp, by simp, by simp⟩
  rw [if_neg hd]
  by_cases hd2 : (l.height : Int) - r.height = 2
  · rw [if_pos hd2]
    obtain ⟨t', ht, hb, hlist, h3, h4⟩ :=
      rotateLeftSuccessor_spec hl hr (by omega)
    exact ⟨t', ht, hb, hlist, by omega, by omega, fun _ _ => by omega⟩
  · rw [if_neg hd2, if_pos (by omega)]
    obtain ⟨t', ht, hb, hlist, h3, h4⟩ :=
      rotateRightSuccessor_spec hl hr (by omega)
    exact ⟨t', ht, hb, hlist, by omega, by omega, fun _ _ => by omega⟩

def Grown (t t' : AvlTree α) : Prop := t'.height = t.height ∨ t'.height = t.height + 1

def Shrunk (t t' : AvlTree α) : Prop := t'.height = t.height ∨ t'.height + 1 = t.height

theorem rotate_grown (hb : (node v l r h).Balanced) (hl' : l'.Balanced) (hr' : r'.Balanced)
    (hc : (Grown l l' ∧ r'.height = r.height) ∨ (l'.height = l.height ∧ Grown r r')) :
    ∃ t', rotate (updateCachedHeight (node v l' r' h)) = some t' ∧ t'.Balanced ∧
      t'.toList = l'.toList ++ v :: r'.toList ∧ Grown (node v l r h) t' := by
  obtain ⟨_, _, hh, h1, h2⟩ := hb
  unfold Grown at *
  obtain ⟨t', ht, hbt, hlist, h3, h4, h5⟩ := rotate_spec hl' hr' (by omega) (by omega)
  exact ⟨t', ht, hbt, hlist, by rw [height_node]; omega⟩

theorem rotate_shrunk (hb : (node v l r h).Balanced) (hl' : l'.Balanced) (hr' : r'.Balanced)
    (hc : (Shrunk l l' ∧ r'.height = r.height) ∨ (l'.height = l.height ∧ Shrunk r r')) {w : α} {k : Nat} :
    ∃ t', rotate (updateCachedHeight (node w l' r' k)) = some t' ∧ t'.Balanced ∧
      t'.toList = l'.toList ++ w :: r'.toList ∧ Shrunk (node v l r h) t' := by
  obtain ⟨_, _, hh, h1, h2⟩ := hb
  unfold Shrunk at *
  obtain ⟨t', ht, hbt, hlist, h3, h4, h5⟩ := rotate_spec hl' hr' (by omega) (by omega)
  exact ⟨t', ht, hbt, hlist, by rw [height_node]; omega⟩

/-! ## Deleting the root -/

theorem getNewRoot_spec : ∀ {v : α} {l r : AvlTree α} {h : Nat}, (node v l r h).Balanced →
    ∃ m hm rest, getNewRoot (node v l r h) = some (node m nil nil hm, rest) ∧
      (node v l r h).toList = m :: rest.toList ∧ rest.Balanced ∧ Shrunk (node v l r h) rest := by
  intro v l
  induction l generalizing v with
  | nil =>
    intro r h hb
    obtain ⟨_, hr, hh, h1, h2⟩ := hb
    refine ⟨v, h, r, rfl, by simp, hr, ?_⟩
    simp only [Shrunk, height_node, height_nil] at *
    omega
  | node lv ll lr lh ihl _ =>
    intro r h hb
    obtain ⟨m, hm, rest, hg, hlist, hrest, hs⟩ := ihl hb.1
    obtain ⟨t', ht, hbt, hlist', hs'⟩ := rotate_shrunk (w := v) (k := h) hb hrest hb.2.1 (.inl ⟨hs, rfl⟩)
    refine ⟨m, hm, t', by simp [getNewRoot, hg, ht], ?_, hbt, hs'⟩
    rw [toList_node, hlist, hlist', List.cons_append]

theorem deleteRoot_spec (hb : (node v l r h).Balanced) : ∃ t', deleteRoot (node v l r h) = some t' ∧ t'.Balanced ∧
      t'.toList = l.toList ++ r.toList ∧ Shrunk (node v l r h) t' := by
  have hb' := hb
  obtain ⟨hl, hr, hh, h1, h2⟩ := hb
  cases l with
  | nil =>
    refine ⟨r, by cases r <;> rfl, hr, by simp, ?_⟩
    simp only [Shrunk, height_node, height_nil] at *
    omega
  | node lv ll lr lh =>
    cases r with
    | nil =>
      refine ⟨_, rfl, hl, by simp, ?_⟩
      simp only [Shrunk, height_node, height_nil] at *
      omega
    | node rv rl rr rh =>
      obtain ⟨m, hm, rest, hg, hlist, hrest, hs⟩ := getNewRoot_spec hr
      obtain ⟨t', ht, hbt, hlist', hs'⟩ := rotate_shrunk (w := m) (k := hm) hb' hl hrest (.inr ⟨rfl, hs⟩)
      refine ⟨t', by simp [deleteRoot, combineSubtrees, hg, ht], hbt, ?_, hs'⟩
      rw [hlist', hlist]

end AvlTree

end RustVmm.Lib
