import Mathlib.Data.List.Basic
import Mathlib.Data.List.Induction

/-!
# Values packed in bytes

Values of a fixed size, one after the other from the start of a byte string.  What follows the last whole value has no
meaning.

* `view_set`, `view_fill`, `view_append` — the values after the bytes were changed.
* `retainInv_retain` — the values that `retain` moves to the front are those that `keep` selects.
-/

set_option autoImplicit false

namespace RustVmm.Lib

open List

/-- Values of a fixed size. -/
structure Codec (α : Type) where
  size : Nat
  encode : α → List UInt8
  decode : List UInt8 → α
  size_pos : 0 < size
  length_encode : ∀ a, (encode a).length = size
  decode_encode : ∀ a, decode (encode a) = a

namespace Codec

variable {α : Type} (c : Codec α)

def get (bytes : List UInt8) (i : Nat) : α := c.decode ((bytes.drop (i * c.size)).take c.size)

def set (bytes : List UInt8) (i : Nat) (a : α) : List UInt8 :=
  bytes.take (i * c.size) ++ (c.encode a ++ bytes.drop ((i + 1) * c.size))

def view (bytes : List UInt8) (n : Nat) : List α := (List.range n).map (c.get bytes)

/-- The first values replaced. -/
def fill (bytes : List UInt8) (as : List α) : List UInt8 := as.flatMap c.encode ++ bytes.drop (as.length * c.size)

variable {c} {bytes : List UInt8} {i j m n : Nat} {a : α}

@[simp] theorem length_view : (c.view bytes n).length = n := by simp [view]

theorem view_succ : c.view bytes (n + 1) = c.view bytes n ++ [c.get bytes n] := by
  simp [view, range_succ]

theorem view_congr {bytes' : List UInt8} (h : ∀ i < n, c.get bytes' i = c.get bytes i) :
    c.view bytes' n = c.view bytes n := by
  refine map_congr_left fun i hi => h i (mem_range.1 hi)

theorem end_le (h : i < j) : i * c.size + c.size ≤ j * c.size := by
  rw [← Nat.succ_mul]
  exact Nat.mul_le_mul_right _ h

theorem get_take (h : i * c.size + c.size ≤ m) : c.get (bytes.take m) i = c.get bytes i := by
  unfold get
  rw [drop_take, take_take, Nat.min_eq_left (by omega)]

theorem view_take (bytes : List UInt8) (h : n * c.size ≤ m) : c.view (bytes.take m) n = c.view bytes n :=
  view_congr fun _ hi => get_take (Nat.le_trans (end_le hi) h)

theorem view_append (h : n * c.size ≤ bytes.length) (rest : List UInt8) :
    c.view (bytes ++ rest) n = c.view bytes n := by
  rw [← view_take (bytes ++ rest) h, take_left]

/-! ## One value -/

theorem length_set (h : i * c.size + c.size ≤ bytes.length) (a : α) : (c.set bytes i a).length = bytes.length := by
  unfold set
  rw [Nat.succ_mul]
  simp only [length_append, length_take, length_drop, c.length_encode]
  omega

theorem get_set_same (h : i * c.size ≤ bytes.length) : c.get (c.set bytes i a) i = a := by
  have hlen : (bytes.take (i * c.size)).length = i * c.size := by
    rw [length_take]
    omega
  unfold get set
  rw [drop_left' hlen, take_left' (c.length_encode a), c.decode_encode]

theorem get_set_of_lt (h : i < j) (hlen : i * c.size + c.size ≤ bytes.length) :
    c.get (c.set bytes i a) j = c.get bytes j := by
  have hfront : (bytes.take (i * c.size) ++ c.encode a).length = (i + 1) * c.size := by
    rw [length_append, length_take, c.length_encode, Nat.succ_mul]
    omega
  have hle : (i + 1) * c.size ≤ j * c.size := Nat.mul_le_mul_right _ h
  unfold get set
  rw [← append_assoc, drop_append, drop_of_length_le (hfront ▸ hle), nil_append, hfront,
    drop_drop, Nat.add_sub_cancel' hle]

theorem view_set (h : n * c.size ≤ bytes.length) : c.view (c.set bytes n a) (n + 1) = c.view bytes n ++ [a] := by
  have hlen : (bytes.take (n * c.size)).length = n * c.size := by
    rw [length_take]
    omega
  have hfront : c.view (c.set bytes n a) n = c.view bytes n := by
    rw [← view_take bytes (Nat.le_refl (n * c.size))]
    exact view_append (Nat.le_of_eq hlen.symm) _
  rw [view_succ, hfront, get_set_same h]

/-! ## Many values -/

theorem length_flatMap_encode (as : List α) : (as.flatMap c.encode).length = as.length * c.size := by
  induction as with
  | nil => exact (Nat.zero_mul _).symm
  | cons a as ih => rw [flatMap_cons, length_append, c.length_encode, ih, length_cons, Nat.succ_mul, Nat.add_comm]

theorem length_fill {as : List α} (h : as.length * c.size ≤ bytes.length) :
    (c.fill bytes as).length = bytes.length := by
  unfold fill
  rw [length_append, length_flatMap_encode, length_drop]
  omega

theorem view_flatMap_encode (as : List α) (rest : List UInt8) :
    c.view (as.flatMap c.encode ++ rest) as.length = as := by
  induction as using reverseRecOn generalizing rest with
  | nil => rfl
  | append_singleton as a ih =>
    have hlen : (as.flatMap c.encode).length = as.length * c.size := length_flatMap_encode as
    rw [flatMap_append, append_assoc, length_append, length_singleton, view_succ, ih]
    unfold get
    rw [drop_left' hlen, flatMap_singleton, take_left' (c.length_encode a), c.decode_encode]

theorem view_fill (bytes : List UInt8) (as : List α) : c.view (c.fill bytes as) as.length = as :=
  view_flatMap_encode as _

theorem view_fill_of_le (bytes : List UInt8) {as : List α} (h : n ≤ as.length) :
    c.view (c.fill bytes as) n = as.take n := by
  have hview := congrArg (take n) (view_fill (c := c) bytes as)
  unfold view at hview ⊢
  rwa [← map_take, take_range, Nat.min_eq_left h] at hview

theorem view_replicate {z : α} {len : Nat} (hz : c.decode (.replicate c.size 0) = z) (h : n * c.size ≤ len) :
    c.view (.replicate len 0) n = .replicate n z := by
  refine eq_replicate_iff.2 ⟨length_view, fun a ha => ?_⟩
  obtain ⟨i, hi, rfl⟩ := mem_map.1 ha
  have hend : i * c.size + c.size ≤ len := Nat.le_trans (end_le (mem_range.1 hi)) h
  unfold get
  rw [drop_replicate, take_replicate, Nat.min_eq_left (by omega), hz]

/-! ## Keeping some of the values -/

end Codec

/-- The values that a predicate keeps, which may look at those it has seen before. -/
def keep {α : Type} (f : List α → α → Bool) (seen : List α) : List α → List α
  | [] => []
  | a :: as => if f seen a then a :: keep f (seen ++ [a]) as else keep f (seen ++ [a]) as

theorem keep_append {α : Type} (f : List α → α → Bool) (seen as bs : List α) :
    keep f seen (as ++ bs) = keep f seen as ++ keep f (seen ++ as) bs := by
  induction as generalizing seen with
  | nil => rw [append_nil]; rfl
  | cons a as ih =>
    have hrest := ih (seen ++ [a])
    rw [append_assoc] at hrest
    rw [cons_append, keep, keep, hrest]
    split <;> rfl

namespace Codec

variable {α : Type} (c : Codec α)

/-- What the loop of `retain` works on. -/
structure Retained (α : Type) where
  bytes : List UInt8
  numKept : Nat
  /-- The values that the predicate has been called with. -/
  seen : List α

/-- One turn: the value at an index is moved behind those kept, if the predicate says so. -/
def retainStep (f : List α → α → Bool) (r : Retained α) (i : Nat) : Retained α :=
  let a := c.get r.bytes i
  if f r.seen a then ⟨c.set r.bytes r.numKept a, r.numKept + 1, r.seen ++ [a]⟩
  else { r with seen := r.seen ++ [a] }

def retain (f : List α → α → Bool) (bytes : List UInt8) (n : Nat) : Retained α :=
  (List.range n).foldl (c.retainStep f) ⟨bytes, 0, []⟩

variable {c} {f : List α → α → Bool} {bytes : List UInt8} {n : Nat}

/-- After some turns, the values kept so far are at the front, and the others have not been touched. -/
structure RetainInv (c : Codec α) (f : List α → α → Bool) (bytes : List UInt8) (n : Nat) (r : Retained α) : Prop where
  length_eq : r.bytes.length = bytes.length
  numKept_le : r.numKept ≤ n
  seen_eq : r.seen = c.view bytes n
  view_eq : c.view r.bytes r.numKept = keep f [] (c.view bytes n)
  rest_eq : ∀ i, n ≤ i → c.get r.bytes i = c.get bytes i

theorem RetainInv.next {r : Retained α} (h : RetainInv c f bytes n r) (hn : n * c.size + c.size ≤ bytes.length) :
    RetainInv c f bytes (n + 1) (c.retainStep f r n) := by
  obtain ⟨hlen, hkept, hseen, hview, hrest⟩ := h
  have hget : c.get r.bytes n = c.get bytes n := hrest n (Nat.le_refl n)
  -- the place behind the kept values is not behind the one that is looked at
  have hplace : r.numKept * c.size + c.size ≤ r.bytes.length := by
    have hmul : r.numKept * c.size ≤ n * c.size := Nat.mul_le_mul_right _ hkept
    omega
  have hkeep : keep f [] (c.view bytes (n + 1)) =
      keep f [] (c.view bytes n) ++ if f (c.view bytes n) (c.get bytes n) then [c.get bytes n] else [] := by
    rw [view_succ, keep_append]
    rfl
  unfold retainStep
  rw [hget, hseen]
  dsimp only
  split
  · rename_i hf
    refine ⟨?_, Nat.succ_le_succ hkept, view_succ.symm, ?_, fun i hi => ?_⟩
    · rw [length_set hplace, hlen]
    · rw [view_set (Nat.le_trans (Nat.le_add_right _ _) hplace), hview, hkeep, if_pos hf]
    · rw [get_set_of_lt (by omega) hplace]
      exact hrest i (by omega)
  · rename_i hf
    refine ⟨hlen, Nat.le_succ_of_le hkept, view_succ.symm, ?_, fun i hi => hrest i (by omega)⟩
    rw [hview, hkeep, if_neg hf, append_nil]

theorem retainInv_retain (h : n * c.size ≤ bytes.length) : RetainInv c f bytes n (c.retain f bytes n) := by
  induction n with
  | zero => exact ⟨rfl, Nat.le_refl 0, rfl, rfl, fun _ _ => rfl⟩
  | succ n ih =>
    rw [Nat.succ_mul] at h
    unfold retain
    rw [range_succ, foldl_append]
    exact (ih (by omega)).next h

end Codec

end RustVmm.Lib
