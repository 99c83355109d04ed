import Mathlib.Algebra.Order.BigOperators.Group.List
import Mathlib.Data.UInt
import Mathlib.Tactic.Ring
import RustVmm.Lib.Parser

/-!
# Records laid end to end

A binary table is a header and a sequence of records, each of which states its own length.

* `sum_eq_zero_iff`, `sum_set` — the sum of the bytes modulo 256, and a change of one byte.
* `fieldAt_of_eq` — a little-endian field at an offset.
* `walk_flatten_iff` — a reader that goes by the lengths finds the records exactly if each states its own.
-/

set_option autoImplicit false

namespace RustVmm.Lib

open List

open Lib.Parser (leBytes ofLeBytes length_leBytes ofLeBytes_leBytes)

/-! ## Sums of bytes -/

theorem foldl_add_eq (bytes : List UInt8) (b : UInt8) : bytes.foldl (· + ·) b = b + bytes.sum := by
  induction bytes generalizing b with
  | nil => simp
  | cons x xs ih =>
    grind

theorem foldl_sub_eq (bytes : List UInt8) (b : UInt8) : bytes.foldl (· - ·) b = b - bytes.sum := by
  induction bytes generalizing b with
  | nil => simp
  | cons x xs ih =>
    grind

theorem toNat_sum (bytes : List UInt8) : bytes.sum.toNat = (bytes.map UInt8.toNat).sum % 256 := by
  induction bytes with
  | nil => rfl
  | cons x xs ih =>
    rw [sum_cons, UInt8.toNat_add, map_cons, sum_cons]
    omega

theorem sum_eq_zero_iff (bytes : List UInt8) : bytes.sum = 0 ↔ (bytes.map UInt8.toNat).sum % 256 = 0 := by
  rw [← toNat_sum, ← UInt8.toNat_inj]
  rfl

variable {bytes : List UInt8} {i offset width : Nat}

theorem sum_set (h : i < bytes.length) (b : UInt8) : (bytes.set i b).sum = bytes.sum - bytes[i] + b := by
  induction bytes generalizing i with
  | nil => simp at h
  | cons x xs ih =>
    cases i with
    | zero =>
      grind
    | succ i =>
      simp only [set_cons_succ, sum_cons, getElem_cons_succ]
      grind

theorem sum_flatMap {α : Type} (f : α → List UInt8) (xs : List α) :
    (xs.flatMap f).sum = (xs.map fun x => (f x).sum).sum := by
  rw [flatMap_def, sum_flatten, map_map]
  rfl

/-! ## Fields -/

/-- The little-endian number at an offset. -/
def fieldAt (bytes : List UInt8) (offset width : Nat) : Option Nat :=
  if offset + width ≤ bytes.length then some (ofLeBytes ((bytes.drop offset).take width)) else none

theorem fieldAt_of_eq (before after : List UInt8) {v : Nat} (hbytes : bytes = before ++ leBytes width v ++ after)
    (hoffset : before.length = offset) (hv : v < 256 ^ width) : fieldAt bytes offset width = some v := by
  have hlen : offset + width ≤ bytes.length := by
    rw [hbytes, length_append, length_append, length_leBytes]
    omega
  have hdrop : bytes.drop offset = leBytes width v ++ after := by
    rw [hbytes, ← hoffset, append_assoc, drop_left]
  have htake : (leBytes width v ++ after).take width = leBytes width v := by
    rw [take_append_of_le_length (by rw [length_leBytes]), take_of_length_le (by rw [length_leBytes])]
  rw [fieldAt, if_pos hlen, hdrop, htake, ofLeBytes_leBytes width v hv]

theorem fieldAt_append {rest : List UInt8} (h : offset + width ≤ bytes.length) :
    fieldAt (bytes ++ rest) offset width = fieldAt bytes offset width := by
  have hlen : offset + width ≤ (bytes ++ rest).length := by
    rw [length_append]
    omega
  rw [fieldAt, fieldAt, if_pos hlen, if_pos h, drop_append_of_le_length (by omega),
    take_append_of_le_length (by rw [length_drop]; omega)]

theorem fieldAt_set (h : offset + width ≤ i) (b : UInt8) :
    fieldAt (bytes.set i b) offset width = fieldAt bytes offset width := by
  have hfield : ((bytes.set i b).drop offset).take width = (bytes.drop offset).take width := by
    rw [drop_set, if_neg (by omega), take_set_of_le (by omega)]
  rw [fieldAt, fieldAt, length_set, hfield]

/-! ## Sizes of records -/

variable {α β : Type}

theorem length_le_length_flatMap {f : α → List β} {x : α} {xs : List α} (h : x ∈ xs) :
    (f x).length ≤ (xs.flatMap f).length := by
  rw [length_flatMap]
  exact le_sum_of_mem (mem_map_of_mem h)

theorem length_flatMap_le {f : α → List β} {xs ys : List α} (h : xs <+: ys) :
    (xs.flatMap f).length ≤ (ys.flatMap f).length := by
  obtain ⟨rest, rfl⟩ := h
  simp

theorem length_le_of_ne_nil {f : α → List β} (hne : ∀ x, f x ≠ []) (xs : List α) :
    xs.length ≤ (xs.flatMap f).length := by
  rw [length_flatMap, ← length_map]
  refine length_le_sum_of_one_le _ fun n hn => ?_
  obtain ⟨x, _, rfl⟩ := mem_map.1 hn
  exact length_pos_iff.2 (hne x)

theorem length_flatMap_const {f : α → List β} {n : Nat} (h : ∀ a, (f a).length = n) (xs : List α) :
    (xs.flatMap f).length = n * xs.length := by
  induction xs with
  | nil => rfl
  | cons x xs ih =>
    rw [flatMap_cons, length_append, h, ih, length_cons]
    ring

/-! ## Walks -/

section Walk

variable {α : Type} (size : List α → Option Nat)

def walk : List α → Option (List (List α))
  | [] => some []
  | x :: xs =>
    match size (x :: xs) with
    | none => none
    | some n =>
      if _h : 0 < n ∧ n ≤ (x :: xs).length then
        (walk ((x :: xs).drop n)).map ((x :: xs).take n :: ·)
      else none
termination_by xs => xs.length
decreasing_by
  rw [List.length_drop]
  omega

variable {size}

@[simp] theorem walk_nil : walk size [] = some [] := by
  rw [walk]

theorem walk_eq {xs : List α} (hne : xs ≠ []) : walk size xs =
      match size xs with
      | none => none
      | some n => if 0 < n ∧ n ≤ xs.length then (walk size (xs.drop n)).map (xs.take n :: ·) else none := by
  cases xs with
  | nil => exact absurd rfl hne
  | cons x xs =>
    rw [walk]
    split <;> rfl

variable {records : List (List α)}

theorem walk_append_iff {record rest : List α} (hne : record ≠ []) :
    walk size (record ++ rest) = some (record :: records) ↔
      size (record ++ rest) = some record.length ∧ walk size rest = some records := by
  have hpos := length_pos_iff.2 hne
  rw [walk_eq (append_ne_nil_of_left_ne_nil hne _)]
  constructor
  · intro h
    split at h
    · cases h
    · rename_i n hn
      split at h
      · obtain ⟨rs, hrs, heq⟩ := Option.map_eq_some_iff.1 h
        obtain ⟨htake, hrecords⟩ := cons.inj heq
        have hlen : n = record.length := by
          rw [← htake, length_take]
          omega
        subst hlen
        rw [drop_left] at hrs
        exact ⟨hn, hrecords ▸ hrs⟩
      · cases h
  · rintro ⟨hsize, hrest⟩
    have hle : 0 < record.length ∧ record.length ≤ (record ++ rest).length := by
      rw [length_append]
      omega
    rw [hsize]
    dsimp only
    rw [if_pos hle, drop_left, take_left, hrest]
    rfl

theorem walk_flatten_iff (hne : ∀ r ∈ records, r ≠ []) (hlocal : ∀ r ∈ records, ∀ rest, size (r ++ rest) = size r) :
    walk size records.flatten = some records ↔ ∀ r ∈ records, size r = some r.length := by
  induction records with
  | nil => simp
  | cons r rs ih =>
    obtain ⟨hr, hrs⟩ := forall_mem_cons.1 hne
    obtain ⟨hrlocal, hrslocal⟩ := forall_mem_cons.1 hlocal
    rw [flatten_cons, walk_append_iff hr, hrlocal, ih hrs hrslocal, forall_mem_cons]

end Walk

theorem walk_fieldAt_iff {records : List (List UInt8)} (hwidth : 0 < offset + width)
    (hlong : ∀ r ∈ records, offset + width ≤ r.length) :
    walk (fieldAt · offset width) records.flatten = some records ↔
      ∀ r ∈ records, fieldAt r offset width = some r.length := by
  refine walk_flatten_iff (fun r hr hnil => ?_) fun r hr rest => fieldAt_append (hlong r hr)
  have hlen := hlong r hr
  rw [hnil, length_nil] at hlen
  omega

section Positions

variable {α β : Type} (before : List β) (f : α → List β) {xs : List α}

theorem split_at_record (h : i < xs.length) : before ++ xs.flatMap f =
    (before ++ (xs.take i).flatMap f) ++ f xs[i] ++ (xs.drop (i + 1)).flatMap f := by
  have hxs : xs = xs.take i ++ xs[i] :: xs.drop (i + 1) := by simp
  have hflat := congrArg (flatMap f) hxs
  rw [flatMap_append, flatMap_cons] at hflat
  rw [hflat, append_assoc, append_assoc]

theorem take_drop_record (h : i < xs.length) :
    ((before ++ xs.flatMap f).drop (before ++ (xs.take i).flatMap f).length).take (f xs[i]).length = f xs[i] := by
  rw [split_at_record before f h, append_assoc, drop_left, take_left]

theorem positions_append (start : Nat) (xs : List α) (x : α) :
    (range (xs ++ [x]).length).map (fun i => start + (((xs ++ [x]).take i).flatMap f).length) =
      (range xs.length).map (fun i => start + ((xs.take i).flatMap f).length) ++
        [start + (xs.flatMap f).length] := by
  have hold : (range xs.length).map (fun i => start + (((xs ++ [x]).take i).flatMap f).length) =
      (range xs.length).map fun i => start + ((xs.take i).flatMap f).length := by
    refine map_congr_left fun i hi => ?_
    rw [take_append_of_le_length (mem_range.1 hi).le]
  rw [length_append, length_singleton, range_succ, map_append, hold, map_singleton, take_left]

end Positions

end RustVmm.Lib
