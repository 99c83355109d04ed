import Mathlib.Data.Set.Basic
import RustVmm.Lib.Outcome
import RustVmm.Lib.Run
import RustVmm.VmMemory.Bitmap

/-!
# A bitmap is a set of pages

`PageSet` is the purpose of an `AtomicBitmap` in its own terms: a set of page numbers and the calls on it.

* `BitmapCall.words` are the calls with each index into the words and each addition checked; `BitmapCall.words_eq`:
  they do not panic, and give the words of the plain calls.
* `Represents.next` — one call keeps words and set in step, hence any calls do (`represents_run`).
* `bitmap_is_page_set` — after any calls on a new bitmap, the bits that can be read are those of the set.
-/

set_option autoImplicit false

namespace RustVmm.VmMemory

open Lib BitWords

/-! ## Sets of pages -/

/-- The dirty pages among those of the first `byteSize` bytes. -/
structure PageSet where
  pageSize : Nat
  byteSize : Nat
  pages : Set Nat

/-- A call with arguments of type `usize`. -/
inductive BitmapCall where
  | setAddrRange (startAddr len : UInt64)
  | resetAddrRange (startAddr len : UInt64)
  | setBit (index : UInt64)
  | resetBit (index : UInt64)
  | enlarge (additionalSize : UInt64)
  | getAndReset
  | reset
  deriving DecidableEq, Repr

namespace PageSet

def empty (byteSize pageSize : Nat) : PageSet := ⟨pageSize, byteSize, ∅⟩

/-- Some byte is on the page. -/
def HasPage (s : PageSet) (page : Nat) : Prop := page * s.pageSize < s.byteSize

/-- The page has an address of the range; the range ends at the top of the address space. -/
def Meets (s : PageSet) (startAddr len : UInt64) (page : Nat) : Prop :=
  ∃ addr, startAddr.toNat ≤ addr ∧ addr < startAddr.toNat + len.toNat ∧ addr ≤ U64_MAX ∧ addr / s.pageSize = page

/-- What a call means. -/
def step (s : PageSet) : BitmapCall → PageSet
  | .setAddrRange startAddr len =>
    { s with pages := s.pages ∪ {page | s.HasPage page ∧ s.Meets startAddr len page} }
  | .resetAddrRange startAddr len =>
    { s with pages := s.pages \ {page | s.HasPage page ∧ s.Meets startAddr len page} }
  | .setBit index => { s with pages := s.pages ∪ {page | s.HasPage page ∧ page = index.toNat} }
  | .resetBit index => { s with pages := s.pages \ {page | s.HasPage page ∧ page = index.toNat} }
  | .enlarge additionalSize => { s with byteSize := s.byteSize + additionalSize.toNat }
  | .getAndReset => { s with pages := ∅ }
  | .reset => { s with pages := ∅ }

end PageSet

/-! ## Calls on the words -/

namespace BitmapCall

def next (b : AtomicBitmap) : BitmapCall → AtomicBitmap
  | setAddrRange startAddr len => b.setAddrRange startAddr.toNat len.toNat
  | resetAddrRange startAddr len => b.resetAddrRange startAddr.toNat len.toNat
  | setBit index => b.setBit index.toNat
  | resetBit index => b.resetBit index.toNat
  | enlarge additionalSize => b.enlarge additionalSize.toNat
  | getAndReset => b.getAndReset.2
  | reset => b.reset

/-- The total size in bytes stays a `usize`. -/
def Fits (b : AtomicBitmap) : BitmapCall → Prop
  | enlarge additionalSize => b.byteSize + additionalSize.toNat ≤ U64_MAX
  | _ => True

end BitmapCall

/-- Indexing of the words: `map[n >> 6]`. -/
def checkIndex (map : List UInt64) (n : Nat) : Outcome Empty Unit :=
  if n >>> 6 < map.length then .ok () else .panic

/-- One pass of the loop of `set_reset_addr_range`, with the index. -/
def indexedSetResetBit (set : Bool) (map : List UInt64) (n : Nat) : Outcome Empty (List UInt64) := do
  checkIndex map n
  return setResetBit set map n

/-- The loop of `set_reset_addr_range`, with the indices. -/
def indexedSetResetBits (size : Nat) (set : Bool) (lastBit n : Nat) (map : List UInt64) : Outcome Empty (List UInt64) :=
  if lastBit < n then .ok map
  else if _h : size ≤ n then .ok map
  else do
    let map ← indexedSetResetBit set map n
    indexedSetResetBits size set lastBit (n + 1) map
termination_by size - n
decreasing_by omega

namespace AtomicBitmap

/-- `is_bit_set`, with the index. -/
def indexedIsBitSet (self : AtomicBitmap) (index : Nat) : Outcome Empty Bool :=
  if index < self.size then do
    checkIndex self.map index
    return BitWords.test self.map index
  else .ok false

/-- `set_reset_addr_range`, with the indices. -/
def indexedSetResetAddrRange (self : AtomicBitmap) (startAddr len : Nat) (set : Bool) : Outcome Empty (List UInt64) :=
  if len = 0 then .ok self.map
  else indexedSetResetBits self.size set (saturatingAdd startAddr (len - 1) / self.pageSize)
    (startAddr / self.pageSize) self.map

end AtomicBitmap

/-- The words after a call, with all indices and additions. -/
def BitmapCall.words (b : AtomicBitmap) : BitmapCall → Outcome Empty (List UInt64)
  | setAddrRange startAddr len => b.indexedSetResetAddrRange startAddr.toNat len.toNat true
  | resetAddrRange startAddr len => b.indexedSetResetAddrRange startAddr.toNat len.toNat false
  | setBit index =>
    if index.toNat ≥ b.size then .ok b.map else indexedSetResetBit true b.map index.toNat
  | resetBit index =>
    if index.toNat ≥ b.size then .ok b.map else indexedSetResetBit false b.map index.toNat
  | enlarge additionalSize => do
    let byteSize ← .unwrap (checkedAdd b.byteSize additionalSize.toNat)
    return resize (divCeil (divCeil byteSize b.pageSize) 64) b.map
  | getAndReset => .ok (b.map.map fun word => word &&& 0)
  | reset => .ok (List.replicate b.map.length 0)

variable {map : List UInt64} {n page : Nat}

theorem checkIndex_of_lt (h : n < 64 * map.length) : checkIndex map n = .ok () := by
  refine if_pos ?_
  omega

theorem indexedSetResetBit_eq (h : n < 64 * map.length) (set : Bool) :
    indexedSetResetBit set map n = .ok (setResetBit set map n) := by
  rw [indexedSetResetBit, checkIndex_of_lt h]
  rfl

theorem indexedSetResetBits_eq {size : Nat} (h : size ≤ 64 * map.length) (set : Bool) (lastBit n : Nat) :
    indexedSetResetBits size set lastBit n map = .ok (setResetBits size set lastBit n map) := by
  fun_induction setResetBits size set lastBit n map with
  | case1 n map hlast => rw [indexedSetResetBits, if_pos hlast]
  | case2 n map hlast hsize => rw [indexedSetResetBits, if_neg hlast, dif_pos hsize]
  | case3 n map hlast hsize ih =>
    rw [indexedSetResetBits, if_neg hlast, dif_neg hsize, indexedSetResetBit_eq (by omega)]
    exact ih (by rwa [length_setResetBit])

namespace AtomicBitmap

theorem indexedIsBitSet_eq (self : AtomicBitmap) (index : Nat) :
    self.indexedIsBitSet index = .ok (self.isBitSet index) := by
  have hsize := self.size_le
  unfold indexedIsBitSet isBitSet
  split
  · rw [checkIndex_of_lt (by omega)]
    rfl
  · rfl

theorem indexedSetResetAddrRange_eq (self : AtomicBitmap) (startAddr len : Nat) (set : Bool) :
    self.indexedSetResetAddrRange startAddr len set = .ok (self.setResetAddrRange startAddr len set).map := by
  unfold indexedSetResetAddrRange setResetAddrRange
  split
  · rfl
  · exact indexedSetResetBits_eq self.size_le _ _ _

end AtomicBitmap

theorem BitmapCall.words_eq {b : AtomicBitmap} {call : BitmapCall} (h : call.Fits b) :
    call.words b = .ok (call.next b).map := by
  have hsize := b.size_le
  cases call with
  | setAddrRange startAddr len => exact b.indexedSetResetAddrRange_eq _ _ true
  | resetAddrRange startAddr len => exact b.indexedSetResetAddrRange_eq _ _ false
  | setBit index =>
    simp only [words, next, AtomicBitmap.setBit]
    split
    · rfl
    · exact indexedSetResetBit_eq (by omega) true
  | resetBit index =>
    simp only [words, next, AtomicBitmap.resetBit]
    split
    · rfl
    · exact indexedSetResetBit_eq (by omega) false
  | enlarge additionalSize =>
    rw [words, checkedAdd_of_le h, Outcome.unwrap_some]
    rfl
  | getAndReset => rfl
  | reset => rfl

/-! ## Words and sets -/

/-- The bits are those of the pages in the set, and these pages exist. -/
structure Represents (b : AtomicBitmap) (s : PageSet) : Prop where
  pageSize : b.pageSize = s.pageSize
  byteSize : b.byteSize = s.byteSize
  test_iff : ∀ page, BitWords.test b.map page = true ↔ page ∈ s.pages
  hasPage : ∀ page ∈ s.pages, s.HasPage page

variable {b : AtomicBitmap} {s : PageSet}

theorem Represents.hasPage_iff (h : Represents b s) : s.HasPage page ↔ page < b.size := by
  rw [b.size_eq, lt_divCeil b.pageSize_pos, h.pageSize, h.byteSize]
  rfl

theorem Represents.isBitSet_iff (h : Represents b s) : b.isBitSet page = true ↔ page ∈ s.pages := by
  unfold AtomicBitmap.isBitSet
  split
  · exact h.test_iff page
  · rename_i hsize
    exact iff_of_false Bool.false_ne_true fun hpage => hsize (h.hasPage_iff.1 (h.hasPage page hpage))

theorem represents_new (byteSize pageSize : Nat) (hpos : 0 < pageSize) :
    Represents (.new byteSize pageSize hpos) (.empty byteSize pageSize) where
  pageSize := rfl
  byteSize := rfl
  test_iff page := by
    have hclear : test (AtomicBitmap.new byteSize pageSize hpos).map page = false := test_replicate_zero _ page
    rw [hclear]
    exact iff_of_false Bool.false_ne_true (Set.notMem_empty page)
  hasPage page hpage := absurd hpage (Set.notMem_empty page)

/-! ## One call -/

variable {b' : AtomicBitmap}

theorem Represents.update (h : Represents b s) (hlayout : b'.SameLayout b) {pages : Set Nat}
    (htest : ∀ page, test b'.map page = true ↔ page ∈ pages) (hpages : ∀ page ∈ pages, s.HasPage page) :
    Represents b' { s with pages := pages } :=
  ⟨hlayout.pageSize.trans h.pageSize, hlayout.byteSize.trans h.byteSize, htest, hpages⟩

theorem Represents.setReset (h : Represents b s) (hlayout : b'.SameLayout b) (set : Bool) {P : Nat → Prop}
    [DecidablePred P] (htest : ∀ page, test b'.map page = if page < b.size ∧ P page then set else test b.map page) :
    Represents b' { s with pages := bif set then s.pages ∪ {page | s.HasPage page ∧ P page}
      else s.pages \ {page | s.HasPage page ∧ P page} } := by
  refine h.update hlayout (fun page => ?_) ?_
  · rw [htest]
    cases set <;> split <;> simp_all [h.test_iff, h.hasPage_iff]
  · cases set with
    | true => exact fun page hpage => hpage.elim (h.hasPage page) And.left
    | false => exact fun page hpage => h.hasPage page hpage.1

theorem Represents.clear (h : Represents b s) (hlayout : b'.SameLayout b)
    (hmap : b'.map = List.replicate b.map.length 0) : Represents b' { s with pages := ∅ } := by
  refine h.update hlayout (fun page => ?_) fun page hpage => absurd hpage (Set.notMem_empty page)
  rw [hmap, test_replicate_zero]
  exact iff_of_false Bool.false_ne_true (Set.notMem_empty page)

namespace AtomicBitmap

theorem touches_iff_meets (h : Represents b s) (startAddr len : UInt64) (page : Nat) :
    b.Touches startAddr.toNat len.toNat page ↔ s.Meets startAddr len page := by
  have hstart : startAddr.toNat ≤ U64_MAX := Nat.le_of_lt_succ startAddr.toNat_lt
  -- the part of the range below the top has the same last address
  have hclip : b.Touches startAddr.toNat len.toNat page ↔
      b.Touches startAddr.toNat (min len.toNat (U64_MAX + 1 - startAddr.toNat)) page := by
    unfold Touches saturatingAdd
    have hsame : min (startAddr.toNat + (len.toNat - 1)) U64_MAX =
        min (startAddr.toNat + (min len.toNat (U64_MAX + 1 - startAddr.toNat) - 1)) U64_MAX := by omega
    rw [hsame]
    exact and_congr_left fun _ => by omega
  rw [hclip, touches_iff _ (by omega), h.pageSize]
  refine exists_congr fun addr => and_congr_right fun hle => ?_
  rw [← and_assoc]
  omega

variable (self : AtomicBitmap)

theorem sameLayout_setBit (index : Nat) : (self.setBit index).SameLayout self := by
  unfold setBit
  split <;> exact ⟨rfl, rfl, rfl⟩

theorem sameLayout_resetBit (index : Nat) : (self.resetBit index).SameLayout self := by
  unfold resetBit
  split <;> exact ⟨rfl, rfl, rfl⟩

theorem test_setResetBit_of_size (set : Bool) (index page : Nat) :
    test (if index ≥ self.size then self.map else setResetBit set self.map index) page =
      if page < self.size ∧ page = index then set else test self.map page := by
  have hsize := self.size_le
  split
  · rw [if_neg (by omega)]
  · rw [test_setResetBit (by omega)]
    exact if_congr (by omega) rfl rfl

theorem map_length_le_enlarge (additionalSize : Nat) :
    self.map.length ≤ divCeil (divCeil (self.byteSize + additionalSize) self.pageSize) 64 := by
  have hmono : ∀ {a a' n : Nat}, 0 < n → a ≤ a' → divCeil a n ≤ divCeil a' n := by
    intro a a' n hn ha
    by_contra hlt
    have := (lt_divCeil hn).1 (Nat.not_le.1 hlt)
    have := mt (lt_divCeil (a := a') hn).2 (Nat.lt_irrefl _)
    omega
  rw [self.map_length, self.size_eq]
  exact hmono (by decide) (hmono self.pageSize_pos (Nat.le_add_right _ _))

theorem test_enlarge (additionalSize page : Nat) :
    test (self.enlarge additionalSize).map page = test self.map page := by
  show test (resize _ self.map) page = _
  rw [resize, List.take_of_length_le (self.map_length_le_enlarge additionalSize)]
  exact test_append_replicate_zero _ _ _

end AtomicBitmap

theorem Represents.next (h : Represents b s) (call : BitmapCall) : Represents (call.next b) (s.step call) := by
  cases call with
  | setAddrRange startAddr len =>
    simp only [PageSet.step, ← AtomicBitmap.touches_iff_meets h]
    exact h.setReset (b.sameLayout_setResetAddrRange _ _ true) true (b.test_setResetAddrRange _ _ true)
  | resetAddrRange startAddr len =>
    simp only [PageSet.step, ← AtomicBitmap.touches_iff_meets h]
    exact h.setReset (b.sameLayout_setResetAddrRange _ _ false) false (b.test_setResetAddrRange _ _ false)
  | setBit index =>
    refine h.setReset (b.sameLayout_setBit _) true (P := (· = index.toNat)) fun page => ?_
    rw [AtomicBitmap.setBit, apply_ite AtomicBitmap.map]
    exact b.test_setResetBit_of_size true _ page
  | resetBit index =>
    refine h.setReset (b.sameLayout_resetBit _) false (P := (· = index.toNat)) fun page => ?_
    rw [AtomicBitmap.resetBit, apply_ite AtomicBitmap.map]
    exact b.test_setResetBit_of_size false _ page
  | enlarge additionalSize =>
    refine ⟨h.pageSize, congrArg (· + additionalSize.toNat) h.byteSize, fun page => ?_, fun page hpage => ?_⟩
    · rw [BitmapCall.next, b.test_enlarge]
      exact h.test_iff page
    · exact Nat.lt_of_lt_of_le (h.hasPage page hpage) (Nat.le_add_right _ _)
  | getAndReset =>
    refine h.clear ⟨rfl, rfl, rfl⟩ ?_
    show b.map.map (fun word => word &&& 0) = _
    simp only [UInt64.and_zero, List.map_const']
  | reset => exact h.clear ⟨rfl, rfl, rfl⟩ rfl

/-! ## Any calls -/

theorem represents_run (h : Represents b s) (calls : List BitmapCall) :
    Represents (run BitmapCall.next b calls) (run PageSet.step s calls) := by
  induction calls generalizing b s with
  | nil => exact h
  | cons call calls ih => exact ih (h.next call)

/-- **A bitmap is a set of pages.**  After any calls on a new bitmap, `is_bit_set` says which pages are in the
set, which all exist; the words that `get_and_reset` returns have exactly the bits of these pages; and no index
was out of bounds. -/
theorem bitmap_is_page_set (byteSize pageSize : UInt64) (hpos : 0 < pageSize.toNat) (calls : List BitmapCall)
    (hfits : Along BitmapCall.next (fun b call => call.Fits b) (.new byteSize.toNat pageSize.toNat hpos) calls) :
    let b := run BitmapCall.next (.new byteSize.toNat pageSize.toNat hpos) calls
    let s := run PageSet.step (.empty byteSize.toNat pageSize.toNat) calls
    (∀ page, ∃ set, b.indexedIsBitSet page = .ok set ∧ (set = true ↔ page ∈ s.pages)) ∧
    (∀ page ∈ s.pages, s.HasPage page) ∧
    (∀ page, (b.getAndReset.1.getD (page / 64) 0).toNat.testBit (page % 64) = true ↔ page ∈ s.pages) ∧
    Along BitmapCall.next (fun b call => call.words b = .ok (call.next b).map)
      (.new byteSize.toNat pageSize.toNat hpos) calls := by
  intro b s
  have hrep : Represents b s := represents_run (represents_new _ _ hpos) calls
  refine ⟨fun page => ⟨_, b.indexedIsBitSet_eq page, hrep.isBitSet_iff⟩, hrep.hasPage, fun page => ?_, ?_⟩
  · rw [← hrep.test_iff, test_eq_testBit, word, Nat.shiftRight_eq_div_pow]
    rfl
  · exact hfits.mono fun _ _ h => BitmapCall.words_eq h

/-- The last of eight pages is marked, the bitmap is enlarged, and one of the new pages is marked. -/
def markedAndEnlarged : List BitmapCall := [.setAddrRange 999 1, .enlarge 100000, .setBit 700]

theorem bitmap_is_page_set_enlarged :
    Along BitmapCall.next (fun b call => call.Fits b) (.new 1000 128 (by decide)) markedAndEnlarged ∧
    ∀ page, ∃ set, (run BitmapCall.next (.new 1000 128 (by decide)) markedAndEnlarged).indexedIsBitSet page = .ok set ∧
        (set = true ↔ page ∈ (run PageSet.step (.empty 1000 128) markedAndEnlarged).pages) := by
  have hfits : Along BitmapCall.next (fun b call => call.Fits b) (.new 1000 128 (by decide))
      markedAndEnlarged := by
    have hroom : 1000 + 100000 ≤ U64_MAX := by decide
    exact ⟨trivial, hroom, trivial, trivial⟩
  exact ⟨hfits, (bitmap_is_page_set 1000 128 (by decide) markedAndEnlarged hfits).1⟩

end RustVmm.VmMemory
