import RustVmm.Lib.Outcome
import RustVmm.Lib.U64

/-!
# Zeroes written to a stream

Model of the trait `WriteZeroes` of `vmm-sys-util/src/linux/write_zeroes.rs`.

* `writeAllZeroes_eq_ok` — the loop that succeeds makes one attempt that is not interrupted.
* `write_all_zeroes_exact_iff` — when it has written all of the zeroes.
-/

set_option autoImplicit false

namespace RustVmm.VmmSysUtil

open Lib

/-- `std::io::ErrorKind`; those that are not told apart are `other`. -/
inductive ErrorKind where
  | interrupted
  | writeZero
  | other
  deriving DecidableEq, Repr

class WriteZeroesAt (T : Type) where
  writeZeroesAt : (offset length : Nat) → Exec T ErrorKind Nat

/-- `std::io::Seek`, for `SeekFrom::Current`. -/
class Seek (T : Type) where
  seek : (offset : Int) → Exec T ErrorKind Nat
  streamPosition : Exec T ErrorKind Nat := seek 0

/-- `num_written as i64`. -/
def asI64 (n : Nat) : Int := (BitVec.ofNat 64 n).toInt

section Model

variable {T : Type} [WriteZeroesAt T] [Seek T]

/-- `WriteZeroes::write_zeroes`, for `T: WriteZeroesAt + Seek`. -/
def writeZeroes (length : Nat) : Exec T ErrorKind Nat := do
  let offset ← Seek.streamPosition
  let numWritten ← WriteZeroesAt.writeZeroesAt offset length
  let _ ← Seek.seek (asI64 numWritten)
  pure length

/-- `WriteZeroes::write_all_zeroes`, with a number of attempts. -/
def writeAllZeroes : (attempts length : Nat) → T → Option (Outcome ErrorKind Unit × T)
  | 0, length, t => if length = 0 then some (.ok (), t) else none
  | attempts + 1, length, t =>
    if length = 0 then some (.ok (), t)
    else
      match writeZeroes length t with
      | (.ok 0, t') => some (.err .writeZero, t')
      | (.ok bytesWritten, t') =>
        match checkedSub length bytesWritten with
        | none => some (.err .other, t')
        | some length' => writeAllZeroes attempts length' t'
      | (.err e, t') => if e ≠ .interrupted then some (.err e, t') else writeAllZeroes attempts length t'
      | (.panic, t') => some (.panic, t')

/-! ## The attempt that ends the loop -/

inductive Interrupted (length : Nat) : T → T → Prop
  | none (t : T) : Interrupted length t t
  | again {t t' t'' : T} : writeZeroes length t = (.err .interrupted, t') → Interrupted length t' t'' →
    Interrupted length t t''

/-- An attempt that succeeds, and the number of bytes that `write_zeroes_at` has counted. -/
def Attempt (length : Nat) (t t' : T) (numWritten : Nat) : Prop :=
  ∃ offset u v p, Seek.streamPosition t = (.ok offset, u) ∧
    WriteZeroesAt.writeZeroesAt offset length u = (.ok numWritten, v) ∧
    Seek.seek (asI64 numWritten) v = (.ok p, t')

theorem writeZeroes_eq_ok {length written : Nat} {t t' : T} (h : writeZeroes length t = (.ok written, t')) :
    written = length ∧ ∃ numWritten, Attempt length t t' numWritten := by
  obtain ⟨offset, u, hpos, h⟩ := Exec.bind_eq_ok h
  obtain ⟨n, v, hwrite, h⟩ := Exec.bind_eq_ok h
  obtain ⟨p, t'', hseek, h⟩ := Exec.bind_eq_ok h
  cases h
  exact ⟨rfl, n, offset, u, v, p, hpos, hwrite, hseek⟩

theorem writeAllZeroes_zero (attempts : Nat) (t : T) : writeAllZeroes attempts 0 t = some (.ok (), t) := by
  cases attempts <;> rfl

theorem writeAllZeroes_eq_ok {attempts length : Nat} {t t' : T} (hlength : length ≠ 0)
    (h : writeAllZeroes attempts length t = some (.ok (), t')) :
    ∃ s numWritten, Interrupted length t s ∧ Attempt length s t' numWritten := by
  induction attempts generalizing t with
  | zero =>
    unfold writeAllZeroes at h
    rw [if_neg hlength] at h
    cases h
  | succ attempts ih =>
    unfold writeAllZeroes at h
    rw [if_neg hlength] at h
    split at h
    · cases h
    · rename_i written u _ hwrite
      obtain ⟨rfl, n, hattempt⟩ := writeZeroes_eq_ok hwrite
      rw [checkedSub_eq_some.2 ⟨Nat.le_refl written, Nat.sub_self written⟩] at h
      change writeAllZeroes attempts 0 u = _ at h
      rw [writeAllZeroes_zero] at h
      cases h
      exact ⟨t, n, .none t, hattempt⟩
    · rename_i e u hwrite
      split at h
      · cases h
      · rename_i he
        rw [not_not.1 he] at hwrite
        obtain ⟨s, n, hinterrupted, hattempt⟩ := ih h
        exact ⟨s, n, .again hwrite hinterrupted, hattempt⟩
    · cases h

end Model

/-! ## What the stream holds -/

/-- The contents once `length` bytes from `offset` on are zeroed. -/
def zeroRange (contents : Nat → UInt8) (offset length : Nat) : Nat → UInt8 := fun x =>
  if offset ≤ x ∧ x < offset + length then 0 else contents x

theorem zeroRange_zero (contents : Nat → UInt8) (offset : Nat) : zeroRange contents offset 0 = contents := by
  funext x
  exact if_neg (by omega)

theorem zeroRange_zeroRange (contents : Nat → UInt8) (offset first second : Nat) :
    zeroRange (zeroRange contents offset first) offset second = zeroRange contents offset (max first second) := by
  funext x
  unfold zeroRange
  split_ifs <;> first | rfl | omega

section Lawful

variable {T : Type} [WriteZeroesAt T] [Seek T]

structure LawfulStream (contents : T → Nat → UInt8) (position : T → Nat) : Prop where
  wrote : ∀ {offset length n : Nat} {t t' : T}, WriteZeroesAt.writeZeroesAt offset length t = (.ok n, t') →
    n ≤ length ∧ contents t' = zeroRange (contents t) offset n ∧ position t' = position t
  interrupted : ∀ {offset length : Nat} {t t' : T},
    WriteZeroesAt.writeZeroesAt offset length t = (.err .interrupted, t') →
    contents t' = contents t ∧ position t' = position t
  streamPosition : ∀ {t t' : T} {p : Nat}, Seek.streamPosition t = (.ok p, t') →
    p = position t ∧ contents t' = contents t ∧ position t' = position t
  no_streamPosition : ∀ {t t' : T}, Seek.streamPosition t = (.err .interrupted, t') →
    contents t' = contents t ∧ position t' = position t
  seek : ∀ {offset : Int} {t t' : T} {p : Nat}, Seek.seek offset t = (.ok p, t') →
    contents t' = contents t ∧ (position t' : Int) = position t + offset
  no_seek : ∀ {offset : Int} {t t' : T}, Seek.seek offset t = (.err .interrupted, t') →
    contents t' = contents t ∧ position t' = position t

/-- The `length` bytes at the position are zeroed, no other byte has changed, and the position is behind them. -/
def ZeroedExactly (contents : T → Nat → UInt8) (position : T → Nat) (length : Nat) (t t' : T) : Prop :=
  contents t' = zeroRange (contents t) (position t) length ∧ position t' = position t + length

variable {contents : T → Nat → UInt8} {position : T → Nat}

variable {length n : Nat}

theorem LawfulStream.attempt_interrupted (hlaw : LawfulStream contents position) {t t' : T}
    (h : writeZeroes length t = (.err .interrupted, t')) :
    position t' = position t ∧ ∃ n ≤ length, contents t' = zeroRange (contents t) (position t) n := by
  rcases Exec.bind_eq_err h with hpos | ⟨offset, u, hpos, h⟩
  · obtain ⟨hc, hp⟩ := hlaw.no_streamPosition hpos
    exact ⟨hp, 0, Nat.zero_le _, by rw [hc, zeroRange_zero]⟩
  obtain ⟨rfl, hcu, hpu⟩ := hlaw.streamPosition hpos
  rcases Exec.bind_eq_err h with hwrite | ⟨n, v, hwrite, h⟩
  · obtain ⟨hc, hp⟩ := hlaw.interrupted hwrite
    exact ⟨hp.trans hpu, 0, Nat.zero_le _, by rw [hc, hcu, zeroRange_zero]⟩
  obtain ⟨hn, hcv, hpv⟩ := hlaw.wrote hwrite
  rcases Exec.bind_eq_err h with hseek | ⟨p, t'', _, h⟩
  · obtain ⟨hc, hp⟩ := hlaw.no_seek hseek
    exact ⟨by rw [hp, hpv, hpu], n, hn, by rw [hc, hcv, hcu]⟩
  · cases h

theorem LawfulStream.interrupted_run (hlaw : LawfulStream contents position) {t t' : T} (h : Interrupted length t t') :
    position t' = position t ∧ ∃ n ≤ length, contents t' = zeroRange (contents t) (position t) n := by
  induction h with
  | none t => exact ⟨rfl, 0, Nat.zero_le _, (zeroRange_zero _ _).symm⟩
  | again hfirst _ ih =>
    obtain ⟨hpos, n, hn, hcontents⟩ := hlaw.attempt_interrupted hfirst
    obtain ⟨hpos', m, hm, hcontents'⟩ := ih
    refine ⟨hpos'.trans hpos, max n m, max_le hn hm, ?_⟩
    rw [hcontents', hcontents, hpos, zeroRange_zeroRange]

theorem LawfulStream.attempt (hlaw : LawfulStream contents position) {t t' : T} (h : Attempt length t t' n) :
    n ≤ length ∧ contents t' = zeroRange (contents t) (position t) n ∧ (position t' : Int) = position t + asI64 n := by
  obtain ⟨offset, u, v, p, hpos, hwrite, hseek⟩ := h
  obtain ⟨rfl, hcu, hpu⟩ := hlaw.streamPosition hpos
  obtain ⟨hle, hcv, hpv⟩ := hlaw.wrote hwrite
  obtain ⟨hct, hpt⟩ := hlaw.seek hseek
  exact ⟨hle, by rw [hct, hcv, hcu], by rw [hpt, hpv, hpu]⟩

theorem asI64_eq_iff (h : n ≤ length) : asI64 n = length ↔ n = length ∧ length < 2 ^ 63 := by
  unfold asI64
  rw [BitVec.toInt_eq_toNat_cond, BitVec.toNat_ofNat]
  split <;> omega

/-- **A stream is zeroed exactly if the attempt that ends the loop has counted the whole length**, and the
length can be sought over. -/
theorem write_all_zeroes_exact_iff (hlaw : LawfulStream contents position) (attempts length : Nat) (t t' : T)
    (h : writeAllZeroes attempts length t = some (.ok (), t')) :
    (length = 0 → ZeroedExactly contents position length t t') ∧
    (length ≠ 0 → ∃ s numWritten, Interrupted length t s ∧ Attempt length s t' numWritten ∧
      (ZeroedExactly contents position length t t' ↔ numWritten = length ∧ length < 2 ^ 63)) := by
  refine ⟨?_, fun hlength => ?_⟩
  · rintro rfl
    rw [writeAllZeroes_zero] at h
    cases h
    exact ⟨(zeroRange_zero _ _).symm, rfl⟩
  · obtain ⟨s, n, hinterrupted, hattempt⟩ := writeAllZeroes_eq_ok hlength h
    refine ⟨s, n, hinterrupted, hattempt, ?_⟩
    obtain ⟨hps, m, hm, hcs⟩ := hlaw.interrupted_run hinterrupted
    obtain ⟨hn, hct, hpt⟩ := hlaw.attempt hattempt
    rw [← asI64_eq_iff hn]
    constructor
    · rintro ⟨_, hpos⟩
      omega
    · intro hcast
      obtain ⟨rfl, _⟩ := (asI64_eq_iff hn).1 hcast
      refine ⟨?_, by omega⟩
      rw [hct, hcs, hps, zeroRange_zeroRange, max_eq_right hm]

end Lawful

/-! ## A stream with short counts -/

/-- A stream that zeroes at most `chunk` bytes at a time. -/
structure ChunkedStream where
  bytes : Nat → UInt8
  pos : Nat
  chunk : Nat

instance : WriteZeroesAt ChunkedStream where
  writeZeroesAt offset length := fun t =>
    (.ok (min length t.chunk), { t with bytes := zeroRange t.bytes offset (min length t.chunk) })

instance : Seek ChunkedStream where
  seek offset := fun t =>
    if 0 ≤ t.pos + offset then (.ok (t.pos + offset).toNat, { t with pos := (t.pos + offset).toNat })
    else (.err .other, t)

variable {t t' : ChunkedStream}

theorem ChunkedStream.seek_eq_ok {offset : Int} {p : Nat} (h : Seek.seek offset t = (.ok p, t')) :
    (p : Int) = t.pos + offset ∧ t' = { t with pos := p } := by
  change (if 0 ≤ (t.pos : Int) + offset then _ else _) = _ at h
  split at h
  · cases h
    exact ⟨by omega, rfl⟩
  · cases h

theorem ChunkedStream.seek_eq_err {offset : Int} {e : ErrorKind} (h : Seek.seek offset t = (.err e, t')) : t' = t := by
  change (if 0 ≤ (t.pos : Int) + offset then _ else _) = _ at h
  split at h <;> cases h
  rfl

theorem chunkedStream_lawful : LawfulStream ChunkedStream.bytes ChunkedStream.pos where
  wrote h := by
    cases h
    exact ⟨Nat.min_le_left _ _, rfl, rfl⟩
  interrupted h := by cases h
  streamPosition h := by
    obtain ⟨hp, rfl⟩ := ChunkedStream.seek_eq_ok h
    exact ⟨by omega, rfl, by dsimp only; omega⟩
  no_streamPosition h := by
    rw [ChunkedStream.seek_eq_err h]
    exact ⟨rfl, rfl⟩
  seek h := by
    obtain ⟨hp, rfl⟩ := ChunkedStream.seek_eq_ok h
    exact ⟨rfl, hp⟩
  no_seek h := by
    rw [ChunkedStream.seek_eq_err h]
    exact ⟨rfl, rfl⟩

/-- Ones, zeroed four bytes at a time. -/
def fourAtATime : ChunkedStream := ⟨fun _ => 1, 2, 4⟩

theorem write_all_zeroes_short : LawfulStream ChunkedStream.bytes ChunkedStream.pos ∧
    ∃ t', writeAllZeroes 1 6 fourAtATime = some (.ok (), t') ∧ t'.bytes 6 = 1 ∧ t'.pos = 6 ∧
      ¬ ZeroedExactly ChunkedStream.bytes ChunkedStream.pos 6 fourAtATime t' := by
  refine ⟨chunkedStream_lawful, _, rfl, by decide, by decide, fun h => ?_⟩
  have hpos := h.2
  revert hpos
  decide

theorem write_all_zeroes_exact_three : LawfulStream ChunkedStream.bytes ChunkedStream.pos ∧
    ∃ t', writeAllZeroes 1 3 fourAtATime = some (.ok (), t') ∧
      ∃ s numWritten, Interrupted 3 fourAtATime s ∧ Attempt 3 s t' numWritten ∧
        (ZeroedExactly ChunkedStream.bytes ChunkedStream.pos 3 fourAtATime t' ↔ numWritten = 3 ∧ 3 < 2 ^ 63) :=
  ⟨chunkedStream_lawful, _, rfl, (write_all_zeroes_exact_iff chunkedStream_lawful 1 3 fourAtATime _ rfl).2 (by decide)⟩

end RustVmm.VmmSysUtil
