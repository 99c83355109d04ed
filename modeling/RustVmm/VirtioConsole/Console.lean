import RustVmm.VirtioQueue.Chain
import RustVmm.VmMemory.View

/-!
# The console

The input side of the console: data is put into a buffer, and a chain of buffers of the guest takes it out again.
`Console` has the contents of the buffer behind the lock, and whether the lock is poisoned; `Guest` is what a chain can
do, with any answers to the reads of its descriptors, in memory with or without an IOMMU in use.

* `Reaches` says, from the memory and the chain before a call, which buffers the loop comes to, and with how many bytes
  left.
* `receiveLoop_accounted` is the step for the loop: each byte that is taken out of the buffer is stored, or lost in
  a buffer that is reached and cannot be written.
* `input_conserved_iff` is the law for all sequences of calls.
* `processReceiveqChain_sent` says what the returned number means, and exactly when the method panics.
-/

set_option autoImplicit false

namespace RustVmm.VirtioConsole

open Lib VmMemory VirtioQueue List Traced

/-- `console::Error`: the errors of the input side. -/
inductive Error where
  | writeToGuestFailed (error : VmMemory.Error)
  | bufferCapacityExceeded
  | unexpectedReadOnlyDescriptor
  | invalidBufferCapacity
  deriving DecidableEq, Repr

def MAX_CAPACITY : Nat := 16384

def DEFAULT_CAPACITY : Nat := 4096

/-- `Console`, with the contents of the buffer behind the lock, and whether a panic has poisoned the lock. -/
structure Console (τ : Type) where
  inputBuffer : List UInt8
  poisoned : Bool
  capacity : Nat
  output : τ
  capacity_le : capacity ≤ MAX_CAPACITY
  length_le : inputBuffer.length ≤ capacity

variable {R : Type → Type} [RangeMapLike R]

structure Guest (R : Type → Type) where
  descriptors : HostileMemory
  faults : Walk → Bool
  memory : IommuMemory R

namespace Console

variable {τ : Type}

def newWithCapacity (capacity : Nat) (output : τ) : Outcome Error (Console τ) :=
  if h : capacity = 0 ∨ capacity > MAX_CAPACITY then .err .invalidBufferCapacity
  else .ok ⟨[], false, capacity, output, by omega, Nat.zero_le _⟩

def new (output : τ) : Outcome Error (Console τ) :=
  (newWithCapacity DEFAULT_CAPACITY output).unwrapResult

/-- `Console::enqueue_data`, on the console and on the vector that it moves the data out of. -/
def enqueueData : Exec (Console τ × List UInt8) Error Unit := fun (self, data) =>
  if self.poisoned then (.panic, self, data)
  else match h : checkedAdd self.inputBuffer.length data.length with
    | none => (.err .bufferCapacityExceeded, self, data)
    | some totalLength =>
      if hcap : totalLength > self.capacity then (.err .bufferCapacityExceeded, self, data)
      else
        (.ok (), { self with
          inputBuffer := self.inputBuffer ++ data
          length_le := by
            have := (checkedAdd_eq_some.1 h).2
            rw [List.length_append]
            omega }, [])

def receiveInto (mem : GuestMemoryT) (desc : Descriptor) (sentBytes : UInt32) :
    Traced (List UInt8) Effect Error UInt32 :=
  if !desc.isWriteOnly then .lift (.err .unexpectedReadOnlyDescriptor)
  else do
    let inputBuffer ← .get
    let lenWrite := min desc.len (.ofNat inputBuffer.length)
    .modify fun inputBuffer => inputBuffer.drop lenWrite.toNat
    (mem.writeSlice (inputBuffer.take lenWrite.toNat) desc.addr.toNat).mapErr .writeToGuestFailed
    .lift (.unwrap (checkedAddU32 sentBytes lenWrite))

def receiveLoop (g : Guest R) (sentBytes : UInt32) (w : Walk) (inputBuffer : List UInt8) :
    Traced.Result (Walk × List UInt8) Effect Error UInt32 :=
  if g.faults w then ⟨.panic, (w, inputBuffer), []⟩
  else match _h : w.next g.descriptors with
    | (none, w') => ⟨.ok sentBytes, (w', inputBuffer), []⟩
    | (some desc, w') =>
      match receiveInto g.memory.asT desc sentBytes inputBuffer with
      | ⟨.ok sentBytes, inputBuffer, trace⟩ =>
        if inputBuffer = [] then ⟨.ok sentBytes, (w', inputBuffer), trace⟩
        else
          let r := receiveLoop g sentBytes w' inputBuffer
          ⟨r.outcome, r.state, trace ++ r.trace⟩
      | ⟨.err e, inputBuffer, trace⟩ => ⟨.err e, (w', inputBuffer), trace⟩
      | ⟨.panic, inputBuffer, trace⟩ => ⟨.panic, (w', inputBuffer), trace⟩
termination_by Walk.budget w.chain
decreasing_by exact Walk.budget_next _h

end Console

/-! ## Which buffers are reached -/

/-- What a chain answers, one call of `next` after the other, as long as it is asked; `none` is a panic. -/
def Guest.answers (g : Guest R) (w : Walk) : List (Option Descriptor) :=
  if g.faults w then [none]
  else match _h : w.next g.descriptors with
    | (none, _) => []
    | (some desc, w') => some desc :: g.answers w'
termination_by Walk.budget w.chain
decreasing_by exact Walk.budget_next _h

inductive Reaches (m : IommuMemory R) : Nat → List (Option Descriptor) → Option Descriptor → Nat → Prop
  | here {n : Nat} {x : Option Descriptor} {xs : List (Option Descriptor)} (left : n ≠ 0) : Reaches m n (x :: xs) x n
  | next {n n' : Nat} {desc : Descriptor} {x : Option Descriptor} {xs : List (Option Descriptor)} (left : n ≠ 0)
      (writeOnly : desc.isWriteOnly = true) (writable : m.Writable desc.addr.toNat (min desc.len.toNat n))
      (rest : Reaches m (n - min desc.len.toNat n) xs x n') : Reaches m n (some desc :: xs) x n'

/-- A buffer that is reached with `n` bytes left is not empty, and cannot take its share of them. -/
structure Fails (m : IommuMemory R) (desc : Descriptor) (n : Nat) : Prop where
  writeOnly : desc.isWriteOnly = true
  nonempty : desc.len ≠ 0
  unwritable : ¬ m.Writable desc.addr.toNat (min desc.len.toNat n)

/-- The loop comes to a buffer in which bytes are lost. -/
def Guest.Loses (g : Guest R) (w : Walk) (n : Nat) : Prop :=
  ∃ desc n', Reaches g.memory n (g.answers w) (some desc) n' ∧ Fails g.memory desc n'

def Guest.Panics (g : Guest R) (w : Walk) (n : Nat) : Prop :=
  (∃ n', Reaches g.memory n (g.answers w) none n') ∨
    ∃ desc n', Reaches g.memory n (g.answers w) (some desc) n' ∧ desc.isWriteOnly = true ∧
      g.memory.Overflows desc.addr.toNat (min desc.len.toNat n')

section Reaches

variable {m : IommuMemory R} {n n' : Nat} {desc : Descriptor} {x : Option Descriptor} {xs : List (Option Descriptor)}

theorem Reaches.ne_zero (h : Reaches m n xs x n') : n ≠ 0 := by
  cases h with
  | here hleft | next hleft => exact hleft

theorem reaches_cons_iff (hn : n ≠ 0) : Reaches m n (some desc :: xs) x n' ↔ (x = some desc ∧ n' = n) ∨
      desc.isWriteOnly = true ∧ m.Writable desc.addr.toNat (min desc.len.toNat n) ∧
        Reaches m (n - min desc.len.toNat n) xs x n' := by
  constructor
  · rintro (_ | ⟨_, hwrite, hmem, hrest⟩)
    · exact .inl ⟨rfl, rfl⟩
    · exact .inr ⟨hwrite, hmem, hrest⟩
  · rintro (⟨rfl, rfl⟩ | ⟨hwrite, hmem, hrest⟩)
    · exact .here hn
    · exact .next hn hwrite hmem hrest

end Reaches

namespace Guest

variable {g : Guest R} {w w' : Walk} {desc : Descriptor} {n : Nat}

section

omit [RangeMapLike R]

theorem answers_of_faults (h : g.faults w = true) : g.answers w = [none] := by
  rw [answers, if_pos h]

theorem answers_of_none (hfault : ¬ g.faults w = true) (h : w.next g.descriptors = (none, w')) : g.answers w = [] := by
  rw [answers, if_neg hfault]
  split <;> rename_i heq
  · rfl
  · rw [h] at heq
    cases heq

theorem answers_of_some (hfault : ¬ g.faults w = true) (h : w.next g.descriptors = (some desc, w')) :
    g.answers w = some desc :: g.answers w' := by
  rw [answers, if_neg hfault]
  split <;> rename_i heq <;> rw [h] at heq <;> cases heq
  rfl

end

theorem not_loses_of_nil (h : g.answers w = []) : ¬ g.Loses w n ∧ ¬ g.Panics w n := by
  simp only [Loses, Panics, h]
  constructor
  · rintro ⟨_, _, hreach, _⟩
    cases hreach
  · rintro (⟨_, hreach⟩ | ⟨_, _, hreach, _⟩) <;> cases hreach

theorem not_loses_of_zero : ¬ g.Loses w 0 ∧ ¬ g.Panics w 0 := by
  constructor
  · rintro ⟨_, _, hreach, _⟩
    exact hreach.ne_zero rfl
  · rintro (⟨_, hreach⟩ | ⟨_, _, hreach, _⟩)
    · exact hreach.ne_zero rfl
    · exact hreach.ne_zero rfl

theorem loses_of_faults (hn : n ≠ 0) (h : g.faults w = true) : ¬ g.Loses w n ∧ g.Panics w n := by
  simp only [Loses, Panics, answers_of_faults h]
  constructor
  · rintro ⟨_, _, hreach, _⟩
    cases hreach
  · exact .inl ⟨n, .here hn⟩

variable (hn : n ≠ 0) (hfault : ¬ g.faults w = true) (h : w.next g.descriptors = (some desc, w'))

include hn hfault h

theorem loses_of_readOnly (hwrite : desc.isWriteOnly = false) : ¬ g.Loses w n ∧ ¬ g.Panics w n := by
  simp only [Loses, Panics, answers_of_some hfault h, reaches_cons_iff hn, hwrite, Bool.false_eq_true, false_and, or_false]
  constructor
  · rintro ⟨_, _, ⟨heq, _⟩, hfails⟩
    cases heq
    exact Bool.false_ne_true (hwrite.symm.trans hfails.writeOnly)
  · rintro (⟨_, heq, _⟩ | ⟨_, _, ⟨heq, _⟩, hwrite', _⟩)
    · cases heq
    · cases heq
      exact Bool.false_ne_true (hwrite.symm.trans hwrite')

theorem loses_of_writable (hwrite : desc.isWriteOnly = true)
    (hmem : g.memory.Writable desc.addr.toNat (min desc.len.toNat n)) :
    (g.Loses w n ↔ g.Loses w' (n - min desc.len.toNat n)) ∧ (g.Panics w n ↔ g.Panics w' (n - min desc.len.toNat n)) := by
  simp only [Loses, Panics, answers_of_some hfault h, reaches_cons_iff hn, hwrite, hmem, true_and]
  have hover : ¬ g.memory.Overflows desc.addr.toNat (min desc.len.toNat n) :=
    fun hover => IommuMemory.not_begins_of_overflows hover hmem.begins
  constructor
  · constructor
    · rintro ⟨d, n', ⟨heq, rfl⟩ | hreach, hfails⟩
      · cases heq
        exact absurd hmem hfails.unwritable
      · exact ⟨d, n', hreach, hfails⟩
    · rintro ⟨d, n', hreach, hfails⟩
      exact ⟨d, n', .inr hreach, hfails⟩
  · constructor
    · rintro (⟨n', ⟨heq, _⟩ | hreach⟩ | ⟨d, n', ⟨heq, rfl⟩ | hreach, hd⟩)
      · cases heq
      · exact .inl ⟨n', hreach⟩
      · cases heq
        exact absurd hd.2 hover
      · exact .inr ⟨d, n', hreach, hd⟩
    · rintro (⟨n', hreach⟩ | ⟨d, n', hreach, hd⟩)
      · exact .inl ⟨n', .inr hreach⟩
      · exact .inr ⟨d, n', .inr hreach, hd⟩

theorem loses_of_not_writable (hwrite : desc.isWriteOnly = true)
    (hmem : ¬ g.memory.Writable desc.addr.toNat (min desc.len.toNat n)) :
    (g.Loses w n ↔ desc.len ≠ 0) ∧
      (g.Panics w n ↔ g.memory.Overflows desc.addr.toNat (min desc.len.toNat n)) := by
  simp only [Loses, Panics, answers_of_some hfault h, reaches_cons_iff hn, hwrite, hmem, false_and, and_false, or_false]
  constructor
  · constructor
    · rintro ⟨d, n', ⟨heq, rfl⟩, hfails⟩
      cases heq
      exact hfails.nonempty
    · exact fun hlen => ⟨desc, n, ⟨rfl, rfl⟩, hwrite, hlen, hmem⟩
  · constructor
    · rintro (⟨n', heq, _⟩ | ⟨d, n', ⟨heq, rfl⟩, _, hover⟩)
      · cases heq
      · cases heq
        exact hover
    · exact fun hover => .inr ⟨desc, n, ⟨rfl, rfl⟩, hwrite, hover⟩

end Guest

/-! ## Where the bytes are -/

namespace Console

variable {τ : Type}

/-- Bytes have been stored in the guest, or are still in the buffer, but for those in between, which are lost. -/
structure Accounted (g : Guest R) (w : Walk) (sentBytes : UInt32) (inputBuffer : List UInt8)
    (r : Traced.Result (Walk × List UInt8) Effect Error UInt32) : Prop where
  bytes : ∃ lost, inputBuffer = storedData r.trace ++ lost ++ r.state.2 ∧
    (lost ≠ [] ↔ g.Loses w inputBuffer.length)
  sent : ∀ n, r.outcome = .ok n → n.toNat = sentBytes.toNat + (storedData r.trace).length
  panics : r.outcome = .panic ↔ g.Panics w inputBuffer.length

variable {inputBuffer rest : List UInt8}

theorem toNat_lenWrite (desc : Descriptor) (hlen : inputBuffer.length ≤ MAX_CAPACITY) :
    (min desc.len (.ofNat inputBuffer.length)).toNat = min desc.len.toNat inputBuffer.length := by
  have hlt : inputBuffer.length < 2 ^ 32 := Nat.lt_of_le_of_lt hlen (by decide)
  rw [UInt32.toNat_min, UInt32.toNat_ofNat_of_lt' hlt]

variable {sentBytes sent : UInt32} {desc : Descriptor}

theorem receiveInto_of_readOnly (h : desc.isWriteOnly = false) (mem : GuestMemoryT) :
    receiveInto mem desc sentBytes inputBuffer = ⟨.err .unexpectedReadOnlyDescriptor, inputBuffer, []⟩ := by
  unfold receiveInto
  rw [h]
  rfl

theorem receiveInto_cases (m : IommuMemory R) (hwrite : desc.isWriteOnly = true) (hne : inputBuffer ≠ [])
    (hsum : sentBytes.toNat + inputBuffer.length ≤ MAX_CAPACITY) :
    (m.Writable desc.addr.toNat (min desc.len.toNat inputBuffer.length) ∧ ∃ sent rest trace,
      receiveInto m.asT desc sentBytes inputBuffer = ⟨.ok sent, rest, trace⟩ ∧
      inputBuffer = storedData trace ++ rest ∧
      rest.length = inputBuffer.length - min desc.len.toNat inputBuffer.length ∧
      sent.toNat = sentBytes.toNat + (storedData trace).length) ∨
    ¬ m.Writable desc.addr.toNat (min desc.len.toNat inputBuffer.length) ∧ ∃ outcome lost rest trace,
      receiveInto m.asT desc sentBytes inputBuffer = ⟨outcome, rest, trace⟩ ∧ (∀ n, outcome ≠ .ok n) ∧
      (outcome = .panic ↔ m.Overflows desc.addr.toNat (min desc.len.toNat inputBuffer.length)) ∧
      inputBuffer = storedData trace ++ lost ++ rest ∧ (lost ≠ [] ↔ desc.len ≠ 0) := by
  have hk := toNat_lenWrite desc (Nat.le_trans (Nat.le_add_left _ _) hsum)
  unfold receiveInto
  rw [hwrite, Bool.not_true, if_neg Bool.false_ne_true, get_bind_apply, modify_bind_apply]
  generalize min desc.len (.ofNat inputBuffer.length) = lenWrite at hk
  have hlen : (inputBuffer.take lenWrite.toNat).length = min desc.len.toNat inputBuffer.length := by
    rw [length_take]
    omega
  have hzero : lenWrite.toNat ≠ 0 ↔ desc.len ≠ 0 := by
    have hpos := length_pos_iff.2 hne
    rw [ne_eq, ne_eq, ← UInt32.toNat_inj, UInt32.toNat_zero]
    omega
  rcases m.writeSlice_cases (inputBuffer.take lenWrite.toNat) desc.addr.toNat (inputBuffer.drop lenWrite.toNat) with
    ⟨hmem, trace, hrun, hdata⟩ | ⟨hmem, hover, e, n, trace, hrun, hdata, hn⟩ | ⟨hover, hrun⟩
  · -- the sum is bounded by what was in the buffer at first
    rw [hlen] at hmem
    have hfits : sentBytes.toNat + lenWrite.toNat < 4294967296 := by
      have : MAX_CAPACITY < 4294967296 := by decide
      omega
    refine .inl ⟨hmem, sentBytes + lenWrite, inputBuffer.drop lenWrite.toNat, trace, ?_, ?_, ?_, ?_⟩
    · refine bind_of_ok_of_silent (mapErr_of_ok hrun _) ?_
      rw [checkedAddU32, if_pos hfits]
      rfl
    · rw [hdata, take_append_drop]
    · rw [length_drop, hk]
    · rw [UInt32.toNat_add, Nat.mod_eq_of_lt hfits, hdata, hlen, hk]
  · -- the rest of the bytes that were taken out
    rw [hlen] at hmem hover
    refine .inr ⟨hmem, .err (.writeToGuestFailed e), (inputBuffer.take lenWrite.toNat).drop n, _, trace,
      bind_of_err (mapErr_of_err hrun _) _, nofun, iff_of_false nofun hover, ?_, ?_⟩
    · rw [hdata, take_append_drop, take_append_drop]
    · rw [← hzero, ← length_pos_iff, length_drop]
      rw [← length_eq_zero_iff] at hn
      omega
  · rw [hlen] at hover
    have hmem : ¬ m.Writable desc.addr.toNat (min desc.len.toNat inputBuffer.length) :=
      fun hmem => IommuMemory.not_begins_of_overflows hover hmem.begins
    refine .inr ⟨hmem, .panic, inputBuffer.take lenWrite.toNat, _, [],
      bind_of_panic (mapErr_of_panic hrun _) _, nofun, iff_of_true rfl hover, ?_, ?_⟩
    · rw [storedData_nil, nil_append, take_append_drop]
    · rw [← hzero, ← length_pos_iff]
      omega

variable {g : Guest R} {w w' : Walk} {trace : List Effect}
variable {outcome : Outcome Error UInt32}

theorem Accounted.of_none (hloses : ¬ g.Loses w inputBuffer.length)
    (hpanics : outcome = .panic ↔ g.Panics w inputBuffer.length) (hbytes : inputBuffer = storedData trace ++ rest)
    (hsent : ∀ n, outcome = .ok n → n.toNat = sentBytes.toNat + (storedData trace).length) :
    Accounted g w sentBytes inputBuffer ⟨outcome, (w', rest), trace⟩ where
  bytes := by
    refine ⟨[], ?_, iff_of_false (fun h => h rfl) hloses⟩
    rwa [append_nil]
  sent := hsent
  panics := hpanics

variable {r : Traced.Result (Walk × List UInt8) Effect Error UInt32}

theorem Accounted.after (h : Accounted g w' sent rest r)
    (hloses : g.Loses w inputBuffer.length ↔ g.Loses w' rest.length)
    (hpanics : g.Panics w inputBuffer.length ↔ g.Panics w' rest.length) (hbytes : inputBuffer = storedData trace ++ rest)
    (hsent : sent.toNat = sentBytes.toNat + (storedData trace).length) :
    Accounted g w sentBytes inputBuffer ⟨r.outcome, r.state, trace ++ r.trace⟩ where
  bytes := by
    obtain ⟨lost, hrest, hlost⟩ := h.bytes
    refine ⟨lost, ?_, hlost.trans hloses.symm⟩
    rw [storedData_append, append_assoc, append_assoc, ← append_assoc (storedData r.trace), ← hrest]
    exact hbytes
  sent n hn := by
    rw [h.sent n hn, hsent, storedData_append, length_append, Nat.add_assoc]
  panics := h.panics.trans hpanics.symm

theorem writable_of_receiveInto (hne : inputBuffer ≠ []) (hsum : sentBytes.toNat + inputBuffer.length ≤ MAX_CAPACITY)
    (hfault : ¬ g.faults w = true) (hnext : w.next g.descriptors = (some desc, w'))
    (h : receiveInto g.memory.asT desc sentBytes inputBuffer = ⟨.ok sent, rest, trace⟩) :
    (g.Loses w inputBuffer.length ↔ g.Loses w' rest.length) ∧
    (g.Panics w inputBuffer.length ↔ g.Panics w' rest.length) ∧ inputBuffer = storedData trace ++ rest ∧
    sent.toNat = sentBytes.toNat + (storedData trace).length := by
  cases hwrite : desc.isWriteOnly with
  | false =>
    rw [receiveInto_of_readOnly hwrite] at h
    cases h
  | true =>
    rcases receiveInto_cases g.memory hwrite hne hsum with
      ⟨hmem, _, _, _, heq, hbytes, hlen, hsent⟩ | ⟨_, outcome, _, _, _, heq, hnot, _⟩
    · rw [h] at heq
      cases heq
      obtain ⟨hloses, hpanics⟩ :=
        Guest.loses_of_writable (mt length_eq_zero_iff.1 hne) hfault hnext hwrite hmem
      rw [hlen]
      exact ⟨hloses, hpanics, hbytes, hsent⟩
    · rw [h] at heq
      cases heq
      exact absurd rfl (hnot sent)

theorem Accounted.of_receiveInto (hne : inputBuffer ≠ [])
    (hsum : sentBytes.toNat + inputBuffer.length ≤ MAX_CAPACITY) (hfault : ¬ g.faults w = true)
    (hnext : w.next g.descriptors = (some desc, w'))
    (h : receiveInto g.memory.asT desc sentBytes inputBuffer = ⟨outcome, rest, trace⟩) (hnot : ∀ n, outcome ≠ .ok n) :
    Accounted g w sentBytes inputBuffer ⟨outcome, (w', rest), trace⟩ := by
  have hn : inputBuffer.length ≠ 0 := mt length_eq_zero_iff.1 hne
  cases hwrite : desc.isWriteOnly with
  | false =>
    rw [receiveInto_of_readOnly hwrite] at h
    cases h
    obtain ⟨hloses, hpanics⟩ := Guest.loses_of_readOnly hn hfault hnext hwrite
    exact .of_none hloses (iff_of_false nofun hpanics) rfl nofun
  | true =>
    rcases receiveInto_cases g.memory hwrite hne hsum with
      ⟨_, sent, _, _, heq, _⟩ | ⟨hmem, _, lost, _, _, heq, _, hpanic, hbytes, hlost⟩
    · rw [h] at heq
      cases heq
      exact absurd rfl (hnot sent)
    · rw [h] at heq
      cases heq
      obtain ⟨hloses, hpanics⟩ := Guest.loses_of_not_writable hn hfault hnext hwrite hmem
      exact ⟨⟨lost, hbytes, hlost.trans hloses.symm⟩, fun n h => absurd h (hnot n), hpanic.trans hpanics.symm⟩

theorem receiveLoop_accounted (g : Guest R) (sentBytes : UInt32) (w : Walk) (inputBuffer : List UInt8)
    (hne : inputBuffer ≠ []) (hsum : sentBytes.toNat + inputBuffer.length ≤ MAX_CAPACITY) :
    Accounted g w sentBytes inputBuffer (receiveLoop g sentBytes w inputBuffer) := by
  fun_induction receiveLoop g sentBytes w inputBuffer with
  | case1 sentBytes w inputBuffer hfault =>
    obtain ⟨hloses, hpanics⟩ := Guest.loses_of_faults (mt length_eq_zero_iff.1 hne) hfault
    exact .of_none hloses (iff_of_true rfl hpanics) rfl nofun
  | case2 sentBytes w inputBuffer hfault w' hnext =>
    obtain ⟨hloses, hpanics⟩ :=
      Guest.not_loses_of_nil (n := inputBuffer.length) (Guest.answers_of_none hfault hnext)
    refine .of_none hloses (iff_of_false nofun hpanics) rfl ?_
    rintro n ⟨⟩
    rfl
  | case3 sentBytes w inputBuffer hfault desc w' hnext sent trace hinto =>
    -- nothing is left, so that no other buffer is reached
    obtain ⟨hloses, hpanics, hbytes, hsent⟩ := writable_of_receiveInto hne hsum hfault hnext hinto
    refine .of_none (mt hloses.1 Guest.not_loses_of_zero.1) ?_ hbytes ?_
    · exact iff_of_false nofun (mt hpanics.1 Guest.not_loses_of_zero.2)
    · rintro n ⟨⟩
      exact hsent
  | case4 sentBytes w inputBuffer hfault desc w' hnext sent rest trace hinto hrest r ih =>
    obtain ⟨hloses, hpanics, hbytes, hsent⟩ := writable_of_receiveInto hne hsum hfault hnext hinto
    have hlen := congrArg length hbytes
    rw [length_append] at hlen
    exact (ih hrest (by omega)).after hloses hpanics hbytes hsent
  | case5 sentBytes w inputBuffer hfault desc w' hnext e rest trace hinto =>
    exact .of_receiveInto hne hsum hfault hnext hinto nofun
  | case6 sentBytes w inputBuffer hfault desc w' hnext rest trace hinto =>
    exact .of_receiveInto hne hsum hfault hnext hinto nofun

theorem Accounted.length_le (h : Accounted g w sentBytes inputBuffer r) : r.state.2.length ≤ inputBuffer.length := by
  obtain ⟨lost, hbytes, _⟩ := h.bytes
  rw [hbytes, length_append]
  exact Nat.le_add_left _ _

theorem accounted (self : Console τ) (g : Guest R) (w : Walk) (hne : self.inputBuffer ≠ []) :
    Accounted g w 0 self.inputBuffer (receiveLoop g 0 w self.inputBuffer) := by
  apply receiveLoop_accounted g 0 w self.inputBuffer hne
  rw [UInt32.toNat_zero, Nat.zero_add]
  exact self.length_le.trans self.capacity_le

/-- `Console::process_receiveq_chain`; a panic poisons the lock that is held. -/
def processReceiveqChain (g : Guest R) : Traced (Console τ × Walk) Effect Error UInt32 := fun (self, w) =>
  if self.poisoned then ⟨.panic, (self, w), []⟩
  else if h : self.inputBuffer = [] then ⟨.ok 0, (self, w), []⟩
  else
    let r := receiveLoop g 0 w self.inputBuffer
    ⟨r.outcome, ({ self with
      inputBuffer := r.state.2
      poisoned := decide (r.outcome = .panic)
      length_le := (self.accounted g w h).length_le.trans self.length_le }, r.state.1), r.trace⟩

variable (self : Console τ)

theorem processReceiveqChain_accounted (g : Guest R) (w : Walk) (hpoison : ¬ self.poisoned = true) :
    let r := processReceiveqChain g (self, w)
    Accounted g w 0 self.inputBuffer ⟨r.outcome, (r.state.2, r.state.1.inputBuffer), r.trace⟩ := by
  intro r
  have hr : r = _ := if_neg hpoison
  by_cases h : self.inputBuffer = []
  · rw [dif_pos h] at hr
    rw [hr, h]
    refine .of_none Guest.not_loses_of_zero.1 (iff_of_false nofun Guest.not_loses_of_zero.2) rfl ?_
    rintro n ⟨⟩
    rfl
  · rw [dif_neg h] at hr
    rw [hr]
    exact self.accounted g w h

/-- **What the returned number means**, and when there is none. -/
theorem processReceiveqChain_sent (g : Guest R) (self : Console τ) (w : Walk) :
    let r := processReceiveqChain g (self, w)
    (∀ n, r.outcome = .ok n → n.toNat = (storedData r.trace).length) ∧
    (r.outcome = .panic ↔ self.poisoned = true ∨ g.Panics w self.inputBuffer.length) := by
  intro r
  by_cases hpoison : self.poisoned = true
  · have hr : r = ⟨.panic, (self, w), []⟩ := if_pos hpoison
    rw [hr]
    exact ⟨nofun, iff_of_true rfl (.inl hpoison)⟩
  · have hacc := self.processReceiveqChain_accounted g w hpoison
    rw [or_iff_right hpoison]
    refine ⟨fun n hn => ?_, hacc.panics⟩
    rw [hacc.sent n hn, UInt32.toNat_zero, Nat.zero_add]

theorem processReceiveqChain_bytes (g : Guest R) (w : Walk) :
    let r := processReceiveqChain g (self, w)
    ∃ lost, self.inputBuffer = storedData r.trace ++ lost ++ r.state.1.inputBuffer ∧
      (lost ≠ [] ↔ self.poisoned = false ∧ g.Loses w self.inputBuffer.length) := by
  intro r
  cases hpoison : self.poisoned with
  | true =>
    have hr : r = ⟨.panic, (self, w), []⟩ := if_pos hpoison
    rw [hr]
    exact ⟨[], rfl, iff_of_false (fun h => h rfl) fun h => nomatch h.1⟩
  | false =>
    rw [and_iff_right rfl]
    exact (self.processReceiveqChain_accounted g w (Bool.eq_false_iff.1 hpoison)).bytes

/-! ## Any sequence of calls -/

theorem enqueueData_cases (data : List UInt8) : (∃ o, enqueueData (self, data) = (o, self, data) ∧ o.isOk = false) ∨
      ∃ self', enqueueData (self, data) = (.ok (), self', []) ∧ self'.inputBuffer = self.inputBuffer ++ data := by
  unfold enqueueData
  dsimp only
  split
  · exact .inl ⟨_, rfl, rfl⟩
  split
  · exact .inl ⟨_, rfl, rfl⟩
  · split
    · exact .inl ⟨_, rfl, rfl⟩
    · exact .inr ⟨_, rfl, rfl⟩

/-- A console with what has gone in and what has come out. -/
structure History (τ : Type) where
  console : Console τ
  /-- The data of all calls of `enqueue_data` that succeeded. -/
  enqueued : List UInt8
  /-- The bytes that have been stored in buffers of the guest. -/
  stored : List UInt8

inductive Op (R : Type → Type) where
  | enqueueData (data : List UInt8)
  | processReceiveqChain (g : Guest R) (w : Walk)

def Op.exec (h : History τ) : Op R → History τ
  | .enqueueData data =>
    let r := Console.enqueueData (h.console, data)
    ⟨r.2.1, if r.1.isOk then h.enqueued ++ data else h.enqueued, h.stored⟩
  | .processReceiveqChain g w =>
    let r := Console.processReceiveqChain g (h.console, w)
    ⟨r.state.1, h.enqueued, h.stored ++ storedData r.trace⟩

def Op.Safe (h : History τ) : Op R → Prop
  | .enqueueData _ => True
  | .processReceiveqChain g w => h.console.poisoned = false → ¬ g.Loses w h.console.inputBuffer.length

/-- Every byte of the input has been stored, in order, or is in the buffer. -/
def History.Conserved (h : History τ) : Prop := h.enqueued = h.stored ++ h.console.inputBuffer

/-- Fewer bytes are accounted for than have gone in. -/
def History.Short (h : History τ) : Prop :=
  h.stored.length + h.console.inputBuffer.length < h.enqueued.length

variable {h : History τ}
variable {op : Op R}

theorem Op.conserved (hc : h.Conserved) (hop : op.Safe h) : (op.exec h).Conserved := by
  cases op with
  | enqueueData data =>
    rcases enqueueData_cases h.console data with ⟨o, heq, hne⟩ | ⟨self', heq, hbuffer⟩ <;>
      simp only [History.Conserved, Op.exec, heq]
    · rw [hne]
      exact hc
    · rw [hbuffer, ← append_assoc, ← hc]
      rfl
  | processReceiveqChain g w =>
    obtain ⟨lost, hbytes, hlost⟩ := processReceiveqChain_bytes h.console g w
    have hnil : lost = [] := by
      by_contra hne
      exact hop (hlost.1 hne).1 (hlost.1 hne).2
    rw [hnil, append_nil] at hbytes
    simp only [History.Conserved, Op.exec]
    rw [append_assoc, ← hbytes]
    exact hc

theorem Op.short_of_not_safe (hc : h.Conserved) (hop : ¬ op.Safe h) : (op.exec h).Short := by
  cases op with
  | enqueueData data => exact absurd trivial hop
  | processReceiveqChain g w =>
    obtain ⟨lost, hbytes, hlost⟩ := processReceiveqChain_bytes h.console g w
    have hpos := length_pos_iff.2 (hlost.2 (by simpa [Op.Safe] using hop))
    have hin := congrArg length hc
    have hout := congrArg length hbytes
    simp only [length_append] at hin hout
    simp only [History.Short, Op.exec, length_append]
    omega

theorem Op.short (hs : h.Short) (op : Op R) : (op.exec h).Short := by
  unfold History.Short at hs
  cases op with
  | enqueueData data =>
    rcases enqueueData_cases h.console data with ⟨o, heq, hne⟩ | ⟨self', heq, hbuffer⟩ <;>
      simp only [History.Short, Op.exec, heq]
    · rw [hne]
      exact hs
    · rw [hbuffer, length_append]
      show _ < (h.enqueued ++ data).length
      rw [length_append]
      omega
  | processReceiveqChain g w =>
    obtain ⟨lost, hbytes, _⟩ := processReceiveqChain_bytes h.console g w
    have hout := congrArg length hbytes
    simp only [length_append] at hout
    simp only [History.Short, Op.exec, length_append]
    omega

/-- **Input of the console is conserved if, and only if, it reaches no buffer that cannot be written.**  Along any calls
from a new console, what was enqueued is what is stored in buffers of the guest followed by what is in the buffer
of the console, unless a chain has a buffer, reached with bytes left for it, that is not empty and whose first
bytes are not memory that can be written.  A call of `enqueue_data` that does not succeed changes nothing. -/
theorem input_conserved_iff {capacity : Nat} {output : τ} {console : Console τ}
    (hnew : newWithCapacity capacity output = .ok console) (ops : List (Op R)) :
    ((run Op.exec ⟨console, [], []⟩ ops).Conserved ↔ Along Op.exec Op.Safe ⟨console, [], []⟩ ops) ∧
    ∀ data, let h := run Op.exec ⟨console, [], []⟩ ops
      (enqueueData (h.console, data)).1 ≠ .ok () → (enqueueData (h.console, data)).2 = (h.console, data) := by
  have hempty : console.inputBuffer = [] := by
    unfold newWithCapacity at hnew
    split at hnew
    · cases hnew
    · cases hnew
      rfl
  constructor
  · apply run_iff_along History.Short
    · exact fun h op => Op.conserved
    · exact fun h op => Op.short_of_not_safe
    · exact fun h op hs => op.short hs
    · intro h hs hc
      have := congrArg length hc
      rw [length_append] at this
      unfold History.Short at hs
      omega
    · show [] = [] ++ console.inputBuffer
      rw [hempty]
      rfl
  · intro data h herr
    rcases enqueueData_cases h.console data with ⟨o, heq, _⟩ | ⟨self', heq, _⟩
    · rw [heq]
    · rw [heq] at herr
      exact absurd rfl herr

/-- Memory of 0x9000 bytes without an IOMMU in use, and a chain with the buffers, for the device to write to. -/
def guestWith (buffers : List (UInt64 × UInt32)) : Guest RangeMap where
  descriptors _ addr := do
    let index := (addr - 0x1000) / DESCRIPTOR_SIZE
    let (addr, len) ← buffers[index]?
    let flags := if index + 1 < buffers.length then VRING_DESC_F_WRITE ||| VRING_DESC_F_NEXT else VRING_DESC_F_WRITE
    return ⟨addr, len, flags, .ofNat (index + 1)⟩
  faults _ := false
  memory := ⟨⟨[⟨0, 0x9000, 0x10000, by decide, by decide⟩], by decide, fun _ => 0⟩, .new, false⟩

/-- Three bytes, and a chain to store them in. -/
def sendThree (buffers : List (UInt64 × UInt32)) : List (Op RangeMap) :=
  [.enqueueData [1, 2, 3], .processReceiveqChain (guestWith buffers) (.new 0x1000 2 0)]

theorem input_conserved_two_of_three : ∃ console, newWithCapacity 16 () = .ok console ∧
      (run Op.exec ⟨console, [], []⟩ (sendThree [(0x2000, 1), (0x3000, 1)])).stored = [1, 2] ∧
      Along Op.exec Op.Safe ⟨console, [], []⟩ (sendThree [(0x2000, 1), (0x3000, 1)]) := by
  have hnew : newWithCapacity 16 () = .ok _ := rfl
  refine ⟨_, hnew, by decide +kernel, (input_conserved_iff hnew (sendThree [(0x2000, 1), (0x3000, 1)])).1.1 ?_⟩
  unfold History.Conserved
  decide +kernel

/-- A buffer of four bytes in memory behind an IOMMU in use. -/
def guestBehind (addr : UInt64) : Guest RangeMap where
  descriptors _ _ := some ⟨addr, 4, VRING_DESC_F_WRITE, 0⟩
  faults _ := false
  memory :=
    { backend := ⟨[⟨0, 0x9000, 0x10000, by decide, by decide⟩], by decide, fun _ => 0⟩
      iotlb := ⟨[⟨0x13, 0x23, IommuMapping.new 0x13 0x1800 .readWrite, by decide⟩], List.pairwise_singleton _ _⟩
      useIommu := true }

theorem processReceiveqChain_sent_behind :
    let console : Console Unit := ⟨[1, 2, 3], false, 16, (), by decide, by decide⟩
    (storedData (processReceiveqChain (guestBehind 0x14) (console, .new 0x1000 1 0)).trace).length = 3 ∧
    (guestBehind 0xfffffffffffffffe).Panics (.new 0x1000 1 0) 3 := by
  intro console
  refine ⟨((processReceiveqChain_sent (guestBehind 0x14) console _).1 3 (by decide +kernel)).symm, ?_⟩
  have hpanic := (processReceiveqChain_sent (guestBehind 0xfffffffffffffffe) console (.new 0x1000 1 0)).2.1
    (by decide +kernel)
  exact hpanic.resolve_left Bool.false_ne_true

theorem failed_write_loses_input : ∃ console, newWithCapacity 16 () = .ok console ∧
      let h := run Op.exec ⟨console, [], []⟩ (sendThree [(0x100000, 8)])
      h.enqueued = [1, 2, 3] ∧ h.stored = [] ∧ h.console.inputBuffer = [] ∧ ¬ h.Conserved := by
  refine ⟨_, rfl, by decide +kernel, by decide +kernel, by decide +kernel, ?_⟩
  unfold History.Conserved
  decide +kernel

end Console

end RustVmm.VirtioConsole
