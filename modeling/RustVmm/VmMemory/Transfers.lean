import RustVmm.VmMemory.Effects

/-!
# What the accesses transfer

An access goes over the slices of its range.  For memory that is mapped, the regions the range is spread over do not
matter.

* `foldlM_write`, `foldlM_read` — the loops over slices that follow each other act as one store and one load.
* `write_cases`, `writeSlice_cases` — a write to any memory stores a first part of its data, or all of it.
* `readExactVolatileFrom_moved` — from a source that holds nothing back, the bytes that fit are `Moved`.
* `store_cases` — an atomic store succeeds exactly if the integer is in one region and aligned (`AtomicAt`).
-/

set_option autoImplicit false

namespace RustVmm.VmMemory

open Lib GuestMemory List GuestSlice Traced SliceIterator

/-! ## Sources that hold nothing back -/

/-- A source that delivers what it has left, as far as it is asked to. -/
class FullReads (σ : Type) [ReadVolatile σ] where
  rest : σ → List UInt8
  readVolatile_eq : ∀ (src : σ) (len : Nat), ∃ src', rest src' = (rest src).drop len ∧
    ReadVolatile.readVolatile src len = (.bytes ((rest src).take len), src')

instance : FullReads (List UInt8) where
  rest src := src
  readVolatile_eq src len := ⟨src.drop len, rfl, rfl⟩

theorem drop_add_length_take (data : List UInt8) (pos len : Nat) :
    data.drop (pos + ((data.drop pos).take len).length) = (data.drop pos).drop len := by
  rw [← drop_drop, length_take]
  by_cases hlen : len ≤ (data.drop pos).length
  · rw [Nat.min_eq_left hlen]
  · rw [Nat.min_eq_right (by omega), drop_length, drop_eq_nil_of_le (by omega)]

instance : FullReads Cursor where
  rest c := c.data.drop c.pos
  readVolatile_eq c len := ⟨_, drop_add_length_take c.data c.pos len, rfl⟩

section Moved

open FullReads

variable {σ : Type} [ReadVolatile σ] [FullReads σ]

/-- Bytes are taken from the source and stored from an address on. -/
structure Moved (addr n : Nat) (src src' : σ) (trace : List Effect) : Prop where
  rest_eq : rest src' = (rest src).drop n
  data : storedData trace = (rest src).take n
  apply : ∀ b, applyBytes b trace = storeBytes b addr ((rest src).take n)
  stored : ∀ a, Stored trace a ↔ addr ≤ a ∧ a < addr + ((rest src).take n).length

theorem Moved.zero (addr : Nat) (src : σ) : Moved addr 0 src src [] where
  rest_eq := rfl
  data := rfl
  apply b := (storeBytes_nil b addr).symm
  stored a := by simp

theorem Moved.trans {addr n m : Nat} {src src₁ src₂ : σ}
    {trace₁ trace₂ : List Effect} (h₁ : Moved addr n src src₁ trace₁)
    (h₂ : Moved (addr + n) m src₁ src₂ trace₂) : Moved addr (n + m) src src₂ (trace₁ ++ trace₂) where
  rest_eq := by rw [h₂.rest_eq, h₁.rest_eq, drop_drop]
  data := by rw [storedData_append, h₁.data, h₂.data, h₁.rest_eq, ← take_add]
  apply b := by
    rw [applyBytes_append, h₂.apply, h₁.apply, h₁.rest_eq, take_add]
    by_cases hn : n ≤ (rest src).length
    · exact storeBytes_append b addr (length_take_of_le hn) _
    · rw [drop_eq_nil_of_le (by omega), take_nil, storeBytes_nil, append_nil]
  stored a := by
    rw [stored_append, h₁.stored, h₂.stored, h₁.rest_eq]
    simp only [length_take, length_drop]
    omega

end Moved

namespace GuestMemoryT

variable {σ : Type}

/-! ## Writes to mapped memory -/

variable {mem : GuestMemory} {ss : List GuestSlice} {addr acc n len count : Nat} {buf data : List UInt8}

theorem foldlM_write (hb : ∀ s ∈ ss, mem.Backs s) (hc : Consecutive addr ss) (hlen : acc + totalLen ss ≤ buf.length)
    (st : σ) : ∃ trace, ss.foldlM (writeNext buf) acc st = ⟨.ok (acc + totalLen ss), st, trace⟩ ∧
      ∀ b, applyBytes b trace = storeBytes b addr ((buf.drop acc).take (totalLen ss)) := by
  induction ss generalizing addr acc with
  | nil => exact ⟨[], rfl, fun b => by simp [totalLen]⟩
  | cons s ss ih =>
    obtain ⟨rfl, hrest⟩ := hc
    have hs := hb s mem_cons_self
    have hpos := hs.len_pos
    rw [totalLen_cons] at hlen
    -- the buffer has more bytes than the slice
    have hne : buf.drop acc ≠ [] := by
      apply ne_nil_of_length_pos
      rw [length_drop]
      omega
    have hmin : min s.len (buf.drop acc).length = s.len := by
      rw [length_drop]
      omega
    have hwrite := write_apply hs (buf.drop acc) st
    rw [if_neg hne, hmin] at hwrite
    have hfit : acc + s.len + totalLen ss ≤ buf.length := by omega
    obtain ⟨trace, hrun, happly⟩ := ih (fun s hs => hb s (mem_cons_of_mem _ hs)) hrest hfit
    refine ⟨⟨s, (buf.drop acc).take s.len, s.len⟩ :: trace, ?_, fun b => ?_⟩
    · rw [foldlM_cons]
      have hstep : writeNext buf acc s st = ⟨.ok (acc + s.len), st, [⟨s, (buf.drop acc).take s.len, s.len⟩]⟩ :=
        bind_of_ok hwrite _
      rw [bind_of_ok hstep, hrun, Nat.add_assoc]
      rfl
    · have htake : ((buf.drop acc).take s.len).length = s.len := by
        rw [length_take, hmin]
      rw [applyBytes_cons, happly, storeBytes_append b s.guestAddr htake, totalLen_cons, take_add, drop_drop]

/-! ## Writes to any memory -/

theorem slice_write_cases (s : GuestSlice) (buf : List UInt8) (st : σ) :
    (∃ n trace, s.write buf 0 st = ⟨.ok n, st, trace⟩ ∧ n ≤ buf.length ∧ storedData trace = buf.take n) ∨
    ∃ e, s.write buf 0 st = ⟨.err e, st, []⟩ ∧ buf ≠ [] := by
  unfold GuestSlice.write
  by_cases hbuf : buf = []
  · exact .inl ⟨0, [], by rw [if_pos hbuf]; rfl, Nat.zero_le _, rfl⟩
  · rw [if_neg hbuf]
    split
    · exact .inr ⟨_, rfl, hbuf⟩
    · refine .inl ⟨(buf.take s.len).length, [⟨_, buf.take s.len, _⟩], rfl, length_take_le' _ _, ?_⟩
      simp

theorem foldlM_writeNext (ss : List GuestSlice) (hacc : acc ≤ buf.length) (st : σ) :
    ∃ n outcome trace, ss.foldlM (writeNext buf) acc st = ⟨outcome, st, trace⟩ ∧ acc ≤ n ∧
      n ≤ buf.length ∧ buf.take acc ++ storedData trace = buf.take n ∧
      (outcome = .ok n ∨ (∃ e, outcome = .err e) ∧ n < buf.length) := by
  induction ss generalizing acc with
  | nil => exact ⟨acc, _, _, rfl, Nat.le_refl _, hacc, by simp [storedData], .inl rfl⟩
  | cons s ss ih =>
    rcases slice_write_cases s (buf.drop acc) st with ⟨k, trace₁, hwrite, hk, hdata⟩ | ⟨e, hwrite, hne⟩
    · have hstep : writeNext buf acc s st = ⟨.ok (acc + k), st, trace₁⟩ := bind_of_ok_of_silent hwrite rfl
      rw [length_drop] at hk
      have hfit : acc + k ≤ buf.length := by omega
      obtain ⟨n, outcome, trace, hrun, hle, hn, hstored, hout⟩ := ih hfit
      refine ⟨n, outcome, _, bind_of_ok_of_eq hstep hrun, by omega, hn, ?_, hout⟩
      rw [storedData_append, hdata, ← append_assoc, ← take_add, hstored]
    · have hlt : acc < buf.length := Nat.lt_of_not_le fun hle => hne (drop_eq_nil_of_le hle)
      have hstep : writeNext buf acc s st = ⟨.err e, st, []⟩ := bind_of_err hwrite _
      exact ⟨acc, _, _, bind_of_err hstep _, Nat.le_refl _, hacc, by simp [storedData], .inr ⟨⟨e, rfl⟩, hlt⟩⟩

theorem slice_write_pos {s : GuestSlice} (hpos : 0 < s.len) (buf : List UInt8) (st : σ) :
    ∃ trace, s.write buf 0 st = ⟨.ok (min s.len buf.length), st, trace⟩ := by
  unfold GuestSlice.write
  by_cases hbuf : buf = []
  · exact ⟨[], by simp [hbuf]⟩
  · rw [if_neg hbuf, if_neg (Nat.not_le.2 hpos), ← length_take]
    exact ⟨_, rfl⟩

theorem foldlM_writeNext_pos (hpos : ∀ s ∈ ss, 0 < s.len) (hacc : acc ≤ buf.length) (st : σ) :
    ∃ trace, ss.foldlM (writeNext buf) acc st = ⟨.ok (min (acc + totalLen ss) buf.length), st, trace⟩ := by
  induction ss generalizing acc with
  | nil =>
    refine ⟨[], ?_⟩
    rw [show totalLen [] = 0 from rfl, Nat.add_zero, Nat.min_eq_left hacc]
    rfl
  | cons s ss ih =>
    obtain ⟨hs, hss⟩ := forall_mem_cons.1 hpos
    obtain ⟨trace₁, hwrite⟩ := slice_write_pos hs (buf.drop acc) st
    rw [length_drop] at hwrite
    obtain ⟨trace₂, hrun⟩ := ih hss (show acc + min s.len (buf.length - acc) ≤ buf.length by omega)
    have hsum : min (acc + min s.len (buf.length - acc) + totalLen ss) buf.length =
        min (acc + totalLen (s :: ss)) buf.length := by
      rw [totalLen_cons]
      omega
    rw [← hsum]
    exact ⟨_, bind_of_ok_of_eq (bind_of_ok_of_silent hwrite rfl) hrun⟩

variable (M : GuestMemoryT)

theorem write_cases (hM : M.slices addr buf.length .write ≠ .panic) (st : σ) :
    ∃ n outcome trace, M.write buf addr st = ⟨outcome, st, trace⟩ ∧ n ≤ buf.length ∧ storedData trace = buf.take n ∧
      (outcome = .ok n ∨ (∃ e, outcome = .err e) ∧ (n < buf.length ∨ buf = [])) := by
  unfold write
  cases M.fastSlice addr buf.length with
  | some s =>
    rcases slice_write_cases s buf st with ⟨n, trace, hwrite, hn, hdata⟩ | ⟨e, hwrite, hne⟩
    · exact ⟨n, _, trace, hwrite, hn, hdata, .inl rfl⟩
    · exact ⟨0, _, [], hwrite, Nat.zero_le _, rfl, .inr ⟨⟨e, rfl⟩, .inl (length_pos_iff.2 hne)⟩⟩
  | none =>
    cases hs : M.slices addr buf.length .write with
    | panic => exact absurd hs hM
    | err e =>
      refine ⟨0, _, [], rfl, Nat.zero_le _, rfl, .inr ⟨⟨e, rfl⟩, ?_⟩⟩
      exact (eq_or_ne buf []).symm.imp_left length_pos_iff.2
    | ok ss =>
      obtain ⟨n, outcome, trace, hrun, _, hn, hdata, hout⟩ := foldlM_writeNext ss (Nat.zero_le _) st
      refine ⟨n, outcome, trace, hrun, hn, hdata, hout.imp_right fun h => ⟨h.1, .inl h.2⟩⟩

theorem writeSlice_cases (hM : M.slices addr buf.length .write ≠ .panic) (st : σ) :
    (∃ trace, M.writeSlice buf addr st = ⟨.ok (), st, trace⟩ ∧ storedData trace = buf) ∨
    ∃ e n trace, M.writeSlice buf addr st = ⟨.err e, st, trace⟩ ∧ storedData trace = buf.take n ∧
      (n < buf.length ∨ buf = []) := by
  obtain ⟨n, outcome, trace, hwrite, hn, hdata, rfl | ⟨⟨e, rfl⟩, hlt⟩⟩ := M.write_cases hM st
  · -- the number of bytes is compared with the length of the buffer
    by_cases hlen : n = buf.length
    · refine .inl ⟨trace, bind_of_ok_of_silent hwrite ?_, ?_⟩
      · rw [if_neg (fun hne => hne hlen)]
        rfl
      · rw [hdata, hlen, take_length]
    · refine .inr ⟨.partialBuffer buf.length n, n, trace, bind_of_ok_of_silent hwrite ?_, hdata, ?_⟩
      · rw [if_pos hlen]
        rfl
      · exact .inl (Nat.lt_of_le_of_ne hn hlen)
  · exact .inr ⟨e, n, trace, bind_of_err hwrite _, hdata, hlt⟩

/-! ## Reads -/

variable {s : GuestSlice}

theorem read_slice_of_backs (h : mem.Backs s) (bytes : Nat → UInt8) (len : Nat) (st : σ) :
    s.read bytes len 0 st = ⟨.ok (bytesAt bytes s.guestAddr (min s.len len)), st, []⟩ := by
  unfold GuestSlice.read
  by_cases hlen : len = 0
  · simp [hlen, bytesAt]
  · rw [if_neg hlen, if_neg (Nat.not_le.2 h.len_pos), offset_zero h.baseOffset_le]
    rfl

theorem foldlM_read (hb : ∀ s ∈ ss, mem.Backs s) (bytes : Nat → UInt8) (hc : Consecutive (addr + n) ss)
    (hlen : n + totalLen ss ≤ len) (st : σ) : (ss.foldlM (fun acc slice => do
      let data ← slice.read bytes (len - acc.length) 0
      return acc ++ data) (bytesAt bytes addr n) : Traced σ Effect Error (List UInt8)) st =
      ⟨.ok (bytesAt bytes addr (n + totalLen ss)), st, []⟩ := by
  induction ss generalizing n with
  | nil => rfl
  | cons s ss ih =>
    obtain ⟨hstart, hrest⟩ := hc
    rw [totalLen_cons, ← Nat.add_assoc] at hlen ⊢
    have hread := read_slice_of_backs (hb s mem_cons_self) bytes (len - n) st
    have hmin : min s.len (len - n) = s.len := by omega
    rw [hmin, hstart] at hread
    rw [Nat.add_assoc] at hrest
    have hstep : (do
        let data ← s.read bytes (len - (bytesAt bytes addr n).length) 0
        return bytesAt bytes addr n ++ data : Traced σ Effect Error (List UInt8)) st =
        ⟨.ok (bytesAt bytes addr (n + s.len)), st, []⟩ := by
      rw [length_bytesAt, bind_of_ok hread, ← bytesAt_append]
      rfl
    have hloop := ih (fun s hs => hb s (mem_cons_of_mem _ hs)) hrest hlen
    exact bind_of_ok_of_eq hstep hloop

/-! ## Reads from sources that hold nothing back -/

open FullReads

variable {trace : List Effect}

theorem readVolatileNext_moved [ReadVolatile σ] [FullReads σ] (hs : mem.Backs s) (acc : Nat) (src : σ) :
    ∃ src' trace, Moved s.guestAddr s.len src src' trace ∧
      readVolatileNext acc s src = ⟨.ok (acc + ((rest src).take s.len).length), src', trace⟩ := by
  obtain ⟨src', hrest, hread⟩ := readVolatile_eq src s.len
  have hslice := readVolatile_of_bytes hread
  refine ⟨src', [⟨s, (rest src).take s.len, ((rest src).take s.len).length⟩], ⟨hrest, ?_, ?_, ?_⟩, ?_⟩
  · simp
  · exact fun b => rfl
  · simp [Effect.Stores]
  · rw [readVolatileNext, readVolatileFrom_eq hs]
    exact bind_of_ok_of_silent hslice rfl

theorem foldlM_readVolatileNext [ReadVolatile σ] [FullReads σ] (hb : ∀ s ∈ ss, mem.Backs s) (hc : Consecutive addr ss)
    (acc : Nat) (src : σ) : ∃ src' trace, Moved addr (totalLen ss) src src' trace ∧ ss.foldlM readVolatileNext acc src =
        ⟨.ok (acc + ((rest src).take (totalLen ss)).length), src', trace⟩ := by
  induction ss generalizing addr acc src with
  | nil => exact ⟨src, [], .zero addr src, rfl⟩
  | cons s ss ih =>
    obtain ⟨rfl, hrest⟩ := hc
    obtain ⟨src₁, trace₁, hmoved₁, hstep⟩ := readVolatileNext_moved (hb s mem_cons_self) acc src
    obtain ⟨src₂, trace₂, hmoved₂, hloop⟩ :=
      ih (fun s hs => hb s (mem_cons_of_mem _ hs)) hrest (acc + ((rest src).take s.len).length) src₁
    refine ⟨src₂, trace₁ ++ trace₂, hmoved₁.trans hmoved₂, ?_⟩
    rw [foldlM_cons, bind_of_ok_of_eq hstep hloop, totalLen_cons, take_add,
      length_append, hmoved₁.rest_eq, Nat.add_assoc]

def readExactOutcome (addr count mapped stored : Nat) : Outcome Error Unit :=
  if stored = count then .ok ()
  else if mapped = 0 then .err (.invalidGuestAddress addr)
  else .err (.partialBuffer count stored)

theorem readExactVolatileFrom_moved [ReadVolatile σ] [FullReads σ] (mem : GuestMemory) (addr count : Nat) (src : σ) :
    ∃ n src' trace, (∀ m ≤ count, mem.Mapped addr m ↔ m ≤ n) ∧ n ≤ count ∧ Moved addr n src src' trace ∧
      mem.asT.readExactVolatileFrom addr count src =
        ⟨readExactOutcome addr count n ((rest src).take n).length, src', trace⟩ := by
  obtain ⟨ss, hss, heq⟩ := slices_asT mem addr count .write
  have hmapped : ∀ m ≤ count, mem.Mapped addr m ↔ m ≤ totalLen ss := fun m hm => hss.mapped_iff_le hm
  by_cases hempty : ss = [] ∧ count ≠ 0
  · -- nothing is mapped at the first address
    obtain ⟨rfl, hcount⟩ := hempty
    refine ⟨0, src, [], hmapped, Nat.zero_le _, .zero addr src, ?_⟩
    rw [readExactVolatileFrom, readVolatileFrom, heq, if_pos ⟨rfl, hcount⟩, readExactOutcome,
      if_neg (fun h => hcount h.symm)]
    rfl
  · obtain ⟨src', trace, hmoved, hloop⟩ := foldlM_readVolatileNext hss.backs hss.consecutive 0 src
    refine ⟨totalLen ss, src', trace, hmapped, hss.totalLen_le, hmoved, ?_⟩
    rw [Nat.zero_add] at hloop
    have hread : mem.asT.readVolatileFrom addr count src =
        ⟨.ok ((rest src).take (totalLen ss)).length, src', trace⟩ := by
      rw [readVolatileFrom, heq, if_neg hempty, lift_ok_bind, hloop]
    refine bind_of_ok_of_silent hread ?_
    by_cases hlen : ((rest src).take (totalLen ss)).length = count
    · rw [if_neg (fun hne => hne hlen), readExactOutcome, if_pos hlen]
      rfl
    · -- a slice is not empty, so there is none if nothing is mapped
      have hpos : totalLen ss ≠ 0 := by
        cases ss with
        | nil =>
          have hcount : 0 ≠ count := hlen
          exact absurd ⟨rfl, hcount.symm⟩ hempty
        | cons s ss =>
          have := (hss.backs s mem_cons_self).len_pos
          rw [totalLen_cons]
          omega
      rw [if_pos hlen, readExactOutcome, if_neg hlen, if_neg hpos]
      rfl

theorem readExactVolatileFrom_eq_ok [ReadVolatile σ] [FullReads σ] {src src' : σ}
    (h : mem.asT.readExactVolatileFrom addr count src = ⟨.ok (), src', trace⟩) :
    mem.Mapped addr count ∧ ((rest src).take count).length = count ∧ Moved addr count src src' trace := by
  obtain ⟨n, src₁, trace₁, hmapped, hn, hmoved, heq⟩ := readExactVolatileFrom_moved mem addr count src
  rw [h] at heq
  obtain ⟨hout, rfl, rfl⟩ := Result.mk.inj heq
  have hstored : ((rest src).take n).length = count := by
    by_contra hne
    unfold readExactOutcome at hout
    rw [if_neg hne] at hout
    split at hout <;> cases hout
  obtain rfl : n = count := by
    have := length_take_le n (rest src)
    omega
  exact ⟨(hmapped n (Nat.le_refl n)).2 (Nat.le_refl n), hstored, hmoved⟩

theorem readExactVolatileFrom_buffer (mem : GuestMemory) (addr : Nat) (src : List UInt8) :
    let r := mem.asT.readExactVolatileFrom addr src.length src
    (mem.Mapped addr src.length → r.outcome = .ok ()) ∧
    (¬ mem.Mapped addr src.length → ∃ e, r.outcome = .err e) ∧
    ∀ a, Stored r.trace a ↔ (addr ≤ a ∧ a < addr + src.length) ∧ mem.Mapped addr (a + 1 - addr) := by
  intro r
  obtain ⟨n, src', trace, hmapped, hn, hmoved, hr⟩ := readExactVolatileFrom_moved mem addr src.length src
  have hlen : ((rest src).take n).length = n := length_take_of_le hn
  have hstored := hmoved.stored
  rw [hlen] at hr hstored
  have hr : r = ⟨readExactOutcome addr src.length n n, src', trace⟩ := hr
  rw [hr, hmapped _ (Nat.le_refl _)]
  unfold readExactOutcome
  refine ⟨fun h => if_pos (Nat.le_antisymm hn h), fun h => ?_, fun a => ?_⟩
  · rw [if_neg (fun heq => h heq.ge)]
    split
    · exact ⟨_, rfl⟩
    · exact ⟨_, rfl⟩
  · rw [hstored]
    constructor
    · rintro ⟨hle, hlt⟩
      exact ⟨⟨hle, by omega⟩, (hmapped _ (by omega)).2 (by omega)⟩
    · rintro ⟨⟨hle, hlt⟩, hm⟩
      have := (hmapped _ (by omega)).1 hm
      exact ⟨hle, by omega⟩

/-! ## Atomic stores -/

variable (access : Permissions) {r : Region}

theorem firstSlice_of_covers (hcount : count ≠ 0) (hr : r ∈ mem.regions) (hc : r.Covers addr) :
    mem.asT.firstSlice addr count access = .ok ((GuestMemory.getSlices addr count).sliceIn r) := by
  have hnext : (GuestMemory.getSlices addr count).next mem = _ := next_of_covers hcount hr hc
  show (Outcome.unwrap ((GuestMemory.getSlices addr count).items mem).head? >>= fun item => item) = _
  rw [items_of_some hnext]
  rfl

theorem firstSlice_unmapped (hcount : count ≠ 0) (h : mem.Unmapped addr) :
    mem.asT.firstSlice addr count access = .err (.invalidGuestAddress addr) := by
  have hnext : (GuestMemory.getSlices addr count).next mem = _ := next_unmapped hcount h
  show (Outcome.unwrap ((GuestMemory.getSlices addr count).items mem).head? >>= fun item => item) = _
  rw [items_of_some hnext]
  rfl

/-- An integer of a size lies in one region, at an address of the host that is a multiple of the size. -/
def AtomicAt (mem : GuestMemory) (addr size : Nat) : Prop :=
  ∃ r ∈ mem.regions, r.startAddr ≤ addr ∧ addr + size ≤ r.startAddr + r.len ∧
    (r.hostAddr + (addr - r.startAddr)) % size = 0

theorem atomicAt_iff {size : Nat} (hsize : size ≠ 0) (hr : r ∈ mem.regions) (hc : r.Covers addr) :
    AtomicAt mem addr size ↔ size ≤ min (r.len - (addr - r.startAddr)) size ∧
      (r.hostAddr + (addr - r.startAddr)) % size = 0 := by
  obtain ⟨hstart, hlt⟩ := hc
  constructor
  · rintro ⟨r', hr', hstart', hend, halign⟩
    obtain rfl := eq_of_covers hr' hr ⟨hstart', by omega⟩ ⟨hstart, hlt⟩
    exact ⟨by omega, halign⟩
  · rintro ⟨hlen, halign⟩
    exact ⟨r, hr, hstart, by omega, halign⟩

theorem store_cases (mem : GuestMemory) (val : AtomicValue) (addr : Nat) (st : σ) :
    (AtomicAt mem addr val.data.length ∧ ∃ trace, mem.asT.store val addr st = ⟨.ok (), st, trace⟩ ∧
      ∀ b, applyBytes b trace = storeBytes b addr val.data) ∨
    ¬ AtomicAt mem addr val.data.length ∧ ∃ e, mem.asT.store val addr st = ⟨.err e, st, []⟩ := by
  have hpos : val.data.length ≠ 0 := by
    have := val.size
    omega
  by_cases hmapped : ∃ r ∈ mem.regions, r.Covers addr
  · obtain ⟨r, hr, hc⟩ := hmapped
    have hbacks : mem.Backs ((GuestMemory.getSlices addr val.data.length).sliceIn r) :=
      backs_sliceIn hpos hr hc
    rw [atomicAt_iff hpos hr hc, store, firstSlice_of_covers _ hpos hr hc, lift_ok_bind, GuestSlice.store,
      getAtomicRef, subslice_zero hbacks.baseOffset_le hbacks.len_le]
    split
    · rename_i hlen
      rw [Outcome.ok_bind]
      split
      · rename_i halign
        exact .inr ⟨fun h => halign h.2, _, rfl⟩
      · rename_i halign
        exact .inl ⟨⟨hlen, not_not.1 halign⟩, _, rfl, fun b => rfl⟩
    · rename_i hlen
      exact .inr ⟨fun h => hlen h.1, _, rfl⟩
  · rw [store, firstSlice_unmapped _ hpos fun r hr hc => hmapped ⟨r, hr, hc⟩]
    refine .inr ⟨?_, _, rfl⟩
    rintro ⟨r, hr, hstart, hend, _⟩
    exact hmapped ⟨r, hr, hstart, by omega⟩

end GuestMemoryT

end RustVmm.VmMemory
