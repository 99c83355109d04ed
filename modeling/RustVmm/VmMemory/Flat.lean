import RustVmm.VmMemory.Transfers

/-!
# Guest memory as a flat memory

What the regions of a guest are for: together they are one memory, a partial map from addresses to bytes.  An access
that goes over the slices of its range acts on that map as if there were no regions.

* `write_eq_fragmented`, `read_eq_fragmented` — the short cut for a range in one region changes nothing.
* `write_flat`, `read_flat` — a write stores, and a read returns, the longest prefix of the range that is mapped.
* `writeSlice_flat`, `readSlice_flat` — the calls for the whole range succeed exactly if it is mapped.
* `flat_access` — these for every memory, buffer and address, and that what was written is read back.
-/

set_option autoImplicit false

namespace RustVmm.VmMemory

open Lib GuestMemory List SliceIterator Traced

/-- The byte at each address, where there is one. -/
abbrev FlatMemory := Nat → Option UInt8

variable {data : List UInt8}

namespace FlatMemory

/-- How many addresses of the range are mapped before the first one that is not. -/
def prefixLen (f : FlatMemory) (addr : Nat) : Nat → Nat
  | 0 => 0
  | len + 1 => if (f addr).isSome then prefixLen f (addr + 1) len + 1 else 0

def Mapped (f : FlatMemory) (addr len : Nat) : Prop := ∀ i < len, (f (addr + i)).isSome = true

/-- The memory after bytes have been stored from an address on. -/
def store (f : FlatMemory) (addr : Nat) (data : List UInt8) : FlatMemory := fun a =>
  if addr ≤ a then (data[a - addr]?).or (f a) else f a

/-- The bytes from an address on are these. -/
def Holds (f : FlatMemory) (addr : Nat) (data : List UInt8) : Prop := ∀ i < data.length, f (addr + i) = data[i]?

variable {f : FlatMemory}

theorem prefixLen_le (addr len : Nat) : f.prefixLen addr len ≤ len := by
  induction len generalizing addr with
  | zero => simp [prefixLen]
  | succ len ih =>
    have := ih (addr + 1)
    simp only [prefixLen]
    split <;> omega

theorem le_prefixLen_iff {addr len n : Nat} (hn : n ≤ len) : n ≤ f.prefixLen addr len ↔ f.Mapped addr n := by
  induction len generalizing addr n with
  | zero => simp_all [Mapped]
  | succ len ih =>
    cases n with
    | zero => simp [Mapped]
    | succ n =>
      have hrest : n ≤ f.prefixLen (addr + 1) len ↔ f.Mapped (addr + 1) n := ih (Nat.le_of_succ_le_succ hn)
      simp only [prefixLen]
      split
      · rename_i hsome
        rw [Nat.add_le_add_iff_right, hrest]
        constructor
        · intro h i hi
          cases i with
          | zero => exact hsome
          | succ i =>
            have := h i (by omega)
            rwa [Nat.add_assoc, Nat.add_comm 1 i] at this
        · intro h i hi
          have := h (i + 1) (by omega)
          rwa [Nat.add_assoc, Nat.add_comm 1 i]
      · rename_i hnone
        exact iff_of_false (by omega) fun h => hnone (h 0 (Nat.succ_pos n))

theorem mapped_prefixLen (addr len : Nat) : f.Mapped addr (f.prefixLen addr len) :=
  (le_prefixLen_iff (prefixLen_le addr len)).1 (Nat.le_refl _)

theorem prefixLen_eq_iff (addr len : Nat) : f.prefixLen addr len = len ↔ f.Mapped addr len := by
  rw [← le_prefixLen_iff (Nat.le_refl len)]
  have := f.prefixLen_le addr len
  omega

theorem prefixLen_eq_zero_iff {addr len : Nat} : f.prefixLen addr len = 0 ↔ len = 0 ∨ f addr = none := by
  cases len with
  | zero => simp [prefixLen]
  | succ len =>
    cases h : f addr with
    | none | some b => simp [prefixLen, h]

theorem store_of_outside {addr a : Nat} (h : a < addr ∨ addr + data.length ≤ a) : f.store addr data a = f a := by
  unfold store
  split
  · rw [getElem?_eq_none (by omega)]
    rfl
  · rfl

end FlatMemory

/-! ## The flat memory of a guest -/

namespace GuestMemory

/-- The bytes of all regions. -/
def flat (mem : GuestMemory) : FlatMemory := fun a =>
  if ∃ r ∈ mem.regions, r.Covers a then some (mem.bytes a) else none

variable {mem : GuestMemory}
variable {a addr : Nat}

theorem flat_isSome : (mem.flat a).isSome = true ↔ ∃ r ∈ mem.regions, r.Covers a := by
  unfold flat
  split <;> simp_all

theorem flat_of_covers (h : ∃ r ∈ mem.regions, r.Covers a) : mem.flat a = some (mem.bytes a) := if_pos h

theorem flat_mapped_iff {len : Nat} : mem.flat.Mapped addr len ↔ mem.Mapped addr len := by
  simp only [FlatMemory.Mapped, flat_isSome]
  constructor
  · intro h a hle hlt
    have := h (a - addr) (by omega)
    rwa [Nat.add_sub_cancel' hle] at this
  · intro h i hi
    exact h (addr + i) (Nat.le_add_right _ _) (by omega)

theorem flat_storeAt (h : mem.Mapped addr data.length) : (mem.storeAt addr data).flat = mem.flat.store addr data := by
  funext a
  by_cases hin : addr ≤ a ∧ a < addr + data.length
  · obtain ⟨hle, hlt⟩ := hin
    have hi : a - addr < data.length := by omega
    have hcovers : ∃ r ∈ (mem.storeAt addr data).regions, r.Covers a := h a hle hlt
    rw [flat_of_covers hcovers]
    simp [storeAt, storeBytes, FlatMemory.store, hle, hi]
  · rw [FlatMemory.store_of_outside (by omega)]
    show (if ∃ r ∈ mem.regions, r.Covers a then some (storeBytes mem.bytes addr data a) else none) = _
    rw [storeBytes_of_outside _ (by omega)]
    rfl

theorem flat_holds_iff (h : mem.Mapped addr data.length) :
    mem.flat.Holds addr data ↔ data = bytesAt mem.bytes addr data.length := by
  have hflat : ∀ i < data.length, mem.flat (addr + i) = some (mem.bytes (addr + i)) := by
    intro i hi
    exact flat_of_covers (h _ (Nat.le_add_right _ _) (by omega))
  constructor
  · intro hholds
    apply ext_getElem (by simp)
    intro i hi _
    have := hholds i hi
    rw [hflat i hi, getElem?_eq_getElem hi, Option.some_inj] at this
    simp [bytesAt, this]
  · intro heq i hi
    rw [hflat i hi, heq]
    simp [bytesAt, hi]

end GuestMemory

theorem bytesAt_storeBytes_part (bytes : Nat → UInt8) (addr : Nat) {i k : Nat}
    (h : i + k ≤ data.length) : bytesAt (storeBytes bytes addr data) (addr + i) k = (data.drop i).take k := by
  apply ext_getElem (by simp; omega)
  intro j hj _
  have hj : j < k := by simpa using hj
  have hij : i + j < data.length := by omega
  have hbyte : storeBytes bytes addr data (addr + (i + j)) = data[i + j] := storeBytes_of_lt bytes hij
  simp [bytesAt, Nat.add_assoc, hbyte]

/-! ## The loops over the slices -/

theorem Yielded.eq_nil {mem : GuestMemory} {it : SliceIterator} {ss : List GuestSlice} (h : Yielded mem it ss)
    (hcount : it.count = 0) : ss = [] := by
  cases ss with
  | nil => rfl
  | cons s ss =>
    have hle := h.totalLen_le
    have hpos := (h.backs s mem_cons_self).len_pos
    rw [totalLen_cons] at hle
    omega

variable {buf : List UInt8}

namespace GuestMemoryT

variable {σ : Type}

/-- `write` without the short cut for a range in one region. -/
def writeFragmented (M : GuestMemoryT) (buf : List UInt8) (addr : Nat) : Traced σ Effect Error Nat := do
  let slices ← .lift (M.slices addr buf.length .write)
  slices.foldlM (writeNext buf) 0

/-- `read` without the short cut. -/
def readFragmented {W : Type} [Records W] (M : GuestMemoryT) (bytes : Nat → UInt8) (len addr : Nat) :
    Traced σ W Error (List UInt8) := do
  let slices ← .lift (M.slices addr len .read)
  slices.foldlM (fun acc slice => do
    let data ← slice.read bytes (len - acc.length) 0
    return acc ++ data) []

variable {mem : GuestMemory} {addr count : Nat}

theorem slices_of_fastSlice {s : GuestSlice} (access : Permissions) (h : mem.asT.fastSlice addr count = some s)
    (hcount : count ≠ 0) : mem.asT.slices addr count access = .ok [s] := by
  obtain ⟨r, hr, hc, hend, rfl⟩ := getSlice_eq_ok (fastSlice_asT h)
  have hstart := hc.1
  have hlen : (GuestMemory.getSlices addr count).lenIn r = count := by
    show min (r.len - (addr - r.startAddr)) count = count
    omega
  have hnext : (GuestMemory.getSlices addr count).next mem = _ := next_of_covers hcount hr hc
  rw [hlen] at hnext
  have hitems : (GuestMemory.getSlices addr count).items mem =
      [.ok ((GuestMemory.getSlices addr count).sliceIn r)] := by
    rw [items_of_some hnext, items_of_none (next_end ?_)]
    exact Nat.sub_self count
  show stopOnError ((GuestMemory.getSlices addr count).items mem) = _
  rw [hitems, sliceIn, hlen]
  rfl

theorem slices_of_empty (mem : GuestMemory) (addr : Nat) (access : Permissions) :
    mem.asT.slices addr 0 access = .ok [] := by
  obtain ⟨ss, hss, heq⟩ := slices_asT mem addr 0 access
  rw [heq, if_neg (fun h => h.2 rfl), hss.eq_nil rfl]

theorem write_eq_fragmented (mem : GuestMemory) (buf : List UInt8) (addr : Nat) :
    (mem.asT.write buf addr : Traced σ Effect Error Nat) = mem.asT.writeFragmented buf addr := by
  unfold write writeFragmented
  cases hs : mem.asT.fastSlice addr buf.length with
  | none => rfl
  | some s =>
    dsimp only
    by_cases hbuf : buf = []
    · -- there is no slice in an empty range
      subst hbuf
      rw [length_nil, slices_of_empty, lift_ok_bind, GuestSlice.write, if_pos rfl]
      rfl
    · rw [slices_of_fastSlice .write hs (mt length_eq_zero_iff.1 hbuf), lift_ok_bind]
      simp only [foldlM_cons, foldlM_nil, writeNext, drop_zero, Nat.zero_add, bind_pure_id]

theorem read_eq_fragmented {W : Type} [Records W] (mem : GuestMemory) (bytes : Nat → UInt8) (len addr : Nat) :
    (mem.asT.read bytes len addr : Traced σ W Error (List UInt8)) = mem.asT.readFragmented bytes len addr := by
  unfold read readFragmented
  cases hs : mem.asT.fastSlice addr len with
  | none => rfl
  | some s =>
    dsimp only
    by_cases hlen : len = 0
    · subst hlen
      rw [slices_of_empty, lift_ok_bind, GuestSlice.read, if_pos rfl]
      rfl
    · rw [slices_of_fastSlice .read hs hlen, lift_ok_bind]
      simp only [foldlM_cons, foldlM_nil, length_nil, Nat.sub_zero, nil_append, bind_pure_id]

/-! ## The accesses -/

variable {ss : List GuestSlice}

theorem totalLen_eq_prefixLen (h : Yielded mem (GuestMemory.getSlices addr count) ss) :
    totalLen ss = mem.flat.prefixLen addr count := by
  have hle : totalLen ss ≤ count := h.totalLen_le
  have hle' := mem.flat.prefixLen_le addr count
  apply Nat.le_antisymm
  · rw [FlatMemory.le_prefixLen_iff hle, flat_mapped_iff]
    exact (h.mapped_iff_le hle).2 (Nat.le_refl _)
  · exact (h.mapped_iff_le hle').1 (flat_mapped_iff.1 (FlatMemory.mapped_prefixLen addr count))

theorem eq_nil_iff (h : Yielded mem (GuestMemory.getSlices addr count) ss) (hcount : count ≠ 0) :
    ss = [] ↔ mem.flat addr = none := by
  have htotal := totalLen_eq_prefixLen h
  have hzero : mem.flat.prefixLen addr count = 0 ↔ mem.flat addr = none := by
    simp [FlatMemory.prefixLen_eq_zero_iff, hcount]
  rw [← hzero, ← htotal]
  cases ss with
  | nil => simp [totalLen]
  | cons s ss =>
    have := (h.backs s mem_cons_self).len_pos
    rw [totalLen_cons]
    exact iff_of_false (cons_ne_nil s ss) (by omega)

theorem write_flat (mem : GuestMemory) (buf : List UInt8) (addr : Nat) (st : σ) : ∃ trace, mem.asT.write buf addr st =
        ⟨if buf ≠ [] ∧ mem.flat addr = none then .err (.invalidGuestAddress addr)
          else .ok (mem.flat.prefixLen addr buf.length), st, trace⟩ ∧
      ∀ b, applyBytes b trace = storeBytes b addr (buf.take (mem.flat.prefixLen addr buf.length)) := by
  obtain ⟨ss, hss, heq⟩ := slices_asT mem addr buf.length .write
  rw [write_eq_fragmented, writeFragmented, heq, ← totalLen_eq_prefixLen hss]
  by_cases hbuf : buf = []
  · subst hbuf
    obtain rfl := hss.eq_nil rfl
    exact ⟨[], rfl, fun b => by simp⟩
  · have hlen : buf.length ≠ 0 := fun h => hbuf (length_eq_zero_iff.1 h)
    simp only [hlen, hbuf, ne_eq, not_false_eq_true, and_true, true_and, ← eq_nil_iff hss hlen]
    by_cases hnil : ss = []
    · subst hnil
      exact ⟨[], rfl, fun b => by simp [totalLen]⟩
    · rw [if_neg hnil, if_neg hnil]
      have hfit : 0 + totalLen ss ≤ buf.length := by
        have hle : totalLen ss ≤ buf.length := hss.totalLen_le
        omega
      obtain ⟨trace, hrun, happly⟩ := foldlM_write hss.backs hss.consecutive hfit st
      rw [Nat.zero_add] at hrun
      exact ⟨trace, hrun, happly⟩

theorem read_flat (mem : GuestMemory) (bytes : Nat → UInt8) (len addr : Nat) :
    (mem.asT.read bytes len addr : Traced σ Effect Error (List UInt8)) =
      .lift (if len ≠ 0 ∧ mem.flat addr = none then .err (.invalidGuestAddress addr)
        else .ok (bytesAt bytes addr (mem.flat.prefixLen addr len))) := by
  funext st
  obtain ⟨ss, hss, heq⟩ := slices_asT mem addr len .read
  rw [read_eq_fragmented, readFragmented, heq, ← totalLen_eq_prefixLen hss]
  by_cases hlen : len = 0
  · subst hlen
    obtain rfl := hss.eq_nil rfl
    rfl
  · simp only [hlen, ne_eq, not_false_eq_true, and_true, true_and, ← eq_nil_iff hss hlen]
    by_cases hnil : ss = []
    · rw [if_pos hnil, if_pos hnil]
      rfl
    · rw [if_neg hnil, if_neg hnil]
      have hfit : 0 + totalLen ss ≤ len := by
        have hle : totalLen ss ≤ len := hss.totalLen_le
        omega
      have hloop := foldlM_read hss.backs bytes (n := 0) hss.consecutive hfit st
      rw [Nat.zero_add] at hloop
      exact hloop

theorem mapped_take (buf : List UInt8) (addr : Nat) :
    mem.Mapped addr (buf.take (mem.flat.prefixLen addr buf.length)).length := by
  rw [length_take_of_le (mem.flat.prefixLen_le addr buf.length), ← flat_mapped_iff]
  exact FlatMemory.mapped_prefixLen addr buf.length

theorem write_flat_apply {trace : List Effect}
    (h : ∀ b, applyBytes b trace = storeBytes b addr (buf.take (mem.flat.prefixLen addr buf.length))) :
    (mem.apply trace).flat = mem.flat.store addr (buf.take (mem.flat.prefixLen addr buf.length)) := by
  rw [apply_eq_storeAt h, flat_storeAt (mapped_take buf addr)]

theorem not_mapped_of_none {len : Nat} (hlen : len ≠ 0) (h : mem.flat addr = none) : ¬ mem.flat.Mapped addr len := by
  intro hmapped
  have := hmapped 0 (Nat.pos_of_ne_zero hlen)
  simp [h] at this

theorem writeSlice_flat (mem : GuestMemory) (buf : List UInt8) (addr : Nat) (st : σ) :
    ((mem.asT.writeSlice buf addr st).outcome = .ok () ↔ mem.flat.Mapped addr buf.length) ∧
      (mem.asT.writeSlice buf addr st).outcome ≠ .panic ∧
      (mem.asT.writeSlice buf addr st).trace = (mem.asT.write buf addr st).trace := by
  obtain ⟨trace, hwrite, _⟩ := write_flat mem buf addr st
  by_cases hnone : buf ≠ [] ∧ mem.flat addr = none
  · obtain ⟨hbuf, haddr⟩ := hnone
    rw [if_pos ⟨hbuf, haddr⟩] at hwrite
    have hfail : mem.asT.writeSlice buf addr st = ⟨.err _, st, trace⟩ := bind_of_err hwrite _
    have hmapped := not_mapped_of_none (fun h => hbuf (length_eq_zero_iff.1 h)) haddr
    simp [hfail, hwrite, hmapped]
  · rw [if_neg hnone] at hwrite
    have hmapped := mem.flat.prefixLen_eq_iff addr buf.length
    by_cases hall : mem.flat.prefixLen addr buf.length = buf.length
    · have hok : mem.asT.writeSlice buf addr st = ⟨.ok (), st, trace⟩ := by
        refine bind_of_ok_of_silent hwrite ?_
        rw [if_neg (fun hne => hne hall)]
        rfl
      simp [hok, hwrite, hmapped.1 hall]
    · have hfail : mem.asT.writeSlice buf addr st =
          ⟨.err (.partialBuffer buf.length (mem.flat.prefixLen addr buf.length)), st, trace⟩ := by
        refine bind_of_ok_of_silent hwrite ?_
        rw [if_pos hall]
        rfl
      simp [hfail, hwrite, mt hmapped.2 hall]

theorem readSlice_flat (mem : GuestMemory) (bytes : Nat → UInt8) (len addr : Nat) :
    ∃ o, (mem.asT.readSlice bytes len addr : Traced σ Effect Error (List UInt8)) = .lift o ∧
      (mem.flat.Mapped addr len → o = .ok (bytesAt bytes addr len)) ∧
      (¬ mem.flat.Mapped addr len → ∃ e, o = .err e) := by
  have hclosed := mem.flat.prefixLen_eq_iff addr len
  unfold readSlice
  rw [read_flat]
  by_cases hnone : len ≠ 0 ∧ mem.flat addr = none
  · rw [if_pos hnone]
    exact ⟨_, rfl, fun h => absurd h (not_mapped_of_none hnone.1 hnone.2), fun _ => ⟨_, rfl⟩⟩
  · rw [if_neg hnone, lift_ok_bind, length_bytesAt]
    by_cases hall : mem.flat.prefixLen addr len = len
    · rw [if_neg (fun hne => hne hall), hall]
      exact ⟨_, rfl, fun _ => rfl, fun h => absurd (hclosed.1 hall) h⟩
    · rw [if_pos hall]
      exact ⟨_, rfl, fun h => absurd (hclosed.2 h) hall, fun _ => ⟨_, rfl⟩⟩

theorem readSlice_of_mapped {len : Nat} (h : mem.Mapped addr len) (bytes : Nat → UInt8) :
    (mem.asT.readSlice bytes len addr : Traced σ Effect Error (List UInt8)) = .lift (.ok (bytesAt bytes addr len)) := by
  obtain ⟨o, hread, hok, _⟩ := readSlice_flat mem bytes len addr
  rw [hread, hok (flat_mapped_iff.2 h)]

theorem writeSlice_of_mapped (h : mem.Mapped addr buf.length) (st : σ) :
    ∃ trace, mem.asT.writeSlice buf addr st = ⟨.ok (), st, trace⟩ ∧
      ∀ b, applyBytes b trace = storeBytes b addr buf := by
  obtain ⟨trace, hwrite, happly⟩ := write_flat mem buf addr st
  have hmapped := flat_mapped_iff.2 h
  have hsome : ¬ (buf ≠ [] ∧ mem.flat addr = none) :=
    fun hnone => not_mapped_of_none (mt length_eq_zero_iff.1 hnone.1) hnone.2 hmapped
  rw [if_neg hsome] at hwrite
  rw [(mem.flat.prefixLen_eq_iff addr buf.length).2 hmapped] at hwrite happly
  refine ⟨trace, bind_of_ok_of_silent hwrite (by simp), fun b => ?_⟩
  rw [happly, take_length]

theorem exists_err_ite {α : Type} {c : Prop} [Decidable c] {e₀ : Error} {a : α} :
    (∃ e, (if c then .err e₀ else .ok a : Outcome Error α) = .err e) ↔ c := by
  split <;> simp_all

theorem read_back {st : σ} {n : Nat} (h : (mem.asT.write buf addr st).outcome = .ok n) {i k : Nat} (hik : i + k ≤ n) :
    let mem' := mem.apply (mem.asT.write buf addr st).trace
    (mem'.asT.read mem'.bytes k (addr + i) st).outcome = .ok ((buf.drop i).take k) := by
  intro mem'
  obtain ⟨trace, hwrite, happly⟩ := write_flat mem buf addr st
  have hmem : mem' = mem.storeAt addr (buf.take (mem.flat.prefixLen addr buf.length)) := by
    show mem.apply (mem.asT.write buf addr st).trace = _
    rw [hwrite, apply_eq_storeAt happly]
  have hn : n = mem.flat.prefixLen addr buf.length := by
    rw [hwrite] at h
    split at h
    · cases h
    · exact (Outcome.ok.inj h).symm
  have hmapped : mem'.Mapped (addr + i) k := by
    have hclosed := flat_mapped_iff.1 (mem.flat.mapped_prefixLen addr buf.length)
    intro a hle hlt
    exact hclosed a (by omega) (by omega)
  have hnone : ¬ (k ≠ 0 ∧ mem'.flat (addr + i) = none) :=
    fun h => not_mapped_of_none h.1 h.2 (flat_mapped_iff.2 hmapped)
  have hle := mem.flat.prefixLen_le addr buf.length
  have hbytes : bytesAt mem'.bytes (addr + i) k = (buf.drop i).take k := by
    rw [hmem]
    refine (bytesAt_storeBytes_part mem.bytes addr ?_).trans ?_
    · simp only [length_take]
      omega
    · rw [drop_take, take_take, Nat.min_eq_left (by omega)]
  rw [read_flat, lift_apply, (FlatMemory.prefixLen_eq_iff (addr + i) k).2 (flat_mapped_iff.2 hmapped), if_neg hnone, hbytes]

end GuestMemoryT

open GuestMemoryT in
/-- **Byte accesses see a flat memory.**  A write stores the longest prefix of its range that is mapped and no
other byte, a read fetches it; both fail exactly if the buffer is not empty and its address is not mapped.  The
short cut for a range in one region gives what the loop over the slices gives.  `write_slice` and `read_slice`
succeed exactly if the whole range is mapped.  What was written is read back, from any part of the range. -/
theorem flat_access {σ : Type} (mem : GuestMemory) (buf : List UInt8) (addr : Nat) (st : σ) :
    let w := mem.asT.write buf addr st
    let r := mem.asT.read mem.bytes buf.length addr st
    let n := mem.flat.prefixLen addr buf.length
    (∀ m ≤ buf.length, m ≤ n ↔ mem.flat.Mapped addr m) ∧
    ((∃ e, w.outcome = .err e) ↔ buf ≠ [] ∧ mem.flat addr = none) ∧
    (¬ (buf ≠ [] ∧ mem.flat addr = none) → w.outcome = .ok n) ∧
    (mem.apply w.trace).flat = mem.flat.store addr (buf.take n) ∧
    ((∃ e, r.outcome = .err e) ↔ buf ≠ [] ∧ mem.flat addr = none) ∧
    (¬ (buf ≠ [] ∧ mem.flat addr = none) → ∃ data, r.outcome = .ok data ∧ data.length = n ∧ mem.flat.Holds addr data) ∧
    r.trace = [] ∧
    (∀ slice, mem.asT.fastSlice addr buf.length = some slice →
      slice.write buf 0 st = mem.asT.writeFragmented buf addr st ∧
      slice.read mem.bytes buf.length 0 st = mem.asT.readFragmented mem.bytes buf.length addr st) ∧
    ((mem.asT.writeSlice buf addr st).outcome = .ok () ↔ mem.flat.Mapped addr buf.length) ∧
    ((∃ data, (mem.asT.readSlice mem.bytes buf.length addr st).outcome = .ok data) ↔ mem.flat.Mapped addr buf.length) ∧
    ∀ i k, w.outcome = .ok n → i + k ≤ n →
      ((mem.apply w.trace).asT.read (mem.apply w.trace).bytes k (addr + i) st).outcome = .ok ((buf.drop i).take k) := by
  intro w r n
  obtain ⟨trace, hwrite, happly⟩ := write_flat mem buf addr st
  have hread := congrFun (read_flat mem mem.bytes buf.length addr) st
  have hempty : buf.length ≠ 0 ↔ buf ≠ [] := not_congr length_eq_zero_iff
  have hw : w = _ := hwrite
  have hr : r = _ := hread
  simp only [hempty, lift_apply] at hr
  refine ⟨fun m hm => FlatMemory.le_prefixLen_iff hm, ?_, ?_, ?_, ?_, ?_, ?_, ?_, (writeSlice_flat mem buf addr st).1,
    ?_, fun i k hok hik => read_back hok hik⟩
  · rw [hw]
    exact exists_err_ite
  · intro hsome
    rw [hw, if_neg hsome]
  · rw [hw]
    exact write_flat_apply happly
  · rw [hr]
    exact exists_err_ite
  · intro hsome
    have hmapped := flat_mapped_iff.1 (mem.flat.mapped_prefixLen addr buf.length)
    refine ⟨bytesAt mem.bytes addr n, by rw [hr, if_neg hsome], length_bytesAt .., ?_⟩
    exact (flat_holds_iff (by rwa [length_bytesAt])).2 (by rw [length_bytesAt])
  · rw [hr]
  · intro slice hslice
    refine ⟨?_, ?_⟩
    · rw [← write_eq_fragmented]
      unfold GuestMemoryT.write
      rw [hslice]
    · rw [← read_eq_fragmented]
      unfold GuestMemoryT.read
      rw [hslice]
  · obtain ⟨o, hslice, hok, hfail⟩ := readSlice_flat (σ := σ) mem mem.bytes buf.length addr
    rw [hslice]
    constructor
    · rintro ⟨data, hdata⟩
      by_contra hmapped
      obtain ⟨e, he⟩ := hfail hmapped
      cases he.symm.trans hdata
    · exact fun hmapped => ⟨_, hok hmapped⟩

end RustVmm.VmMemory
