import RustVmm.VirtioBlk.Disk
import RustVmm.VirtioBlk.Writes

/-!
# What a block request transfers

The backend is a file in memory, whose reads and writes transfer everything before the end of the file.

* `foldlM_writeData`, `foldlM_readData_ok` — the loops over the data buffers.
* `executeAt_reported` — the bytes that are reported are those that were stored, also after a failure.
* `blk_transfer_exact` — the buffers and the file agree after a request, and nothing else has changed.
-/

set_option autoImplicit false

namespace RustVmm.VirtioBlk

open Lib VmMemory FullReads Traced MemFile GuestMemoryT
open List hiding Vector

/-! ## A file in memory -/

namespace MemFile

instance : FullReads MemFile where
  rest f := f.data.drop f.pos
  readVolatile_eq f len := ⟨_, drop_add_length_take f.data f.pos len, rfl⟩

/-- The file after bytes have been written at its position. -/
def written (f : MemFile) (data : List UInt8) : MemFile := ⟨f.overwrite f.pos data, f.pos + data.length⟩

variable (f : MemFile)

@[simp] theorem written_nil : f.written [] = f := by
  simp [written, overwrite]

theorem length_front (offset : Nat) :
    (f.data.take offset ++ List.replicate (offset - f.data.length) 0).length = offset := by
  rw [length_append, length_take, length_replicate]
  omega

theorem written_append (first second : List UInt8) :
    (f.written first).written second = f.written (first ++ second) := by
  by_cases hfirst : first = []
  · rw [hfirst, written_nil, nil_append]
  by_cases hsecond : second = []
  · rw [hsecond, written_nil, append_nil]
  have hne : first ++ second ≠ [] := fun h => hfirst (append_eq_nil_iff.1 h).1
  have hfront := f.length_front f.pos
  simp only [written, overwrite, if_neg hfirst, if_neg hsecond, if_neg hne]
  generalize f.data.take f.pos ++ List.replicate (f.pos - f.data.length) 0 = front at *
  have hlen : (front ++ first).length = f.pos + first.length := by rw [length_append, hfront]
  -- the second write starts inside the file
  have hgap : f.pos + first.length - (front ++ first ++ f.data.drop (f.pos + first.length)).length = 0 := by
    rw [length_append]
    omega
  rw [hgap, take_left' hlen, ← drop_drop, drop_left' hlen, drop_drop,
    replicate_zero, append_nil, append_assoc front, length_append, Nat.add_assoc]

theorem data_written {f : MemFile} {data : List UInt8} (hne : data ≠ []) :
    ∃ front, front.length = f.pos ∧ (f.written data).data = front ++ data ++ f.data.drop (f.pos + data.length) ∧
      ∀ i < f.pos, i < f.data.length → front[i]? = f.data[i]? := by
  refine ⟨_, f.length_front f.pos, if_neg hne, fun i hi hlt => ?_⟩
  rw [getElem?_append_left (by rw [length_take]; omega), getElem?_take_of_lt hi]

theorem take_drop_written (data : List UInt8) : ((f.written data).data.drop f.pos).take data.length = data := by
  by_cases hne : data = []
  · rw [hne]
    rfl
  · obtain ⟨front, hlen, heq, _⟩ := data_written hne
    rw [heq, append_assoc, drop_left' hlen, take_left' rfl]

theorem getElem?_written (data : List UInt8) {i : Nat} (h : i < f.pos ∧ i < f.data.length ∨ f.pos + data.length ≤ i) :
    (f.written data).data[i]? = f.data[i]? := by
  by_cases hne : data = []
  · rw [hne, written_nil]
  · obtain ⟨front, hlen, heq, hfront⟩ := data_written hne
    have hboth : (front ++ data).length = f.pos + data.length := by rw [length_append, hlen]
    rw [heq]
    rcases h with ⟨hlt, hin⟩ | hge
    · rw [getElem?_append_left (by omega), getElem?_append_left (by omega), hfront i hlt hin]
    · rw [getElem?_append_right (by omega), getElem?_drop, hboth, Nat.add_sub_cancel' hge]

theorem writeAllVolatile_eq (data : List UInt8) (f : MemFile) :
    writeAllVolatile data f = ⟨.ok (), f.written data, []⟩ := by
  by_cases hdata : data = []
  · rw [writeAllVolatile, dif_pos hdata, hdata, written_nil]
  · rw [writeAllVolatile, dif_neg hdata]
    split <;> rename_i h <;> cases h
    have hpos : data.length ≠ 0 := fun hlen => hdata (length_eq_zero_iff.1 hlen)
    rw [dif_neg hpos, if_neg (Nat.lt_irrefl _), drop_length, writeAllVolatile]
    rfl

end MemFile

/-! ## Writes to the file -/

theorem foldlM_writeSlices {mem : GuestMemory} {ss : List GuestSlice} (hb : ∀ s ∈ ss, mem.Backs s)
    {addr : Nat} (hc : Consecutive addr ss) (bytes : Nat → UInt8) (acc : Nat) (f : MemFile) :
    (ss.foldlM (fun acc slice => do
      slice.writeAllVolatileTo bytes 0 slice.len
      return acc + slice.len) acc : Traced MemFile Effect VmMemory.Error Nat) f =
      ⟨.ok (acc + totalLen ss), f.written (bytesAt bytes addr (totalLen ss)), []⟩ := by
  induction ss generalizing addr acc f with
  | nil =>
    exact congrArg (Result.mk _ · []) f.written_nil.symm
  | cons s ss ih =>
    obtain ⟨rfl, hrest⟩ := hc
    have hwrite : (s.writeAllVolatileTo bytes 0 s.len : Traced MemFile Effect VmMemory.Error Unit) f =
        ⟨.ok (), f.written (bytesAt bytes s.guestAddr s.len), []⟩ := by
      rw [GuestSlice.writeAllVolatileTo_eq (hb s mem_cons_self), writeAllVolatile_eq]
    have hloop := ih (fun s hs => hb s (mem_cons_of_mem _ hs)) hrest (acc + s.len)
      (f.written (bytesAt bytes s.guestAddr s.len))
    rw [written_append, bytesAt_append] at hloop
    rw [totalLen_cons, ← Nat.add_assoc]
    exact bind_of_ok_of_eq (bind_pure_of_ok hwrite fun _ => acc + s.len) hloop

variable (mem : GuestMemory)

theorem writeData_cases (d : UInt64 × UInt32) (f : MemFile) :
    writeData mem () d f = ⟨.ok (), f.written (bytesAt mem.bytes d.1.toNat d.2.toNat), []⟩ ∨
      ∃ e f', writeData mem () d f = ⟨.err (.write e), f', []⟩ := by
  obtain ⟨ss, hss, heq⟩ := slices_asT mem d.1.toNat d.2.toNat .read
  by_cases hempty : ss = [] ∧ d.2.toNat ≠ 0
  · have hfail : mem.asT.writeVolatileTo mem.bytes d.1.toNat d.2.toNat f =
        ⟨.err (.invalidGuestAddress d.1.toNat), f, []⟩ := by
      rw [writeVolatileTo, heq, if_pos hempty]
      rfl
    exact .inr ⟨_, f, mapErr_of_err (bind_of_err hfail _) _⟩
  · have hloop : mem.asT.writeVolatileTo mem.bytes d.1.toNat d.2.toNat f =
        ⟨.ok (0 + totalLen ss), f.written (bytesAt mem.bytes d.1.toNat (totalLen ss)), []⟩ := by
      rw [writeVolatileTo, heq, if_neg hempty]
      exact foldlM_writeSlices hss.backs hss.consecutive mem.bytes 0 f
    rw [Nat.zero_add] at hloop
    by_cases hlen : totalLen ss = d.2.toNat
    · rw [hlen] at hloop
      refine .inl (mapErr_of_ok (bind_of_ok_of_eq hloop ?_) _)
      rw [if_neg (fun hne => hne rfl)]
      rfl
    · refine .inr ⟨.partialBuffer d.2.toNat (totalLen ss), f.written (bytesAt mem.bytes d.1.toNat (totalLen ss)),
        mapErr_of_err (bind_of_ok_of_eq hloop ?_) _⟩
      rw [if_pos hlen]
      rfl

/-- The bytes in the buffers, one after the other. -/
def contents (bytes : Nat → UInt8) (data : List (UInt64 × UInt32)) : List UInt8 :=
  data.flatMap fun d => bytesAt bytes d.1.toNat d.2.toNat

theorem length_contents (bytes : Nat → UInt8) (data : List (UInt64 × UInt32)) :
    (contents bytes data).length = (data.map fun d => d.2.toNat).sum := by
  simp [contents, length_flatMap]

theorem foldlM_writeData (data : List (UInt64 × UInt32)) (f : MemFile) :
    data.foldlM (writeData mem) () f = ⟨.ok (), f.written (contents mem.bytes data), []⟩ ∨
      ∃ e f', data.foldlM (writeData mem) () f = ⟨.err (.write e), f', []⟩ := by
  induction data generalizing f with
  | nil => exact .inl (congrArg (Result.mk _ · []) f.written_nil.symm)
  | cons d data ih =>
    rcases writeData_cases mem d f with hwrite | ⟨e, f', hwrite⟩
    · rw [contents, flatMap_cons, ← written_append]
      rcases ih (f.written (bytesAt mem.bytes d.1.toNat d.2.toNat)) with hrest | ⟨e, f', hrest⟩
      · exact .inl (bind_of_ok_of_eq hwrite hrest)
      · exact .inr ⟨e, f', bind_of_ok_of_eq hwrite hrest⟩
    · exact .inr ⟨e, f', bind_of_err hwrite _⟩

/-! ## Reads from the file -/

variable {σ B : Type} {trace : List Effect} {acc dataLen n : UInt32}
variable {read : Traced σ Effect VmMemory.Error Unit}

theorem countRead_cases {s s' : σ} {addr n stored : Nat}
    (hread : read s = ⟨readExactOutcome addr dataLen.toNat n stored, s', trace⟩) (hle : stored ≤ n)
    (hn : n ≤ dataLen.toNat) (hfit : acc.toNat + dataLen.toNat < 4294967296) :
    (stored = dataLen.toNat ∧ countRead acc dataLen read s = ⟨.ok (acc + dataLen), s', trace⟩) ∨
      ∃ e m, countRead acc dataLen read s = ⟨.err (.read e m), s', trace⟩ ∧ m.toNat = acc.toNat + stored := by
  unfold readExactOutcome at hread
  split at hread
  · rename_i hall
    refine .inl ⟨hall, ?_⟩
    rw [(countRead_apply acc dataLen).1 hread, addU32_of_lt hfit]
  · split at hread
    · -- nothing is mapped, and nothing is counted
      exact .inr ⟨_, acc, (countRead_apply acc dataLen).2 _ hread, by omega⟩
    · have hof : stored.toUInt32.toNat = stored := UInt32.toNat_ofNat_of_lt' (by show _ < 4294967296; omega)
      have hlt : acc.toNat + stored.toUInt32.toNat < 4294967296 := by omega
      refine .inr ⟨.partialBuffer dataLen.toNat stored, acc + stored.toUInt32, ?_, ?_⟩
      · rw [(countRead_apply acc dataLen).2 _ hread, countBytes, addU32_of_lt hlt]
        rfl
      · rw [toNat_add_of_lt hlt, hof]

/-- The bytes in guest memory are counted, if the call returns and if it fails. -/
def Counted {σ : Type} (acc : UInt32) (r : Traced.Result σ Effect Error UInt32) : Prop :=
  (∃ n, r.outcome = .ok n ∧ n.toNat = acc.toNat + (storedData r.trace).length) ∨
    ∃ e m, r.outcome = .err (.read e m) ∧ m.toNat = acc.toNat + (storedData r.trace).length

theorem countRead_counted {s s' : σ} {addr n : Nat} (hread : read s =
      ⟨readExactOutcome addr dataLen.toNat n (storedData trace).length, s', trace⟩)
    (hle : (storedData trace).length ≤ n) (hn : n ≤ dataLen.toNat) (hfit : acc.toNat + dataLen.toNat < 4294967296) :
    Counted acc (countRead acc dataLen read s) ∧
      ∀ n, (countRead acc dataLen read s).outcome = .ok n → n.toNat = acc.toNat + dataLen.toNat := by
  rcases countRead_cases hread hle hn hfit with ⟨hall, heq⟩ | ⟨e, m, heq, hm⟩ <;> rw [heq]
  · have hsum : (acc + dataLen).toNat = acc.toNat + dataLen.toNat := toNat_add_of_lt hfit
    refine ⟨.inl ⟨_, rfl, ?_⟩, ?_⟩
    · rw [hsum, hall]
    · rintro k ⟨⟩
      exact hsum
  · exact ⟨.inr ⟨e, m, rfl, hm⟩, nofun⟩

variable {r : Result σ Effect Error UInt32}

theorem Counted.prepend (hn : n.toNat = acc.toNat + (storedData trace).length)
    (h : Counted n r) : Counted acc ⟨r.outcome, r.state, trace ++ r.trace⟩ := by
  have hlen : n.toNat + (storedData r.trace).length = acc.toNat + (storedData (trace ++ r.trace)).length := by
    rw [storedData_append, length_append, hn, Nat.add_assoc]
  rcases h with ⟨k, hk, hcount⟩ | ⟨e, m, hm, hcount⟩
  · exact .inl ⟨k, hk, hcount.trans hlen⟩
  · exact .inr ⟨e, m, hm, hcount.trans hlen⟩

variable {data : List (UInt64 × UInt32)}

theorem foldlM_counted {f : UInt32 → UInt64 × UInt32 → Traced σ Effect Error UInt32} {bound : Nat}
    (hstep : ∀ acc d s, acc.toNat + d.2.toNat ≤ bound →
      Counted acc (f acc d s) ∧ ∀ n, (f acc d s).outcome = .ok n → n.toNat = acc.toNat + d.2.toNat)
    (hfit : acc.toNat + (data.map fun d => d.2.toNat).sum ≤ bound) (s : σ) : Counted acc (data.foldlM f acc s) := by
  induction data generalizing acc s with
  | nil => exact .inl ⟨acc, rfl, rfl⟩
  | cons d data ih =>
    rw [map_cons, sum_cons] at hfit
    obtain ⟨hcount, hsum⟩ := hstep acc d s (by omega)
    rw [foldlM_cons]
    rcases hrun : f acc d s with ⟨o, s', trace⟩
    rw [hrun] at hcount hsum
    rcases hcount with ⟨n, rfl, hn⟩ | ⟨e, m, rfl, hm⟩
    · have hnext := hsum n rfl
      have hrest : n.toNat + (data.map fun d => d.2.toNat).sum ≤ bound := by omega
      rw [bind_of_ok hrun]
      exact (ih hrest s').prepend hn
    · rw [bind_of_err hrun]
      exact .inr ⟨e, m, rfl, hm⟩

theorem readData_cases (acc : UInt32) (d : UInt64 × UInt32) (hfit : acc.toNat + d.2.toNat < 4294967296) (f : MemFile) :
    (∃ f' trace, readData mem acc d f = ⟨.ok (acc + d.2), f', trace⟩ ∧ f'.data = f.data ∧
      Moved d.1.toNat d.2.toNat f f' trace ∧ ((rest f).take d.2.toNat).length = d.2.toNat) ∨
    ∃ e m f' trace, readData mem acc d f = ⟨.err (.read e m), f', trace⟩ ∧
      m.toNat = acc.toNat + (storedData trace).length := by
  obtain ⟨n, f', trace, _, hn, hmoved, hread⟩ := readExactVolatileFrom_moved mem d.1.toNat d.2.toNat f
  have hdata : f'.data = f.data := by
    have hkeeps : (mem.asT.readExactVolatileFrom d.1.toNat d.2.toNat :
        Traced MemFile Effect VmMemory.Error Unit).Keeps fun g => g.data = f.data :=
      keeps_readExactVolatileFrom (fun _ _ h => h) _ _ _
    have := hkeeps f rfl
    rwa [hread] at this
  rcases countRead_cases hread (length_take_le _ _) hn hfit with ⟨hall, heq⟩ | ⟨e, m, heq, hm⟩
  · have hfull : n = d.2.toNat := by
      have := length_take_le n (rest f)
      omega
    subst hfull
    exact .inl ⟨f', trace, heq, hdata, hmoved, hall⟩
  · refine .inr ⟨e, m, f', trace, heq, ?_⟩
    rw [hmoved.data, hm]

/-- The buffers have no byte in common. -/
def Apart (d d' : UInt64 × UInt32) : Prop := ∀ a, InBuffer d a → ¬ InBuffer d' a

theorem foldlM_readData_ok (hapart : data.Pairwise Apart)
    (hfit : acc.toNat + (data.map fun d => d.2.toNat).sum < 4294967296) {f f' : MemFile}
    (h : data.foldlM (readData mem) acc f = ⟨.ok n, f', trace⟩) :
    n.toNat = acc.toNat + (data.map fun d => d.2.toNat).sum ∧ f'.data = f.data ∧
    (∀ bytes, contents (applyBytes bytes trace) data = (rest f).take (data.map fun d => d.2.toNat).sum) ∧
    ∀ a, Stored trace a → ∃ d ∈ data, InBuffer d a := by
  induction data generalizing acc f trace with
  | nil =>
    cases h
    exact ⟨rfl, rfl, fun bytes => rfl, fun a ha => absurd ha (stored_nil a)⟩
  | cons d data ih =>
    rw [map_cons, sum_cons] at hfit ⊢
    obtain ⟨hfirst, hothers⟩ := pairwise_cons.1 hapart
    obtain ⟨n₁, f₁, trace₁, trace₂, hread, hloop, rfl⟩ := bind_eq_ok h
    rcases readData_cases mem acc d (by omega) f with
      ⟨_, _, heq, hdata, hmoved, hlen⟩ | ⟨_, _, _, _, heq, _⟩ <;> rw [hread] at heq <;> cases heq
    have hsum : (acc + d.2).toNat = acc.toNat + d.2.toNat := toNat_add_of_lt (by omega)
    obtain ⟨hn, hdata₂, hcontents, hstored⟩ := ih hothers (by omega) hloop
    refine ⟨by omega, hdata₂.trans hdata, fun bytes => ?_, fun a ha => ?_⟩
    · -- the buffers that follow do not overlap with the first one
      have hkeep : bytesAt (applyBytes (applyBytes bytes trace₁) trace₂) d.1.toNat d.2.toNat =
          bytesAt (applyBytes bytes trace₁) d.1.toNat d.2.toNat := by
        apply bytesAt_congr
        intro a hle hlt
        apply applyBytes_of_not_stores
        intro e he hstores
        obtain ⟨d', hd', hin⟩ := hstored a ⟨e, he, hstores⟩
        exact hfirst d' hd' a ⟨hle, hlt⟩ hin
      have hbuffer : bytesAt (applyBytes bytes trace₁) d.1.toNat d.2.toNat = (rest f).take d.2.toNat := by
        have := bytesAt_storeBytes_same bytes d.1.toNat ((rest f).take d.2.toNat)
        rwa [hlen, ← hmoved.apply] at this
      have hrest := hcontents (applyBytes bytes trace₁)
      rw [hmoved.rest_eq] at hrest
      rw [contents, flatMap_cons, applyBytes_append, hkeep, hbuffer, take_add]
      exact congrArg _ hrest
    · rcases (stored_append _ _ _).1 ha with ha | ha
      · obtain ⟨hle, hlt⟩ := (hmoved.stored a).1 ha
        rw [hlen] at hlt
        exact ⟨d, mem_cons_self, hle, hlt⟩
      · obtain ⟨d', hd', hin⟩ := hstored a ha
        exact ⟨d', mem_cons_of_mem _ hd', hin⟩

/-! ## Execution -/

/-- What is reported is the number of bytes that were stored. -/
def Reported {σ : Type} (r : Traced.Result σ Effect Error UInt32) : Prop :=
  (∀ n, r.outcome = .ok n → n.toNat = (storedData r.trace).length) ∧
    ∀ e, r.outcome = .err e → (statusOf (.error e)).2.toNat = (storedData r.trace).length

theorem Reported.of_ok (hout : r.outcome = .ok n) (hn : n.toNat = (storedData r.trace).length) : Reported r := by
  constructor <;> intro x hx <;> cases hout.symm.trans hx
  exact hn

theorem Reported.of_err {e : Error} (hout : r.outcome = .err e)
    (he : (statusOf (.error e)).2.toNat = (storedData r.trace).length) : Reported r := by
  constructor <;> intro x hx <;> cases hout.symm.trans hx
  exact he

theorem Counted.reported (h : Counted 0 r) : Reported r := by
  rcases h with ⟨n, hout, hn⟩ | ⟨e, m, hout, hm⟩
  · exact .of_ok hout (hn.trans (Nat.zero_add _))
  · exact .of_err hout (hm.trans (Nat.zero_add _))

theorem statusOf_of_ne_read {e : Error} (h : ∀ e' n, e ≠ .read e' n) : (statusOf (.error e)).2 = 0 := by
  unfold statusOf
  split
  · rename_i heq
    cases heq
  · rename_i heq
    cases heq
    exact absurd rfl (h _ _)
  · rfl

theorem Refused.reported {b : StdIoBackend B} {r : Result (StdIoBackend B) Effect Error UInt32} (h : Refused b r) :
    Reported r := by
  obtain ⟨o, rfl, hok, hread⟩ := h
  refine ⟨fun n hn => absurd hn (hok n), fun e he => ?_⟩
  rw [statusOf_of_ne_read fun e' n heq => hread e' n (he.trans (congrArg _ heq))]
  rfl

theorem checkAccess_ne_read (b : StdIoBackend B) (sectorsCount sector : Nat) (e : VmMemory.Error) (n : UInt32) :
    b.checkAccess sectorsCount sector ≠ .err (.read e n) := by
  unfold StdIoBackend.checkAccess
  cases checkedAdd sectorsCount sector with
  | none => exact nofun
  | some total =>
    rw [Outcome.okOr_some, Outcome.ok_bind]
    split <;> exact nofun

theorem executeIn_cases [ReadVolatile B] (request : Request) (totalLen : Nat) (b : StdIoBackend B) :
    Refused b (executeIn mem request totalLen b) ∨
      b.checkAccess (totalLen / SECTOR_SIZE) request.sector.toNat = .ok () ∧ totalLen ≤ 4294967295 ∧
      executeIn mem request totalLen b = onInner (request.data.foldlM (readData mem) 0) b := by
  unfold executeIn
  rw [get_bind_apply]
  rcases Refused.check (checkAccess_ne_read b (totalLen / SECTOR_SIZE) request.sector.toNat) _ with
    hrefused | ⟨_, haccess, heq⟩
  · exact .inl hrefused
  rw [heq]
  split
  · exact .inl (.err nofun)
  · exact .inr ⟨haccess, Nat.le_of_not_lt ‹_›, rfl⟩

theorem executeOut_cases (request : Request) (totalLen : Nat) (b : StdIoBackend MemFile) :
    Refused b (executeOut mem request totalLen b) ∨
      b.checkAccess (totalLen / SECTOR_SIZE) request.sector.toNat = .ok () ∧
      (executeOut mem request totalLen b =
          ⟨.ok 0, { b with inner := b.inner.written (contents mem.bytes request.data) }, []⟩ ∨
        ∃ e b', executeOut mem request totalLen b = ⟨.err (.write e), b', []⟩) := by
  unfold executeOut
  rw [get_bind_apply]
  rcases Refused.check (checkAccess_ne_read b (totalLen / SECTOR_SIZE) request.sector.toNat) _ with
    hrefused | ⟨_, haccess, heq⟩
  · exact .inl hrefused
  refine .inr ⟨haccess, ?_⟩
  rw [heq]
  rcases foldlM_writeData mem request.data b.inner with hloop | ⟨e, f', hloop⟩
  · have hinner : onInner (request.data.foldlM (writeData mem) ()) b =
        ⟨.ok (), { b with inner := b.inner.written (contents mem.bytes request.data) }, []⟩ := by
      rw [onInner, zoom, hloop]
    exact .inl (bind_pure_of_ok hinner fun _ => 0)
  · refine .inr ⟨e, { b with inner := f' }, bind_of_err ?_ _⟩
    rw [onInner, zoom, hloop]

theorem executeGetDeviceID_cases (request : Request) (totalLen : Nat) (b : StdIoBackend B) :
    Refused b (executeGetDeviceID mem request totalLen b) ∨
      totalLen = VIRTIO_BLK_ID_BYTES ∧ ∃ deviceId : Vector UInt8 VIRTIO_BLK_ID_BYTES,
        executeGetDeviceID mem request totalLen b = request.data.foldlM (readId mem deviceId.toList) 0 b := by
  unfold executeGetDeviceID
  rw [get_bind_apply]
  have hid : ∀ e n, (Outcome.okOr b.deviceId (.unsupported VIRTIO_BLK_T_GET_ID)) ≠ .err (Error.read e n) := by
    cases b.deviceId <;> exact nofun
  rcases Refused.check hid _ with hrefused | ⟨deviceId, _, heq⟩
  · exact .inl hrefused
  rw [heq]
  split
  · exact .inl (.err nofun)
  · exact .inr ⟨not_not.1 ‹_›, deviceId, rfl⟩

theorem readId_counted {deviceId : List UInt8} (hlen : deviceId.length < 4294967296) (acc : UInt32)
    (d : UInt64 × UInt32) (s : σ) (hfit : acc.toNat + d.2.toNat ≤ deviceId.length) :
    Counted acc (readId mem deviceId acc d s) ∧
      ∀ n, (readId mem deviceId acc d s).outcome = .ok n → n.toNat = acc.toNat + d.2.toNat := by
  obtain ⟨source, _, heq⟩ := readId_eq mem hlen hfit
  obtain ⟨n, source', trace, _, hn, hmoved, hread⟩ := readExactVolatileFrom_moved mem d.1.toNat d.2.toNat source
  rw [← hmoved.data] at hread
  have hrun : (runOn source (mem.asT.readExactVolatileFrom d.1.toNat d.2.toNat) :
      Traced σ Effect VmMemory.Error Unit) s =
      ⟨readExactOutcome d.1.toNat d.2.toNat n (storedData trace).length, s, trace⟩ := by
    rw [runOn, hread]
  rw [heq]
  refine countRead_counted hrun ?_ hn (by omega)
  rw [hmoved.data]
  exact length_take_le _ _

theorem readData_counted (acc : UInt32) (d : UInt64 × UInt32) (f : MemFile)
    (hfit : acc.toNat + d.2.toNat ≤ 4294967295) :
    Counted acc (readData mem acc d f) ∧
      ∀ n, (readData mem acc d f).outcome = .ok n → n.toNat = acc.toNat + d.2.toNat := by
  obtain ⟨n, f', trace, _, hn, hmoved, hread⟩ := readExactVolatileFrom_moved mem d.1.toNat d.2.toNat f
  rw [← hmoved.data] at hread
  refine countRead_counted hread ?_ hn (by omega)
  rw [hmoved.data]
  exact length_take_le _ _

variable {request : Request}

theorem executeAt_reported
    (htype : request.requestType = .in_ ∨ request.requestType = .out ∨ request.requestType = .getDeviceID)
    (b : StdIoBackend MemFile) : Reported (executeAt mem request b) := by
  rcases executeAt_cases mem request b with hrefused | ⟨_, _, heq⟩
  · exact hrefused.reported
  rw [heq, executeType]
  rcases htype with htype | htype | htype <;> rw [htype] <;> dsimp only [storing_effect]
  · rcases executeIn_cases mem request request.dataLen b with hrefused | ⟨_, hlen, heq⟩
    · exact hrefused.reported
    · rw [heq]
      have hfit : (0 : UInt32).toNat + (request.data.map fun d => d.2.toNat).sum ≤ 4294967295 := by
        rw [UInt32.toNat_zero, Nat.zero_add]
        exact hlen
      exact (foldlM_counted (readData_counted mem) hfit b.inner).reported
  · rcases executeOut_cases mem request request.dataLen b with hrefused | ⟨_, heq | ⟨e, b', heq⟩⟩
    · exact hrefused.reported
    · rw [heq]
      exact .of_ok rfl rfl
    · rw [heq]
      exact .of_err rfl rfl
  · rcases executeGetDeviceID_cases mem request request.dataLen b with hrefused | ⟨hlen, deviceId, heq⟩
    · exact hrefused.reported
    · rw [heq]
      have hid : deviceId.toList.length = VIRTIO_BLK_ID_BYTES := Vector.length_toList
      have hfit : (0 : UInt32).toNat + (request.data.map fun d => d.2.toNat).sum ≤ deviceId.toList.length := by
        rw [UInt32.toNat_zero, Nat.zero_add, hid]
        exact hlen.le
      have hlt : deviceId.toList.length < 4294967296 := by
        rw [hid]
        decide
      exact (foldlM_counted (readId_counted mem hlt) hfit b).reported

/-- The executor with the file at the sector of the request. -/
def StdIoBackend.seeked (b : StdIoBackend MemFile) (request : Request) : StdIoBackend MemFile :=
  { b with inner := { b.inner with pos := (request.sector <<< 9).toNat } }

theorem execute_eq_executeAt (request : Request) (b : StdIoBackend MemFile) :
    execute mem request b = executeAt mem request (b.seeked request) :=
  execute_of_seek mem rfl

variable {b : StdIoBackend MemFile}

theorem pos_seeked {sectorsCount : Nat}
    (h : (b.seeked request).checkAccess sectorsCount request.sector.toNat = .ok ()) :
    (b.seeked request).inner.pos = request.sector.toNat * SECTOR_SIZE :=
  toNat_shl_sector (sector_mul_le (checkAccess_eq_ok h))

theorem execute_eq_executeType (h : (execute mem request b).outcome = .ok n) :
    execute mem request b = executeType mem request request.dataLen (b.seeked request) := by
  rw [execute_eq_executeAt] at h ⊢
  rcases executeAt_cases mem request (b.seeked request) with hrefused | ⟨_, _, heq⟩
  · exact absurd h (hrefused.not_ok n)
  · exact heq

theorem execute_in_ok (hapart : request.data.Pairwise Apart) (htype : request.requestType = .in_)
    (h : (execute mem request b).outcome = .ok n) :
    let r := execute mem request b
    contents (mem.apply r.trace).bytes request.data =
      (b.inner.data.drop (request.sector.toNat * SECTOR_SIZE)).take request.dataLen ∧
    r.state.inner.data = b.inner.data ∧
    (∀ a, (∀ d ∈ request.data, ¬ InBuffer d a) → (mem.apply r.trace).bytes a = mem.bytes a) ∧
    n.toNat = request.dataLen := by
  intro r
  have hok : r.outcome = .ok n := h
  have hr : r = executeType mem request request.dataLen (b.seeked request) := execute_eq_executeType mem h
  rw [executeType, htype] at hr
  dsimp only [storing_effect] at hr
  rw [hr] at hok
  rcases executeIn_cases mem request request.dataLen (b.seeked request) with hrefused | ⟨haccess, hlen, heq⟩
  · exact absurd hok (hrefused.not_ok n)
  rw [heq] at hok hr
  have hloop : request.data.foldlM (readData mem) 0 (b.seeked request).inner = ⟨.ok n, r.state.inner, r.trace⟩ := by
    rw [hr, ← hok]
    rfl
  have hfit : (0 : UInt32).toNat + (request.data.map fun d => d.2.toNat).sum < 4294967296 := by
    rw [UInt32.toNat_zero, Nat.zero_add]
    exact Nat.lt_succ_of_le hlen
  obtain ⟨hn, hdata, hcontents, hstored⟩ := foldlM_readData_ok mem hapart hfit hloop
  refine ⟨?_, hdata, fun a ha => ?_, ?_⟩
  · have hfile : rest (b.seeked request).inner = b.inner.data.drop (request.sector.toNat * SECTOR_SIZE) := by
      rw [← pos_seeked haccess]
      rfl
    rw [← hfile]
    exact hcontents mem.bytes
  · apply applyBytes_of_not_stores
    intro e he hstores
    obtain ⟨d, hd, hin⟩ := hstored a ⟨e, he, hstores⟩
    exact ha d hd hin
  · rw [UInt32.toNat_zero, Nat.zero_add] at hn
    exact hn

theorem execute_out_ok (htype : request.requestType = .out) (h : (execute mem request b).outcome = .ok n) :
    let r := execute mem request b
    (r.state.inner.data.drop (request.sector.toNat * SECTOR_SIZE)).take request.dataLen =
      contents mem.bytes request.data ∧
    (∀ i, i < request.sector.toNat * SECTOR_SIZE ∧ i < b.inner.data.length ∨
      request.sector.toNat * SECTOR_SIZE + request.dataLen ≤ i → r.state.inner.data[i]? = b.inner.data[i]?) ∧
    mem.apply r.trace = mem := by
  intro r
  have hok : r.outcome = .ok n := h
  have hr : r = executeType mem request request.dataLen (b.seeked request) := execute_eq_executeType mem h
  rw [executeType, htype] at hr
  dsimp only at hr
  rw [hr] at hok
  rcases executeOut_cases mem request request.dataLen (b.seeked request) with
    hrefused | ⟨haccess, heq | ⟨e, b', heq⟩⟩
  · exact absurd hok (hrefused.not_ok n)
  · rw [heq] at hr
    have hpos := pos_seeked haccess
    have hlen : (contents mem.bytes request.data).length = request.dataLen := length_contents _ _
    rw [hr, ← hpos, ← hlen]
    refine ⟨take_drop_written _ _, fun i hi => ?_, rfl⟩
    exact getElem?_written _ _ hi
  · rw [heq] at hok
    cases hok

theorem Reported.attempt {ε : Type} {x : Traced σ Effect Error UInt32} {s s' : σ} {result : Except Error UInt32}
    (h : Reported (x s)) (hrun : (x.attempt : Traced σ Effect ε (Except Error UInt32)) s = ⟨.ok result, s', trace⟩) :
    trace = (x s).trace ∧ (statusOf result).2.toNat = (storedData trace).length := by
  unfold Traced.attempt at hrun
  split at hrun <;> rename_i heq <;> cases hrun <;> rw [heq] at h ⊢
  · exact ⟨rfl, h.1 _ rfl⟩
  · exact ⟨rfl, h.2 _ rfl⟩

theorem processRequest_ok {k : UInt32} (hreported : Reported (execute mem request b))
    (h : (processRequest mem request b).outcome = .ok k) : ∃ status, storedData (processRequest mem request b).trace =
      storedData (execute mem request b).trace ++ [status] ∧
      k.toNat = (storedData (execute mem request b).trace).length + 1 := by
  have hrun : processRequest mem request b =
      ⟨.ok k, (processRequest mem request b).state, (processRequest mem request b).trace⟩ := by rw [← h]
  obtain ⟨result, b₁, trace₁, trace₂, hexec, hstatus, htrace⟩ := bind_eq_ok hrun
  obtain ⟨rfl, hcount⟩ := hreported.attempt hexec
  generalize statusOf result = reply at hstatus hcount
  obtain ⟨status, length⟩ := reply
  obtain ⟨_, b₂, trace₃, trace₄, hwrite, hadd, htrace₂⟩ := bind_eq_ok hstatus
  have hdata : storedData trace₃ = [status] := by
    rcases mem.asT.writeSlice_cases (slices_asT_ne_panic mem request.statusAddr.toNat [status].length .write) b₁
      with ⟨trace, heq, hdata⟩ | ⟨e, n, trace, heq, _⟩ <;>
      rw [mapErr_eq_ok hwrite] at heq <;> cases heq
    exact hdata
  obtain ⟨hlength, _, rfl⟩ := Result.mk.inj hadd
  have hsum : VirtioQueue.checkedAddU32 length 1 = some k := Outcome.okOr_eq_ok.1 hlength
  refine ⟨status, ?_, ?_⟩
  · rw [htrace, htrace₂, append_nil, storedData_append, hdata]
  · rw [← hcount]
    unfold VirtioQueue.checkedAddU32 at hsum
    split at hsum
    · rename_i hlt
      cases hsum
      exact toNat_add_of_lt hlt
    · cases hsum

/-- **The data transfer of a block device, and the used length.**  Let the data buffers of a request be pairwise
disjoint, in any guest memory.  If `In` succeeds, then the buffers hold the bytes of the file from the sector
on, the file and all other guest memory are unchanged, and the length of the data is returned.  If `Out`
succeeds, then the file holds the buffers from the sector on, and its other bytes and the guest memory are
unchanged.  For both and for `GetDeviceID`, processing a request stores some data and then the status, and
reports one more than the number of bytes of the data, whether execution succeeds or fails halfway. -/
theorem blk_transfer_exact (mem : GuestMemory) (request : Request) (b : StdIoBackend MemFile)
    (hapart : request.data.Pairwise Apart) :
    let r := execute mem request b
    (request.requestType = .in_ → ∀ n, r.outcome = .ok n → contents (mem.apply r.trace).bytes request.data =
        (b.inner.data.drop (request.sector.toNat * SECTOR_SIZE)).take request.dataLen ∧
      r.state.inner.data = b.inner.data ∧
      (∀ a, (∀ d ∈ request.data, ¬ InBuffer d a) → (mem.apply r.trace).bytes a = mem.bytes a) ∧
      n.toNat = request.dataLen) ∧
    (request.requestType = .out → ∀ n, r.outcome = .ok n →
      (r.state.inner.data.drop (request.sector.toNat * SECTOR_SIZE)).take request.dataLen =
        contents mem.bytes request.data ∧ (∀ i, i < request.sector.toNat * SECTOR_SIZE ∧ i < b.inner.data.length ∨
        request.sector.toNat * SECTOR_SIZE + request.dataLen ≤ i → r.state.inner.data[i]? = b.inner.data[i]?) ∧
      mem.apply r.trace = mem) ∧
    (request.requestType = .in_ ∨ request.requestType = .out ∨ request.requestType = .getDeviceID →
      ∀ k, (processRequest mem request b).outcome = .ok k →
        ∃ status, storedData (processRequest mem request b).trace = storedData r.trace ++ [status] ∧
          k.toNat = (storedData r.trace).length + 1) := by
  refine ⟨fun htype n hn => execute_in_ok mem hapart htype hn, fun htype n hn => execute_out_ok mem htype hn,
    fun htype k hk => ?_⟩
  have hreported : Reported (execute mem request b) := by
    rw [execute_eq_executeAt]
    exact executeAt_reported mem htype _
  exact processRequest_ok mem hreported hk

theorem blk_transfer_second_sector :
    contents (sectorMemory.apply (execute sectorMemory readSecond twoSectors).trace).bytes readSecond.data =
      (twoSectors.inner.data.drop 512).take 512 ∧
    (processRequest sectorMemory { readSecond with data := [(0x1000, 256), (0x8000, 256)] } twoSectors).outcome =
      .ok 257 ∧
    (storedData (execute sectorMemory { readSecond with data := [(0x1000, 256), (0x8000, 256)] }
      twoSectors).trace).length = 256 := by
  have hread : (execute sectorMemory readSecond twoSectors).outcome = .ok 512 := by decide +kernel
  have hhalf : (processRequest sectorMemory { readSecond with data := [(0x1000, 256), (0x8000, 256)] }
      twoSectors).outcome = .ok 257 := by decide +kernel
  have hapart : ∀ second : UInt64, 0x1100 ≤ second.toNat →
      [((0x1000, 256) : UInt64 × UInt32), (second, 256)].Pairwise Apart := by
    intro second hle
    refine pairwise_pair.2 fun a hfirst hsecond => ?_
    have hlt : a < 0x1000 + 0x100 := hfirst.2
    have hge : second.toNat ≤ a := hsecond.1
    omega
  obtain ⟨hin, _, _⟩ := blk_transfer_exact sectorMemory readSecond twoSectors (hapart 0x3000 (by decide))
  obtain ⟨_, _, hused⟩ := blk_transfer_exact sectorMemory
    { readSecond with data := [(0x1000, 256), (0x8000, 256)] } twoSectors (hapart 0x8000 (by decide))
  obtain ⟨_, _, hlen⟩ := hused (.inl rfl) 257 hhalf
  exact ⟨(hin rfl 512 hread).1, hhalf, (Nat.succ.inj hlen).symm⟩

end RustVmm.VirtioBlk
