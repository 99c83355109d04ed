import RustVmm.VmMemory.Bytes

/-!
# What the accesses do

* `storeBytes_append`, `applyBytes_of_not_stores` — the contents of memory after the stores of a trace.
* `slices_asT` — which slices an access goes over: those that the iterator yields, or an error if there is none.
* `Effect.Within` — the effect is on memory of the range, and what it stores is marked.  `all_write`, `all_store`,
  `all_readVolatileFrom` and their kin: all effects of an access are within its range.
* `readVolatile_of_bytes`, `readVolatile_of_error`, `readVolatile_of_interrupted` — the loop that asks a source again.
-/

set_option autoImplicit false

namespace RustVmm.VmMemory

open Lib List Effect BaseSlice Outcome Traced GuestSlice ReadVolatile

/-! ## Contents after stores -/

@[simp] theorem storeBytes_nil (bytes : Nat → UInt8) (addr : Nat) : storeBytes bytes addr [] = bytes := by
  funext a
  simp [storeBytes]

variable {addr a count : Nat} {data : List UInt8}

theorem storeBytes_of_lt (bytes : Nat → UInt8) {i : Nat} (h : i < data.length) :
    storeBytes bytes addr data (addr + i) = data[i] := by
  simp [storeBytes, h]

theorem storeBytes_of_outside (bytes : Nat → UInt8) (h : a < addr ∨ addr + data.length ≤ a) :
    storeBytes bytes addr data a = bytes a := by
  unfold storeBytes
  split
  · rw [getElem?_eq_none (by omega)]
    rfl
  · rfl

theorem storeBytes_append (bytes : Nat → UInt8) (addr : Nat) {first : List UInt8} {n : Nat}
    (hn : first.length = n) (second : List UInt8) :
    storeBytes (storeBytes bytes addr first) (addr + n) second = storeBytes bytes addr (first ++ second) := by
  subst hn
  funext a
  unfold storeBytes
  by_cases hfirst : a < addr + first.length
  · rw [if_neg (by omega)]
    by_cases hle : addr ≤ a
    · rw [if_pos hle, if_pos hle, getElem?_append_left (by omega)]
    · rw [if_neg hle, if_neg hle]
  · rw [if_pos (by omega), if_pos (by omega), if_pos (by omega),
      getElem?_append_right (by omega), getElem?_eq_none (l := first) (by omega),
      Nat.sub_sub]
    rfl

@[simp] theorem length_bytesAt (bytes : Nat → UInt8) (addr count : Nat) :
    (bytesAt bytes addr count).length = count := by
  simp [bytesAt]

theorem bytesAt_storeBytes_same (bytes : Nat → UInt8) (addr : Nat) (data : List UInt8) :
    bytesAt (storeBytes bytes addr data) addr data.length = data := by
  apply ext_getElem
  · simp
  · intro i _ hi
    simp [bytesAt, storeBytes_of_lt bytes hi]

theorem bytesAt_congr {bytes bytes' : Nat → UInt8} (h : ∀ a, addr ≤ a → a < addr + count → bytes' a = bytes a) :
    bytesAt bytes' addr count = bytesAt bytes addr count := by
  apply map_congr_left
  intro i hi
  have hi : i < count := mem_range.1 hi
  exact h _ (Nat.le_add_right _ _) (by omega)

theorem bytesAt_append (bytes : Nat → UInt8) (addr n m : Nat) :
    bytesAt bytes addr n ++ bytesAt bytes (addr + n) m = bytesAt bytes addr (n + m) := by
  simp [bytesAt, range_add, Function.comp_def, Nat.add_assoc]

@[simp] theorem applyBytes_nil (bytes : Nat → UInt8) : applyBytes bytes [] = bytes := rfl

@[simp] theorem applyBytes_cons (bytes : Nat → UInt8) (e : Effect) (trace : List Effect) :
    applyBytes bytes (e :: trace) = applyBytes (storeBytes bytes e.slice.guestAddr e.data) trace := rfl

@[simp] theorem applyBytes_append (bytes : Nat → UInt8) (first second : List Effect) :
    applyBytes bytes (first ++ second) = applyBytes (applyBytes bytes first) second :=
  foldl_append

/-- The effect stores a byte at the address. -/
def Effect.Stores (e : Effect) (a : Nat) : Prop := e.slice.guestAddr ≤ a ∧ a < e.slice.guestAddr + e.data.length

variable {trace : List Effect}

theorem applyBytes_of_not_stores (h : ∀ e ∈ trace, ¬ e.Stores a) (bytes : Nat → UInt8) :
    applyBytes bytes trace a = bytes a := by
  induction trace generalizing bytes with
  | nil => rfl
  | cons e trace ih =>
    rw [applyBytes_cons, ih fun e' he' => h e' (mem_cons_of_mem _ he')]
    have he := h e mem_cons_self
    unfold Stores at he
    exact storeBytes_of_outside bytes (by omega)

def Stored (trace : List Effect) (a : Nat) : Prop := ∃ e ∈ trace, e.Stores a

@[simp] theorem stored_nil (a : Nat) : ¬ Stored [] a := by simp [Stored]

@[simp] theorem stored_cons (e : Effect) (trace : List Effect) (a : Nat) :
    Stored (e :: trace) a ↔ e.Stores a ∨ Stored trace a := by simp [Stored]

@[simp] theorem stored_append (first second : List Effect) (a : Nat) :
    Stored (first ++ second) a ↔ Stored first a ∨ Stored second a := by
  simp [Stored, or_and_right, exists_or]

/-- The bytes that the effects store, one after the other. -/
def storedData (trace : List Effect) : List UInt8 := trace.flatMap Effect.data

@[simp] theorem storedData_nil : storedData [] = [] := rfl

@[simp] theorem storedData_cons (e : Effect) (trace : List Effect) :
    storedData (e :: trace) = e.data ++ storedData trace := rfl

@[simp] theorem storedData_append (first second : List Effect) :
    storedData (first ++ second) = storedData first ++ storedData second :=
  flatMap_append

/-- Memory after bytes have been stored at an address. -/
def GuestMemory.storeAt (mem : GuestMemory) (addr : Nat) (data : List UInt8) : GuestMemory :=
  { mem with bytes := storeBytes mem.bytes addr data }

theorem GuestMemory.apply_eq_storeAt (h : ∀ b, applyBytes b trace = storeBytes b addr data) (mem : GuestMemory) :
    mem.apply trace = mem.storeAt addr data := by
  rw [GuestMemory.apply, h]
  rfl

/-! ## Slices of slices -/

namespace GuestSlice

variable {s : GuestSlice}

theorem sliceAt_zero (h : s.bitmap.baseOffset ≤ U64_MAX) : s.bitmap.sliceAt 0 = s.bitmap := by
  simp [sliceAt, wrappingOffset, Nat.mod_eq_of_lt (Nat.lt_succ_of_le h)]

theorem offset_zero (h : s.bitmap.baseOffset ≤ U64_MAX) : s.offset 0 = .ok s := by
  rw [offset, sliceAt_zero h]
  rfl

theorem subslice_zero {count : Nat} (h : s.bitmap.baseOffset ≤ U64_MAX) (hlen : s.len ≤ U64_MAX) :
    s.subslice 0 count = if count ≤ s.len then
      .ok ⟨⟨s.guestAddr, s.hostAddr, count⟩, s.bitmap⟩ else .err .invalidBackendAddress := by
  unfold subslice
  by_cases hcount : count ≤ s.len
  · rw [checkedAdd_of_le (by omega), okOr_some, ok_bind, if_neg (by omega), if_pos hcount, sliceAt_zero h]
    rfl
  · rw [if_neg hcount]
    by_cases hmax : count ≤ U64_MAX
    · rw [checkedAdd_of_le (by omega), okOr_some, ok_bind, if_pos (by omega)]
    · rw [checkedAdd_of_lt (by omega)]
      rfl

end GuestSlice

namespace GuestMemory

variable {mem : GuestMemory} {s : GuestSlice}

theorem Backs.baseOffset_le (h : mem.Backs s) : s.bitmap.baseOffset ≤ U64_MAX := by
  have hend := h.end_le
  obtain ⟨r, _, _, _, _, _, hbitmap⟩ := h
  rw [hbitmap]
  show s.guestAddr - r.startAddr ≤ U64_MAX
  omega

theorem Backs.wrappingOffset_zero (h : mem.Backs s) : s.bitmap.wrappingOffset 0 = s.bitmap.baseOffset :=
  Nat.mod_eq_of_lt (Nat.lt_succ_of_le h.baseOffset_le)

theorem Backs.len_le (h : mem.Backs s) : s.len ≤ U64_MAX := Nat.le_trans (Nat.le_add_left _ _) h.end_le

theorem Backs.len_pos (h : mem.Backs s) : 0 < s.len := by
  obtain ⟨_, _, hpos, _⟩ := h
  exact hpos

theorem Backs.take (h : mem.Backs s) {count : Nat} (hpos : 0 < count) (hle : count ≤ s.len) :
    mem.Backs ⟨⟨s.guestAddr, s.hostAddr, count⟩, s.bitmap⟩ := by
  obtain ⟨r, hr, _, hstart, hend, hhost, hbitmap⟩ := h
  exact ⟨r, hr, hpos, hstart, by show s.guestAddr + count ≤ _; omega, hhost, hbitmap⟩

/-- The slice is memory of the range. -/
structure SliceIn (mem : GuestMemory) (addr count : Nat) (s : GuestSlice) : Prop where
  backs : mem.Backs s
  le : addr ≤ s.guestAddr
  end_le : s.guestAddr + s.len ≤ addr + count

theorem sliceIn_of_getSlice {addr count : Nat} (h : mem.getSlice addr count = .ok s) (hpos : 0 < count) :
    mem.SliceIn addr count s := by
  obtain ⟨r, hr, hc, hend, rfl⟩ := getSlice_eq_ok h
  exact ⟨⟨r, hr, hpos, hc.1, hend, rfl, rfl⟩, Nat.le_refl _, Nat.le_refl _⟩

end GuestMemory

open GuestMemory

variable {ss : List GuestSlice}

theorem Consecutive.end_le (h : Consecutive addr ss) : ∀ s ∈ ss, s.guestAddr + s.len ≤ addr + totalLen ss := by
  induction ss generalizing addr with
  | nil => nofun
  | cons s ss ih =>
    obtain ⟨rfl, hrest⟩ := h
    intro s' hs'
    rw [totalLen_cons]
    rcases mem_cons.1 hs' with rfl | hs'
    · omega
    · have := ih hrest s' hs'
      omega

variable {mem : GuestMemory}

theorem Yielded.totalLen_le {it : SliceIterator} (h : Yielded mem it ss) : totalLen ss ≤ it.count := by
  rcases h.ends with ⟨_, hlen⟩ | ⟨_, hlt, _⟩
  · exact hlen.le
  · exact hlt.le

theorem Yielded.sliceIn {it : SliceIterator} (h : Yielded mem it ss) : ∀ s ∈ ss, mem.SliceIn it.addr it.count s := by
  intro s hs
  have := h.consecutive.end_le s hs
  have := h.totalLen_le
  exact ⟨h.backs s hs, h.consecutive.le s hs, by omega⟩

theorem stopOnError_ok_cons (s : GuestSlice) (ss : List GuestSlice)
    (rest : List (Outcome Error GuestSlice)) (hrest : ∀ item ∈ rest, ¬ item.isOk = true) :
    stopOnError ((s :: ss).map .ok ++ rest) = .ok (s :: ss) := by
  have hnone : rest.filterMap toOption = [] := by
    apply filterMap_eq_nil_iff.2
    intro item hitem
    cases item with
    | ok s => exact absurd rfl (hrest _ hitem)
    | err e => rfl
    | panic => rfl
  show ok (s :: (ss.map ok ++ rest).filterMap toOption) = _
  rw [filterMap_append, hnone, filterMap_toOption_map_ok, append_nil]

theorem slices_asT (mem : GuestMemory) (addr count : Nat) (access : Permissions) :
    ∃ ss, Yielded mem (getSlices addr count) ss ∧ mem.asT.slices addr count access =
        if ss = [] ∧ count ≠ 0 then .err (.invalidGuestAddress addr) else .ok ss := by
  obtain ⟨ss, h⟩ := items_spec mem (getSlices addr count)
  refine ⟨ss, h, ?_⟩
  show stopOnError ((getSlices addr count).items mem) = _
  rcases h.ends with ⟨hitems, hlen⟩ | ⟨hitems, hlt, _⟩ <;> rw [hitems]
  · cases ss with
    | nil =>
      have hzero : count = 0 := hlen.symm
      rw [if_neg (fun h => h.2 hzero)]
      rfl
    | cons s ss =>
      have := stopOnError_ok_cons s ss [] nofun
      rwa [append_nil] at this
  · cases ss with
    | nil =>
      rw [if_pos ⟨rfl, Nat.ne_of_gt (Nat.lt_of_le_of_lt (Nat.zero_le _) hlt)⟩]
      rfl
    | cons s ss =>
      apply stopOnError_ok_cons
      intro item hitem
      rw [mem_singleton.1 hitem]
      exact Bool.false_ne_true

theorem slices_asT_ne_panic (mem : GuestMemory) (addr count : Nat) (access : Permissions) :
    mem.asT.slices addr count access ≠ .panic := by
  obtain ⟨ss, _, heq⟩ := slices_asT mem addr count access
  rw [heq]
  split <;> exact nofun

variable {access : Permissions}

theorem yielded_of_slices (h : mem.asT.slices addr count access = .ok ss) :
    Yielded mem (getSlices addr count) ss := by
  obtain ⟨ss', hss, heq⟩ := slices_asT mem addr count access
  rw [heq] at h
  split at h
  · cases h
  · cases h
    exact hss

theorem sliceIn_of_slices (h : mem.asT.slices addr count access = .ok ss) : ∀ s ∈ ss, mem.SliceIn addr count s :=
  (yielded_of_slices h).sliceIn

theorem sliceIn_of_firstSlice {s : GuestSlice} (h : mem.asT.firstSlice addr count access = .ok s) :
    mem.SliceIn addr count s := by
  obtain ⟨ss, hss⟩ := items_spec mem (getSlices addr count)
  have h : (unwrap ((getSlices addr count).items mem).head? >>= fun item => item) = .ok s := h
  cases ss with
  | nil =>
    rcases hss.ends with ⟨hitems, _⟩ | ⟨hitems, _⟩ <;> rw [hitems] at h <;> cases h
  | cons s' ss =>
    have hin := hss.sliceIn s' mem_cons_self
    rcases hss.ends with ⟨hitems, _⟩ | ⟨hitems, _⟩ <;> rw [hitems] at h <;> cases h <;> exact hin

/-! ## The effects of the accesses -/

/-- The effect is on memory of the range, and what it stores is marked. -/
structure Effect.Within (mem : GuestMemory) (addr count : Nat) (e : Effect) : Prop where
  sliceIn : mem.SliceIn addr count e.slice
  data_le : e.data.length ≤ e.marked
  marked_le : e.marked ≤ e.slice.len

theorem Effect.Within.range {e : Effect} (h : e.Within mem addr count) (hstores : e.Stores a) :
    addr ≤ a ∧ a < addr + count := by
  obtain ⟨⟨_, hle, hend⟩, hdata, hmarked⟩ := h
  obtain ⟨hstart, hlt⟩ := hstores
  exact ⟨by omega, by omega⟩

namespace GuestSlice

variable {σ τ : Type} {mem : GuestMemory} {addr count : Nat} {s : GuestSlice}

theorem write_apply (h : mem.Backs s) (buf : List UInt8) (st : σ) : s.write buf 0 st = ⟨.ok (min s.len buf.length), st,
      if buf = [] then [] else [⟨s, buf.take s.len, min s.len buf.length⟩]⟩ := by
  have hpos := h.len_pos
  unfold write
  by_cases hbuf : buf = []
  · simp [hbuf]
  · rw [if_neg hbuf, if_neg (Nat.not_le.2 hpos), offset_zero h.baseOffset_le, if_neg hbuf, lift_ok_bind, length_take]
    rfl

theorem all_write (h : mem.SliceIn addr count s) (buf : List UInt8) :
    (s.write buf 0 : Traced σ Effect Error Nat).All (Within mem addr count) := by
  intro st e he
  rw [write_apply h.backs] at he
  split at he
  · cases he
  · rw [mem_singleton.1 he]
    exact ⟨h, by simp, Nat.min_le_left _ _⟩

variable {src src' : σ}

theorem readVolatile_of_bytes [ReadVolatile σ] {data : List UInt8}
    (h : ReadVolatile.readVolatile src s.len = (.bytes data, src')) :
    s.readVolatile src = ⟨.ok data.length, src', [⟨s, data, data.length⟩]⟩ := by
  rw [readVolatile]
  split <;> rename_i heq <;> rw [h] at heq <;> cases heq
  rfl

theorem readVolatile_of_error [ReadVolatile σ] {kind : ErrorKind} {touched : List UInt8}
    (h : ReadVolatile.readVolatile src s.len = (.error kind touched, src')) :
    s.readVolatile src = ⟨.err (.ioError kind), src', [⟨s, touched, s.len⟩]⟩ := by
  rw [readVolatile]
  split <;> rename_i heq <;> rw [h] at heq <;> cases heq
  rfl

theorem readVolatile_of_interrupted [ReadVolatile σ] (h : ReadVolatile.readVolatile src s.len = (.interrupted, src')) :
    s.readVolatile src = ⟨(s.readVolatile src').outcome, (s.readVolatile src').state,
      ⟨s, [], s.len⟩ :: (s.readVolatile src').trace⟩ := by
  rw [readVolatile]
  split <;> rename_i heq <;> rw [h] at heq <;> cases heq
  rfl

theorem readVolatile_within [ReadVolatile σ] (h : mem.SliceIn addr count s) (src : σ) :
    ∀ e ∈ (s.readVolatile src).trace, e.Within mem addr count := by
  fun_induction readVolatile s src with
  | case1 src data src' heq =>
    intro e he
    rw [mem_singleton.1 he]
    exact ⟨h, Nat.le_refl _, bytes_le heq⟩
  | case2 src kind touched src' heq =>
    intro e he
    rw [mem_singleton.1 he]
    exact ⟨h, touched_le heq, Nat.le_refl _⟩
  | case3 src src' heq r ih =>
    intro e he
    rcases mem_cons.1 he with rfl | he
    · exact ⟨h, Nat.zero_le _, Nat.le_refl _⟩
    · exact ih e he

theorem keeps_readVolatile [ReadVolatile σ] {I : σ → Prop}
    (hI : ∀ src len, I src → I (ReadVolatile.readVolatile src len).2) :
    Keeps I s.readVolatile := by
  intro src hsrc
  have hstep := hI src s.len hsrc
  fun_induction readVolatile s src with
  | case1 src data src' heq => rwa [heq] at hstep
  | case2 src kind touched src' heq => rwa [heq] at hstep
  | case3 src src' heq r ih =>
    rw [heq] at hstep
    exact ih hstep (hI _ _ hstep)

theorem readVolatileFrom_eq [ReadVolatile σ] (h : mem.Backs s) :
    (s.readVolatileFrom 0 s.len : Traced σ Effect Error Nat) = s.readVolatile := by
  rw [readVolatileFrom, offset_zero h.baseOffset_le, lift_ok_bind,
    subslice_zero h.baseOffset_le h.len_le, Nat.min_self, if_pos (Nat.le_refl _)]
  rfl

theorem writeAllVolatileTo_eq [WriteVolatile τ] (h : mem.Backs s) (bytes : Nat → UInt8) :
    (s.writeAllVolatileTo bytes 0 s.len : Traced τ Effect Error Unit) =
      writeAllVolatile (bytesAt bytes s.guestAddr s.len) := by
  rw [writeAllVolatileTo, subslice_zero h.baseOffset_le h.len_le, if_pos (Nat.le_refl _)]
  rfl

theorem all_readVolatileFrom [ReadVolatile σ] (h : mem.SliceIn addr count s) :
    (s.readVolatileFrom 0 s.len : Traced σ Effect Error Nat).All (Within mem addr count) := by
  rw [readVolatileFrom_eq h.backs]
  exact readVolatile_within h

theorem all_store (h : mem.SliceIn addr count s) {val : List UInt8} (hval : 0 < val.length) :
    (s.store val 0 : Traced σ Effect Error Unit).All (Within mem addr count) := by
  apply All.lift_bind
  intro ref href
  obtain ⟨slice, hslice, href⟩ := bind_eq_ok.1 href
  rw [subslice_zero h.backs.baseOffset_le h.backs.len_le] at hslice
  split at hslice
  · rename_i hle
    cases hslice
    split at href
    · cases href
    · cases href
      have hend := h.end_le
      apply All.tell
      refine ⟨⟨h.backs.take hval hle, h.le, ?_⟩, Nat.le_refl _, Nat.le_refl _⟩
      show s.guestAddr + val.length ≤ _
      omega
  · cases hslice

theorem silent_load (bytes : Nat → UInt8) (size : Nat) :
    (s.load bytes 0 size : Traced σ Effect Error (List UInt8)).Silent :=
  All.lift_bind fun _ _ => All.pure _

end GuestSlice

theorem writeAllVolatile_silent {τ : Type} [WriteVolatile τ] (data : List UInt8) (dst : τ) :
    (writeAllVolatile data dst).trace = [] := by
  fun_induction writeAllVolatile data dst <;> first | rfl | assumption

namespace GuestMemoryT

variable {σ τ : Type}

theorem fastSlice_asT {mem : GuestMemory} {addr count : Nat} {s : GuestSlice}
    (h : mem.asT.fastSlice addr count = some s) : mem.getSlice addr count = .ok s := by
  exact toOption_eq_some.1 h

theorem all_write (mem : GuestMemory) (buf : List UInt8) (addr : Nat) :
    (mem.asT.write buf addr : Traced σ Effect Error Nat).All (Effect.Within mem addr buf.length) := by
  unfold write
  split
  · rename_i s hs
    by_cases hbuf : buf = []
    · rw [GuestSlice.write, if_pos hbuf]
      exact Traced.All.pure _
    · exact GuestSlice.all_write
        (sliceIn_of_getSlice (fastSlice_asT hs) (length_pos_iff.2 hbuf)) buf
  · apply Traced.All.lift_bind
    intro ss hss
    refine Traced.All.foldlM (fun acc s hs => ?_) 0
    exact (GuestSlice.all_write (sliceIn_of_slices hss s hs) _).bind fun n => Traced.All.pure _

theorem all_writeSlice (mem : GuestMemory) (buf : List UInt8) (addr : Nat) :
    (mem.asT.writeSlice buf addr : Traced σ Effect Error Unit).All (Within mem addr buf.length) := by
  refine (all_write mem buf addr).bind fun res => ?_
  split
  · exact All.lift _
  · exact All.pure _

theorem all_readVolatileFrom [ReadVolatile σ] (mem : GuestMemory) (addr count : Nat) :
    (mem.asT.readVolatileFrom addr count : Traced σ Effect Error Nat).All (Effect.Within mem addr count) := by
  apply Traced.All.lift_bind
  intro ss hss
  refine Traced.All.foldlM (fun acc s hs => ?_) 0
  exact (GuestSlice.all_readVolatileFrom (sliceIn_of_slices hss s hs)).bind fun n => Traced.All.pure _

theorem all_readExactVolatileFrom [ReadVolatile σ] (mem : GuestMemory) (addr count : Nat) :
    (mem.asT.readExactVolatileFrom addr count : Traced σ Effect Error Unit).All (Within mem addr count) := by
  refine (all_readVolatileFrom mem addr count).bind fun res => ?_
  split
  · exact All.lift _
  · exact All.pure _

variable {I : σ → Prop}

theorem keeps_readExactVolatileFrom [ReadVolatile σ] (hI : ∀ src len, I src → I (readVolatile src len).2)
    (M : GuestMemoryT) (addr count : Nat) :
    (M.readExactVolatileFrom addr count : Traced σ Effect Error Unit).Keeps I := by
  have hloop : (M.readVolatileFrom addr count : Traced σ Effect Error Nat).Keeps I := by
    apply Keeps.lift_bind
    intro ss _
    refine Keeps.foldlM (fun acc s _ => Keeps.bind ?_ fun _ => Keeps.pure _) 0
    exact Keeps.lift_bind fun _ _ => Keeps.lift_bind fun slice _ =>
      keeps_readVolatile hI
  refine hloop.bind fun res => ?_
  split
  · exact Keeps.lift _
  · exact Keeps.pure _

theorem all_store (mem : GuestMemory) (val : AtomicValue) (addr : Nat) :
    (mem.asT.store val addr : Traced σ Effect Error Unit).All (Effect.Within mem addr val.data.length) := by
  have hpos : 0 < val.data.length := by
    have := val.size
    omega
  apply Traced.All.lift_bind
  intro s hs
  exact GuestSlice.all_store (sliceIn_of_firstSlice hs) hpos

variable (M : GuestMemoryT) (bytes : Nat → UInt8)

theorem silent_writeVolatileTo [WriteVolatile τ] (addr count : Nat) :
    (M.writeVolatileTo bytes addr count : Traced τ Effect Error Nat).Silent := by
  apply All.lift_bind
  intro ss _
  refine All.foldlM (fun acc s _ => All.bind ?_ fun _ => All.pure _) 0
  apply All.lift_bind
  intro slice _ dst e he
  have hnil : e ∈ (writeAllVolatile (bytesAt bytes slice.guestAddr slice.len) dst).trace := he
  rw [writeAllVolatile_silent] at hnil
  cases hnil

theorem silent_writeAllVolatileTo [WriteVolatile τ] (addr count : Nat) :
    (M.writeAllVolatileTo bytes addr count : Traced τ Effect Error Unit).Silent := by
  refine (M.silent_writeVolatileTo bytes addr count).bind fun res => ?_
  split
  · exact All.lift _
  · exact All.pure _

theorem silent_load (size addr : Nat) : (M.load bytes size addr : Traced σ Effect Error (List UInt8)).Silent :=
  Traced.All.lift_bind fun _ _ => GuestSlice.silent_load bytes size

end GuestMemoryT

end RustVmm.VmMemory
