import RustVmm.VmMemory.Flat

/-!
# Loads from guest memory

The calls of `Bytes`, run with a trace of their loads.

* `loadsIn_readSlice`, `loadsIn_writeAllVolatileTo` — a call loads from its own range only.
* `loaded_read` — what it loads is the longest prefix of the range that is mapped, every byte of it.
-/

set_option autoImplicit false

namespace RustVmm.VmMemory

open Lib GuestMemory Traced List GuestSlice

namespace Touch

def Loads : Touch → Nat → Prop
  | load addr len, a => addr ≤ a ∧ a < addr + len
  | store _, _ => False

instance (t : Touch) (a : Nat) : Decidable (t.Loads a) :=
  match t with
  | load _ _ => inferInstanceAs (Decidable (_ ∧ _))
  | store _ => inferInstanceAs (Decidable False)

def Touches : Touch → Nat → Prop
  | load addr len, a => addr ≤ a ∧ a < addr + len
  | store e, a => e.Stores a

/-- It loads from the range only. -/
def LoadsIn (addr count : Nat) (t : Touch) : Prop := ∀ a, t.Loads a → addr ≤ a ∧ a < addr + count

end Touch

def Loaded (trace : List Touch) (a : Nat) : Prop := ∃ t ∈ trace, t.Loads a

instance (trace : List Touch) (a : Nat) : Decidable (Loaded trace a) := inferInstanceAs (Decidable (∃ t ∈ trace, _))

@[simp] theorem loaded_nil (a : Nat) : ¬ Loaded [] a := by
  simp [Loaded]

@[simp] theorem loaded_cons (t : Touch) (trace : List Touch) (a : Nat) :
    Loaded (t :: trace) a ↔ t.Loads a ∨ Loaded trace a := by
  simp [Loaded]

@[simp] theorem loaded_append (first second : List Touch) (a : Nat) :
    Loaded (first ++ second) a ↔ Loaded first a ∨ Loaded second a := by
  simp [Loaded, or_and_right, exists_or]

section Storing

variable {σ ε α : Type} {P : Touch → Prop}

theorem allFrom_storing {I : σ → Prop} {x : Traced σ Effect ε α}
    (h : x.AllFrom I fun e => P (.store e)) : (Records.storing x).AllFrom I P := by
  intro s hs t ht
  obtain ⟨e, he, ht⟩ := mem_flatMap.1 ht
  rw [mem_singleton.1 ht]
  exact h s hs e he

theorem all_storing (hP : ∀ e, P (.store e)) (x : Traced σ Effect ε α) : (Records.storing x).All P :=
  fun s => allFrom_storing (I := fun _ => True) (fun _ _ e _ => hP e) s trivial

theorem all_loads {addr len : Nat} (h : P (.load addr len)) : (loads addr len : Traced σ Touch ε Unit).All P :=
  fun _ _ ht => mem_singleton.1 ht ▸ h

theorem loaded_bind_of_silent {β : Type} {x : Traced σ Touch ε α} {f : α → Traced σ Touch ε β}
    (hf : ∀ r, (f r).Silent) (s : σ) (a : Nat) : Loaded ((x >>= f) s).trace a ↔ Loaded (x s).trace a := by
  constructor
  · rintro ⟨t, ht, hloads⟩
    rcases All.mem_trace_bind hf ht with hfirst | hfalse
    · exact ⟨t, hfirst, hloads⟩
    · exact hfalse.elim
  · rintro ⟨t, ht, hloads⟩
    exact ⟨t, mem_trace_bind_left ht f, hloads⟩

end Storing

/-! ## Where the calls load -/

variable {σ τ : Type} {mem : GuestMemory} {addr count len : Nat} {s : GuestSlice}

theorem loadsIn_of_sliceIn (h : mem.SliceIn addr count s) (hlen : len ≤ s.len) :
    Touch.LoadsIn addr count (.load s.guestAddr len) := by
  rintro a ⟨hstart, hlt⟩
  have hle := h.le
  have hend := h.end_le
  omega

theorem GuestSlice.loadsIn_read (h : mem.SliceIn addr count s) (bytes : Nat → UInt8) (len : Nat) :
    (s.read bytes len 0 : Traced σ Touch Error (List UInt8)).All (Touch.LoadsIn addr count) := by
  unfold read
  split
  · exact All.pure _
  split
  · exact All.lift _
  rw [offset_zero h.backs.baseOffset_le]
  exact (all_loads (loadsIn_of_sliceIn h (Nat.min_le_left _ _))).bind fun _ => All.pure _

namespace GuestMemoryT

theorem loadsIn_read (mem : GuestMemory) (bytes : Nat → UInt8) (len addr : Nat) :
    (mem.asT.read bytes len addr : Traced σ Touch Error (List UInt8)).All (Touch.LoadsIn addr len) := by
  unfold read
  split
  · rename_i s hs
    by_cases hlen : len = 0
    · rw [GuestSlice.read, if_pos hlen]
      exact All.pure _
    · have hin := sliceIn_of_getSlice (fastSlice_asT hs) (Nat.pos_of_ne_zero hlen)
      exact GuestSlice.loadsIn_read hin bytes len
  · apply All.lift_bind
    intro ss hss
    refine All.foldlM (fun acc s hs => ?_) []
    exact (GuestSlice.loadsIn_read (sliceIn_of_slices hss s hs) bytes _).bind fun _ => All.pure _

theorem loadsIn_readSlice (mem : GuestMemory) (bytes : Nat → UInt8) (len addr : Nat) :
    (mem.asT.readSlice bytes len addr : Traced σ Touch Error (List UInt8)).All (Touch.LoadsIn addr len) := by
  refine (loadsIn_read mem bytes len addr).bind fun res => ?_
  split
  · exact All.lift _
  · exact All.pure _

theorem loadsIn_writeAllVolatileTo [WriteVolatile τ] (mem : GuestMemory) (bytes : Nat → UInt8) (addr count : Nat) :
    (mem.asT.writeAllVolatileTo bytes addr count : Traced τ Touch Error Unit).All (Touch.LoadsIn addr count) := by
  have hloop : (mem.asT.writeVolatileTo bytes addr count : Traced τ Touch Error Nat).All
      (Touch.LoadsIn addr count) := by
    apply All.lift_bind
    intro ss hss
    refine All.foldlM (fun acc s hs => All.bind ?_ fun _ => All.pure _) 0
    have h := sliceIn_of_slices hss s hs
    unfold GuestSlice.writeAllVolatileTo
    rw [subslice_zero h.backs.baseOffset_le h.backs.len_le, if_pos (Nat.le_refl _), lift_ok_bind]
    refine (all_loads (loadsIn_of_sliceIn h (Nat.le_refl _))).bind fun _ => ?_
    exact all_storing (fun _ _ h => h.elim) _
  refine hloop.bind fun res => ?_
  split
  · exact All.lift _
  · exact All.pure _

/-! ## What a read loads -/

theorem read_slice_of_pos (h : mem.Backs s) (bytes : Nat → UInt8) (hlen : len ≠ 0) (st : σ) :
    s.read bytes len 0 st =
      ⟨.ok (bytesAt bytes s.guestAddr (min s.len len)), st, [Touch.load s.guestAddr (min s.len len)]⟩ := by
  unfold GuestSlice.read
  rw [if_neg hlen, if_neg (Nat.not_le.2 h.len_pos), offset_zero h.baseOffset_le]
  rfl

theorem loaded_nil_iff (addr a : Nat) : Loaded [] a ↔ addr ≤ a ∧ a < addr + totalLen [] := by
  refine iff_of_false (loaded_nil a) fun ⟨hle, hlt⟩ => ?_
  exact absurd (Nat.lt_of_le_of_lt hle hlt) (Nat.lt_irrefl _)

theorem loaded_foldlM_read {ss : List GuestSlice} (hb : ∀ s ∈ ss, mem.Backs s) (bytes : Nat → UInt8)
    (hc : Consecutive addr ss) {acc : List UInt8} (hlen : acc.length + totalLen ss ≤ len) (st : σ) (a : Nat) :
    Loaded ((ss.foldlM (fun acc slice => do
      let data ← slice.read bytes (len - acc.length) 0
      return acc ++ data) acc : Traced σ Touch Error (List UInt8)) st).trace a ↔
      addr ≤ a ∧ a < addr + totalLen ss := by
  induction ss generalizing addr acc with
  | nil => exact loaded_nil_iff addr a
  | cons s ss ih =>
    obtain ⟨rfl, hrest⟩ := hc
    have hs := hb s mem_cons_self
    have hpos := hs.len_pos
    rw [totalLen_cons] at hlen ⊢
    have hleft : len - acc.length ≠ 0 := by omega
    have hread := read_slice_of_pos hs bytes hleft st
    rw [Nat.min_eq_left (by omega)] at hread
    have hstep := bind_pure_of_ok hread (acc ++ ·)
    have hfit : (acc ++ bytesAt bytes s.guestAddr s.len).length + totalLen ss ≤ len := by
      rw [length_append, length_bytesAt]
      omega
    have hloop := ih (fun s hs => hb s (mem_cons_of_mem _ hs)) hrest hfit
    rw [foldlM_cons, bind_of_ok hstep, loaded_append, hloop, loaded_cons]
    simp only [loaded_nil, or_false, Touch.Loads]
    omega

theorem loaded_read (mem : GuestMemory) (bytes : Nat → UInt8) (len addr : Nat) (st : σ) (a : Nat) :
    Loaded (mem.asT.read bytes len addr st).trace a ↔ addr ≤ a ∧ a < addr + mem.flat.prefixLen addr len := by
  obtain ⟨ss, hss, heq⟩ := slices_asT mem addr len .read
  rw [← totalLen_eq_prefixLen hss, read_eq_fragmented, readFragmented, heq]
  split
  · rename_i hnil
    obtain ⟨rfl, -⟩ := hnil
    exact loaded_nil_iff addr a
  · have hfit : ([] : List UInt8).length + totalLen ss ≤ len := by
      have hle : totalLen ss ≤ len := hss.totalLen_le
      simpa using hle
    exact loaded_foldlM_read hss.backs bytes hss.consecutive hfit st a

theorem loaded_readSlice (mem : GuestMemory) (bytes : Nat → UInt8) (len addr : Nat) (st : σ) (a : Nat) :
    Loaded (mem.asT.readSlice bytes len addr st).trace a ↔ addr ≤ a ∧ a < addr + mem.flat.prefixLen addr len := by
  rw [← loaded_read mem bytes len addr st a]
  refine loaded_bind_of_silent (fun res => ?_) st a
  split
  · exact All.lift _
  · exact All.pure _

end GuestMemoryT

end RustVmm.VmMemory
