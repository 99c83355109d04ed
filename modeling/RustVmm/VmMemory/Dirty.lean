import RustVmm.Lib.Run
import RustVmm.VmMemory.Flat

/-!
# Dirty tracking

Guest memory whose regions carry an `AtomicBitmap`, and sequences of accesses to it.

* `Effect.Within.marks_of_stores`, `Effect.Within.of_marks` — the pages that an effect marks are those it stores to,
  and pages of the range of the access.
* `Tracked.isBitSet_step`, `sameLayout_step` — one access; `isBitSet_run`, `sameLayout_run` — any accesses.
* `Tracked.dirty_tracking` — no store is missed until the bitmap is reset, and no page is dirty without a reason.
-/

set_option autoImplicit false

namespace RustVmm.VmMemory

open Lib AtomicBitmap GuestMemoryT

/-! ## Marks -/

/-- The bitmaps after the marks of an effect. -/
def applyMark (bitmaps : Region → AtomicBitmap) (e : Effect) : Region → AtomicBitmap := fun r =>
    if e.slice.bitmap.inner = .region r then
      (bitmaps r).setAddrRange (e.slice.bitmap.wrappingOffset 0) e.marked
    else bitmaps r

def applyMarks (bitmaps : Region → AtomicBitmap) (trace : List Effect) : Region → AtomicBitmap :=
  trace.foldl applyMark bitmaps

/-- The effect marks the page of the region, as far as the bitmap goes. -/
def Effect.Marks (e : Effect) (bitmap : AtomicBitmap) (r : Region) (page : Nat) : Prop :=
  e.slice.bitmap.inner = .region r ∧ page < bitmap.size ∧ bitmap.Touches (e.slice.bitmap.wrappingOffset 0) e.marked page

variable (bitmaps : Region → AtomicBitmap)

theorem sameLayout_applyMark (e : Effect) (r : Region) : (applyMark bitmaps e r).SameLayout (bitmaps r) := by
  unfold applyMark
  split
  · exact sameLayout_setResetAddrRange _ _ _ _
  · exact ⟨rfl, rfl, rfl⟩

theorem sameLayout_applyMarks (trace : List Effect) (r : Region) :
    (applyMarks bitmaps trace r).SameLayout (bitmaps r) := by
  induction trace generalizing bitmaps with
  | nil => exact ⟨rfl, rfl, rfl⟩
  | cons e trace ih =>
    have hfirst := sameLayout_applyMark bitmaps e r
    have hrest := ih (applyMark bitmaps e)
    exact ⟨hrest.size.trans hfirst.size, hrest.byteSize.trans hfirst.byteSize, hrest.pageSize.trans hfirst.pageSize⟩

variable {e : Effect} {r : Region} {page addr count : Nat}

theorem AtomicBitmap.SameLayout.marks_iff {a b : AtomicBitmap} (h : a.SameLayout b) :
    e.Marks a r page ↔ e.Marks b r page := by
  simp only [Effect.Marks, Touches, h.size, h.pageSize]

theorem isBitSet_applyMark (e : Effect) (r : Region) (page : Nat) : (applyMark bitmaps e r).isBitSet page = true ↔
      (bitmaps r).isBitSet page = true ∨ e.Marks (bitmaps r) r page := by
  unfold applyMark Effect.Marks
  split
  · rename_i hinner
    simp [isBitSet_setAddrRange, hinner]
  · rename_i hinner
    simp [hinner]

theorem isBitSet_applyMarks (trace : List Effect) (r : Region) (page : Nat) :
    (applyMarks bitmaps trace r).isBitSet page = true ↔
      (bitmaps r).isBitSet page = true ∨ ∃ e ∈ trace, e.Marks (bitmaps r) r page := by
  induction trace generalizing bitmaps with
  | nil => simp [applyMarks]
  | cons e trace ih =>
    have hlayout := sameLayout_applyMark bitmaps e r
    show (applyMarks (applyMark bitmaps e) trace r).isBitSet page = true ↔ _
    rw [ih, isBitSet_applyMark, or_assoc]
    simp [hlayout.marks_iff]

/-! ## What the marks of an access mean -/

variable {bitmap : AtomicBitmap}

theorem Effect.Within.marks_of_stores {mem : GuestMemory} {x : Nat} (h : e.Within mem addr count) (hr : r ∈ mem.regions)
    (hc : r.Covers x) (hx : e.Stores x) (hcovers : r.len ≤ bitmap.byteSize) :
    e.Marks bitmap r ((x - r.startAddr) / bitmap.pageSize) := by
  have hdata := h.data_le
  have hmarked := h.marked_le
  obtain ⟨r', hr', _, hstart, hend, _, hbitmap⟩ := h.sliceIn.backs
  obtain ⟨hle, hlt⟩ := hx
  have heq : r' = r := GuestMemory.eq_of_covers hr' hr ⟨by omega, by omega⟩ hc
  subst heq
  have hoff : e.slice.bitmap.wrappingOffset 0 = e.slice.guestAddr - r'.startAddr := by
    rw [h.sliceIn.backs.wrappingOffset_zero, hbitmap]
  refine ⟨by rw [hbitmap], bitmap.page_lt_size (by omega), ?_⟩
  rw [bitmap.touches_iff (by have := r'.end_le; omega)]
  exact ⟨x - r'.startAddr, by omega, by omega, rfl⟩

theorem Effect.Within.of_marks {mem : GuestMemory} (h : e.Within mem addr count) (hm : e.Marks bitmap r page) :
    ∃ x, addr ≤ x ∧ x < addr + count ∧ r.Covers x ∧ (x - r.startAddr) / bitmap.pageSize = page := by
  have hmarked := h.marked_le
  have hle := h.sliceIn.le
  have hend' := h.sliceIn.end_le
  obtain ⟨r', hr', _, hstart, hend, _, hbitmap⟩ := h.sliceIn.backs
  obtain ⟨hinner, _, htouch⟩ := hm
  have heq : r' = r := by
    rw [hbitmap] at hinner
    exact BitmapRef.region.inj hinner
  subst heq
  have := r'.end_le
  have hoff : e.slice.bitmap.wrappingOffset 0 = e.slice.guestAddr - r'.startAddr := by
    rw [h.sliceIn.backs.wrappingOffset_zero, hbitmap]
  rw [bitmap.touches_iff (by omega)] at htouch
  obtain ⟨off, hoff₁, hoff₂, rfl⟩ := htouch
  refine ⟨r'.startAddr + off, by omega, by omega, ⟨by omega, by omega⟩, ?_⟩
  rw [Nat.add_sub_cancel_left]

/-! ## Sequences of accesses -/

/-- Guest memory with a dirty bitmap for each region. -/
structure Tracked where
  mem : GuestMemory
  bitmaps : Region → AtomicBitmap
  covers : ∀ r ∈ mem.regions, r.len ≤ (bitmaps r).byteSize

inductive Access (σ τ : Type) where
  | write (buf : List UInt8) (addr : Nat)
  | writeSlice (buf : List UInt8) (addr : Nat)
  | store (val : AtomicValue) (addr : Nat)
  | readVolatileFrom (addr : Nat) (src : σ) (count : Nat)
  | readExactVolatileFrom (addr : Nat) (src : σ) (count : Nat)
  | read (len addr : Nat)
  | readSlice (len addr : Nat)
  | load (size addr : Nat)
  | writeVolatileTo (addr : Nat) (dst : τ) (count : Nat)
  | writeAllVolatileTo (addr : Nat) (dst : τ) (count : Nat)
  | reset (r : Region)

namespace Access

variable {σ τ : Type}

/-- The guest range of an access that writes. -/
def range : Access σ τ → Option (Nat × Nat)
  | write buf addr => some (addr, buf.length)
  | writeSlice buf addr => some (addr, buf.length)
  | store val addr => some (addr, val.data.length)
  | readVolatileFrom addr _ count => some (addr, count)
  | readExactVolatileFrom addr _ count => some (addr, count)
  | read .. | readSlice .. | load .. | writeVolatileTo .. | writeAllVolatileTo .. | reset _ => none

def ReadOnly : Access σ τ → Prop
  | read .. | readSlice .. | load .. | writeVolatileTo .. | writeAllVolatileTo .. => True
  | write .. | writeSlice .. | store .. | readVolatileFrom .. | readExactVolatileFrom .. | reset _ =>
    False

variable [ReadVolatile σ] [WriteVolatile τ]

def trace (mem : GuestMemory) : Access σ τ → List Effect
  | write buf addr => (mem.asT.write buf addr ()).trace
  | writeSlice buf addr => (mem.asT.writeSlice buf addr ()).trace
  | store val addr => (mem.asT.store val addr ()).trace
  | readVolatileFrom addr src count => (mem.asT.readVolatileFrom addr count src).trace
  | readExactVolatileFrom addr src count => (mem.asT.readExactVolatileFrom addr count src).trace
  | read len addr => (mem.asT.read mem.bytes len addr ()).trace
  | readSlice len addr => (mem.asT.readSlice mem.bytes len addr ()).trace
  | load size addr => (mem.asT.load mem.bytes size addr ()).trace
  | writeVolatileTo addr dst count => (mem.asT.writeVolatileTo mem.bytes addr count dst).trace
  | writeAllVolatileTo addr dst count => (mem.asT.writeAllVolatileTo mem.bytes addr count dst).trace
  | reset _ => []

theorem trace_of_readOnly {a : Access σ τ} (h : a.ReadOnly) (mem : GuestMemory) : a.trace mem = [] := by
  cases a with
  | read len addr => rw [trace, read_flat, Traced.lift_apply]
  | readSlice len addr =>
    obtain ⟨o, hread, _⟩ := readSlice_flat (σ := Unit) mem mem.bytes len addr
    rw [trace, hread, Traced.lift_apply]
  | load size addr => exact (mem.asT.silent_load mem.bytes size addr).trace_eq_nil ()
  | writeVolatileTo addr dst count =>
    exact (mem.asT.silent_writeVolatileTo mem.bytes addr count).trace_eq_nil dst
  | writeAllVolatileTo addr dst count =>
    exact (mem.asT.silent_writeAllVolatileTo mem.bytes addr count).trace_eq_nil dst
  | write | writeSlice | store | readVolatileFrom | readExactVolatileFrom | reset => exact h.elim

theorem trace_within (a : Access σ τ) (mem : GuestMemory) :
    ∀ e ∈ a.trace mem, ∃ addr count, a.range = some (addr, count) ∧ e.Within mem addr count := by
  intro e he
  have hread : ¬ a.ReadOnly := by
    intro h
    rw [trace_of_readOnly h] at he
    cases he
  cases a with
  | write buf addr => exact ⟨_, _, rfl, all_write mem buf addr () e he⟩
  | writeSlice buf addr => exact ⟨_, _, rfl, all_writeSlice mem buf addr () e he⟩
  | store val addr => exact ⟨_, _, rfl, all_store mem val addr () e he⟩
  | readVolatileFrom addr src count =>
    exact ⟨_, _, rfl, all_readVolatileFrom mem addr count src e he⟩
  | readExactVolatileFrom addr src count =>
    exact ⟨_, _, rfl, all_readExactVolatileFrom mem addr count src e he⟩
  | reset r => cases he
  | read | readSlice | load | writeVolatileTo | writeAllVolatileTo => exact (hread trivial).elim

end Access

namespace Tracked

variable {σ τ : Type} [ReadVolatile σ] [WriteVolatile τ]

/-- The memory and its bitmaps after the effects of an access. -/
def apply (s : Tracked) (trace : List Effect) : Tracked where
  mem := s.mem.apply trace
  bitmaps := applyMarks s.bitmaps trace
  covers r hr := (sameLayout_applyMarks s.bitmaps trace r).byteSize ▸ s.covers r hr

def reset (s : Tracked) (r : Region) : Tracked where
  mem := s.mem
  bitmaps r' := if r' = r then (s.bitmaps r).reset else s.bitmaps r'
  covers r' hr' := by
    split
    · rename_i h
      exact h ▸ s.covers r' hr'
    · exact s.covers r' hr'

def step (s : Tracked) (a : Access σ τ) : Tracked :=
  match a with
  | .reset r => s.reset r
  | a => s.apply (a.trace s.mem)

variable (s : Tracked)

theorem regions_step (a : Access σ τ) : (s.step a).mem.regions = s.mem.regions := by
  cases a <;> rfl

theorem sameLayout_step (a : Access σ τ) (r : Region) : ((s.step a).bitmaps r).SameLayout (s.bitmaps r) := by
  cases a with
  | reset r' =>
    show (if r = r' then (s.bitmaps r').reset else s.bitmaps r).SameLayout _
    split
    · rename_i h
      rw [h]
      exact ⟨rfl, rfl, rfl⟩
    · exact ⟨rfl, rfl, rfl⟩
  | _ => exact sameLayout_applyMarks _ _ _

variable {r : Region}

theorem isBitSet_step {a : Access σ τ} (h : a ≠ .reset r) (page : Nat) : ((s.step a).bitmaps r).isBitSet page = true ↔
      (s.bitmaps r).isBitSet page = true ∨ ∃ e ∈ a.trace s.mem, e.Marks (s.bitmaps r) r page := by
  cases a with
  | reset r' =>
    have hne : r ≠ r' := fun heq => h (heq ▸ rfl)
    show (if r = r' then (s.bitmaps r').reset else s.bitmaps r).isBitSet page = true ↔ _
    rw [if_neg hne]
    exact ⟨.inl, fun h => h.resolve_right nofun⟩
  | _ => exact isBitSet_applyMarks _ _ _ _

theorem isBitSet_step_reset (r : Region) (page : Nat) :
    ((s.step (.reset r : Access σ τ)).bitmaps r).isBitSet page = false := by
  show (if r = r then (s.bitmaps r).reset else s.bitmaps r).isBitSet page = false
  rw [if_pos rfl]
  exact isBitSet_reset _ _

theorem isBitSet_run {accesses : List (Access σ τ)} (h : ∀ a ∈ accesses, a ≠ .reset r) {page : Nat}
    (hpage : (s.bitmaps r).isBitSet page = true) : ((run step s accesses).bitmaps r).isBitSet page = true := by
  induction accesses generalizing s with
  | nil => exact hpage
  | cons a accesses ih =>
    apply ih (s.step a) fun a ha => h a (List.mem_cons_of_mem _ ha)
    exact (s.isBitSet_step (h a List.mem_cons_self) page).2 (.inl hpage)

theorem regions_run (accesses : List (Access σ τ)) : (run step s accesses).mem.regions = s.mem.regions := by
  induction accesses generalizing s with
  | nil => rfl
  | cons a accesses ih => rw [run_cons, ih, regions_step]

theorem sameLayout_run (accesses : List (Access σ τ)) (r : Region) :
    ((run step s accesses).bitmaps r).SameLayout (s.bitmaps r) := by
  induction accesses generalizing s with
  | nil => exact ⟨rfl, rfl, rfl⟩
  | cons a accesses ih =>
    have hfirst := s.sameLayout_step a r
    have hrest := ih (s.step a)
    exact ⟨hrest.size.trans hfirst.size, hrest.byteSize.trans hfirst.byteSize, hrest.pageSize.trans hfirst.pageSize⟩

theorem isAddrSet_of_stores (a : Access σ τ) {after : List (Access σ τ)} (hr : r ∈ s.mem.regions)
    (hafter : ∀ x ∈ after, x ≠ .reset r) {e : Effect} (he : e ∈ a.trace s.mem) {x : Nat} (hx : e.Stores x)
    (hc : r.Covers x) : ((run step (s.step a) after).bitmaps r).isAddrSet (x - r.startAddr) = true := by
  obtain ⟨addr, count, _, hwithin⟩ := a.trace_within s.mem e he
  have hne : a ≠ .reset r := by
    rintro rfl
    cases he
  have hmark := hwithin.marks_of_stores hr hc hx (s.covers r hr)
  rw [isAddrSet, (sameLayout_run (s.step a) after r).pageSize, (s.sameLayout_step a r).pageSize]
  exact isBitSet_run (s.step a) hafter ((s.isBitSet_step hne _).2 (.inr ⟨e, he, hmark⟩))

theorem exists_access_of_isBitSet (accesses : List (Access σ τ)) {page : Nat}
    (hclean : (s.bitmaps r).isBitSet page = false) (hdirty : ((run step s accesses).bitmaps r).isBitSet page = true) :
    ∃ a ∈ accesses, ∃ addr count, a.range = some (addr, count) ∧ ∃ x, addr ≤ x ∧ x < addr + count ∧ r.Covers x ∧
        (x - r.startAddr) / (s.bitmaps r).pageSize = page := by
  induction accesses generalizing s with
  | nil =>
    rw [run_nil, hclean] at hdirty
    cases hdirty
  | cons a accesses ih =>
    cases hmid : ((s.step a).bitmaps r).isBitSet page with
    | false =>
      obtain ⟨a', ha', addr, count, hrange, x, hle, hlt, hc, hpage⟩ := ih (s.step a) hmid hdirty
      rw [(s.sameLayout_step a r).pageSize] at hpage
      exact ⟨a', List.mem_cons_of_mem _ ha', addr, count, hrange, x, hle, hlt, hc, hpage⟩
    | true =>
      have hne : a ≠ .reset r := by
        rintro rfl
        rw [isBitSet_step_reset] at hmid
        cases hmid
      rcases (s.isBitSet_step hne page).1 hmid with hset | ⟨e, he, hmark⟩
      · rw [hclean] at hset
        cases hset
      · obtain ⟨addr, count, hrange, hwithin⟩ := a.trace_within s.mem e he
        exact ⟨a, List.mem_cons_self, addr, count, hrange, hwithin.of_marks hmark⟩

theorem step_of_readOnly {a : Access σ τ} (h : a.ReadOnly) : s.step a = s := by
  have htrace := Access.trace_of_readOnly h s.mem
  cases a with
  | read | readSlice | load | writeVolatileTo | writeAllVolatileTo =>
    show s.apply _ = s
    rw [htrace]
    rfl
  | write | writeSlice | store | readVolatileFrom | readExactVolatileFrom | reset => exact h.elim

/-- **Dirty tracking is sound and tight.**  Along every sequence of accesses, successful or not: a
byte that an access stores since the last reset of the region's bitmap lies on a dirty page at the
end; a page that became dirty has an address of the range of some access that writes; accesses that
only read change neither memory nor bitmaps. -/
theorem dirty_tracking (s : Tracked) (accesses : List (Access σ τ)) :
    (∀ before a after, accesses = before ++ a :: after → ∀ r ∈ s.mem.regions, (∀ x ∈ after, x ≠ .reset r) →
      ∀ e ∈ a.trace (run step s before).mem, ∀ x, e.Stores x → r.Covers x →
        ((run step s accesses).bitmaps r).isAddrSet (x - r.startAddr) = true) ∧
    (∀ r page, (s.bitmaps r).isBitSet page = false → ((run step s accesses).bitmaps r).isBitSet page = true →
      ∃ a ∈ accesses, ∃ addr count, a.range = some (addr, count) ∧ ∃ x, addr ≤ x ∧ x < addr + count ∧ r.Covers x ∧
          (x - r.startAddr) / (s.bitmaps r).pageSize = page) ∧
    (∀ a ∈ accesses, a.ReadOnly → ∀ s' : Tracked, s'.step a = s') := by
  refine ⟨?_, fun r page => s.exists_access_of_isBitSet accesses, fun a _ h s' => s'.step_of_readOnly h⟩
  rintro before a after rfl r hr hafter e he x hx hc
  rw [run_append]
  apply isAddrSet_of_stores _ _ _ hafter he hx hc
  rw [regions_run]
  exact hr

end Tracked

end RustVmm.VmMemory
