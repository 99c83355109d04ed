import Mathlib.Logic.Relation
import RustVmm.Lib.Run
import RustVmm.VmMemory.GuestMemory

/-!
# Descriptor chains

Model of `virtio-queue/src/chain.rs` and of the descriptors in `desc/split.rs`.  The guest may change the memory a
chain is in between any two reads: a `HostileMemory` answers each read as it likes, from all that has happened.

* `Walk.Step`, `Walk.next_spec` — all that an iterator can do; what `next` and `rwNext` do is made of such steps.
* `Walk.budget_next` — each descriptor takes from a budget, so iterators end.
* `Walk.Bounded.steps` — the bounds on what has been yielded, entered and read are kept by all steps.
* `chain_walk_bounded` — those bounds for any sequence of calls.
-/

set_option autoImplicit false

namespace RustVmm.VirtioQueue

open Lib List

/-- `virtio_queue::Error`: the errors of the functions that are modelled. -/
inductive Error where
  | addressOverflow
  | guestMemory (error : VmMemory.Error)
  | invalidIndirectDescriptor
  | invalidIndirectDescriptorTable
  | invalidDescriptorIndex
  | invalidMaxSize
  | invalidSize
  | invalidDescTableAlign
  | invalidAvailRingAlign
  | invalidUsedRingAlign
  | invalidAvailRingIndex
  | queueNotReady
  deriving DecidableEq, Repr

/-! ## Descriptors -/

def VRING_DESC_F_NEXT : UInt16 := 1
def VRING_DESC_F_WRITE : UInt16 := 2
def VRING_DESC_F_INDIRECT : UInt16 := 4
def VRING_DESC_ALIGN_SIZE : UInt32 := 16

/-- `size_of::<Descriptor>()`. -/
def DESCRIPTOR_SIZE : Nat := 16

structure Descriptor where
  addr : UInt64
  len : UInt32
  flags : UInt16
  next : UInt16
  deriving DecidableEq, Repr

namespace Descriptor

def refersToIndirectTable (self : Descriptor) : Bool := self.flags &&& VRING_DESC_F_INDIRECT ≠ 0

def hasNext (self : Descriptor) : Bool := self.flags &&& VRING_DESC_F_NEXT ≠ 0

def isWriteOnly (self : Descriptor) : Bool := self.flags &&& VRING_DESC_F_WRITE ≠ 0

end Descriptor

/-! ## Chains -/

structure DescriptorChain where
  descTable : Nat
  queueSize : UInt16
  headIndex : UInt16
  nextIndex : UInt16
  ttl : UInt16
  yieldedBytes : UInt32
  isIndirect : Bool
  deriving DecidableEq, Repr

def checkedAddU32 (a b : UInt32) : Option UInt32 :=
  if a.toNat + b.toNat < 4294967296 then some (a + b) else none

namespace DescriptorChain

def withTtl (descTable : Nat) (queueSize ttl headIndex : UInt16) : DescriptorChain where
  descTable := descTable
  queueSize := queueSize
  headIndex := headIndex
  nextIndex := headIndex
  ttl := ttl
  yieldedBytes := 0
  isIndirect := false

def new (descTable : Nat) (queueSize headIndex : UInt16) : DescriptorChain :=
  withTtl descTable queueSize queueSize headIndex

/-- `switch_to_indirect_table`, with the `expect` of its last conversion. -/
def switchToIndirectTable (self : DescriptorChain) (desc : Descriptor) :
    Outcome Error DescriptorChain :=
  if self.isIndirect then .err .invalidIndirectDescriptor
  else if desc.len &&& (VRING_DESC_ALIGN_SIZE - 1) ≠ 0 then .err .invalidIndirectDescriptorTable
  else
    let tableLen := desc.len / VRING_DESC_ALIGN_SIZE
    if tableLen > 65535 then .err .invalidIndirectDescriptorTable
    else do
      let queueSize ← .unwrap (if tableLen.toNat < 65536 then some tableLen.toUInt16 else none)
      return { self with
        descTable := desc.addr.toNat
        queueSize := queueSize
        nextIndex := 0
        ttl := queueSize
        isIndirect := true }

theorem switchToIndirectTable_cases (self : DescriptorChain) (desc : Descriptor) :
    (∃ e, self.switchToIndirectTable desc = .err e) ∨
      self.isIndirect = false ∧ ∃ entries : UInt16, entries.toNat = desc.len.toNat / 16 ∧
        self.switchToIndirectTable desc = .ok { self with
          descTable := desc.addr.toNat
          queueSize := entries
          nextIndex := 0
          ttl := entries
          isIndirect := true } := by
  unfold switchToIndirectTable
  split
  · exact .inl ⟨_, rfl⟩
  · rename_i hind
    split
    · exact .inl ⟨_, rfl⟩
    · dsimp only
      split
      · exact .inl ⟨_, rfl⟩
      · rename_i hlen
        have hlt : (desc.len / VRING_DESC_ALIGN_SIZE).toNat < 65536 := by
          rw [gt_iff_lt, UInt32.lt_iff_toNat_lt, Nat.not_lt] at hlen
          exact Nat.lt_succ_of_le hlen
        refine .inr ⟨by simpa using hind, (desc.len / VRING_DESC_ALIGN_SIZE).toUInt16, ?_, ?_⟩
        · rw [UInt32.toNat_toUInt16, Nat.mod_eq_of_lt hlt]
          rfl
        · rw [if_pos hlt]
          rfl

theorem switchToIndirectTable_ne_panic (self : DescriptorChain) (desc : Descriptor) :
    self.switchToIndirectTable desc ≠ .panic := by
  rcases switchToIndirectTable_cases self desc with ⟨e, h⟩ | ⟨_, entries, _, h⟩ <;> rw [h] <;> simp

/-- The end of `next`: the state after a descriptor has been accepted. -/
def advance (self : DescriptorChain) (desc : Descriptor) (bytes : UInt32) : DescriptorChain :=
  if desc.hasNext then
    { self with yieldedBytes := bytes, nextIndex := desc.next, ttl := self.ttl - 1 }
  else { self with yieldedBytes := bytes, ttl := 0 }

end DescriptorChain

/-! ## Walks over a chain -/

/-- What an iterator does. -/
inductive Event where
  /-- A descriptor is read at the address. -/
  | read (addr : Nat)
  /-- The chain goes on in the indirect table at the address, with so many entries. -/
  | enter (table : Nat) (entries : UInt16)
  /-- The descriptor is returned. -/
  | yield (desc : Descriptor)
  deriving DecidableEq, Repr

/-- A chain with all that has been done to it. -/
structure Walk where
  chain : DescriptorChain
  trace : List Event

/-- Memory of a guest that answers each read from all that has happened. -/
abbrev HostileMemory := List Event → Nat → Option Descriptor

namespace Walk

def new (descTable : Nat) (queueSize headIndex : UInt16) : Walk :=
  ⟨.new descTable queueSize headIndex, []⟩

def log (w : Walk) (e : Event) : Walk := ⟨w.chain, w.trace ++ [e]⟩

def next (mem : HostileMemory) (w : Walk) : Option Descriptor × Walk :=
  if w.chain.ttl = 0 ∨ w.chain.nextIndex ≥ w.chain.queueSize then (none, w)
  else
    match checkedAdd w.chain.descTable (w.chain.nextIndex.toNat * DESCRIPTOR_SIZE) with
    | none => (none, w)
    | some descAddr =>
      match mem w.trace descAddr with
      | none => (none, w.log (.read descAddr))
      | some desc =>
        if desc.refersToIndirectTable then
          match h : w.chain.switchToIndirectTable desc with
          | .ok chain =>
            next mem ⟨chain, (w.log (.read descAddr)).trace ++ [.enter chain.descTable chain.queueSize]⟩
          | .err _ => (none, w.log (.read descAddr))
          | .panic => absurd h (DescriptorChain.switchToIndirectTable_ne_panic _ _)
        else
          match checkedAddU32 w.chain.yieldedBytes desc.len with
          | none => (none, w.log (.read descAddr))
          | some bytes =>
            (some desc, ⟨w.chain.advance desc bytes, (w.log (.read descAddr)).trace ++ [.yield desc]⟩)
termination_by (!w.chain.isIndirect).toNat
decreasing_by
  rcases DescriptorChain.switchToIndirectTable_cases w.chain desc with ⟨e, he⟩ | ⟨hind, _, _, hok⟩
  · rw [he] at h
    cases h
  · rw [hok] at h
    cases h
    simp [hind]

/-! ## All that an iterator can do -/

inductive Step (w : Walk) : Walk → Prop
  | read {addr : Nat} (hindex : w.chain.nextIndex < w.chain.queueSize)
      (haddr : checkedAdd w.chain.descTable (w.chain.nextIndex.toNat * DESCRIPTOR_SIZE) = some addr) :
      Step w (w.log (.read addr))
  | enter {desc : Descriptor} {chain : DescriptorChain} (httl : w.chain.ttl ≠ 0)
      (hswitch : w.chain.switchToIndirectTable desc = .ok chain) :
      Step w ⟨chain, w.trace ++ [.enter chain.descTable chain.queueSize]⟩
  | yield {desc : Descriptor} {bytes : UInt32} (httl : w.chain.ttl ≠ 0)
      (hdesc : desc.refersToIndirectTable = false)
      (hbytes : checkedAddU32 w.chain.yieldedBytes desc.len = some bytes) :
      Step w ⟨w.chain.advance desc bytes, w.trace ++ [.yield desc]⟩

abbrev Steps : Walk → Walk → Prop := Relation.ReflTransGen Step

/-- What `next` returns, and the last step it made. -/
inductive Returned (w : Walk) : Option Descriptor × Walk → Prop
  | none : Returned w (none, w)
  | some {desc : Descriptor} {bytes : UInt32} (httl : w.chain.ttl ≠ 0)
      (hdesc : desc.refersToIndirectTable = false)
      (hbytes : checkedAddU32 w.chain.yieldedBytes desc.len = some bytes) :
      Returned w (some desc, ⟨w.chain.advance desc bytes, w.trace ++ [.yield desc]⟩)

variable {w w' : Walk}

theorem step_read {addr : Nat} (hguard : ¬ (w.chain.ttl = 0 ∨ w.chain.nextIndex ≥ w.chain.queueSize))
    (haddr : checkedAdd w.chain.descTable (w.chain.nextIndex.toNat * DESCRIPTOR_SIZE) = some addr) :
    Steps w (w.log (.read addr)) :=
  .single (.read (UInt16.not_le.1 fun hge => hguard (.inr hge)) haddr)

theorem next_spec (mem : HostileMemory) (w : Walk) : ∃ w', Steps w w' ∧ Returned w' (w.next mem) := by
  fun_induction next mem w with
  | case1 w hguard => exact ⟨w, .refl, .none⟩
  | case2 w hguard haddr => exact ⟨w, .refl, .none⟩
  | case3 w hguard addr haddr hmem => exact ⟨_, step_read hguard haddr, .none⟩
  | case4 w hguard addr haddr desc hmem hind chain hswitch ih =>
    obtain ⟨w', hsteps, hret⟩ := ih
    have hread := step_read hguard haddr
    have henter : Step (w.log (.read addr)) _ := .enter (fun h => hguard (.inl h)) hswitch
    exact ⟨w', (hread.tail henter).trans hsteps, hret⟩
  | case5 w hguard addr haddr desc hmem hind e hswitch =>
    exact ⟨_, step_read hguard haddr, .none⟩
  | case6 w hguard addr haddr desc hmem hind hbytes =>
    exact ⟨_, step_read hguard haddr, .none⟩
  | case7 w hguard addr haddr desc hmem hind bytes hbytes =>
    refine ⟨_, step_read hguard haddr, ?_⟩
    apply Returned.some
    · exact fun h => hguard (.inl h)
    · simpa using hind
    · exact hbytes

/-! ## Progress -/

variable {chain chain' : DescriptorChain}

theorem ttl_advance (httl : chain.ttl ≠ 0) (desc : Descriptor) (bytes : UInt32) :
    (chain.advance desc bytes).ttl.toNat + 1 ≤ chain.ttl.toNat := by
  have hpos : 0 < chain.ttl.toNat := by
    rw [Nat.pos_iff_ne_zero]
    exact fun h => httl (UInt16.toNat_inj.1 h)
  unfold DescriptorChain.advance
  split
  · have hle : (1 : UInt16) ≤ chain.ttl := UInt16.le_iff_toNat_le.2 hpos
    rw [UInt16.toNat_sub_of_le _ _ hle]
    show chain.ttl.toNat - 1 + 1 ≤ chain.ttl.toNat
    omega
  · exact hpos

theorem advance_keeps (chain : DescriptorChain) (desc : Descriptor) (bytes : UInt32) :
    let chain' := chain.advance desc bytes
    chain'.isIndirect = chain.isIndirect ∧ chain'.descTable = chain.descTable ∧
      chain'.queueSize = chain.queueSize ∧ chain'.yieldedBytes = bytes := by
  unfold DescriptorChain.advance
  split <;> exact ⟨rfl, rfl, rfl, rfl⟩

variable {desc : Descriptor}

theorem switched (h : chain.switchToIndirectTable desc = .ok chain') :
    chain.isIndirect = false ∧ chain'.isIndirect = true ∧ chain'.yieldedBytes = chain.yieldedBytes := by
  rcases chain.switchToIndirectTable_cases desc with ⟨e, he⟩ | ⟨hind, entries, _, hok⟩
  · rw [he] at h
    cases h
  · rw [hok] at h
    cases h
    exact ⟨hind, rfl, rfl⟩

/-- A bound on what a chain can still yield. -/
def budget (chain : DescriptorChain) : Nat :=
  chain.ttl.toNat + if chain.isIndirect then 0 else 65536

theorem budget_advance (httl : chain.ttl ≠ 0) (desc : Descriptor) (bytes : UInt32) :
    budget (chain.advance desc bytes) < budget chain := by
  have := ttl_advance httl desc bytes
  unfold budget
  rw [(advance_keeps chain desc bytes).1]
  omega

theorem budget_switched (h : chain.switchToIndirectTable desc = .ok chain') : budget chain' < budget chain := by
  obtain ⟨hind, hind', _⟩ := switched h
  have := chain'.ttl.toNat_lt
  unfold budget
  rw [hind, hind', if_pos rfl, if_neg Bool.false_ne_true]
  omega

theorem Step.budget_le (h : Step w w') : budget w'.chain ≤ budget w.chain := by
  cases h with
  | read _ _ => exact Nat.le_refl _
  | enter _ hswitch => exact (budget_switched hswitch).le
  | yield httl _ _ => exact (budget_advance httl _ _).le

theorem Steps.budget_le (h : Steps w w') : budget w'.chain ≤ budget w.chain := by
  induction h with
  | refl => exact Nat.le_refl _
  | tail _ hstep ih => exact hstep.budget_le.trans ih

variable {mem : HostileMemory}

theorem budget_next (h : w.next mem = (some desc, w')) : budget w'.chain < budget w.chain := by
  obtain ⟨w₁, hsteps, hret⟩ := next_spec mem w
  rw [h] at hret
  apply Nat.lt_of_lt_of_le ?_ hsteps.budget_le
  cases hret with
  | some httl _ _ => exact budget_advance httl _ _

/-- `DescriptorChainRwIter::next`: the next readable or writable descriptor. -/
def rwNext (mem : HostileMemory) (writable : Bool) (w : Walk) : Option Descriptor × Walk :=
  match _h : w.next mem with
  | (none, w') => (none, w')
  | (some v, w') => if v.isWriteOnly = writable then (some v, w') else rwNext mem writable w'
termination_by budget w.chain
decreasing_by exact budget_next _h

/-- The descriptors that `next` is still going to yield. -/
def remaining (mem : HostileMemory) (w : Walk) : List Descriptor :=
  match _h : w.next mem with
  | (none, _) => []
  | (some desc, w') => desc :: remaining mem w'
termination_by budget w.chain
decreasing_by exact budget_next _h

theorem remaining_of_none (h : w.next mem = (none, w')) : w.remaining mem = [] := by
  rw [remaining]
  split
  · rfl
  · rename_i heq
    rw [h] at heq
    cases heq

theorem remaining_of_some (h : w.next mem = (some desc, w')) : w.remaining mem = desc :: w'.remaining mem := by
  rw [remaining]
  split <;> rename_i heq <;> rw [h] at heq <;> cases heq
  rfl

theorem Returned.steps {r : Option Descriptor × Walk} (h : Returned w r) : Steps w r.2 := by
  cases h with
  | none => exact .refl
  | some httl hdesc hbytes => exact .single (.yield httl hdesc hbytes)

theorem next_steps (mem : HostileMemory) (w : Walk) : Steps w (w.next mem).2 := by
  obtain ⟨w', hsteps, hret⟩ := next_spec mem w
  exact hsteps.trans hret.steps

theorem rwNext_steps (mem : HostileMemory) (writable : Bool) (w : Walk) : Steps w (w.rwNext mem writable).2 := by
  fun_induction rwNext mem writable w with
  | case1 w w' h =>
    have := next_steps mem w
    rwa [h] at this
  | case2 w v w' h hw =>
    have := next_steps mem w
    rwa [h] at this
  | case3 w v w' h hw ih =>
    have := next_steps mem w
    rw [h] at this
    exact this.trans ih

/-! ## What a trace says -/

def yields (trace : List Event) : List Descriptor :=
  trace.filterMap fun
    | .yield desc => some desc
    | _ => none

def entered (trace : List Event) : Nat :=
  trace.countP fun
    | .enter _ _ => true
    | _ => false

/-- Address and number of entries of the table the chain is in. -/
def tableAfter (table : Nat × UInt16) (trace : List Event) : Nat × UInt16 :=
  trace.foldl (fun table e => match e with
    | .enter addr entries => (addr, entries)
    | _ => table) table

/-- The address is that of an entry of the table. -/
def InTable (table : Nat × UInt16) (addr : Nat) : Prop :=
  ∃ i < table.2.toNat, addr = table.1 + 16 * i ∧ addr ≤ U64_MAX

@[simp] theorem tableAfter_append (table : Nat × UInt16) (t t' : List Event) :
    tableAfter table (t ++ t') = tableAfter (tableAfter table t) t' :=
  foldl_append

theorem yields_next (mem : HostileMemory) (w : Walk) :
    yields (w.next mem).2.trace = yields w.trace ++ (w.next mem).1.toList := by
  fun_induction next mem w with
  | case4 w hguard addr haddr desc hmem hind chain hswitch ih =>
    rw [ih]
    simp [log, yields]
  | _ => simp [log, yields]

theorem Steps.yielded_sum (h : Steps w w') :
    ((yields w'.trace).map fun d => d.len.toNat).sum + w.chain.yieldedBytes.toNat =
      ((yields w.trace).map fun d => d.len.toNat).sum + w'.chain.yieldedBytes.toNat := by
  induction h with
  | refl => rfl
  | tail _ hstep ih =>
    cases hstep with
    | read _ _ => simpa [log, yields] using ih
    | enter _ hswitch =>
      obtain ⟨_, _, hbytes⟩ := switched hswitch
      simpa [yields, hbytes] using ih
    | yield _ _ hbytes =>
      unfold checkedAddU32 at hbytes
      split at hbytes
      · rename_i hlt
        cases hbytes
        simp [yields, (advance_keeps _ _ _).2.2.2] at ih ⊢
        omega
      · cases hbytes

/-! ## The bounds -/

/-- What holds of a walk from a table of `queueSize` entries at `descTable`. -/
structure Bounded (descTable : Nat) (queueSize : UInt16) (w : Walk) : Prop where
  table : tableAfter (descTable, queueSize) w.trace = (w.chain.descTable, w.chain.queueSize)
  direct : w.chain.isIndirect = false →
    entered w.trace = 0 ∧ (yields w.trace).length + w.chain.ttl.toNat ≤ queueSize.toNat
  indirect : w.chain.isIndirect = true → entered w.trace = 1 ∧
    (yields w.trace).length + w.chain.ttl.toNat + 1 ≤ queueSize.toNat + 65535
  flags : ∀ d ∈ yields w.trace, d.refersToIndirectTable = false
  reads : ∀ before addr, before ++ [.read addr] <+: w.trace →
    InTable (tableAfter (descTable, queueSize) before) addr

variable {descTable : Nat} {queueSize : UInt16} {w w' : Walk}

theorem Bounded.new (descTable : Nat) (queueSize headIndex : UInt16) :
    Bounded descTable queueSize (Walk.new descTable queueSize headIndex) where
  table := rfl
  direct _ := ⟨rfl, Nat.le_of_eq (Nat.zero_add _)⟩
  indirect h := by cases h
  flags d hd := by cases hd
  reads before addr h := by
    have := prefix_nil.1 h
    simp at this

theorem reads_snoc {P : List Event → Nat → Prop} {trace : List Event} {e : Event}
    (h : ∀ before addr, before ++ [.read addr] <+: trace → P before addr)
    (he : ∀ addr, e = .read addr → P trace addr) :
    ∀ before addr, before ++ [.read addr] <+: trace ++ [e] → P before addr := by
  intro before addr hpre
  rcases prefix_concat_iff.1 hpre with heq | hpre
  · obtain ⟨rfl, hlast⟩ := append_inj' heq rfl
    exact he addr (singleton_inj.1 hlast).symm
  · exact h before addr hpre

theorem Bounded.read {addr : Nat} (hb : Bounded descTable queueSize w) (hindex : w.chain.nextIndex < w.chain.queueSize)
    (haddr : checkedAdd w.chain.descTable (w.chain.nextIndex.toNat * DESCRIPTOR_SIZE) = some addr) :
    Bounded descTable queueSize (w.log (.read addr)) := by
  obtain ⟨hle, heq⟩ := checkedAdd_eq_some.1 haddr
  have hyields : yields (w.trace ++ [.read addr]) = yields w.trace := by simp [yields]
  have hentered : entered (w.trace ++ [.read addr]) = entered w.trace := by simp [entered]
  refine ⟨?_, ?_, ?_, ?_, reads_snoc hb.reads ?_⟩
  · exact (tableAfter_append _ _ _).trans hb.table
  · rw [log, hyields, hentered]
    exact hb.direct
  · rw [log, hyields, hentered]
    exact hb.indirect
  · rw [log, hyields]
    exact hb.flags
  · intro addr' he
    cases he
    rw [hb.table]
    refine ⟨w.chain.nextIndex.toNat, UInt16.lt_iff_toNat_lt.1 hindex, ?_, ?_⟩
    · rw [← heq, DESCRIPTOR_SIZE, Nat.mul_comm]
    · omega

theorem Bounded.enter (hb : Bounded descTable queueSize w) (httl : w.chain.ttl ≠ 0)
    (hswitch : w.chain.switchToIndirectTable desc = .ok chain) :
    Bounded descTable queueSize ⟨chain, w.trace ++ [.enter chain.descTable chain.queueSize]⟩ := by
  obtain ⟨hind, hind', _⟩ := switched hswitch
  have hyields : yields (w.trace ++ [.enter chain.descTable chain.queueSize]) = yields w.trace := by
    simp [yields]
  have hentered : entered (w.trace ++ [.enter chain.descTable chain.queueSize]) =
      entered w.trace + 1 := by simp [entered]
  obtain ⟨hzero, hlen⟩ := hb.direct hind
  have hpos : 0 < w.chain.ttl.toNat := by
    rw [Nat.pos_iff_ne_zero]
    exact fun h => httl (UInt16.toNat_inj.1 h)
  have hlt := chain.ttl.toNat_lt
  refine ⟨?_, ?_, ?_, ?_, reads_snoc hb.reads (fun _ he => by cases he)⟩
  · exact tableAfter_append _ _ _
  · intro h
    rw [hind'] at h
    cases h
  · intro _
    rw [hyields, hentered]
    exact ⟨by omega, by show _ + chain.ttl.toNat + 1 ≤ _; omega⟩
  · rw [hyields]
    exact hb.flags

theorem Bounded.yield (hb : Bounded descTable queueSize w) (httl : w.chain.ttl ≠ 0)
    (hdesc : desc.refersToIndirectTable = false) (bytes : UInt32) :
    Bounded descTable queueSize ⟨w.chain.advance desc bytes, w.trace ++ [.yield desc]⟩ := by
  have hyields : yields (w.trace ++ [.yield desc]) = yields w.trace ++ [desc] := by simp [yields]
  have hentered : entered (w.trace ++ [.yield desc]) = entered w.trace := by simp [entered]
  have hadv := ttl_advance httl desc bytes
  obtain ⟨hsame, htable, hsize, _⟩ := advance_keeps w.chain desc bytes
  refine ⟨?_, ?_, ?_, ?_, reads_snoc hb.reads (fun _ he => by cases he)⟩
  · rw [tableAfter_append, hb.table, htable, hsize]
    rfl
  · intro hind
    obtain ⟨hzero, hlen⟩ := hb.direct (hsame.symm.trans hind)
    rw [hyields, hentered, length_append, length_singleton]
    exact ⟨hzero, by show _ + (w.chain.advance desc bytes).ttl.toNat ≤ _; omega⟩
  · intro hind
    obtain ⟨hone, hlen⟩ := hb.indirect (hsame.symm.trans hind)
    rw [hyields, hentered, length_append, length_singleton]
    exact ⟨hone, by show _ + (w.chain.advance desc bytes).ttl.toNat + 1 ≤ _; omega⟩
  · rw [hyields]
    exact forall_mem_append.2 ⟨hb.flags, forall_mem_singleton.2 hdesc⟩

theorem Bounded.steps (hb : Bounded descTable queueSize w) (h : Steps w w') : Bounded descTable queueSize w' := by
  induction h with
  | refl => exact hb
  | tail _ hstep ih =>
    cases hstep with
    | read hindex haddr => exact ih.read hindex haddr
    | enter httl hswitch => exact ih.enter httl hswitch
    | yield httl hdesc hbytes => exact ih.yield httl hdesc _

theorem Bounded.yields_length (hb : Bounded descTable queueSize w) :
    (entered w.trace = 0 → (yields w.trace).length ≤ queueSize.toNat) ∧
    (entered w.trace ≠ 0 → (yields w.trace).length ≤ (queueSize.toNat - 1) + 65535) ∧
    entered w.trace ≤ 1 := by
  cases hind : w.chain.isIndirect with
  | false =>
    have := hb.direct hind
    omega
  | true =>
    have := hb.indirect hind
    omega

end Walk

/-! ## Any sequence of calls -/

/-- A call of one of the iterators over the chain. -/
inductive Call where
  | next
  | rwNext (writable : Bool)

def Call.exec (mem : HostileMemory) (w : Walk) : Call → Walk
  | .next => (w.next mem).2
  | .rwNext writable => (w.rwNext mem writable).2

theorem Walk.run_steps (mem : HostileMemory) (w : Walk) (calls : List Call) :
    Steps w (run (Call.exec mem) w calls) := by
  refine run_stays (fun w' c hsteps => hsteps.trans ?_) .refl calls
  cases c with
  | next => exact next_steps mem w'
  | rwNext writable => exact rwNext_steps mem writable w'

open Walk in
/-- **A chain is bounded against any guest.**  Along any calls of the iterators, on memory that
answers each read as it likes: at most `queueSize` descriptors are yielded, or
`queueSize - 1 + 65535` if an indirect table is entered; their lengths sum up to less than 2^32;
at most one indirect table is entered; no descriptor that is yielded refers to an indirect table;
and each read is of an entry of the table the chain is in, below the top of the address space. -/
theorem chain_walk_bounded (mem : HostileMemory) (descTable : Nat) (queueSize headIndex : UInt16) (calls : List Call) :
    let trace := (run (Call.exec mem) (Walk.new descTable queueSize headIndex) calls).trace
    (entered trace = 0 → (yields trace).length ≤ queueSize.toNat) ∧
    (entered trace ≠ 0 → (yields trace).length ≤ (queueSize.toNat - 1) + 65535) ∧
    ((yields trace).map fun d => d.len.toNat).sum ≤ 2 ^ 32 - 1 ∧
    entered trace ≤ 1 ∧
    (∀ d ∈ yields trace, d.refersToIndirectTable = false) ∧
    ∀ before addr, before ++ [.read addr] <+: trace → InTable (tableAfter (descTable, queueSize) before) addr := by
  intro trace
  have hsteps := run_steps mem (Walk.new descTable queueSize headIndex) calls
  have hb := (Bounded.new descTable queueSize headIndex).steps hsteps
  have hsum : ((yields trace).map fun d => d.len.toNat).sum ≤ 2 ^ 32 - 1 := by
    have hsame : ((yields trace).map fun d => d.len.toNat).sum + 0 = 0 + _ := hsteps.yielded_sum
    rw [Nat.add_zero, Nat.zero_add] at hsame
    rw [hsame]
    exact Nat.le_sub_one_of_lt (UInt32.toNat_lt _)
  obtain ⟨hdirect, hindirect, honce⟩ := hb.yields_length
  exact ⟨hdirect, hindirect, hsum, honce, hb.flags, hb.reads⟩

end RustVmm.VirtioQueue
