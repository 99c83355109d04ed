import RustVmm.VirtioConsole.Console

/-!
# The output of the console

`process_transmitq_chain` passes the buffers of a chain on to the output sink, one after the other.

* `Accepts` is a sink that never fails, over what it has received.
* `transmitLoop_cases` says what has been put out once the loop over the chain ends, by induction on the chain.
* `console_output_iff` is the result: which chains are put out in full, for every memory whose slices are the first
  bytes of a range, and spelled out for memory without an IOMMU and for memory behind one.
* `output_cut_off` is a chain of which only half is put out.
-/

set_option autoImplicit false

namespace RustVmm.VirtioConsole

open Lib VmMemory VirtioQueue List Traced GuestMemoryT Console Outcome Walk

/-! ## Sinks -/

/-- `flush` of the trait `Write`; otherwise an output is a `WriteVolatile`. -/
class Output (τ : Type) [WriteVolatile τ] where
  flush : Exec τ ErrorKind Unit

/-- `Vec<u8>` as an output. -/
instance : Output (List UInt8) where
  flush dst := (.ok (), dst)

structure Accepts {τ : Type} [WriteVolatile τ] [Output τ] (received : τ → List UInt8) : Prop where
  wrote : ∀ {dst dst' : τ} {data : List UInt8} {n : Nat}, data ≠ [] →
    WriteVolatile.writeVolatile dst data = (.wrote n, dst') →
    0 < n ∧ n ≤ data.length ∧ received dst' = received dst ++ data.take n
  interrupted : ∀ {dst dst' : τ} {data : List UInt8},
    WriteVolatile.writeVolatile dst data = (.interrupted, dst') → received dst' = received dst
  no_error : ∀ {dst dst' : τ} {data : List UInt8} {kind : ErrorKind},
    WriteVolatile.writeVolatile dst data ≠ (.error kind, dst')
  flushed : ∀ dst : τ, ∃ dst', Output.flush dst = (.ok (), dst') ∧ received dst' = received dst

variable {ss : List GuestSlice}

section Sinks

variable {τ : Type} [WriteVolatile τ] [Output τ] {received : τ → List UInt8}

theorem writeAllVolatile_accepts (haccepts : Accepts received) (data : List UInt8) (dst : τ) :
    ∃ dst', writeAllVolatile data dst = ⟨.ok (), dst', []⟩ ∧ received dst' = received dst ++ data := by
  fun_induction writeAllVolatile data dst with
  | case1 dst => exact ⟨dst, rfl, (append_nil _).symm⟩
  | case2 data dst hdata dst' heq => exact absurd rfl (haccepts.wrote hdata heq).1.ne'
  | case3 data dst hdata n dst' heq hn hlt =>
    have := (haccepts.wrote hdata heq).2.1
    omega
  | case4 data dst hdata n dst' heq hn hle ih =>
    obtain ⟨_, _, hreceived⟩ := haccepts.wrote hdata heq
    obtain ⟨dst'', hrest, hall⟩ := ih
    refine ⟨dst'', hrest, ?_⟩
    rw [hall, hreceived, append_assoc, take_append_drop]
  | case5 data dst hdata dst' heq ih => rwa [haccepts.interrupted heq] at ih
  | case6 data dst hdata kind dst' heq => exact absurd heq haccepts.no_error

theorem foldlM_writeAllVolatileTo_accepts (haccepts : Accepts received) (contents : Nat → UInt8)
    (hbase : ∀ s ∈ ss, s.bitmap.baseOffset ≤ U64_MAX) (hlen : totalLen ss ≤ U64_MAX) (acc : Nat) (dst : τ) :
    ∃ dst', (ss.foldlM (fun acc slice => do
        slice.writeAllVolatileTo contents 0 slice.len
        return acc + slice.len) acc : Traced τ Effect VmMemory.Error Nat) dst = ⟨.ok (acc + totalLen ss), dst', []⟩ ∧
      received dst' = received dst ++ (ss.flatMap GuestSlice.addresses).map contents := by
  induction ss generalizing acc dst with
  | nil => exact ⟨dst, rfl, (append_nil _).symm⟩
  | cons s ss ih =>
    rw [totalLen_cons] at hlen
    obtain ⟨dst₁, hfirst, hreceived⟩ := writeAllVolatile_accepts haccepts (bytesAt contents s.guestAddr s.len) dst
    obtain ⟨dst₂, hrest, hall⟩ := ih (fun s hs => hbase s (mem_cons_of_mem _ hs)) (by omega) (acc + s.len) dst₁
    refine ⟨dst₂, ?_, ?_⟩
    · have hslice : (s.writeAllVolatileTo contents 0 s.len : Traced τ Effect VmMemory.Error Unit) dst =
          ⟨.ok (), dst₁, []⟩ := by
        rw [GuestSlice.writeAllVolatileTo, GuestSlice.subslice_zero (hbase s mem_cons_self) (by omega),
          if_pos (Nat.le_refl _)]
        exact hfirst
      rw [totalLen_cons, ← Nat.add_assoc]
      exact bind_of_ok_of_silent (bind_of_ok_of_silent hslice rfl) hrest
    · have haddr : s.addresses.map contents = bytesAt contents s.guestAddr s.len := by
        rw [GuestSlice.addresses, map_map]
        rfl
      rw [hall, hreceived, flatMap_cons, map_append, haddr, append_assoc]

end Sinks

/-! ## The method -/

/-- `console::Error`: the errors of the output side. -/
inductive OutputError where
  | writeToOutputFailed (error : VmMemory.Error)
  | unexpectedWriteOnlyDescriptor
  | outputSinkFlushFailed (kind : ErrorKind)
  deriving DecidableEq, Repr

structure TxGuest where
  descriptors : HostileMemory
  memory : GuestMemoryT
  contents : Nat → UInt8
  byteAt : Nat → UInt8
  reads : ∀ {addr count : Nat} {ss : List GuestSlice}, memory.slices addr count .read = .ok ss →
    (∀ s ∈ ss, s.bitmap.baseOffset ≤ U64_MAX) ∧ totalLen ss ≤ count ∧
      (ss.flatMap GuestSlice.addresses).map contents = bytesAt byteAt addr (totalLen ss)

/-- A guest without an IOMMU. -/
def TxGuest.ofMemory (descriptors : HostileMemory) (mem : GuestMemory) : TxGuest where
  descriptors := descriptors
  memory := mem.asT
  contents := mem.bytes
  byteAt := mem.bytes
  reads {addr count ss} h := by
    have hss := yielded_of_slices h
    have hconsecutive : Consecutive addr ss := hss.consecutive
    refine ⟨fun s hs => (hss.backs s hs).baseOffset_le, hss.totalLen_le, ?_⟩
    rw [hconsecutive.addresses_eq, List.map_map]
    rfl

/-- A guest whose memory is behind an IOMMU, which is in use or not. -/
def TxGuest.ofIommu {R : Type → Type} [RangeMapLike R] (descriptors : HostileMemory) (m : IommuMemory R) : TxGuest where
  descriptors := descriptors
  memory := m.asT
  contents := m.backend.bytes
  byteAt a := (m.view a).getD 0
  reads {addr count ss} h := by
    rcases m.slices_cases addr count .read with ⟨_, ss', hsliced, heq⟩ | ⟨_, _, e, heq⟩ | ⟨_, heq⟩ <;> rw [h] at heq <;> cases heq
    refine ⟨hsliced.baseOffset_le, ?_, ?_⟩
    · rw [hsliced.totalLen_eq]
      exact FlatMemory.prefixLen_le _ _
    · have hbytes := congrArg (List.map fun b : Option UInt8 => b.getD 0) hsliced.bytes
      rw [List.map_map, List.map_map] at hbytes
      exact hbytes

namespace Console

variable {τ : Type} [WriteVolatile τ] [Output τ]

/-- The body of the loop of `process_transmitq_chain`. -/
def transmitFrom (g : TxGuest) (desc : Descriptor) : Traced τ Effect OutputError Unit :=
  if desc.isWriteOnly then .lift (.err .unexpectedWriteOnlyDescriptor)
  else do
    let _ ← (g.memory.writeVolatileTo g.contents desc.addr.toNat desc.len.toNat).mapErr .writeToOutputFailed
    (Traced.exec Output.flush).mapErr .outputSinkFlushFailed

def transmitLoop (g : TxGuest) (w : Walk) (output : τ) : Traced.Result (Walk × τ) Effect OutputError Unit :=
  match _h : w.next g.descriptors with
  | (none, w') => ⟨.ok (), (w', output), []⟩
  | (some desc, w') =>
    match transmitFrom g desc output with
    | ⟨.ok (), output, trace⟩ =>
      let r := transmitLoop g w' output
      ⟨r.outcome, r.state, trace ++ r.trace⟩
    | ⟨.err e, output, trace⟩ => ⟨.err e, (w', output), trace⟩
    | ⟨.panic, output, trace⟩ => ⟨.panic, (w', output), trace⟩
termination_by Walk.budget w.chain
decreasing_by exact Walk.budget_next _h

def processTransmitqChain (g : TxGuest) : Traced (Console τ × Walk) Effect OutputError Unit := fun (self, w) =>
  let r := transmitLoop g w self.output
  ⟨r.outcome, ({ self with output := r.state.2 }, r.state.1), r.trace⟩

end Console

/-! ## What is put out -/

variable (desc : Descriptor)

namespace TxGuest

variable (g : TxGuest)

/-- The contents of the buffer of a descriptor, in full. -/
def buffer (desc : Descriptor) : List UInt8 := bytesAt g.byteAt desc.addr.toNat desc.len.toNat

/-- The number of bytes of the buffer that there are slices for. -/
def readable (desc : Descriptor) : Nat :=
  match g.memory.slices desc.addr.toNat desc.len.toNat .read with
  | .ok ss => totalLen ss
  | .err _ => 0
  | .panic => 0

/-- The buffer is for the device to read, and there are slices for its first bytes. -/
def Begins (desc : Descriptor) : Prop :=
  desc.isWriteOnly = false ∧ ∃ ss, g.memory.slices desc.addr.toNat desc.len.toNat .read = .ok ss

theorem readable_le : g.readable desc ≤ desc.len.toNat := by
  unfold readable
  split
  · exact (g.reads ‹_›).2.1
  · exact Nat.zero_le _
  · exact Nat.zero_le _

end TxGuest

section Output

variable {τ : Type} [WriteVolatile τ] [Output τ] {received : τ → List UInt8}

theorem writeVolatileTo_accepts (haccepts : Accepts received) (g : TxGuest) (desc : Descriptor)
    (hslices : g.memory.slices desc.addr.toNat desc.len.toNat .read = .ok ss) (output : τ) :
    ∃ output', g.memory.writeVolatileTo g.contents desc.addr.toNat desc.len.toNat output =
        ⟨.ok (totalLen ss), output', []⟩ ∧
      received output' = received output ++ bytesAt g.byteAt desc.addr.toNat (totalLen ss) := by
  obtain ⟨hbase, hle, hbytes⟩ := g.reads hslices
  have hlen : totalLen ss ≤ U64_MAX := by
    have := desc.len.toNat_lt
    rw [U64_MAX_eq]
    omega
  obtain ⟨output', hloop, hreceived⟩ := foldlM_writeAllVolatileTo_accepts haccepts g.contents hbase hlen 0 output
  rw [Nat.zero_add] at hloop
  rw [hbytes] at hreceived
  refine ⟨output', ?_, hreceived⟩
  rw [writeVolatileTo, hslices]
  exact hloop

theorem transmitFrom_cases (haccepts : Accepts received) (g : TxGuest) (desc : Descriptor) (output : τ) :
    (g.Begins desc ∧ ∃ output', transmitFrom g desc output = ⟨.ok (), output', []⟩ ∧
      received output' = received output ++ bytesAt g.byteAt desc.addr.toNat (g.readable desc)) ∨
    ¬ g.Begins desc ∧ (transmitFrom g desc output).outcome ≠ .ok () := by
  by_cases hbegins : g.Begins desc
  · obtain ⟨hread, ss, hslices⟩ := id hbegins
    obtain ⟨dst, hput, hreceived⟩ := writeVolatileTo_accepts haccepts g desc hslices output
    obtain ⟨output', hflush, hflushed⟩ := haccepts.flushed dst
    refine .inl ⟨hbegins, output', ?_, ?_⟩
    · rw [transmitFrom, hread]
      refine bind_of_ok_of_silent (mapErr_of_ok hput _) (mapErr_of_ok ?_ _)
      rw [exec, hflush]
    · rw [hflushed, hreceived, TxGuest.readable, hslices]
  · refine .inr ⟨hbegins, ?_⟩
    unfold transmitFrom
    by_cases hwrite : desc.isWriteOnly = true
    · rw [if_pos hwrite]
      exact err_ne_ok
    · rw [if_neg hwrite, writeVolatileTo]
      cases hslices : g.memory.slices desc.addr.toNat desc.len.toNat .read with
      | ok ss => exact absurd ⟨by simpa using hwrite, ss, hslices⟩ hbegins
      | err e => exact err_ne_ok
      | panic => exact panic_ne_ok

theorem not_begins_of_outcome (haccepts : Accepts received) {g : TxGuest} {desc : Descriptor} {output : τ}
    (h : (transmitFrom g desc output).outcome ≠ .ok ()) : ¬ g.Begins desc := by
  rcases transmitFrom_cases haccepts g desc output with ⟨_, _, heq, _⟩ | ⟨hnot, _⟩
  · rw [heq] at h
    exact absurd rfl h
  · exact hnot

theorem transmitLoop_cases (haccepts : Accepts received) (g : TxGuest) (w : Walk) (output : τ) :
    ((∀ desc ∈ w.remaining g.descriptors, g.Begins desc) ∧ (transmitLoop g w output).outcome = .ok () ∧
      received (transmitLoop g w output).state.2 = received output ++
        (w.remaining g.descriptors).flatMap fun desc => bytesAt g.byteAt desc.addr.toNat (g.readable desc)) ∨
    (∃ desc ∈ w.remaining g.descriptors, ¬ g.Begins desc) ∧ (transmitLoop g w output).outcome ≠ .ok () := by
  fun_induction transmitLoop g w output with
  | case1 w output w' hnext =>
    rw [remaining_of_none hnext]
    exact .inl ⟨nofun, rfl, (append_nil _).symm⟩
  | case2 w output desc w' hnext output₁ trace hfrom r ih =>
    rw [remaining_of_some hnext]
    rcases transmitFrom_cases haccepts g desc output with ⟨hbegins, _, heq, hreceived⟩ | ⟨_, hne⟩
    · rw [hfrom] at heq
      cases heq
      rcases ih with ⟨hall, hok, hrest⟩ | ⟨⟨desc', hmem, hnot⟩, hne⟩
      · refine .inl ⟨forall_mem_cons.2 ⟨hbegins, hall⟩, hok, ?_⟩
        rw [hrest, hreceived, flatMap_cons, append_assoc]
      · exact .inr ⟨⟨desc', mem_cons_of_mem _ hmem, hnot⟩, hne⟩
    · rw [hfrom] at hne
      exact absurd rfl hne
  | case3 w output desc w' hnext e output₁ trace hfrom =>
    have hnot : ¬ g.Begins desc := not_begins_of_outcome haccepts (by rw [hfrom]; exact err_ne_ok)
    rw [remaining_of_some hnext]
    exact .inr ⟨⟨desc, mem_cons_self, hnot⟩, err_ne_ok⟩
  | case4 w output desc w' hnext output₁ trace hfrom =>
    have hnot : ¬ g.Begins desc := not_begins_of_outcome haccepts (by rw [hfrom]; exact panic_ne_ok)
    rw [remaining_of_some hnext]
    exact .inr ⟨⟨desc, mem_cons_self, hnot⟩, panic_ne_ok⟩

end Output

/-! ## Complete output -/

namespace TxGuest

variable (g : TxGuest)
variable (descs : List Descriptor)

theorem length_readable_le : (descs.flatMap fun desc => bytesAt g.byteAt desc.addr.toNat (g.readable desc)).length ≤
      (descs.flatMap g.buffer).length := by
  induction descs with
  | nil => exact Nat.le_refl _
  | cons desc descs ih =>
    rw [flatMap_cons, flatMap_cons, length_append, length_append, buffer, length_bytesAt, length_bytesAt]
    exact Nat.add_le_add (g.readable_le desc) ih

theorem readable_eq_buffers_iff :
    (descs.flatMap fun desc => bytesAt g.byteAt desc.addr.toNat (g.readable desc)) = descs.flatMap g.buffer ↔
      ∀ desc ∈ descs, g.readable desc = desc.len.toNat := by
  induction descs with
  | nil => exact iff_of_true rfl nofun
  | cons desc descs ih =>
    rw [flatMap_cons, flatMap_cons, forall_mem_cons, ← ih]
    constructor
    · intro heq
      have hlen := congrArg length heq
      have hle := g.length_readable_le descs
      have hfirst := g.readable_le desc
      rw [length_append, length_append, buffer, length_bytesAt, length_bytesAt] at hlen
      have hfull : g.readable desc = desc.len.toNat := by omega
      rw [hfull] at heq
      exact ⟨hfull, append_cancel_left heq⟩
    · rintro ⟨hfull, hrest⟩
      rw [hfull, hrest]
      rfl

variable (descriptors : HostileMemory)
variable {R : Type → Type} [RangeMapLike R] (m : IommuMemory R)

theorem begins_ofIommu : (ofIommu descriptors m).Begins desc ↔
      desc.isWriteOnly = false ∧ m.Begins desc.addr.toNat desc.len.toNat .read := by
  refine and_congr_right fun _ => ?_
  show (∃ ss, m.asT.slices desc.addr.toNat desc.len.toNat .read = .ok ss) ↔ _
  rcases m.slices_cases desc.addr.toNat desc.len.toNat .read with
    ⟨hbegins, ss, _, heq⟩ | ⟨hnot, _, e, heq⟩ | ⟨hover, heq⟩
  · exact iff_of_true ⟨ss, heq⟩ hbegins
  · rw [heq]
    exact iff_of_false nofun hnot
  · rw [heq]
    exact iff_of_false nofun (IommuMemory.not_begins_of_overflows hover)

theorem readable_ofIommu {desc : Descriptor} (h : m.Begins desc.addr.toNat desc.len.toNat .read) :
    (ofIommu descriptors m).readable desc = m.view.prefixLen desc.addr.toNat desc.len.toNat := by
  rcases m.slices_cases desc.addr.toNat desc.len.toNat .read with ⟨_, ss, hsliced, heq⟩ | ⟨hnot, _⟩ | ⟨hover, _⟩
  · have hslices : (ofIommu descriptors m).memory.slices desc.addr.toNat desc.len.toNat .read = .ok ss := heq
    rw [readable, hslices]
    exact hsliced.totalLen_eq
  · exact absurd h hnot
  · exact absurd h (IommuMemory.not_begins_of_overflows hover)

end TxGuest

section Complete

variable {τ : Type} [WriteVolatile τ] [Output τ] {received : τ → List UInt8}

/-- If the method succeeds, the sink has received the contents of all buffers of the chain, and nothing else. -/
def OutputComplete (received : τ → List UInt8) (g : TxGuest) (self : Console τ) (w : Walk) : Prop :=
  let r := Console.processTransmitqChain g (self, w)
  r.outcome = .ok () → received r.state.1.output = received self.output ++ (w.remaining g.descriptors).flatMap g.buffer

theorem outputComplete_iff (haccepts : Accepts received) (g : TxGuest) (self : Console τ) (w : Walk) :
    OutputComplete received g self w ↔ (∃ desc ∈ w.remaining g.descriptors, ¬ g.Begins desc) ∨
        ∀ desc ∈ w.remaining g.descriptors, g.readable desc = desc.len.toNat := by
  rcases transmitLoop_cases haccepts g w self.output with ⟨hall, hok, hreceived⟩ | ⟨hfails, hne⟩
  · have hnone : ¬ ∃ desc ∈ w.remaining g.descriptors, ¬ g.Begins desc := by
      rintro ⟨desc, hmem, hnot⟩
      exact hnot (hall desc hmem)
    rw [or_iff_right hnone, ← g.readable_eq_buffers_iff]
    constructor
    · intro hcomplete
      exact append_cancel_left (hreceived.symm.trans (hcomplete hok))
    · intro heq _
      rw [← heq]
      exact hreceived
  · exact iff_of_true (fun hok => absurd hok hne) (.inl hfails)

theorem outputComplete_ofIommu_iff {R : Type → Type} [RangeMapLike R] (haccepts : Accepts received)
    (descriptors : HostileMemory) (m : IommuMemory R) (self : Console τ) (w : Walk) :
    OutputComplete received (.ofIommu descriptors m) self w ↔
      (∃ desc ∈ w.remaining descriptors, desc.isWriteOnly = true ∨ ¬ m.Begins desc.addr.toNat desc.len.toNat .read) ∨
      ∀ desc ∈ w.remaining descriptors, m.view.Mapped desc.addr.toNat desc.len.toNat := by
  rw [outputComplete_iff haccepts]
  have hfails : ∀ desc, ¬ (TxGuest.ofIommu descriptors m).Begins desc ↔
      desc.isWriteOnly = true ∨ ¬ m.Begins desc.addr.toNat desc.len.toNat .read := by
    intro desc
    rw [TxGuest.begins_ofIommu, not_and_or, Bool.not_eq_false]
  simp only [hfails]
  refine or_congr_right' fun hall => forall_congr' fun desc => imp_congr_right fun hmem => ?_
  have hbegins : m.Begins desc.addr.toNat desc.len.toNat .read := by
    by_contra hnot
    exact hall ⟨desc, hmem, .inr hnot⟩
  rw [TxGuest.readable_ofIommu _ _ hbegins, FlatMemory.prefixLen_eq_iff]

theorem outputComplete_ofMemory_iff (haccepts : Accepts received) (descriptors : HostileMemory) (mem : GuestMemory)
    (self : Console τ) (w : Walk) : OutputComplete received (.ofMemory descriptors mem) self w ↔
      (∃ desc ∈ w.remaining descriptors, desc.isWriteOnly = true ∨ desc.len ≠ 0 ∧ mem.flat desc.addr.toNat = none) ∨
      ∀ desc ∈ w.remaining descriptors, mem.Mapped desc.addr.toNat desc.len.toNat := by
  -- the memory is that behind an IOMMU which is not in use
  let m : IommuMemory RangeMap := ⟨mem, .new, false⟩
  have hmemory : m.asT = mem.asT := IommuMemory.asT_of_not_useIommu (m := m) rfl
  have hview : m.view = mem.flat := IommuMemory.view_of_not_useIommu (m := m) rfl
  have hiommu := outputComplete_ofIommu_iff haccepts descriptors m self w
  rw [outputComplete_iff haccepts, hview] at hiommu
  rw [outputComplete_iff haccepts]
  simp only [TxGuest.Begins, TxGuest.readable, TxGuest.ofMemory, ← hmemory]
  refine hiommu.trans (or_congr (exists_congr fun desc => and_congr_right fun _ => or_congr_right ?_)
    (forall₂_congr fun desc _ => GuestMemory.flat_mapped_iff))
  have hgranted : m.Granted desc.addr.toNat desc.len.toNat .read := nofun
  rw [IommuMemory.Begins, and_iff_right hgranted, not_or, not_not, hview, ne_eq, ← UInt32.toNat_inj, UInt32.toNat_zero]

/-- **The output is complete if, and only if, no buffer is passed on in part.**  Let a console process a chain
with a sink that never fails.  If that succeeds, the sink has received the contents of all buffers exactly if
there are slices for all bytes of each of them, which in memory without an IOMMU means that the buffer is mapped,
and behind an IOMMU that its bytes are mapped where they are translated to; the method fails if there is no slice for
the first byte of some buffer, or some buffer is not for the device to read. -/
theorem console_output_iff (haccepts : Accepts received) (self : Console τ) (w : Walk) :
    (∀ g : TxGuest, OutputComplete received g self w ↔ (∃ desc ∈ w.remaining g.descriptors, ¬ g.Begins desc) ∨
        ∀ desc ∈ w.remaining g.descriptors, g.readable desc = desc.len.toNat) ∧
    (∀ (descriptors : HostileMemory) (mem : GuestMemory),
      OutputComplete received (.ofMemory descriptors mem) self w ↔
        (∃ desc ∈ w.remaining descriptors, desc.isWriteOnly = true ∨ desc.len ≠ 0 ∧ mem.flat desc.addr.toNat = none) ∨
        ∀ desc ∈ w.remaining descriptors, mem.Mapped desc.addr.toNat desc.len.toNat) ∧
    ∀ (R : Type → Type) [RangeMapLike R] (descriptors : HostileMemory) (m : IommuMemory R),
      OutputComplete received (.ofIommu descriptors m) self w ↔
        (∃ desc ∈ w.remaining descriptors, desc.isWriteOnly = true ∨ ¬ m.Begins desc.addr.toNat desc.len.toNat .read) ∨
        ∀ desc ∈ w.remaining descriptors, m.view.Mapped desc.addr.toNat desc.len.toNat := by
  exact ⟨fun g => outputComplete_iff haccepts g self w,
    fun descriptors mem => outputComplete_ofMemory_iff haccepts descriptors mem self w,
    fun R _ descriptors m => outputComplete_ofIommu_iff haccepts descriptors m self w⟩

end Complete

/-! ## A buffer at the end of memory -/

theorem accepts_vec : Accepts (id : List UInt8 → List UInt8) where
  wrote hne h := by
    cases h
    exact ⟨length_pos_iff.2 hne, Nat.le_refl _, by simp⟩
  interrupted h := by cases h
  no_error h := by cases h
  flushed dst := ⟨dst, rfl, rfl⟩

/-- Memory from 0x1000 to 0xf000, and a chain with one buffer for the device to read. -/
def lettersAt (addr : UInt64) (len : UInt32) : TxGuest := .ofMemory (fun _ _ => some ⟨addr, len, 0, 0⟩)
    ⟨[⟨0x1000, 0xe000, 0x10000, by decide, by decide⟩], by decide, fun a => .ofNat (a % 26 + 97)⟩

def emptyConsole : Console (List UInt8) := ⟨[], false, 16, [], by decide, by decide⟩

theorem processTransmitqChain_lettersAt {addr : UInt64} {len : UInt32}
    (hchain : remaining (lettersAt addr len).descriptors (.new 0x2000 1 0) = [⟨addr, len, 0, 0⟩])
    (hbegins : ((lettersAt addr len).memory.slices addr.toNat len.toNat .read).isOk = true) :
    (processTransmitqChain (lettersAt addr len) (emptyConsole, .new 0x2000 1 0)).outcome = .ok () ∧
    (processTransmitqChain (lettersAt addr len) (emptyConsole, .new 0x2000 1 0)).state.1.output =
      bytesAt (lettersAt addr len).byteAt addr.toNat ((lettersAt addr len).readable ⟨addr, len, 0, 0⟩) := by
  rcases transmitLoop_cases accepts_vec (lettersAt addr len) (.new 0x2000 1 0) [] with
    ⟨_, hok, hreceived⟩ | ⟨⟨desc, hmem, hnot⟩, _⟩
  · refine ⟨hok, hreceived.trans ?_⟩
    rw [hchain]
    exact append_nil _
  · rw [hchain, mem_singleton] at hmem
    subst hmem
    exact absurd ⟨by simp [Descriptor.isWriteOnly], isOk_iff.1 hbegins⟩ hnot

theorem console_output_last_three :
    (Console.processTransmitqChain (lettersAt 0xeffd 3) (emptyConsole, .new 0x2000 1 0)).state.1.output =
      (Walk.remaining (lettersAt 0xeffd 3).descriptors (.new 0x2000 1 0)).flatMap (lettersAt 0xeffd 3).buffer := by
  have hchain : remaining (lettersAt 0xeffd 3).descriptors (.new 0x2000 1 0) = [⟨0xeffd, 3, 0, 0⟩] := by
    decide +kernel
  have hok := (processTransmitqChain_lettersAt hchain (by decide +kernel)).1
  have hfull : ∀ desc ∈ remaining (lettersAt 0xeffd 3).descriptors (.new 0x2000 1 0),
      (lettersAt 0xeffd 3).readable desc = desc.len.toNat := by
    decide +kernel
  exact ((console_output_iff accepts_vec emptyConsole (.new 0x2000 1 0)).1 _).2 (.inr hfull) hok

/-- **A buffer that reaches beyond the memory is cut off**: 32 bytes are to be put out, 16 are, and the
method succeeds. -/
theorem output_cut_off : Walk.remaining (lettersAt 0xeff0 32).descriptors (.new 0x2000 1 0) = [⟨0xeff0, 32, 0, 0⟩] ∧
    (Console.processTransmitqChain (lettersAt 0xeff0 32) (emptyConsole, .new 0x2000 1 0)).outcome = .ok () ∧
    (Console.processTransmitqChain (lettersAt 0xeff0 32) (emptyConsole, .new 0x2000 1 0)).state.1.output.length = 16 ∧
    ¬ OutputComplete id (lettersAt 0xeff0 32) emptyConsole (.new 0x2000 1 0) := by
  have hchain : remaining (lettersAt 0xeff0 32).descriptors (.new 0x2000 1 0) = [⟨0xeff0, 32, 0, 0⟩] := by
    decide +kernel
  obtain ⟨hok, hout⟩ := processTransmitqChain_lettersAt hchain (by decide +kernel)
  have hreadable : (lettersAt 0xeff0 32).readable ⟨0xeff0, 32, 0, 0⟩ = 16 := by decide +kernel
  rw [hreadable] at hout
  refine ⟨hchain, hok, by rw [hout, length_bytesAt], fun hcomplete => ?_⟩
  have hlen := congrArg length (hcomplete hok)
  rw [hchain] at hlen
  rw [hout] at hlen
  revert hlen
  decide

end RustVmm.VirtioConsole
