import RustVmm.VmMemory.Accesses
import RustVmm.VirtioBlk.Writes

/-!
# What a block request reads

* `loaded_parse` — the parser loads the 16 bytes of the header that are mapped.
* `all_processRequest` — the executor loads from the data buffers only.
* `reads_buffers_iff` — when all that is loaded lies in buffers of the chain.
* `short_header` — a header that goes on behind its buffer is read all the same.
-/

set_option autoImplicit false

namespace RustVmm.VirtioBlk

open Lib VmMemory VirtioQueue DiscardWriteZeroes GuestMemoryT Traced Request Touch List

variable {B : Type} [ReadVolatile B] [WriteVolatile B] [Backend B]

/-! ## What the executor loads -/

/-- It loads from the buffers only. -/
def Touch.InBuffers (data : List (UInt64 × UInt32)) (t : Touch) : Prop := ∀ a, t.Loads a → ∃ d ∈ data, InBuffer d a

theorem inBuffers_of_loadsIn {data : List (UInt64 × UInt32)} {d : UInt64 × UInt32} (hd : d ∈ data) {t : Touch}
    (h : t.LoadsIn d.1.toNat d.2.toNat) : Touch.InBuffers data t :=
  fun a ha => ⟨d, hd, h a ha⟩

variable (mem : GuestMemory)

theorem all_handleSegments (requestType : RequestType) {addr count crtAddr availableBytes : Nat} (hle : addr ≤ crtAddr)
    (hend : crtAddr + availableBytes ≤ addr + count) :
    (handleSegments mem requestType crtAddr availableBytes : Traced (StdIoBackend B) Touch Error Unit).All
      (LoadsIn addr count) := by
  induction availableBytes using Nat.strong_induction_on generalizing crtAddr with
  | _ availableBytes ih =>
    have hlen : LEN = 16 := rfl
    rw [handleSegments]
    split
    · exact All.pure _
    · have hsegment : (readSegment mem crtAddr : Traced (StdIoBackend B) Touch Error _).All (LoadsIn addr count) := by
        refine All.bind (All.mapErr ?_ _) fun _ => All.pure _
        refine (loadsIn_readSlice mem mem.bytes LEN crtAddr).mono fun t ht a ha => ?_
        obtain ⟨hstart, hlt⟩ := ht a ha
        omega
      refine hsegment.bind fun segment => ?_
      refine (all_storing (fun _ _ h => h.elim) _).bind fun _ => ?_
      apply All.lift_bind
      intro next hnext
      obtain ⟨-, rfl⟩ := checkedAdd_eq_some.1 (Outcome.unwrap_eq_ok.1 hnext)
      exact ih (availableBytes - LEN) (by omega) (by omega) (by omega)

variable (request : Request)

theorem all_executeType (totalLen : Nat) :
    (executeType mem request totalLen : Traced (StdIoBackend B) Touch Error UInt32).All
      (Touch.InBuffers request.data) := by
  have hstoring : ∀ x : BlkOp B UInt32, (Records.storing x).All (Touch.InBuffers request.data) :=
    fun x => all_storing (fun _ _ h => h.elim) x
  have hdiscard : (executeDiscardWriteZeroes mem request : Traced (StdIoBackend B) Touch Error UInt32).All
      (Touch.InBuffers request.data) := by
    refine Traced.All.bind (Traced.All.foldlM (fun _ d hd => ?_) ()) fun _ => Traced.All.pure _
    unfold handleBuffer
    split
    · exact Traced.All.lift _
    · refine Traced.All.lift_bind fun _ _ => ?_
      exact (all_handleSegments mem _ (Nat.le_refl _) (Nat.le_refl _)).mono fun t => inBuffers_of_loadsIn hd
  unfold executeType
  split
  · exact hstoring _
  · refine Traced.All.get.bind fun _ => Traced.All.lift_bind fun _ _ => ?_
    refine Traced.All.bind (Traced.All.zoom (Traced.All.foldlM (fun _ d hd => ?_) ()) _ _) fun _ => Traced.All.pure _
    exact ((loadsIn_writeAllVolatileTo mem mem.bytes d.1.toNat d.2.toNat).mono
      fun t => inBuffers_of_loadsIn hd).mapErr _
  · exact hstoring _
  · exact hstoring _
  · exact hdiscard
  · exact hdiscard
  · exact Traced.All.lift _

theorem all_processRequest :
    (processRequest mem request : Traced (StdIoBackend B) Touch ProcessReqError UInt32).All
      (Touch.InBuffers request.data) := by
  have hexecute : (execute mem request : Traced (StdIoBackend B) Touch Error UInt32).All
      (Touch.InBuffers request.data) := by
    refine ((Traced.All.exec _).zoom _ _ |>.mapErr _).bind fun _ => Traced.All.get.bind fun _ => ?_
    refine Traced.All.lift_bind fun _ _ => Traced.All.lift_bind fun _ _ => Traced.All.lift_bind fun _ _ => ?_
    exact all_executeType mem request _
  refine hexecute.attempt.bind fun result => ?_
  exact (all_storing (fun _ _ h => h.elim) _).bind fun _ => Traced.All.lift _

/-! ## What the parser loads -/

/-- The bytes of the header that are loaded. -/
def HeaderByte (layout : GuestMemory) (addr a : Nat) : Prop :=
  addr ≤ a ∧ a < addr + 16 ∧ layout.Mapped addr (a + 1 - addr)

theorem loaded_header_iff (layout : GuestMemory) (addr a : Nat) :
    Loaded (layout.asT.readSlice layout.bytes 16 addr ()).trace a ↔ HeaderByte layout addr a := by
  rw [loaded_readSlice]
  have hle := layout.flat.prefixLen_le addr 16
  have hmapped : a + 1 - addr ≤ 16 →
      (a + 1 - addr ≤ layout.flat.prefixLen addr 16 ↔ layout.Mapped addr (a + 1 - addr)) := fun hn =>
    (FlatMemory.le_prefixLen_iff hn).trans GuestMemory.flat_mapped_iff
  constructor
  · rintro ⟨hstart, hlt⟩
    exact ⟨hstart, by omega, (hmapped (by omega)).1 (by omega)⟩
  · rintro ⟨hstart, hlt, hm⟩
    have hprefixed := (hmapped (by omega)).2 hm
    exact ⟨hstart, by omega⟩

theorem loaded_parse (g : Guest) (w : Walk) (a : Nat) : Loaded (parseW g w).trace a ↔
      ∃ head w', w.next g.descriptors = (some head, w') ∧ head.isWriteOnly = false ∧
        HeaderByte g.layout head.addr.toNat a := by
  rcases hnext : w.next g.descriptors with ⟨_ | head, w'⟩
  · have hfirst : (exec (nextDesc g) : Traced Walk Touch ParseError _) w = ⟨.err .descriptorChainTooShort, w', []⟩ := by
      simp only [exec, nextDesc, hnext]
      rfl
    rw [parseW, bind_of_err hfirst]
    refine iff_of_false (loaded_nil a) ?_
    rintro ⟨_, _, h, _⟩
    cases h
  · have hfirst : (exec (nextDesc g) : Traced Walk Touch ParseError _) w = ⟨.ok head, w', []⟩ := by
      simp only [exec, nextDesc, hnext]
      rfl
    rw [parseW, bind_of_ok hfirst]
    by_cases hwrite : head.isWriteOnly = true
    · rw [if_pos hwrite]
      refine iff_of_false (loaded_nil a) ?_
      rintro ⟨_, _, h, hread, _⟩
      cases h
      rw [hwrite] at hread
      cases hread
    · rw [if_neg hwrite]
      refine (loaded_bind_of_silent (fun _ => All.lift_bind fun header _ => ?_) w' a).trans ?_
      · split
        · exact All.lift _
        · refine (All.exec _).bind fun _ => (All.exec _).bind fun _ => ?_
          exact All.lift_bind fun _ _ => All.pure _
      · refine (loaded_header_iff g.layout head.addr.toNat a).trans ⟨fun h => ?_, ?_⟩
        · exact ⟨head, w', rfl, by simpa using hwrite, h⟩
        · rintro ⟨_, _, h, _, hbyte⟩
          cases h
          exact hbyte

/-! ## Buffers of the chain -/

def InChain (g : Guest) (w : Walk) (a : Nat) : Prop := ∃ d ∈ w.remaining g.descriptors, InBuffer (Request.buffer d) a

variable {g : Guest} {w w' : Walk}

theorem mem_parseData {requestType : RequestType} {desc status : Descriptor} {before data : List (UInt64 × UInt32)}
    (h : parseData g requestType desc before w = (.ok (data, status), w')) :
    ∀ d ∈ data, d ∈ before ∨ ∃ desc' ∈ desc :: w.remaining g.descriptors, d = buffer desc' := by
  fun_induction parseData g requestType desc before w with
  | case1 desc before w hnext hcheck next w₁ hw ih =>
    intro d hd
    have hrest := Walk.remaining_of_some (nextDesc_eq_ok hw)
    rcases ih h d hd with hbefore | ⟨desc', hdesc', rfl⟩
    · rcases mem_append.1 hbefore with hbefore | hself
      · exact .inl hbefore
      · exact .inr ⟨desc, mem_cons_self, mem_singleton.1 hself⟩
    · rw [← hrest] at hdesc'
      exact .inr ⟨desc', mem_cons_of_mem _ hdesc', rfl⟩
  | case6 desc before w hnext =>
    cases h
    exact fun d hd => .inl hd
  | _ => cases h

theorem mem_parseW {request : Request} {trace : List Touch} (h : parseW g w = ⟨.ok request, w', trace⟩) :
    ∀ d ∈ request.data, ∃ desc ∈ w.remaining g.descriptors, d = buffer desc := by
  obtain ⟨head, w₁, desc, w₂, status, hhead, -, hdesc, hdata, -⟩ := parseW_eq_ok h
  intro d hd
  rcases mem_parseData hdata d hd with hnil | ⟨desc', hdesc', rfl⟩
  · cases hnil
  · refine ⟨desc', ?_, rfl⟩
    rw [Walk.remaining_of_some (nextDesc_eq_ok hhead), Walk.remaining_of_some (nextDesc_eq_ok hdesc)]
    exact mem_cons_of_mem _ hdesc'

structure ReadsBuffers (g : Guest) (w : Walk) (mem : GuestMemory) (b : StdIoBackend B) : Prop where
  parse : ∀ a, Loaded (parseW g w).trace a → InChain g w a
  process : ∀ request, (parseW (W := Touch) g w).outcome = .ok request →
    ∀ a, Loaded (processRequest mem request b).trace a → InChain g w a

def HeaderInChain (g : Guest) (w : Walk) : Prop :=
  ∀ head w', w.next g.descriptors = (some head, w') → head.isWriteOnly = false →
    ∀ a, HeaderByte g.layout head.addr.toNat a → InChain g w a

theorem headerInChain_of_len (h : ∀ head w', w.next g.descriptors = (some head, w') → 16 ≤ head.len) :
    HeaderInChain g w := by
  rintro head w' hnext - a ⟨hle, hlt, -⟩
  have hlen : 16 ≤ head.len.toNat := UInt32.le_iff_toNat_le.1 (h head w' hnext)
  refine ⟨head, ?_, hle, ?_⟩
  · rw [Walk.remaining_of_some hnext]
    exact mem_cons_self
  · show a < head.addr.toNat + head.len.toNat
    omega

theorem readsBuffers_process {request : Request} (h : (parseW (W := Touch) g w).outcome = .ok request)
    (mem : GuestMemory) (b : StdIoBackend B) (a : Nat) (ha : Loaded (processRequest mem request b).trace a) :
    InChain g w a := by
  rcases hparse : parseW (W := Touch) g w with ⟨o, w', trace⟩
  rw [hparse] at h
  cases h
  obtain ⟨t, ht, hloads⟩ := ha
  obtain ⟨d, hd, hin⟩ := all_processRequest mem request b t ht a hloads
  obtain ⟨desc, hdesc, rfl⟩ := mem_parseW hparse d hd
  exact ⟨desc, hdesc, hin⟩

/-- **What a block request reads.**  Let a chain be parsed, against a guest that answers as it likes, and let the
request be processed on any backend and memory.  All bytes that are loaded from guest memory lie in buffers of the
chain, if and only if this is so for the header: the head is not for the device to read, or the 16 bytes from its
address on that are mapped lie in buffers of the chain.  They do if the head has at least 16 bytes. -/
theorem reads_buffers_iff (g : Guest) (w : Walk) (mem : GuestMemory) (b : StdIoBackend B) :
    (ReadsBuffers g w mem b ↔ HeaderInChain g w) ∧
      ((∀ head w', w.next g.descriptors = (some head, w') → 16 ≤ head.len) → HeaderInChain g w) := by
  refine ⟨⟨fun h => ?_, fun h => ⟨fun a ha => ?_, fun request hok => ?_⟩⟩, headerInChain_of_len⟩
  · intro head w' hnext hread a ha
    exact h.parse a ((loaded_parse g w a).2 ⟨head, w', hnext, hread, ha⟩)
  · obtain ⟨head, w', hnext, hread, hbyte⟩ := (loaded_parse g w a).1 ha
    exact h head w' hnext hread a hbyte
  · exact readsBuffers_process hok mem b

/-! ## A short header -/

def shortHeaderMemory : GuestMemory where
  regions := [⟨0, 0xf000, 0x10000, by decide, by decide⟩]
  sorted := by decide
  bytes a := ([(0x1001, 0x20), (0x1008, 8), (0x100c, 1), (0x100e, 1), (0x1011, 0x40), (0x1018, 1),
    (0x101c, 2), (0x2008, 1)].lookup a).getD 0

instance (g : Guest) (w : Walk) (a : Nat) : Decidable (InChain g w a) :=
  inferInstanceAs (Decidable (∃ d ∈ w.remaining g.descriptors, _))

/-- **A header that goes on behind its buffer**: the chain is accepted, and the sector of the request is read from
an address that lies in none of its buffers. -/
theorem short_header : (Request.parse (asGuest shortHeaderMemory) ⟨.new 0x1000 2 0, []⟩).1 = .ok ⟨.in_, [], 1, 0x4000⟩ ∧
    (parseW (W := Touch) (asGuest shortHeaderMemory) ⟨.new 0x1000 2 0, []⟩).outcome = .ok ⟨.in_, [], 1, 0x4000⟩ ∧
    Loaded (parseW (asGuest shortHeaderMemory) ⟨.new 0x1000 2 0, []⟩).trace 0x2008 ∧
    ¬ InChain (asGuest shortHeaderMemory) ⟨.new 0x1000 2 0, []⟩ 0x2008 ∧
    ∀ (mem : GuestMemory) (b : StdIoBackend MemFile),
      ¬ ReadsBuffers (asGuest shortHeaderMemory) ⟨.new 0x1000 2 0, []⟩ mem b := by
  have hloaded : Loaded (parseW (asGuest shortHeaderMemory) ⟨.new 0x1000 2 0, []⟩).trace 0x2008 := by
    decide +kernel
  have hnot : ¬ InChain (asGuest shortHeaderMemory) ⟨.new 0x1000 2 0, []⟩ 0x2008 := by decide +kernel
  refine ⟨by decide +kernel, by decide +kernel, hloaded, hnot, fun mem b h => ?_⟩
  exact hnot (h.parse 0x2008 hloaded)

end RustVmm.VirtioBlk
