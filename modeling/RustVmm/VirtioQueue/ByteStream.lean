import RustVmm.VirtioQueue.DescriptorUtils

/-!
# Readers and writers as cursors over a byte stream

The descriptors of a chain are together one stream of bytes, and a reader or writer is a cursor on a part of it.  The
guest may change its memory between any two reads, so each read is given the contents it finds.

* `Cursor.Lawful`, `Cursor.Inv.lawful` — what a read, a write and a split do to the part of a cursor.
* `Cursors.run_lawful` — so does every call on any cursor, and the parts stay the stream, in order.
* `cursors_over_stream` — both for the readers and writers that the constructors make.
-/

set_option autoImplicit false

namespace RustVmm.VirtioQueue.DescriptorUtils

open Lib VmMemory List

/-- The addresses of all bytes of the descriptors, fragment by fragment. -/
def stream (M : GuestMemoryT) (access : Permissions) (descs : List Descriptor) : List Nat :=
  (descs.flatMap (fragments M access)).flatMap GuestSlice.addresses

/-! ## One cursor -/

inductive Op where
  | read (bytes : Nat → UInt8) (len : Nat)
  | write (buf : List UInt8)
  | splitAt (offset : Nat)

/-- A reader or writer with the addresses that it has gone through. -/
structure Cursor where
  done : List Nat
  consumer : DescriptorChainConsumer

namespace Cursor

/-- The part of the stream that belongs to the cursor. -/
def part (c : Cursor) : List Nat := c.done ++ c.consumer.remaining

def transferred {W : Type} (c : Cursor) (r : Traced.Result DescriptorChainConsumer W IoError Nat) : Cursor :=
  match r.outcome with
  | .ok n => ⟨c.done ++ c.consumer.remaining.take n, r.state⟩
  | _ => ⟨c.done, r.state⟩

/-- The cursors that there are after a call on one cursor. -/
def step (c : Cursor) : Op → List Cursor
  | .read bytes len => [c.transferred (c.consumer.read bytes len)]
  | .write buf => [c.transferred (c.consumer.write buf)]
  | .splitAt offset =>
    match c.consumer.splitAt offset with
    | (.ok other, self) => [⟨c.done, self⟩, ⟨[], other⟩]
    | (_, self) => [⟨c.done, self⟩]

/-- What a transfer of `n` bytes leaves: the cursor has moved by `n`, on the same part. -/
def Moved (c : Cursor) (n : Nat) (self : DescriptorChainConsumer) : Prop :=
  self.remaining = c.consumer.remaining.drop n ∧ self.bytesConsumed = c.consumer.bytesConsumed + n ∧
    self.bytesConsumed + self.availableBytes = c.consumer.bytesConsumed + c.consumer.availableBytes

/-- The next `n` addresses of the part of the cursor. -/
def next (c : Cursor) (n : Nat) : List Nat := (c.part.drop c.consumer.bytesConsumed).take n

/-- What a call does to the part of the cursor. -/
def Lawful (c : Cursor) : Op → Prop
  | .read bytes len =>
    let n := min len c.consumer.availableBytes
    ∃ self chunks, c.consumer.read bytes len = ⟨.ok n, self, chunks⟩ ∧
      chunks.flatten = (c.next n).map bytes ∧ c.Moved n self
  | .write buf =>
    let n := min buf.length c.consumer.availableBytes
    ∃ self trace, c.consumer.write buf = ⟨.ok n, self, trace⟩ ∧
      (∀ bytes, applyBytes bytes trace = storeEach bytes (c.next n) buf) ∧ c.Moved n self
  | .splitAt offset =>
    (offset ≤ c.consumer.availableBytes → ∃ self other, c.consumer.splitAt offset = (.ok other, self) ∧
      self.remaining = c.consumer.remaining.take offset ∧ other.remaining = c.consumer.remaining.drop offset ∧
      self.bytesConsumed = c.consumer.bytesConsumed ∧ other.bytesConsumed = 0) ∧
    (c.consumer.availableBytes < offset → c.consumer.splitAt offset = (.err (.splitOutOfBounds offset), c.consumer))

structure Inv (c : Cursor) : Prop where
  count : c.consumer.bytesConsumed = c.done.length
  fits : c.part.length ≤ U64_MAX

variable {c : Cursor}

theorem Inv.bytes_le (hc : Inv c) : c.consumer.bytesConsumed + c.consumer.remaining.length ≤ U64_MAX := by
  have h := hc.fits
  rw [part, length_append] at h
  rw [hc.count]
  exact h

theorem Inv.next_eq (hc : Inv c) (n : Nat) : c.next n = c.consumer.remaining.take n := by
  rw [next, part, hc.count, drop_left]

variable {self : DescriptorChainConsumer}

theorem moved_of_drop {n : Nat} (hn : n ≤ c.consumer.remaining.length)
    (hrem : self.remaining = c.consumer.remaining.drop n) (hcount : self.bytesConsumed = c.consumer.bytesConsumed + n) :
    c.Moved n self := by
  refine ⟨hrem, hcount, ?_⟩
  rw [availableBytes_eq, availableBytes_eq, hrem, length_drop]
  omega

theorem Inv.lawful (hc : Inv c) (op : Op) : c.Lawful op := by
  have hfit := hc.bytes_le
  cases op with
  | read bytes len =>
    obtain ⟨self, chunks, hread, hchunks, hrem, hcount⟩ := read_spec hfit bytes len
    unfold Lawful
    rw [availableBytes_eq]
    refine ⟨self, chunks, hread, ?_, moved_of_drop (Nat.min_le_right _ _) hrem hcount⟩
    rw [hc.next_eq, hchunks]
  | write buf =>
    obtain ⟨self, trace, hwrite, hstore, hrem, hcount⟩ := write_spec hfit buf
    unfold Lawful
    rw [availableBytes_eq]
    refine ⟨self, trace, hwrite, ?_, moved_of_drop (Nat.min_le_right _ _) hrem hcount⟩
    rw [hc.next_eq]
    exact hstore
  | splitAt offset =>
    unfold Lawful
    rw [availableBytes_eq]
    exact splitAt_spec (by omega) offset

theorem Inv.transferred (hc : Inv c) {W : Type} {n : Nat} {w : List W} (hn : n ≤ c.consumer.remaining.length)
    (hm : c.Moved n self) : let c' := c.transferred ⟨.ok n, self, w⟩
    Inv c' ∧ c'.part = c.part := by
  obtain ⟨hrem, hcount, _⟩ := hm
  have hpart : (c.transferred ⟨.ok n, self, w⟩).part = c.part := by
    show (c.done ++ c.consumer.remaining.take n) ++ self.remaining = _
    rw [hrem, append_assoc, take_append_drop]
    rfl
  refine ⟨⟨?_, by rw [hpart]; exact hc.fits⟩, hpart⟩
  show self.bytesConsumed = (c.done ++ c.consumer.remaining.take n).length
  rw [hcount, hc.count, length_append, length_take, Nat.min_eq_left hn]

theorem step_spec (hc : Inv c) (op : Op) : (∀ c' ∈ c.step op, Inv c') ∧ (c.step op).flatMap part = c.part := by
  have hlawful := hc.lawful op
  cases op with
  | read bytes len =>
    obtain ⟨self, chunks, hread, _, hm⟩ := hlawful
    obtain ⟨hinv, hpart⟩ := hc.transferred (w := chunks)
      (by rw [← availableBytes_eq]; exact Nat.min_le_right _ _) hm
    rw [step, hread]
    simp [hinv, hpart]
  | write buf =>
    obtain ⟨self, trace, hwrite, _, hm⟩ := hlawful
    obtain ⟨hinv, hpart⟩ := hc.transferred (w := trace)
      (by rw [← availableBytes_eq]; exact Nat.min_le_right _ _) hm
    rw [step, hwrite]
    simp [hinv, hpart]
  | splitAt offset =>
    have hfits := hc.fits
    rcases Nat.lt_or_ge c.consumer.availableBytes offset with hlt | hle
    · rw [step, hlawful.2 hlt]
      simp [hc, part]
    · obtain ⟨self, other, hsplit, hself, hother, hcount, hzero⟩ := hlawful.1 hle
      have hparts : (c.step (.splitAt offset)).flatMap part = c.part := by
        simp [step, hsplit, part, hself, hother]
      refine ⟨fun c' hc' => ?_, hparts⟩
      rw [part, length_append] at hfits
      rw [step, hsplit] at hc'
      rcases mem_cons.1 hc' with rfl | hc'
      · refine ⟨hcount.trans hc.count, ?_⟩
        simp only [part, hself, length_append, length_take]
        omega
      · rw [mem_singleton.1 hc']
        refine ⟨hzero, ?_⟩
        simp only [part, hother, nil_append, length_drop]
        omega

end Cursor

/-! ## All cursors -/

namespace Cursors

structure Call where
  index : Nat
  op : Op

def step (cs : List Cursor) (call : Call) : List Cursor :=
  match cs[call.index]? with
  | none => cs
  | some c => cs.take call.index ++ c.step call.op ++ cs.drop (call.index + 1)

/-- The call does to the part of its cursor what it should. -/
def Lawful (cs : List Cursor) (call : Call) : Prop := ∀ c, cs[call.index]? = some c → c.Lawful call.op

/-- The cursors share the stream out among them, in order. -/
structure Inv (s : List Nat) (cs : List Cursor) : Prop where
  cursor : ∀ c ∈ cs, Cursor.Inv c
  parts : cs.flatMap Cursor.part = s

theorem Inv.step {s : List Nat} {cs : List Cursor} (h : Inv s cs) (call : Call) : Inv s (step cs call) := by
  unfold Cursors.step
  split
  · exact h
  · rename_i c hget
    obtain ⟨hi, hci⟩ := List.getElem?_eq_some_iff.1 hget
    have hsplit : cs = cs.take call.index ++ c :: cs.drop (call.index + 1) := by
      rw [← hci, ← drop_eq_getElem_cons hi, take_append_drop]
    obtain ⟨hinv, hparts⟩ := Cursor.step_spec (h.cursor c (mem_of_getElem? hget)) call.op
    refine ⟨fun c' hc' => ?_, ?_⟩
    · rcases mem_append.1 hc' with hc' | hc'
      · rcases mem_append.1 hc' with hc' | hc'
        · exact h.cursor c' (mem_of_mem_take hc')
        · exact hinv c' hc'
      · exact h.cursor c' (mem_of_mem_drop hc')
    · rw [flatMap_append, flatMap_append, hparts, ← h.parts]
      conv_rhs => rw [hsplit]
      rw [flatMap_append, flatMap_cons, append_assoc]

theorem run_lawful {s : List Nat} {c₀ : DescriptorChainConsumer} (hstart : c₀.remaining = s)
    (hcount : c₀.bytesConsumed = 0) (hmax : s.length ≤ U64_MAX) (calls : List Call) :
    Along step Lawful [⟨[], c₀⟩] calls ∧ (run step [⟨[], c₀⟩] calls).flatMap Cursor.part = s := by
  have hinit : Inv s [⟨[], c₀⟩] := by
    subst hstart
    refine ⟨fun c hc => ?_, by simp [Cursor.part]⟩
    rw [mem_singleton.1 hc]
    exact ⟨hcount, hmax⟩
  have hstep : ∀ cs call, Inv s cs → Inv s (step cs call) := fun _ call h => h.step call
  have hlawful : ∀ cs call, Inv s cs → True → Lawful cs call := by
    intro cs call h _ c hget
    exact (h.cursor c (mem_of_getElem? hget)).lawful call.op
  exact ⟨Along.of_invariant (fun cs call h _ => hstep cs call h) hlawful hinit (along_true _ _),
    (run_stays hstep hinit calls).parts⟩

end Cursors

theorem gather_stream {M : GuestMemoryT} (hM : CoversRanges M) {access : Permissions} {mem : HostileMemory}
    {writable : Bool} {chain : Walk} {c : DescriptorChainConsumer}
    (h : gather M access mem writable 0 [] chain = .ok c) :
    c.remaining = stream M access (rwDescriptors mem writable chain) ∧ c.bytesConsumed = 0 ∧
      (stream M access (rwDescriptors mem writable chain)).length ≤ U64_MAX := by
  have hnil : totalLen [] = 0 := rfl
  obtain ⟨hbuf, hcount, hlen⟩ := gather_spec hM hnil (Nat.zero_le _) h
  have hrem : c.remaining = stream M access (rwDescriptors mem writable chain) := by
    rw [DescriptorChainConsumer.remaining, hbuf]
    rfl
  refine ⟨hrem, hcount, ?_⟩
  rw [← hrem, DescriptorChainConsumer.remaining]
  simpa [totalLen] using hlen

/-- **Readers and writers are cursors over a byte stream.**  For every chain and every memory that keeps
the contract of `get_slices`: a new reader stands at the start of the stream of the readable descriptors, a
new writer at that of the writable ones.  After any calls on it and on the cursors that are split off, the
parts of the cursors are together the stream, in order, and every call moves along the part of its cursor
as it should. -/
theorem cursors_over_stream {M : GuestMemoryT} (hM : CoversRanges M) (mem : HostileMemory) (chain : Walk) :
    (∀ reader, Reader.new M mem chain = .ok reader → ∀ calls,
      let s := stream M .read (rwDescriptors mem false chain)
      reader.remaining = s ∧ reader.bytesConsumed = 0 ∧ Along Cursors.step Cursors.Lawful [⟨[], reader⟩] calls ∧
        (run Cursors.step [⟨[], reader⟩] calls).flatMap Cursor.part = s) ∧
    (∀ writer, Writer.new M mem chain = .ok writer → ∀ calls,
      let s := stream M .write (rwDescriptors mem true chain)
      writer.remaining = s ∧ writer.bytesConsumed = 0 ∧ Along Cursors.step Cursors.Lawful [⟨[], writer⟩] calls ∧
        (run Cursors.step [⟨[], writer⟩] calls).flatMap Cursor.part = s) := by
  constructor
  · intro reader hnew calls
    obtain ⟨hrem, hcount, hmax⟩ := gather_stream hM hnew
    exact ⟨hrem, hcount, Cursors.run_lawful hrem hcount hmax calls⟩
  · intro writer hnew calls
    obtain ⟨hrem, hcount, hmax⟩ := gather_stream hM hnew
    exact ⟨hrem, hcount, Cursors.run_lawful hrem hcount hmax calls⟩

/-- A buffer of seven bytes over two adjacent regions. -/
def splitBuffer : GuestMemory :=
  ⟨[⟨0x1000, 0xb000, 0x10000, by decide, by decide⟩, ⟨0xc000, 0xc000, 0x40000, by decide, by decide⟩],
    by decide, fun a => UInt8.ofNat a⟩

/-- A chain of that one buffer. -/
def splitBufferTable : HostileMemory := fun _ addr =>
  if addr = 0x2000 then some ⟨0xbffd, 7, 0, 0⟩ else none

theorem cursors_over_split_buffer :
    ∃ reader, Reader.new splitBuffer.asT splitBufferTable (.new 0x2000 1 0) = .ok reader ∧
      Along Cursors.step Cursors.Lawful [⟨[], reader⟩]
        [⟨0, .read splitBuffer.bytes 5⟩, ⟨0, .splitAt 1⟩, ⟨1, .read splitBuffer.bytes 9⟩] := by
  obtain ⟨reader, hnew⟩ := Outcome.isOk_iff.1 (show
    (Reader.new splitBuffer.asT splitBufferTable (.new 0x2000 1 0)).isOk = true by decide +kernel)
  exact ⟨reader, hnew, ((cursors_over_stream (coversRanges_asT splitBuffer) _ _).1 reader hnew _).2.2.1⟩

end RustVmm.VirtioQueue.DescriptorUtils
