import Mathlib.Algebra.Group.Indicator
import Mathlib.Data.UInt
import Mathlib.Order.Interval.Set.LinearOrder
import RustVmm.VirtioBlk.Disk

/-!
# What a write zeroes request does to the disk

The three nested loops of the request (data buffers, segments, partial writes), over a backend whose calls zero what
they report (`ZeroesExactly`).

* `writeAllZeroesAt_zeroes`, `handleSegments_zeroes`, `executeDiscardWriteZeroes_zeroes` — the loops.
* `write_zeroes_exact` — what is zero after a request that succeeds, and after one that fails half-way.
-/

set_option autoImplicit false

namespace RustVmm.VirtioBlk

open Lib VmMemory Traced List DiscardWriteZeroes Triple

/-! ## Zeroed bytes -/

/-- The contents once the bytes of a set are zeroed. -/
noncomputable def zeroed (contents : Nat → UInt8) (bytes : Set Nat) : Nat → UInt8 := bytesᶜ.indicator contents

theorem zeroed_of_mem {contents : Nat → UInt8} {bytes : Set Nat} {x : Nat} (h : x ∈ bytes) :
    zeroed contents bytes x = 0 :=
  Set.indicator_of_notMem (Set.notMem_compl_iff.2 h) contents

theorem zeroed_of_notMem {contents : Nat → UInt8} {bytes : Set Nat} {x : Nat} (h : x ∉ bytes) :
    zeroed contents bytes x = contents x :=
  Set.indicator_of_mem (Set.mem_compl h) contents

@[simp] theorem zeroed_empty (contents : Nat → UInt8) : zeroed contents ∅ = contents := by
  simp [zeroed]

@[simp] theorem zeroed_zeroed (contents : Nat → UInt8) (bytes more : Set Nat) :
    zeroed (zeroed contents bytes) more = zeroed contents (bytes ∪ more) := by
  unfold zeroed
  rw [Set.indicator_indicator, Set.compl_union, Set.inter_comm]

structure ZeroesExactly {B : Type} [ReadVolatile B] [WriteVolatile B] [Backend B]
    (contents : B → Nat → UInt8) : Prop where
  seek : ∀ (target : SeekFrom) (b : B), contents (Backend.seek target b).2 = contents b
  punched : ∀ (offset length : Nat) (b : B), (Backend.punchHole offset length b).1 = .ok () →
    contents (Backend.punchHole offset length b).2 = zeroed (contents b) (Set.Ico offset (offset + length))
  not_punched : ∀ (offset length : Nat) (b : B), (Backend.punchHole offset length b).1 ≠ .ok () →
    contents (Backend.punchHole offset length b).2 = contents b
  wrote : ∀ (offset length : Nat) (b b' : B) (n : Nat),
    Backend.writeZeroesAt b offset length = (.wrote n, b') →
    n ≤ length ∧ contents b' = zeroed (contents b) (Set.Ico offset (offset + n))
  interrupted : ∀ (offset length : Nat) (b b' : B),
    Backend.writeZeroesAt b offset length = (.interrupted, b') → contents b' = contents b
  error : ∀ (offset length : Nat) (b b' : B) (kind : ErrorKind),
    Backend.writeZeroesAt b offset length = (.error kind, b') → contents b' = contents b

/-! ## One segment -/

section Segment

variable {B : Type} [ReadVolatile B] [WriteVolatile B] [Backend B] {contents : B → Nat → UInt8}

theorem writeAllZeroesAt_zeroes (hzeroes : ZeroesExactly contents) (offset length : Nat) (b : B) :
    ∃ n ≤ length, contents (writeAllZeroesAt offset length b).2 = zeroed (contents b) (Set.Ico offset (offset + n)) ∧
      ((writeAllZeroesAt offset length b).1 = .ok () → n = length) := by
  fun_induction writeAllZeroesAt offset length b with
  | case1 offset b =>
    simp
  | case2 offset length b hpos b' heq =>
    obtain ⟨hle, hafter⟩ := hzeroes.wrote _ _ _ _ _ heq
    exact ⟨0, hle, hafter, fun h => by cases h⟩
  | case3 offset length b hpos n b' heq hn hsub =>
    obtain ⟨hle, hafter⟩ := hzeroes.wrote _ _ _ _ _ heq
    exact ⟨n, hle, hafter, fun h => by cases h⟩
  | case4 offset length b hpos n b' heq hn length' hsub hadd =>
    obtain ⟨hle, hafter⟩ := hzeroes.wrote _ _ _ _ _ heq
    exact ⟨n, hle, hafter, fun h => by cases h⟩
  | case5 offset length b hpos n b' heq hn length' hsub offset' hadd ih =>
    obtain ⟨hle, hafter⟩ := hzeroes.wrote _ _ _ _ _ heq
    obtain ⟨_, rfl⟩ := checkedSub_eq_some.1 hsub
    obtain ⟨_, rfl⟩ := checkedAdd_eq_some.1 hadd
    obtain ⟨m, hm, hrest, hall⟩ := ih
    refine ⟨n + m, by omega, ?_, fun hok => ?_⟩
    · rw [hrest, hafter, zeroed_zeroed, Nat.add_assoc, Set.Ico_union_Ico_eq_Ico (Nat.le_add_right _ _) (by omega)]
    · have := hall hok
      omega
  | case6 offset length b hpos b' heq ih =>
    rwa [hzeroes.interrupted _ _ _ _ heq] at ih
  | case7 offset length b hpos kind b' heq =>
    refine ⟨0, Nat.zero_le _, ?_, fun h => by cases h⟩
    simpa using hzeroes.error _ _ _ _ _ heq

/-- From a disk with the contents `before` on, the call zeroes the bytes, or it fails with contents of `E`. -/
def Zeroes {α : Type} (contents : B → Nat → UInt8) (before : Nat → UInt8) (x : BlkOp B α) (bytes : Set Nat)
    (E : (Nat → UInt8) → Prop) : Prop :=
  Triple (fun s => contents s.inner = before) x (fun _ s => contents s.inner = zeroed before bytes)
    fun s => E (contents s.inner)

/-- Some of the bytes are zeroed. -/
def Partly (before : Nat → UInt8) (bytes : Set Nat) (after : Nat → UInt8) : Prop :=
  ∃ part ⊆ bytes, after = zeroed before part

theorem Partly.of_eq {before after : Nat → UInt8} (bytes : Set Nat) (h : after = before) : Partly before bytes after :=
  ⟨∅, Set.empty_subset _, by rw [h, zeroed_empty]⟩

theorem zeroRange_zeroes (hzeroes : ZeroesExactly contents) (offset length : UInt64) (before : Nat → UInt8) :
    Zeroes contents before (zeroRange offset length : BlkOp B Unit)
      (Set.Ico offset.toNat (offset.toNat + length.toNat))
      (Partly before (Set.Ico offset.toNat (offset.toNat + length.toNat))) := by
  refine mapErr ?_ _
  rintro s rfl
  obtain ⟨n, hn, hafter, hall⟩ := writeAllZeroesAt_zeroes hzeroes offset.toNat length.toNat s.inner
  refine ⟨fun a hok => ?_, fun _ => ?_⟩
  · rw [hall hok] at hafter
    exact hafter
  · exact ⟨_, Set.Ico_subset_Ico_right (by omega), hafter⟩

theorem punchHole_zeroes (hzeroes : ZeroesExactly contents) (offset length : UInt64) (before : Nat → UInt8) :
    Triple (fun s => contents s.inner = before) (punchHole offset length : BlkOp B Bool)
      (fun punched s => contents s.inner =
        if punched then zeroed before (Set.Ico offset.toNat (offset.toNat + length.toNat)) else before)
      fun s => contents s.inner = before := by
  have hcall : Triple (fun s => contents s.inner = before)
      (onInner (.exec (Backend.punchHole offset.toNat length.toNat)) : Traced (StdIoBackend B) Effect ErrorKind Unit)
      (fun _ s => contents s.inner = zeroed before (Set.Ico offset.toNat (offset.toNat + length.toNat)))
      fun s => contents s.inner = before := by
    rintro s rfl
    exact ⟨fun _ hok => hzeroes.punched _ _ _ hok, fun hne => hzeroes.not_punched _ _ _ (hne ())⟩
  refine hcall.attempt.bind fun result => ?_
  cases result with
  | ok a => exact pure _ fun s hs => hs.1 a rfl
  | error e => exact pure _ fun s hs => hs.2 e rfl

theorem writeZeroes_zeroes (hzeroes : ZeroesExactly contents) (flags : UInt32) (offset length : UInt64)
    (before : Nat → UInt8) : Zeroes contents before (writeZeroes flags offset length : BlkOp B Unit)
      (Set.Ico offset.toNat (offset.toNat + length.toNat))
      (Partly before (Set.Ico offset.toNat (offset.toNat + length.toNat))) := by
  unfold writeZeroes
  split
  · exact zeroRange_zeroes hzeroes offset length before
  · refine ((punchHole_zeroes hzeroes offset length before).post (fun _ _ h => h)
      fun _ h => Partly.of_eq _ h).bind fun punched => ?_
    cases punched with
    | true => exact pure () fun _ hs => hs
    | false => exact zeroRange_zeroes hzeroes offset length before

/-- The bytes that a segment names. -/
def DiscardWriteZeroes.bytes (segment : DiscardWriteZeroes) : Set Nat := Set.Ico (segment.sector.toNat * SECTOR_SIZE)
    (segment.sector.toNat * SECTOR_SIZE + segment.numSectors.toNat * SECTOR_SIZE)

theorem handleDiscardWriteZeroes_zeroes (hzeroes : ZeroesExactly contents) (segment : DiscardWriteZeroes)
    (before : Nat → UInt8) : Zeroes contents before (handleDiscardWriteZeroes segment .writeZeroes : BlkOp B UInt32)
      segment.bytes (Partly before segment.bytes) := by
  have hunchanged : ∀ s : StdIoBackend B, contents s.inner = before → Partly before segment.bytes (contents s.inner) :=
    fun _ => .of_eq _
  unfold handleDiscardWriteZeroes
  split
  · exact lift nofun hunchanged
  · refine lift_bind (fun offset hoffset => ?_) hunchanged
    refine lift_bind (fun length hlength => ?_) hunchanged
    refine get_bind fun self hself => ?_
    refine lift_bind (fun _ hcheck => ?_) hunchanged
    cases hoffset
    cases hlength
    have hrange : Set.Ico (segment.sector <<< 9).toNat
        ((segment.sector <<< 9).toNat + (segment.numSectors.toUInt64 <<< 9).toNat) = segment.bytes := by
      rw [toNat_shl_sector (sector_mul_le (checkAccess_eq_ok hcheck)), segment.toNat_length]
      rfl
    have hwrite := writeZeroes_zeroes hzeroes segment.flags (segment.sector <<< 9)
      (segment.numSectors.toUInt64 <<< 9) before
    rw [hrange] at hwrite
    exact hwrite.bind fun _ => pure 0 fun _ hs => hs

end Segment

/-! ## All segments -/

/-- The bytes that some of the segments name. -/
def covered (segments : List DiscardWriteZeroes) : Set Nat := { x | ∃ segment ∈ segments, x ∈ segment.bytes }

@[simp] theorem covered_nil : covered [] = ∅ := by
  simp [covered]

@[simp] theorem covered_cons (segment : DiscardWriteZeroes) (segments : List DiscardWriteZeroes) :
    covered (segment :: segments) = segment.bytes ∪ covered segments := by
  ext x
  simp [covered]

@[simp] theorem covered_singleton (segment : DiscardWriteZeroes) : covered [segment] = segment.bytes := by
  simp

@[simp] theorem covered_append (segments more : List DiscardWriteZeroes) :
    covered (segments ++ more) = covered segments ∪ covered more := by
  ext x
  simp only [covered, mem_append, Set.mem_ofPred_eq, Set.mem_union]
  constructor
  · rintro ⟨segment, hmem | hmem, hx⟩
    · exact .inl ⟨segment, hmem, hx⟩
    · exact .inr ⟨segment, hmem, hx⟩
  · rintro (⟨segment, hmem, hx⟩ | ⟨segment, hmem, hx⟩)
    · exact ⟨segment, .inl hmem, hx⟩
    · exact ⟨segment, .inr hmem, hx⟩

def StoppedIn (segments : List DiscardWriteZeroes) (before after : Nat → UInt8) : Prop :=
  ∃ done current, done ++ current <+: segments ∧ current.length ≤ 1 ∧
    ∃ bytes, covered done ⊆ bytes ∧ bytes ⊆ covered (done ++ current) ∧ after = zeroed before bytes

namespace StoppedIn

variable {before after : Nat → UInt8} {segments : List DiscardWriteZeroes}

theorem of_eq (segments : List DiscardWriteZeroes) (h : after = before) : StoppedIn segments before after :=
  ⟨[], [], nil_prefix, Nat.zero_le _, ∅, by simp [h]⟩

theorem first {segment : DiscardWriteZeroes} {rest : List DiscardWriteZeroes} {bytes : Set Nat}
    (h : bytes ⊆ segment.bytes) : StoppedIn (segment :: rest) before (zeroed before bytes) :=
  ⟨[], [segment], by simp, Nat.le_refl _, bytes, by simp, by simpa using h, rfl⟩

theorem later {done rest : List DiscardWriteZeroes}
    (h : StoppedIn rest (zeroed before (covered done)) after) (hfront : done ++ rest <+: segments) :
    StoppedIn segments before after := by
  obtain ⟨more, current, hmore, hlen, bytes, hdone, hbytes, rfl⟩ := h
  refine ⟨done ++ more, current, ?_, hlen, covered done ∪ bytes, ?_, ?_, zeroed_zeroed _ _ _⟩
  · rw [append_assoc]
    exact ((prefix_append_right_inj done).2 hmore).trans hfront
  · rw [covered_append]
    exact Set.union_subset_union_right _ hdone
  · rw [append_assoc, covered_append]
    exact Set.union_subset_union_right _ hbytes

end StoppedIn

def segmentsAt (mem : GuestMemory) (addr available : Nat) : List DiscardWriteZeroes :=
  (List.range (available / DiscardWriteZeroes.LEN)).map fun j =>
    .ofBytes (bytesAt mem.bytes (addr + DiscardWriteZeroes.LEN * j) DiscardWriteZeroes.LEN)

theorem segmentsAt_of_lt (mem : GuestMemory) (addr : Nat) {available : Nat}
    (h : available < LEN) : segmentsAt mem addr available = [] := by
  rw [segmentsAt, Nat.div_eq_of_lt h]
  rfl

theorem segmentsAt_of_le (mem : GuestMemory) (addr : Nat) {available : Nat} (h : LEN ≤ available) :
    segmentsAt mem addr available = .ofBytes (bytesAt mem.bytes addr LEN) ::
        segmentsAt mem (addr + LEN) (available - LEN) := by
  have hdiv : available / LEN = (available - LEN) / LEN + 1 := Nat.div_eq_sub_div (by decide) h
  rw [segmentsAt, hdiv, range_succ_eq_map, map_cons, map_map]
  refine congrArg₂ _ rfl (map_congr_left fun j _ => ?_)
  rw [Function.comp_apply, Nat.mul_succ, Nat.add_comm (_ * j), Nat.add_assoc]

variable {request : Request}

section Segments

theorem readSegment_value {B : Type} {I : StdIoBackend B → Prop} (mem : GuestMemory) (addr : Nat) :
    Triple I (readSegment mem addr : BlkOp B DiscardWriteZeroes)
      (fun segment s => segment = .ofBytes (bytesAt mem.bytes addr LEN) ∧ I s) I := by
  obtain ⟨o, hread, hvalue⟩ := readSegment_eq (B := B) mem addr
  rw [hread]
  exact lift (fun segment _ hok hs => ⟨hvalue segment hok, hs⟩) fun _ hs => hs

variable {B : Type} [ReadVolatile B] [WriteVolatile B] [Backend B] {contents : B → Nat → UInt8}

theorem handleSegments_zeroes (hzeroes : ZeroesExactly contents) (mem : GuestMemory)
    (addr available : Nat) (before : Nat → UInt8) :
    Zeroes contents before (handleSegments mem .writeZeroes addr available : BlkOp B Unit)
      (covered (segmentsAt mem addr available)) (StoppedIn (segmentsAt mem addr available) before) := by
  fun_induction handleSegments (B := B) mem .writeZeroes addr available generalizing before with
  | case1 addr available h =>
    rw [segmentsAt_of_lt mem addr h, covered_nil, Zeroes, zeroed_empty]
    exact pure () fun _ hs => hs
  | case2 addr available h ih =>
    rw [segmentsAt_of_le mem addr (Nat.le_of_not_lt h)]
    have hunchanged : ∀ s : StdIoBackend B, contents s.inner = before → StoppedIn (.ofBytes (bytesAt
        mem.bytes addr LEN) :: segmentsAt mem (addr + LEN) (available - LEN)) before (contents s.inner) :=
      fun s hs => .of_eq _ hs
    refine ((readSegment_value mem addr).post (fun _ _ h => h) hunchanged).bind_value ?_
    refine ((handleDiscardWriteZeroes_zeroes hzeroes _ before).post (fun _ _ h => h) ?_).bind fun _ => ?_
    · rintro s ⟨bytes, hbytes, hafter⟩
      rw [hafter]
      exact .first hbytes
    refine lift_bind (fun addr' haddr => ?_) fun s hs => ?_
    · obtain ⟨_, rfl⟩ := checkedAdd_eq_some.1 (Outcome.unwrap_eq_ok.1 haddr)
      refine (ih _ (zeroed before _)).post (fun _ s hs => ?_) fun s hs => ?_
      · rw [hs, zeroed_zeroed, covered_cons]
      · exact StoppedIn.later (covered_singleton _ ▸ hs) prefix_rfl
    · rw [hs]
      exact .first subset_rfl

theorem handleBuffer_zeroes (hzeroes : ZeroesExactly contents) (mem : GuestMemory) (d : UInt64 × UInt32)
    (before : Nat → UInt8) : Zeroes contents before (handleBuffer mem .writeZeroes () d : BlkOp B Unit)
      (covered (segmentsAt mem d.1.toNat d.2.toNat)) (StoppedIn (segmentsAt mem d.1.toNat d.2.toNat) before) := by
  have hunchanged : ∀ s : StdIoBackend B, contents s.inner = before →
      StoppedIn (segmentsAt mem d.1.toNat d.2.toNat) before (contents s.inner) :=
    fun s hs => .of_eq _ hs
  unfold handleBuffer
  split
  · exact lift nofun hunchanged
  · refine lift_bind (fun _ _ => ?_) hunchanged
    exact handleSegments_zeroes hzeroes mem _ _ before

theorem executeDiscardWriteZeroes_zeroes (hzeroes : ZeroesExactly contents) (mem : GuestMemory)
    (htype : request.requestType = .writeZeroes) (before : Nat → UInt8) :
    Zeroes contents before (executeDiscardWriteZeroes mem request : BlkOp B UInt32)
      (covered (request.segments mem)) (StoppedIn (request.segments mem) before) := by
  refine bind ?_ fun _ => pure 0 fun _ hs => hs
  have hloop : Triple (fun s => contents s.inner = zeroed before (covered []))
      (request.data.foldlM (handleBuffer mem request.requestType) () : BlkOp B Unit)
      (fun _ s => contents s.inner = zeroed before
        (covered (request.data.flatMap fun d => segmentsAt mem d.1.toNat d.2.toNat)))
      fun s => StoppedIn (request.data.flatMap fun d => segmentsAt mem d.1.toNat d.2.toNat) before
        (contents s.inner) := by
    refine foldlM (fun (done : List (UInt64 × UInt32)) _ (s : StdIoBackend B) =>
      contents s.inner = zeroed before
        (covered (done.flatMap fun d => segmentsAt mem d.1.toNat d.2.toNat))) (fun done _ d hdone => ?_) ()
    rw [htype]
    -- the segments of the buffers so far, and then those of this one
    obtain ⟨rest, hdata⟩ := hdone
    have hfront : (done.flatMap fun d => segmentsAt mem d.1.toNat d.2.toNat) ++ segmentsAt mem d.1.toNat d.2.toNat <+:
        request.data.flatMap fun d => segmentsAt mem d.1.toNat d.2.toNat := by
      rw [← hdata]
      simp
    refine (handleBuffer_zeroes hzeroes mem d _).post (fun _ s hs => ?_) fun s hs => hs.later hfront
    rw [hs, flatMap_append]
    simp
  rw [covered_nil, zeroed_empty] at hloop
  exact hloop

theorem executeAt_zeroes (hzeroes : ZeroesExactly contents) (mem : GuestMemory)
    (htype : request.requestType = .writeZeroes) (before : Nat → UInt8) :
    Zeroes contents before (executeAt mem request : BlkOp B UInt32)
      (covered (request.segments mem)) (StoppedIn (request.segments mem) before) := by
  intro s hs
  rcases executeAt_cases mem request s with ⟨o, heq, hok, _⟩ | ⟨_, _, heq⟩
  · rw [heq]
    exact ⟨fun n hn => absurd hn (hok n), fun _ => .of_eq _ hs⟩
  · rw [heq]
    have hrun := executeDiscardWriteZeroes_zeroes hzeroes mem htype before s hs
    simp only [executeType, htype]
    exact hrun

theorem execute_zeroes (hzeroes : ZeroesExactly contents) (mem : GuestMemory)
    (htype : request.requestType = .writeZeroes) (before : Nat → UInt8) :
    Zeroes contents before (execute mem request : BlkOp B UInt32)
      (covered (request.segments mem)) (StoppedIn (request.segments mem) before) := by
  have hseek : Triple (fun s => contents s.inner = before)
      ((onInner (.exec (Backend.seek (.start (request.sector <<< 9))))).mapErr Error.seek : BlkOp B UInt64)
      (fun _ s => contents s.inner = before) fun s => contents s.inner = before := by
    rintro s rfl
    exact ⟨fun _ _ => hzeroes.seek _ _, fun _ => hzeroes.seek _ _⟩
  refine (hseek.post (fun _ _ h => h) fun s hs => ?_).bind fun _ => executeAt_zeroes hzeroes mem htype before
  exact .of_eq _ hs

/-- **A write zeroes request zeroes exactly its segments.**  Let a write zeroes request with any data be
executed on a backend whose calls zero exactly what they report.  If it succeeds, the bytes of all its
segments are zero and no other byte has changed.  If it fails, its segments were processed in order up to
some point: those of `done` are zero, of at most one more (`current`) some bytes are, and no other byte has
changed. -/
theorem write_zeroes_exact (hzeroes : ZeroesExactly contents) (mem : GuestMemory) {request : Request}
    (htype : request.requestType = .writeZeroes) (b : StdIoBackend B) :
    (∀ n, (execute mem request b).outcome = .ok n → ∀ x,
      (x ∈ covered (request.segments mem) → contents (execute mem request b).state.inner x = 0) ∧
      (x ∉ covered (request.segments mem) → contents (execute mem request b).state.inner x = contents b.inner x)) ∧
    ∀ e, (execute mem request b).outcome = .err e →
      ∃ done current, done ++ current <+: request.segments mem ∧ current.length ≤ 1 ∧ ∀ x,
        (x ∈ covered done → contents (execute mem request b).state.inner x = 0) ∧
        (x ∉ covered (done ++ current) → contents (execute mem request b).state.inner x = contents b.inner x) ∧
        (contents (execute mem request b).state.inner x = contents b.inner x ∨
          contents (execute mem request b).state.inner x = 0) := by
  obtain ⟨hok, herr⟩ := execute_zeroes hzeroes mem htype (contents b.inner) b rfl
  refine ⟨fun n hn x => ?_, fun e he => ?_⟩
  · rw [hok n hn]
    exact ⟨zeroed_of_mem, zeroed_of_notMem⟩
  · have hnot : ∀ n, (execute mem request b).outcome ≠ .ok n := by
      intro n hn
      rw [he] at hn
      cases hn
    obtain ⟨done, current, hfront, hlen, bytes, hdone, hbytes, hafter⟩ := herr hnot
    refine ⟨done, current, hfront, hlen, fun x => ?_⟩
    rw [hafter]
    refine ⟨fun hx => zeroed_of_mem (hdone hx), fun hx => zeroed_of_notMem fun h => hx (hbytes h), ?_⟩
    by_cases hx : x ∈ bytes
    · exact .inr (zeroed_of_mem hx)
    · exact .inl (zeroed_of_notMem hx)

end Segments

/-! ## A file in memory -/

/-- The bytes of a file; behind its end there are zeroes. -/
def MemFile.contents (f : MemFile) (x : Nat) : UInt8 := f.data[x]?.getD 0

theorem MemFile.contents_overwrite (f : MemFile) (offset length pos : Nat) :
    MemFile.contents ⟨f.overwrite offset (.replicate length 0), pos⟩ =
      zeroed f.contents (Set.Ico offset (offset + length)) := by
  funext x
  by_cases hx : x ∈ Set.Ico offset (offset + length)
  · rw [zeroed_of_mem hx]
    obtain ⟨hlo, hhi⟩ := hx
    have hne : replicate length (0 : UInt8) ≠ [] := by
      rw [Ne, replicate_eq_nil_iff]
      omega
    simp only [MemFile.contents, MemFile.overwrite, if_neg hne, getElem?_append, length_append,
      length_take, length_replicate, getElem?_take, getElem?_replicate]
    split_ifs <;> first | rfl | omega
  · rw [zeroed_of_notMem hx]
    rw [Set.mem_Ico] at hx
    by_cases hnil : replicate length (0 : UInt8) = []
    · simp only [MemFile.contents, MemFile.overwrite, if_pos hnil]
    · simp only [MemFile.contents, MemFile.overwrite, if_neg hnil, getElem?_append, length_append,
        length_take, length_replicate, getElem?_take, getElem?_replicate, getElem?_drop]
      split_ifs
      · rfl
      · omega
      · -- between the end of the file and the range
        rw [getElem?_eq_none (by omega)]
        rfl
      · omega
      · omega
      · omega
      · -- behind the range
        congr 2
        omega

theorem MemFile.zeroesExactly : ZeroesExactly MemFile.contents where
  seek target f := by
    cases target <;> rfl
  punched offset length f _ := f.contents_overwrite offset length f.pos
  not_punched offset length f h := absurd rfl h
  wrote offset length f f' n h := by
    cases h
    exact ⟨Nat.le_refl _, f.contents_overwrite offset length f.pos⟩
  interrupted offset length f f' h := by cases h
  error offset length f f' kind h := by cases h

/-- A disk of two sectors that can be zeroed. -/
def zeroable : StdIoBackend MemFile := { twoSectors with features := 1 <<< VIRTIO_BLK_F_WRITE_ZEROES }

/-- Memory with a segment for the second sector, to be unmapped. -/
def segmentMemory : GuestMemory where
  regions := [⟨0, 0xd000, 0x10000, by decide, by decide⟩]
  sorted := by decide
  bytes := fun addr => if addr = 0x1000 ∨ addr = 0x1008 ∨ addr = 0x100c then 1 else 0

def zeroSecond : Request := ⟨.writeZeroes, [(0x1000, 16)], 0, 0x2000⟩

theorem write_zeroes_exact_second_sector : (execute segmentMemory zeroSecond zeroable).outcome = .ok 0 ∧
    (execute segmentMemory zeroSecond zeroable).state.inner.contents 600 = 0 ∧
    (execute segmentMemory zeroSecond zeroable).state.inner.contents 100 = zeroable.inner.contents 100 :=
  have hok : (execute segmentMemory zeroSecond zeroable).outcome = .ok 0 := by decide +kernel
  have hsegments : zeroSecond.segments segmentMemory = [⟨1, 1, 1⟩] := by decide +kernel
  have hbytes : covered (zeroSecond.segments segmentMemory) = Set.Ico 512 1024 := by
    rw [hsegments, covered_singleton]
    rfl
  have htype : zeroSecond.requestType = .writeZeroes := rfl
  have hexact := (write_zeroes_exact MemFile.zeroesExactly segmentMemory htype zeroable).1 0 hok
  ⟨hok, (hexact 600).1 (hbytes ▸ ⟨by decide, by decide⟩), (hexact 100).2 (hbytes ▸ fun h => absurd h.1 (by decide))⟩

end RustVmm.VirtioBlk
