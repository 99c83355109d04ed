import RustVmm.VirtioBlk.Watched

/-!
# What a block request touches of the disk

* `inRequest_of_checkAccess` — the check in sectors is a check in bytes.
* `keeps_executeDiscardWriteZeroes` — discard and write zeroes stay in their segments.
* `disk_confined` — a request touches only bytes that it names and that are on the disk.
-/

set_option autoImplicit false

namespace RustVmm.VirtioBlk

open Lib VmMemory Traced Backend List DiscardWriteZeroes

open Watched

/-! ## Sectors and bytes -/

variable {B : Type}

theorem toNat_shl_sector {v : UInt64} (h : v.toNat * SECTOR_SIZE ≤ U64_MAX) :
    (v <<< 9).toNat = v.toNat * SECTOR_SIZE := by
  rw [SECTOR_SIZE, U64_MAX_eq] at h
  rw [SECTOR_SIZE]
  simp [Nat.shiftLeft_eq]
  omega

variable {sectorsCount sector : Nat}

theorem checkAccess_eq_ok {b : StdIoBackend B} (h : b.checkAccess sectorsCount sector = .ok ()) :
    sectorsCount + sector ≤ b.numSectors.toNat := by
  obtain ⟨n, hadd, hle⟩ := Outcome.bind_eq_ok.1 h
  obtain ⟨_, rfl⟩ := checkedAdd_eq_some.1 (Outcome.okOr_eq_ok.1 hadd)
  split at hle
  · cases hle
  · omega

theorem sector_mul_le {b : StdIoBackend B} (h : sectorsCount + sector ≤ b.numSectors.toNat) :
    sector * SECTOR_SIZE ≤ U64_MAX :=
  (Nat.mul_le_mul_right SECTOR_SIZE ((Nat.le_add_left _ _).trans h)).trans b.numSectors_le

def InRequest (kind : AccessKind) (request : Request) (numSectors : UInt64) (a : Access) : Prop :=
  a.kind = kind ∧ request.sector.toNat * SECTOR_SIZE ≤ a.offset ∧
    a.offset + a.len ≤ request.sector.toNat * SECTOR_SIZE + request.dataLen ∧
    request.sector.toNat * SECTOR_SIZE + request.dataLen ≤ numSectors.toNat * SECTOR_SIZE

variable {b : StdIoBackend (Watched B)} {request : Request}
variable {α : Type} {kind : AccessKind}

theorem inRequest_of_checkAccess {x : BlkOp (Watched B) α} (hlog : b.inner.log = [])
    (hpos : b.inner.pos = (request.sector <<< 9).toNat) (hmod : request.dataLen % SECTOR_SIZE = 0)
    (hx : ∀ lo hi, lo + request.dataLen ≤ hi → Triple (fun s => Moving kind lo hi 0 s.inner) x
      (fun _ s => Confined kind lo hi s.inner) fun s => Confined kind lo hi s.inner) :
    ∀ a ∈ ((lift (b.checkAccess (request.dataLen / SECTOR_SIZE) request.sector.toNat) >>=
      fun _ => x) b).state.inner.log, InRequest kind request b.numSectors a := by
  have hempty : ∀ a ∈ b.inner.log, InRequest kind request b.numSectors a := by simp [hlog]
  cases hcheck : b.checkAccess (request.dataLen / SECTOR_SIZE) request.sector.toNat with
  | err e | panic => exact hempty
  | ok u =>
    have hle := checkAccess_eq_ok hcheck
    rw [toNat_shl_sector (sector_mul_le hle)] at hpos
    -- whole sectors: the check in sectors is a check in bytes
    have hend : request.sector.toNat * SECTOR_SIZE + request.dataLen ≤ b.numSectors.toNat * SECTOR_SIZE := by
      have := Nat.mul_le_mul_right SECTOR_SIZE hle
      have := Nat.div_add_mod request.dataLen SECTOR_SIZE
      rw [Nat.add_mul] at *
      rw [Nat.mul_comm SECTOR_SIZE] at this
      omega
    have hstart : Moving kind (request.sector.toNat * SECTOR_SIZE)
        (request.sector.toNat * SECTOR_SIZE + request.dataLen) 0 b.inner :=
      ⟨by simp [Confined, hlog], hpos.ge, by rw [Nat.add_zero]; exact hpos.le⟩
    have hrun := hx (request.sector.toNat * SECTOR_SIZE)
      (request.sector.toNat * SECTOR_SIZE + request.dataLen) (Nat.le_refl _)
    intro a ha
    obtain ⟨hkind, hlo, hhi⟩ := hrun.state hstart a ha
    exact ⟨hkind, hlo, hhi, hend⟩

theorem onInner_triple {P : Watched B → Prop} {Q : α → Watched B → Prop}
    {E : Watched B → Prop} {x : Traced (Watched B) Effect Error α} (h : Triple P x Q E) :
    Triple (fun s : StdIoBackend (Watched B) => P s.inner) (onInner x) (fun a s => Q a s.inner) fun s => E s.inner :=
  h.zoom fun _ _ => rfl

variable (mem : GuestMemory)

theorem executeIn_inRequest [ReadVolatile B] (hlog : b.inner.log = [])
    (hpos : b.inner.pos = (request.sector <<< 9).toNat) (hmod : request.dataLen % SECTOR_SIZE = 0) :
    ∀ a ∈ (executeIn mem request request.dataLen b).state.inner.log,
      InRequest .read request b.numSectors a := by
  refine inRequest_of_checkAccess hlog hpos hmod fun lo hi hfit => ?_
  split
  · exact Triple.lift nofun fun _ hs => hs.confined
  · have hloop : Moves .read lo hi 0 (0 + request.dataLen) (request.data.foldlM (readData (B := Watched B) mem) 0) :=
      foldlM_moving (fun d : UInt64 × UInt32 => d.2.toNat)
        (fun bytesToMem n d _ hd => readData_moving mem bytesToMem hd) hfit 0
    exact (onInner_triple hloop).post (fun _ _ hs => hs.confined) fun _ hs => hs

theorem executeOut_inRequest [WriteVolatile B] (hlog : b.inner.log = [])
    (hpos : b.inner.pos = (request.sector <<< 9).toNat) (hmod : request.dataLen % SECTOR_SIZE = 0) :
    ∀ a ∈ (executeOut mem request request.dataLen b).state.inner.log,
      InRequest .modify request b.numSectors a := by
  refine inRequest_of_checkAccess hlog hpos hmod fun lo hi hfit => ?_
  have hloop : Moves .modify lo hi 0 (0 + request.dataLen) (request.data.foldlM (writeData (B := Watched B) mem) ()) :=
    foldlM_moving (fun d : UInt64 × UInt32 => d.2.toNat)
      (fun _ n d _ hd => (writeAllVolatileTo_moving mem hd).mapErr _) hfit ()
  exact (onInner_triple hloop).bind fun _ => Triple.pure 0 fun _ hs => hs.confined

/-! ## Segments -/

def Request.segments (mem : GuestMemory) (request : Request) : List DiscardWriteZeroes :=
  request.data.flatMap fun d => (List.range (d.2.toNat / DiscardWriteZeroes.LEN)).map fun j =>
    .ofBytes (bytesAt mem.bytes (d.1.toNat + DiscardWriteZeroes.LEN * j) DiscardWriteZeroes.LEN)

theorem DiscardWriteZeroes.toNat_length (segment : DiscardWriteZeroes) :
    (segment.numSectors.toUInt64 <<< 9).toNat = segment.numSectors.toNat * SECTOR_SIZE := by
  have hnum := segment.numSectors.toNat_lt
  have hmax : segment.numSectors.toUInt64.toNat * SECTOR_SIZE ≤ U64_MAX := by
    rw [UInt32.toNat_toUInt64, SECTOR_SIZE, U64_MAX_eq]
    omega
  rw [toNat_shl_sector hmax, UInt32.toNat_toUInt64]

/-- The access modifies bytes of one of the segments, which is on the disk. -/
def InSegment (segments : List DiscardWriteZeroes) (numSectors : UInt64) (a : Access) : Prop :=
  a.kind = .modify ∧ ∃ segment ∈ segments, segment.sector.toNat * SECTOR_SIZE ≤ a.offset ∧
    a.offset + a.len ≤ segment.sector.toNat * SECTOR_SIZE + segment.numSectors.toNat * SECTOR_SIZE ∧
    segment.sector.toNat * SECTOR_SIZE + segment.numSectors.toNat * SECTOR_SIZE ≤ numSectors.toNat * SECTOR_SIZE

section Segments

variable [ReadVolatile B] [WriteVolatile B] [Backend B] {P : Access → Prop}

/-- All accesses satisfy a predicate, and the number of sectors is what it was. -/
def Kept (numSectors : UInt64) (P : Access → Prop) (s : StdIoBackend (Watched B)) : Prop :=
  s.numSectors = numSectors ∧ ∀ a ∈ s.inner.log, P a

theorem writeZeroesAt_log {offset length : Nat} {d d' : Watched B} {answer : WriteAnswer}
    (h : writeZeroesAt d offset length = (answer, d')) (hlog : ∀ a ∈ d.log, P a)
    (hP : P ⟨.modify, offset, length⟩) : ∀ a ∈ d'.log, P a := by
  obtain ⟨_, rfl⟩ := Prod.mk.inj h
  exact forall_mem_append.2 ⟨hlog, forall_mem_singleton.2 hP⟩

theorem writeAllZeroesAt_log {offset length : Nat} {d : Watched B} (hlog : ∀ a ∈ d.log, P a)
    (hP : ∀ o l, offset ≤ o → o + l ≤ offset + length → P ⟨.modify, o, l⟩) :
    ∀ a ∈ (writeAllZeroesAt offset length d).2.log, P a := by
  have hself := hP offset length (Nat.le_refl _) (Nat.le_refl _)
  fun_induction writeAllZeroesAt offset length d with
  | case1 => exact hlog
  | case5 offset length d hpos n d' heq hn length' hsub offset' hadd ih =>
    obtain ⟨hle, rfl⟩ := checkedSub_eq_some.1 hsub
    obtain ⟨_, rfl⟩ := checkedAdd_eq_some.1 hadd
    have hrest : ∀ o l, offset + n ≤ o → o + l ≤ offset + n + (length - n) → P ⟨.modify, o, l⟩ :=
      fun o l ho hl => hP o l (by omega) (by omega)
    exact ih (writeZeroesAt_log heq hlog hself) hrest (hrest _ _ (Nat.le_refl _) (Nat.le_refl _))
  | case6 offset length d hpos d' heq ih => exact ih (writeZeroesAt_log heq hlog hself) hP hself
  | _ => exact writeZeroesAt_log ‹_› hlog hself

variable {offset length numSectors : UInt64}

theorem keeps_punchHole (hP : P ⟨.modify, offset.toNat, length.toNat⟩) :
    (punchHole offset length : BlkOp (Watched B) Bool).Keeps (Kept numSectors P) := by
  have hcall : (onInner (.exec (Backend.punchHole offset.toNat length.toNat)) :
      Traced (StdIoBackend (Watched B)) Effect ErrorKind Unit).Keeps (Kept numSectors P) := by
    rintro s ⟨hnum, hlog⟩
    exact ⟨hnum, forall_mem_append.2 ⟨hlog, forall_mem_singleton.2 hP⟩⟩
  refine hcall.attempt.bind fun result => ?_
  cases result <;> exact Keeps.pure _

theorem keeps_zeroRange (hP : ∀ o l, offset.toNat ≤ o → o + l ≤ offset.toNat + length.toNat → P ⟨.modify, o, l⟩) :
    (zeroRange offset length : BlkOp (Watched B) Unit).Keeps (Kept numSectors P) :=
  fun _ hs => ⟨hs.1, writeAllZeroesAt_log hs.2 hP⟩

theorem keeps_writeZeroes {flags : UInt32}
    (hP : ∀ o l, offset.toNat ≤ o → o + l ≤ offset.toNat + length.toNat → P ⟨.modify, o, l⟩) :
    (writeZeroes flags offset length : BlkOp (Watched B) Unit).Keeps (Kept numSectors P) := by
  unfold writeZeroes
  split
  · exact keeps_zeroRange hP
  · refine (keeps_punchHole (hP _ _ (Nat.le_refl _) (Nat.le_refl _))).bind fun punched => ?_
    split
    · exact Keeps.pure _
    · exact keeps_zeroRange hP

variable {segments : List DiscardWriteZeroes} {segment : DiscardWriteZeroes}

theorem keeps_handleDiscardWriteZeroes (hmem : segment ∈ segments) (requestType : RequestType) :
    (handleDiscardWriteZeroes segment requestType : BlkOp (Watched B) UInt32).Keeps
      (Kept numSectors (InSegment segments numSectors)) := by
  unfold handleDiscardWriteZeroes
  split
  · exact Keeps.lift _
  · refine Keeps.lift_bind fun offset hoffset => Keeps.lift_bind fun length hlength => ?_
    refine Keeps.get_bind fun self hself => Keeps.lift_bind fun _ hcheck => ?_
    have hle := checkAccess_eq_ok hcheck
    cases hoffset
    cases hlength
    have hP : ∀ o l, (segment.sector <<< 9).toNat ≤ o →
        o + l ≤ (segment.sector <<< 9).toNat + (segment.numSectors.toUInt64 <<< 9).toNat →
        InSegment segments numSectors ⟨.modify, o, l⟩ := by
      rw [toNat_shl_sector (sector_mul_le hle), segment.toNat_length]
      intro o l ho hl
      have hend := Nat.mul_le_mul_right SECTOR_SIZE hle
      rw [Nat.add_mul, Nat.add_comm, hself.1] at hend
      exact ⟨rfl, segment, hmem, ho, hl, hend⟩
    split
    · refine (keeps_punchHole (hP _ _ (Nat.le_refl _) (Nat.le_refl _))).bind fun _ => ?_
      exact Keeps.pure _
    · exact (keeps_writeZeroes hP).bind fun _ => Keeps.pure _

theorem keeps_handleSegments (requestType : RequestType) {addr available : Nat}
    (hmem : ∀ j, LEN * (j + 1) ≤ available → ofBytes (bytesAt mem.bytes (addr + LEN * j) LEN) ∈ segments) :
    (handleSegments mem requestType addr available : BlkOp (Watched B) Unit).Keeps
      (Kept numSectors (InSegment segments numSectors)) := by
  fun_induction handleSegments (B := Watched B) mem requestType addr available with
  | case1 addr available h => exact Keeps.pure _
  | case2 addr available h ih =>
    obtain ⟨o, hread, hvalue⟩ := readSegment_eq (B := Watched B) mem addr
    rw [hread]
    refine Keeps.lift_bind fun segment hsegment => ?_
    have hfirst := hmem 0 (by omega)
    rw [hvalue segment hsegment]
    refine (keeps_handleDiscardWriteZeroes hfirst requestType).bind fun _ => ?_
    refine Keeps.lift_bind fun addr' haddr => ih addr' fun j hj => ?_
    -- the first segment of the rest is the second one
    have hnext := hmem (j + 1) (by rw [Nat.mul_succ]; omega)
    obtain ⟨_, rfl⟩ := checkedAdd_eq_some.1 (Outcome.unwrap_eq_ok.1 haddr)
    rwa [Nat.mul_succ, Nat.add_comm (_ * j), ← Nat.add_assoc] at hnext

theorem keeps_executeDiscardWriteZeroes (request : Request) (numSectors : UInt64) :
    (executeDiscardWriteZeroes mem request : BlkOp (Watched B) UInt32).Keeps
      (Kept numSectors (InSegment (request.segments mem) numSectors)) := by
  refine (Keeps.foldlM (fun _ d hd => ?_) ()).bind fun _ => Keeps.pure _
  unfold handleBuffer
  split
  · exact Keeps.lift _
  · refine Keeps.lift_bind fun _ _ => keeps_handleSegments mem _ fun j hj => ?_
    refine mem_flatMap.2 ⟨d, hd, mem_map.2 ⟨j, mem_range.2 ?_, rfl⟩⟩
    rw [Nat.mul_comm] at hj
    exact (Nat.le_div_iff_mul_le (by decide)).2 hj

end Segments

/-! ## Confinement -/

/-- What a request may do to the disk. -/
def Allowed (mem : GuestMemory) (request : Request) (numSectors : UInt64) (a : Access) : Prop :=
  match request.requestType with
  | .in_ => InRequest .read request numSectors a
  | .out => InRequest .modify request numSectors a
  | .discard => InSegment (request.segments mem) numSectors a
  | .writeZeroes => InSegment (request.segments mem) numSectors a
  | .flush => False
  | .getDeviceID => False
  | .unsupported _ => False

section Confinement

variable [ReadVolatile B] [WriteVolatile B] [Backend B]

theorem keeps_executeGetDeviceID {B : Type} {I : StdIoBackend B → Prop}
    (request : Request) (totalLen : Nat) : (executeGetDeviceID mem request totalLen).Keeps I := by
  refine Keeps.get_bind fun self _ => Keeps.lift_bind fun id _ => ?_
  split
  · exact Keeps.lift _
  · refine Keeps.foldlM (fun bytesToMem d _ => ?_) 0
    refine Keeps.lift_bind fun stop _ => Keeps.lift_bind fun source _ => ?_
    have hread : (runOn source (mem.asT.readExactVolatileFrom d.1.toNat d.2.toNat) :
        Traced (StdIoBackend B) Effect VmMemory.Error Unit).Keeps I := fun _ hs => hs
    exact hread.attempt.bind fun _ => Keeps.lift _

variable {request : Request}

theorem executeType_allowed {b : StdIoBackend (Watched B)} (hlog : b.inner.log = [])
    (hpos : b.inner.pos = (request.sector <<< 9).toNat)
    (hlen : checkDataLength request.requestType request.dataLen = .ok ()) :
    ∀ a ∈ (executeType mem request request.dataLen b).state.inner.log,
      Allowed mem request b.numSectors a := by
  have hsectors : request.requestType = .in_ ∨ request.requestType = .out → request.dataLen % SECTOR_SIZE = 0 := by
    intro htype
    unfold checkDataLength at hlen
    split at hlen
    · cases hlen
    · rename_i hnot
      exact not_not.1 fun hne => hnot ⟨htype, hne⟩
  have hempty : ∀ a ∈ b.inner.log, False := by simp [hlog]
  have hsegments := (keeps_executeDiscardWriteZeroes mem request b.numSectors b ⟨rfl, by simp [hlog]⟩).2
  unfold executeType Allowed
  cases htype : request.requestType with
  | in_ => exact executeIn_inRequest mem hlog hpos (hsectors (.inl htype))
  | out => exact executeOut_inRequest mem hlog hpos (hsectors (.inr htype))
  | discard | writeZeroes => exact hsegments
  | flush =>
    have hflush : (executeFlush : BlkOp (Watched B) UInt32).Keeps fun s => ∀ a ∈ s.inner.log, False :=
      Keeps.bind (fun _ hs => hs) fun _ => Keeps.pure _
    exact hflush b hempty
  | getDeviceID =>
    have hid : (executeGetDeviceID mem request request.dataLen : BlkOp (Watched B) UInt32).Keeps
        fun s => ∀ a ∈ s.inner.log, False := keeps_executeGetDeviceID mem request request.dataLen
    exact hid b hempty
  | unsupported t => exact hempty

theorem checkRequest_of_readOnly {B : Type} {b : StdIoBackend B} {requestType : RequestType}
    (h : b.checkRequest requestType = .ok ()) (hro : b.hasFeature VIRTIO_BLK_F_RO = true) :
    requestType = .in_ := by
  unfold StdIoBackend.checkRequest at h
  split at h
  · cases h
  · rename_i hnot
    exact not_not.1 fun hne => hnot ⟨hro, hne⟩

/-- The executor on a backend that is watched from now on. -/
def StdIoBackend.watch (b : StdIoBackend B) (pos : Nat) : StdIoBackend (Watched B) where
  inner := ⟨b.inner, pos, []⟩
  numSectors := b.numSectors
  features := b.features
  deviceId := b.deviceId
  numSectors_le := b.numSectors_le

/-- The byte is one that the request names, and the access one of its kind. -/
def Named (mem : GuestMemory) (request : Request) (kind : AccessKind) (x : Nat) : Prop :=
  match request.requestType with
  | .in_ => kind = .read ∧ request.sector.toNat * SECTOR_SIZE ≤ x ∧
      x < request.sector.toNat * SECTOR_SIZE + request.dataLen
  | .out => kind = .modify ∧ request.sector.toNat * SECTOR_SIZE ≤ x ∧
      x < request.sector.toNat * SECTOR_SIZE + request.dataLen
  | .discard => kind = .modify ∧ ∃ s ∈ request.segments mem, s.sector.toNat * SECTOR_SIZE ≤ x ∧
      x < s.sector.toNat * SECTOR_SIZE + s.numSectors.toNat * SECTOR_SIZE
  | .writeZeroes => kind = .modify ∧ ∃ s ∈ request.segments mem, s.sector.toNat * SECTOR_SIZE ≤ x ∧
      x < s.sector.toNat * SECTOR_SIZE + s.numSectors.toNat * SECTOR_SIZE
  | .flush => False
  | .getDeviceID => False
  | .unsupported _ => False

variable {numSectors : UInt64} {a : Access}
variable {x : Nat}

theorem InRequest.named (h : InRequest kind request numSectors a) (hx : a.Touches x) :
    x < numSectors.toNat * SECTOR_SIZE ∧ a.kind = kind ∧ request.sector.toNat * SECTOR_SIZE ≤ x ∧
      x < request.sector.toNat * SECTOR_SIZE + request.dataLen := by
  obtain ⟨hle, hlt⟩ := hx
  obtain ⟨hkind, hlo, hhi, hend⟩ := h
  exact ⟨by omega, hkind, by omega, by omega⟩

theorem InSegment.named {segments : List DiscardWriteZeroes} (h : InSegment segments numSectors a)
    (hx : a.Touches x) : x < numSectors.toNat * SECTOR_SIZE ∧ a.kind = .modify ∧ ∃ s ∈ segments,
      s.sector.toNat * SECTOR_SIZE ≤ x ∧
      x < s.sector.toNat * SECTOR_SIZE + s.numSectors.toNat * SECTOR_SIZE := by
  obtain ⟨hle, hlt⟩ := hx
  obtain ⟨hkind, segment, hmem, hlo, hhi, hend⟩ := h
  exact ⟨by omega, hkind, segment, hmem, by omega, by omega⟩

theorem Allowed.named {mem : GuestMemory} (h : Allowed mem request numSectors a) (hx : a.Touches x) :
    x < numSectors.toNat * SECTOR_SIZE ∧ Named mem request a.kind x := by
  revert h
  unfold Allowed Named
  cases request.requestType with
  | in_ | out | discard | writeZeroes => exact fun h => h.named hx
  | flush | getDeviceID | unsupported t => exact False.elim

theorem seek_watched (b : StdIoBackend B) (pos : Nat) (offset : UInt64) :
    (seek (.start offset) (b.watch pos).inner).2.log = [] ∧ ∀ p, (seek (.start offset) (b.watch pos).inner).1 = .ok p →
        (seek (.start offset) (b.watch pos).inner).2.pos = offset.toNat := by
  have heq : seek (.start offset) (b.watch pos).inner =
      ((seek (.start offset) b.inner).1, (b.watch pos).inner.seeked (.start offset)
        (seek (.start offset) b.inner).1 (seek (.start offset) b.inner).2) := rfl
  rw [heq]
  cases (seek (.start offset) b.inner).1 with
  | ok p => exact ⟨rfl, fun _ _ => rfl⟩
  | err kind | panic => exact ⟨rfl, nofun⟩

/-- **The disk is confined.**  Let any request be executed on any backend, with any features and guest
memory, and let every range be recorded that the backend is asked to read or to modify.  Each byte of such
a range is below the end of the disk; for `In` and `Out` it is one of the bytes of the request from its
sector on, for `Discard` and `WriteZeroes` one of a segment of its data, and other requests touch nothing;
and on a read-only device nothing is modified. -/
theorem disk_confined (mem : GuestMemory) (request : Request) (b : StdIoBackend B) (pos : Nat) :
    ∀ a ∈ (execute mem request (b.watch pos)).state.inner.log, ∀ x, a.Touches x →
      x < b.numSectors.toNat * SECTOR_SIZE ∧ Named mem request a.kind x ∧
      (b.hasFeature VIRTIO_BLK_F_RO = true → a.kind = .read) := by
  obtain ⟨hlog, hpos⟩ := seek_watched b pos (request.sector <<< 9)
  intro a ha x hx
  rcases execute_cases mem request (b.watch pos) with ⟨p, inner, hseek, heq⟩ | ⟨_, o, heq⟩ <;> rw [heq] at ha
  · rw [hseek] at hlog hpos
    dsimp only at hlog hpos
    rcases executeAt_cases mem request { b.watch pos with inner := inner } with
      ⟨o, heq, _⟩ | ⟨hreq, hlen, heq⟩ <;> rw [heq] at ha
    · simp [hlog] at ha
    · have hallowed := executeType_allowed mem hlog (hpos p rfl) hlen a ha
      obtain ⟨hend, hnamed⟩ := hallowed.named hx
      refine ⟨hend, hnamed, fun hro => ?_⟩
      -- on a read-only device the request passed the check, so it is a read
      have hin := checkRequest_of_readOnly hreq hro
      simp only [Named, hin] at hnamed
      exact hnamed.1
  · simp [hlog] at ha

def twoSectors : StdIoBackend MemFile where
  inner := ⟨List.replicate 1024 7, 0⟩
  numSectors := 2
  features := 0
  deviceId := none
  numSectors_le := by decide

def sectorMemory : GuestMemory where
  regions := [⟨0, 0x6000, 0x10000, by decide, by decide⟩]
  sorted := by decide
  bytes := fun _ => 0

def readSecond : Request := ⟨.in_, [(0x1000, 256), (0x3000, 256)], 1, 0x2000⟩

theorem disk_confined_second_sector :
    ⟨.read, 768, 256⟩ ∈ (execute sectorMemory readSecond (twoSectors.watch 0)).state.inner.log ∧
    Access.Touches ⟨.read, 768, 256⟩ 1000 ∧ 1000 < twoSectors.numSectors.toNat * SECTOR_SIZE ∧
    Named sectorMemory readSecond .read 1000 ∧
    (twoSectors.hasFeature VIRTIO_BLK_F_RO = true → AccessKind.read = .read) :=
  have hlog : ⟨.read, 768, 256⟩ ∈
      (execute sectorMemory readSecond (twoSectors.watch 0)).state.inner.log := by decide +kernel
  have hbyte : Access.Touches ⟨.read, 768, 256⟩ 1000 := ⟨by decide, by decide⟩
  ⟨hlog, hbyte, disk_confined sectorMemory readSecond twoSectors 0 _ hlog 1000 hbyte⟩

end Confinement

end RustVmm.VirtioBlk
