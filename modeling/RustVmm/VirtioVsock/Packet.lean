import Mathlib.Data.Nat.Digits.Defs
import RustVmm.VirtioQueue.Chain
import RustVmm.VmMemory.View

/-!
# vsock packets

The constructors of a packet, from a chain to be sent and from a chain with room for a packet to be received.  A `Guest`
answers the reads of descriptors as it likes, and its memory is any implementation of the trait; what is stored
there may change between any two reads.

* `Single` says that a range is in one piece, as a slice; `single_asT_iff` and `single_iommu` spell this out for memory
  without an IOMMU and for memory behind one.
* `VsockPacket.vsock_data_limit_iff` is the result: where the slices of a packet are, and exactly when its data is within
  the limit.
* `VsockPacket.rx_data_over_limit` is a chain whose data is not.
-/

set_option autoImplicit false

namespace RustVmm.VirtioVsock

open Lib VmMemory VirtioQueue Outcome Walk Exec List

/-- `packet::Error`: the errors of the constructors. -/
inductive Error where
  | descriptorChainTooShort
  | descriptorLengthTooSmall
  | descriptorLengthTooLong
  | fragmentedMemory
  | invalidHeaderLen (len : UInt32)
  | invalidMemoryAccess (error : VmMemory.Error)
  | unexpectedReadOnlyDescriptor
  | unexpectedWriteOnlyDescriptor
  deriving DecidableEq, Repr

structure PacketHeader where
  srcCid : UInt64
  dstCid : UInt64
  srcPort : UInt32
  dstPort : UInt32
  len : UInt32
  type_ : UInt16
  op : UInt16
  flags : UInt32
  bufAlloc : UInt32
  fwdCnt : UInt32
  deriving DecidableEq, Repr

def PacketHeader.default : PacketHeader := ⟨0, 0, 0, 0, 0, 0, 0, 0, 0, 0⟩

/-- `size_of::<PacketHeader>()`. -/
def PKT_HEADER_SIZE : Nat := 44

structure VsockPacket where
  headerSlice : GuestSlice
  header : PacketHeader
  dataSlice : Option GuestSlice

/-- An integer of the header, in little-endian order. -/
def leField (bytes : List UInt8) (offset size : Nat) : Nat :=
  Nat.ofDigits 256 (((bytes.drop offset).take size).map UInt8.toNat)

def PacketHeader.ofBytes (bytes : List UInt8) : PacketHeader where
  srcCid := .ofNat (leField bytes 0 8)
  dstCid := .ofNat (leField bytes 8 8)
  srcPort := .ofNat (leField bytes 16 4)
  dstPort := .ofNat (leField bytes 20 4)
  len := .ofNat (leField bytes 24 4)
  type_ := .ofNat (leField bytes 28 2)
  op := .ofNat (leField bytes 30 2)
  flags := .ofNat (leField bytes 32 4)
  bufAlloc := .ofNat (leField bytes 36 4)
  fwdCnt := .ofNat (leField bytes 40 4)

structure Guest where
  descriptors : HostileMemory
  contents : List Event → Nat → UInt8
  memory : GuestMemoryT

/-! ## The constructors -/

def getSingleSlice (mem : GuestMemoryT) (addr count : Nat) (access : Permissions) : Outcome Error (Option GuestSlice) :=
  if count = 0 then .ok none
  else do
    let slice ← (mem.firstSlice addr count access).mapErr .invalidMemoryAccess
    if slice.len = count then .ok (some slice) else .err .fragmentedMemory

/-- `get_single_slice(..)?.expect(..)`. -/
def expectSlice (mem : GuestMemoryT) (addr count : Nat) (access : Permissions) : Outcome Error GuestSlice := do
  let slice ← getSingleSlice mem addr count access
  .unwrap slice

namespace Guest

/-- `desc_chain.next().ok_or(Error::DescriptorChainTooShort)`. -/
def nextDesc (g : Guest) : Exec Walk Error Descriptor := fun w =>
  (.okOr (w.next g.descriptors).1 .descriptorChainTooShort, (w.next g.descriptors).2)

/-- `mem.read_obj(chain_head.addr())`. -/
def readHeader (g : Guest) (addr : Nat) : Exec Walk Error PacketHeader := fun w =>
  ((PacketHeader.ofBytes <$> (g.memory.readSlice (g.contents w.trace) PKT_HEADER_SIZE addr ()).outcome).mapErr
    .invalidMemoryAccess, w)

end Guest

namespace VsockPacket

def afterHeader (head : Descriptor) : Outcome Error Nat :=
  .okOr (checkedAdd head.addr.toNat PKT_HEADER_SIZE) .descriptorLengthTooSmall

def txDataSlice (g : Guest) (head : Descriptor) (len : UInt32) : Exec Walk Error GuestSlice :=
  if !head.hasNext && decide (head.len.toNat - PKT_HEADER_SIZE ≥ len.toNat) then do
    let addr ← .lift (afterHeader head)
    .lift (expectSlice g.memory addr len.toNat .read)
  else do
    .lift (.ensure head.hasNext .descriptorChainTooShort)
    let dataDesc ← g.nextDesc
    .lift (.ensure (!dataDesc.isWriteOnly) .unexpectedWriteOnlyDescriptor)
    .lift (.ensure (len ≤ dataDesc.len) .descriptorLengthTooSmall)
    .lift (expectSlice g.memory dataDesc.addr.toNat len.toNat .read)

/-- `from_tx_virtq_chain` after its checks of the head. -/
def txAfterHead (g : Guest) (maxDataSize : UInt32) (head : Descriptor) : Exec Walk Error VsockPacket := do
  let headerSlice ← .lift (expectSlice g.memory head.addr.toNat PKT_HEADER_SIZE .read)
  let header ← g.readHeader head.addr.toNat
  if header.len = 0 then return ⟨headerSlice, header, none⟩
  else do
    .lift (.ensure (header.len ≤ maxDataSize) (.invalidHeaderLen header.len))
    let dataSlice ← txDataSlice g head header.len
    return ⟨headerSlice, header, some dataSlice⟩

def fromTxVirtqChain (g : Guest) (maxDataSize : UInt32) : Exec Walk Error VsockPacket := do
  let head ← g.nextDesc
  .lift (.ensure (!head.isWriteOnly) .unexpectedWriteOnlyDescriptor)
  .lift (.ensure (PKT_HEADER_SIZE ≤ head.len.toNat) .descriptorLengthTooSmall)
  txAfterHead g maxDataSize head

def fromRxVirtqChain (g : Guest) (maxDataSize : UInt32) : Exec Walk Error VsockPacket := do
  let head ← g.nextDesc
  .lift (.ensure head.isWriteOnly .unexpectedReadOnlyDescriptor)
  .lift (.ensure (PKT_HEADER_SIZE ≤ head.len.toNat) .descriptorLengthTooSmall)
  let headerSlice ← .lift (expectSlice g.memory head.addr.toNat PKT_HEADER_SIZE .write)
  if !head.hasNext && decide (head.len.toNat > PKT_HEADER_SIZE) then do
    let addr ← .lift (afterHeader head)
    let dataSlice ← .lift
      (getSingleSlice g.memory addr (head.len.toNat - PKT_HEADER_SIZE) .write)
    return ⟨headerSlice, .default, dataSlice⟩
  else do
    .lift (.ensure head.hasNext .descriptorChainTooShort)
    let dataDesc ← g.nextDesc
    .lift (.ensure dataDesc.isWriteOnly .unexpectedReadOnlyDescriptor)
    .lift (.ensure (dataDesc.len ≤ maxDataSize) .descriptorLengthTooLong)
    let dataSlice ← .lift
      (getSingleSlice g.memory dataDesc.addr.toNat dataDesc.len.toNat .write)
    return ⟨headerSlice, .default, dataSlice⟩

end VsockPacket

/-! ## Single slices -/

/-- The range is in one piece for the access, as the slice. -/
def Single (mem : GuestMemoryT) (addr count : Nat) (access : Permissions) (s : GuestSlice) : Prop :=
  mem.firstSlice addr count access = .ok s ∧ s.len = count

variable {addr count : Nat} {access : Permissions} {s : GuestSlice}

section Single

variable {mem : GuestMemoryT}

theorem getSingleSlice_eq_ok {slice : Option GuestSlice} (h : getSingleSlice mem addr count access = .ok slice) :
    (count = 0 ∧ slice = none) ∨ 0 < count ∧ ∃ s, slice = some s ∧ Single mem addr count access s := by
  unfold getSingleSlice at h
  split at h
  · rename_i hzero
    cases h
    exact .inl ⟨hzero, rfl⟩
  · rename_i hpos
    obtain ⟨s, hs, h⟩ := bind_eq_ok.1 h
    split at h
    · rename_i hlen
      cases h
      exact .inr ⟨Nat.pos_of_ne_zero hpos, s, rfl, mapErr_eq_ok.1 hs, hlen⟩
    · cases h

theorem expectSlice_eq_ok_iff (hcount : count ≠ 0) :
    expectSlice mem addr count access = .ok s ↔ Single mem addr count access s := by
  unfold expectSlice getSingleSlice Single
  rw [if_neg hcount]
  cases mem.firstSlice addr count access with
  | ok s' =>
    simp only [Outcome.mapErr, Outcome.ok_bind, Outcome.ok.injEq]
    split
    · rename_i hlen
      simp only [Outcome.ok_bind, Outcome.unwrap_some, Outcome.ok.injEq]
      exact ⟨fun h => ⟨h, h ▸ hlen⟩, fun h => h.1⟩
    · rename_i hlen
      exact iff_of_false Outcome.err_ne_ok fun h => hlen (h.1 ▸ h.2)
  | err e => exact iff_of_false Outcome.err_ne_ok fun h => Outcome.err_ne_ok h.1
  | panic => exact iff_of_false Outcome.panic_ne_ok fun h => Outcome.panic_ne_ok h.1

end Single

theorem single_asT_iff {mem : GuestMemory} (hcount : 0 < count) :
    Single mem.asT addr count access s ↔ mem.Backs s ∧ s.guestAddr = addr ∧ s.len = count := by
  constructor
  · rintro ⟨hfirst, hlen⟩
    have hin := sliceIn_of_firstSlice hfirst
    have hle := hin.le
    have hend := hin.end_le
    exact ⟨hin.backs, by omega, hlen⟩
  · rintro ⟨⟨r, hr, hpos, hstart, hend, hhost, hbitmap⟩, rfl, rfl⟩
    refine ⟨?_, rfl⟩
    have hc : r.Covers s.guestAddr := ⟨hstart, by omega⟩
    rw [GuestMemoryT.firstSlice_of_covers access (Nat.ne_of_gt hpos) hr hc]
    obtain ⟨⟨guestAddr, hostAddr, len⟩, bitmap⟩ := s
    dsimp only at hhost hbitmap hend hstart
    subst hhost
    subst hbitmap
    have hlen : min (r.len - (guestAddr - r.startAddr)) len = len := by omega
    simp only [GuestMemory.SliceIterator.sliceIn, GuestMemory.SliceIterator.lenIn, GuestMemory.getSlices, hlen]

section Iommu

variable {R : Type → Type} [RangeMapLike R] {m : IommuMemory R}

theorem slices_of_single (hcount : 0 < count) (h : Single m.asT addr count access s) :
    m.Begins addr count access ∧ m.Sliced addr count [s] ∧ m.asT.slices addr count access = .ok [s] := by
  obtain ⟨hfirst, rfl⟩ := h
  rw [GuestMemoryT.firstSlice_eq] at hfirst
  rcases m.slices_cases addr s.len access with ⟨hbegins, ss, hsliced, hslices⟩ | ⟨_, _, e, hslices⟩ | ⟨_, hslices⟩ <;>
    rw [hslices] at hfirst
  · cases ss with
    | nil => cases hfirst
    | cons s' ss =>
      cases hfirst
      have hnil : ss = [] := by
        cases ss with
        | nil => rfl
        | cons s₁ ss =>
          have hpos := hsliced.len_pos s₁ (by simp)
          have hle := FlatMemory.prefixLen_le (f := m.view) addr s.len
          rw [← hsliced.totalLen_eq, totalLen_cons, totalLen_cons] at hle
          omega
      subst hnil
      exact ⟨hbegins, hsliced, hslices⟩
  · cases hfirst
  · cases hfirst

theorem single_iommu (huse : m.useIommu = true) (hcount : 0 < count) (h : Single m.asT addr count access s) :
    Accessible m.iotlb.translation addr count access ∧ s.len = count ∧
      (∃ b, m.backend.Backs ⟨s.toVolatileSlice, b⟩) ∧
      ∀ i < count, (m.iotlb.translation (addr + i)).map Prod.fst = some (s.guestAddr + i) := by
  obtain ⟨hbegins, hsliced, _⟩ := slices_of_single hcount h
  obtain ⟨_, rfl⟩ := h
  refine ⟨(hbegins.1 huse).2.accessible, rfl, hsliced.backs s mem_cons_self, fun i hi => ?_⟩
  have htarget := congrArg (·[i]?) (hsliced.targets huse)
  have hrange : (range (totalLen [s]))[i]? = some i := getElem?_range hi
  rw [getElem?_map, getElem?_map, hrange, Option.map_some] at htarget
  have hfirst : ([s].flatMap GuestSlice.addresses)[i]? = some (s.guestAddr + i) := by
    simp [GuestSlice.addresses, hi]
  rw [hfirst, Option.map_some, Option.some.injEq] at htarget
  exact htarget.symm

end Iommu

/-! ## Where a packet is -/

namespace VsockPacket

structure Placed (mem : GuestMemoryT) (access : Permissions) (head : Descriptor) (rest : List Descriptor)
    (pkt : VsockPacket) : Prop where
  header : Single mem head.addr.toNat PKT_HEADER_SIZE access pkt.headerSlice
  header_le : PKT_HEADER_SIZE ≤ head.len.toNat
  data : ∀ s, pkt.dataSlice = some s → 0 < s.len ∧
    (rest = [] ∧ Single mem (head.addr.toNat + PKT_HEADER_SIZE) s.len access s ∧
        PKT_HEADER_SIZE + s.len ≤ head.len.toNat ∨
      ∃ d, rest = [d] ∧ Single mem d.addr.toNat s.len access s ∧ s.len ≤ d.len.toNat)

def WithinLimit (maxDataSize : UInt32) (pkt : VsockPacket) : Prop :=
  ∀ s, pkt.dataSlice = some s → s.len ≤ maxDataSize.toNat

end VsockPacket

variable {g : Guest} {w w' : Walk}

theorem yields_nextDesc {desc : Descriptor} (h : g.nextDesc w = (.ok desc, w')) :
    yields w'.trace = yields w.trace ++ [desc] := by
  obtain ⟨hdesc, rfl⟩ := Prod.mk.inj h
  have := yields_next g.descriptors w
  rwa [okOr_eq_ok.1 hdesc] at this

theorem afterHeader_eq_ok {head : Descriptor} (h : VsockPacket.afterHeader head = .ok addr) :
    addr = head.addr.toNat + PKT_HEADER_SIZE :=
  (checkedAdd_eq_some.1 (okOr_eq_ok.1 h)).2.symm

theorem head_eq_ok {α : Type} {check : Descriptor → Outcome Error Unit} {k : Descriptor → Exec Walk Error α} {a : α}
    (h : (do
      let head ← g.nextDesc
      .lift (check head)
      .lift (.ensure (PKT_HEADER_SIZE ≤ head.len.toNat) .descriptorLengthTooSmall)
      k head : Exec Walk Error α) w = (.ok a, w')) :
    ∃ head w₁, yields w₁.trace = yields w.trace ++ [head] ∧ PKT_HEADER_SIZE ≤ head.len.toNat ∧
      k head w₁ = (.ok a, w') := by
  obtain ⟨head, w₁, hhead, h⟩ := bind_eq_ok h
  obtain ⟨_, _, h⟩ := lift_bind_eq_ok h
  obtain ⟨_, hfits, h⟩ := lift_bind_eq_ok h
  exact ⟨head, w₁, yields_nextDesc hhead, of_decide_eq_true (ensure_eq_ok.1 hfits), h⟩

namespace VsockPacket

variable {maxDataSize len : UInt32} {head : Descriptor}
variable {pkt : VsockPacket}

theorem ne_zero_of_len (h : len ≠ 0) : len.toNat ≠ 0 := fun hzero => h (UInt32.toNat_inj.1 hzero)

/-- Where data of a length is: after the header if that is the only descriptor, and else in the next one. -/
inductive DataAt (g : Guest) (head : Descriptor) (len : UInt32) (w : Walk) : Nat → Walk → Prop
  | after (last : head.hasNext = false) (room : PKT_HEADER_SIZE + len.toNat ≤ head.len.toNat) :
      DataAt g head len w (head.addr.toNat + PKT_HEADER_SIZE) w
  | second {d : Descriptor} {w' : Walk} (more : head.hasNext = true) (next : w.next g.descriptors = (some d, w'))
      (readable : d.isWriteOnly = false) (room : len ≤ d.len) : DataAt g head len w d.addr.toNat w'

theorem nextDesc_eq_ok_iff {d : Descriptor} : g.nextDesc w = (.ok d, w') ↔ w.next g.descriptors = (some d, w') := by
  unfold Guest.nextDesc
  rcases w.next g.descriptors with ⟨o, w₁⟩
  cases o <;> simp

theorem dataAt_of_txDataSlice (hlen : len ≠ 0) (hfits : PKT_HEADER_SIZE ≤ head.len.toNat)
    (h : txDataSlice g head len w = (.ok s, w')) :
    ∃ addr, DataAt g head len w addr w' ∧ Single g.memory addr len.toNat .read s := by
  have hsingle : ∀ {addr}, expectSlice g.memory addr len.toNat .read = .ok s → Single g.memory addr len.toNat .read s :=
    fun h => (expectSlice_eq_ok_iff (ne_zero_of_len hlen)).1 h
  unfold txDataSlice at h
  split at h
  · -- header and data in one buffer
    rename_i hone
    obtain ⟨hlast, hroom⟩ := Bool.and_eq_true_iff.1 hone
    have hroom : len.toNat ≤ head.len.toNat - PKT_HEADER_SIZE := of_decide_eq_true hroom
    obtain ⟨addr, hafter, h⟩ := lift_bind_eq_ok h
    obtain ⟨hslice, rfl⟩ := Prod.mk.inj h
    rw [afterHeader_eq_ok hafter] at hslice
    exact ⟨_, .after (by simpa using hlast) (by omega), hsingle hslice⟩
  · -- the data in a second buffer
    obtain ⟨_, hmore, h⟩ := lift_bind_eq_ok h
    obtain ⟨d, w₁, hnext, h⟩ := bind_eq_ok h
    obtain ⟨_, hreadable, h⟩ := lift_bind_eq_ok h
    obtain ⟨_, hroom, h⟩ := lift_bind_eq_ok h
    obtain ⟨hslice, rfl⟩ := Prod.mk.inj h
    refine ⟨_, .second (ensure_eq_ok.1 hmore) (nextDesc_eq_ok_iff.1 hnext) ?_ ?_, hsingle hslice⟩
    · simpa using ensure_eq_ok.1 hreadable
    · exact of_decide_eq_true (ensure_eq_ok.1 hroom)

theorem fromTxVirtqChain_spec (h : fromTxVirtqChain g maxDataSize w = (.ok pkt, w')) :
    ∃ head rest, yields w'.trace = yields w.trace ++ head :: rest ∧
      pkt.Placed g.memory .read head rest ∧ pkt.WithinLimit maxDataSize := by
  obtain ⟨head, w₁, hyields, hfits, h⟩ := head_eq_ok h
  unfold txAfterHead at h
  obtain ⟨headerSlice, hslice, h⟩ := lift_bind_eq_ok h
  have hheader := (expectSlice_eq_ok_iff (by decide)).1 hslice
  obtain ⟨header, w₂, hread, h⟩ := bind_eq_ok h
  obtain ⟨_, rfl⟩ := Prod.mk.inj hread
  split at h
  · -- no data
    cases h
    exact ⟨head, [], hyields, ⟨hheader, hfits, nofun⟩, nofun⟩
  rename_i hlen
  obtain ⟨_, hlimit, h⟩ := lift_bind_eq_ok h
  have hlimit : header.len.toNat ≤ maxDataSize.toNat :=
    UInt32.le_iff_toNat_le.1 (of_decide_eq_true (ensure_eq_ok.1 hlimit))
  obtain ⟨dataSlice, w₃, hdata, h⟩ := bind_eq_ok h
  cases h
  obtain ⟨addr, hplace, hsingle⟩ := dataAt_of_txDataSlice hlen hfits hdata
  have hslen := hsingle.2
  rw [← hslen] at hsingle
  have hpos : 0 < dataSlice.len := by
    rw [hslen]
    exact Nat.pos_of_ne_zero (ne_zero_of_len hlen)
  have hwithin : ∀ s, some dataSlice = some s → s.len ≤ maxDataSize.toNat := by
    rintro s ⟨⟩
    omega
  cases hplace with
  | after _ hroom =>
    refine ⟨head, [], hyields, ⟨hheader, hfits, ?_⟩, hwithin⟩
    rintro s ⟨⟩
    exact ⟨hpos, .inl ⟨rfl, hsingle, by omega⟩⟩
  | @second d _ _ hnext _ hroom =>
    have hroom : header.len.toNat ≤ d.len.toNat := UInt32.le_iff_toNat_le.1 hroom
    refine ⟨head, [d], ?_, ⟨hheader, hfits, ?_⟩, hwithin⟩
    · rw [yields_nextDesc (nextDesc_eq_ok_iff.2 hnext), hyields, append_assoc]
      rfl
    · rintro s ⟨⟩
      exact ⟨hpos, .inr ⟨d, rfl, hsingle, by omega⟩⟩

theorem fromRxVirtqChain_spec (h : fromRxVirtqChain g maxDataSize w = (.ok pkt, w')) :
    ∃ head rest, yields w'.trace = yields w.trace ++ head :: rest ∧
      pkt.Placed g.memory .write head rest ∧ (pkt.WithinLimit maxDataSize ↔
        head.hasNext = true ∨ head.len.toNat ≤ PKT_HEADER_SIZE + maxDataSize.toNat) := by
  obtain ⟨head, w₁, hyields, hfits, h⟩ := head_eq_ok h
  obtain ⟨headerSlice, hslice, h⟩ := lift_bind_eq_ok h
  have hheader := (expectSlice_eq_ok_iff (by decide)).1 hslice
  split at h
  · -- one buffer: its length is not compared with the limit
    rename_i hone
    obtain ⟨hlast, hlong⟩ := Bool.and_eq_true_iff.1 hone
    have hlong : PKT_HEADER_SIZE < head.len.toNat := of_decide_eq_true hlong
    obtain ⟨addr, hafter, h⟩ := lift_bind_eq_ok h
    obtain ⟨dataSlice, hdata, h⟩ := lift_bind_eq_ok h
    cases h
    rcases getSingleSlice_eq_ok hdata with ⟨hzero, _⟩ | ⟨hpos, s, rfl, hsingle⟩
    · omega
    have hslen := hsingle.2
    rw [afterHeader_eq_ok hafter, ← hslen] at hsingle
    refine ⟨head, [], hyields, ⟨hheader, hfits, ?_⟩, ?_⟩
    · rintro s' ⟨⟩
      exact ⟨by omega, .inl ⟨rfl, hsingle, by omega⟩⟩
    · constructor
      · intro hlimit
        have : s.len ≤ maxDataSize.toNat := hlimit s rfl
        exact .inr (by omega)
      · rintro (hnext | hle) s' ⟨⟩
        · rw [hnext] at hlast
          cases hlast
        · omega
  · -- the data in a second buffer
    obtain ⟨_, hnext, h⟩ := lift_bind_eq_ok h
    obtain ⟨dataDesc, w₂, hdataDesc, h⟩ := bind_eq_ok h
    obtain ⟨_, _, h⟩ := lift_bind_eq_ok h
    obtain ⟨_, hlimit, h⟩ := lift_bind_eq_ok h
    have hlimit : dataDesc.len.toNat ≤ maxDataSize.toNat :=
      UInt32.le_iff_toNat_le.1 (of_decide_eq_true (ensure_eq_ok.1 hlimit))
    obtain ⟨dataSlice, hdata, h⟩ := lift_bind_eq_ok h
    cases h
    have hsome : ∀ s, dataSlice = some s → 0 < s.len ∧ s.len = dataDesc.len.toNat ∧
        Single g.memory dataDesc.addr.toNat s.len .write s := by
      rintro s ⟨⟩
      rcases getSingleSlice_eq_ok hdata with ⟨_, hnone⟩ | ⟨hpos, s', hsome, hsingle⟩
      · cases hnone
      · cases hsome
        have hslen := hsingle.2
        rw [← hslen] at hsingle
        exact ⟨by omega, hslen, hsingle⟩
    refine ⟨head, [dataDesc], ?_, ⟨hheader, hfits, fun s hs => ?_⟩, iff_of_true ?_ (.inl (ensure_eq_ok.1 hnext))⟩
    · rw [yields_nextDesc hdataDesc, hyields, append_assoc]
      rfl
    · obtain ⟨hpos, hslen, hsingle⟩ := hsome s hs
      exact ⟨hpos, .inr ⟨dataDesc, rfl, hsingle, hslen.le⟩⟩
    · intro s hs
      obtain ⟨_, hslen, _⟩ := hsome s hs
      omega

/-- **Packets respect the limit for their data** and lie in the buffers of their descriptors, with one
exception: room for a received packet in a single buffer, which may be longer than header and limit.  A slice is a part
of one region at the address of the buffer, or, behind an IOMMU, at the addresses that the buffer is translated to. -/
theorem vsock_data_limit_iff (g : Guest) (maxDataSize : UInt32) (w : Walk) :
    (∀ pkt w', fromTxVirtqChain g maxDataSize w = (.ok pkt, w') →
      ∃ head rest, Walk.yields w'.trace = Walk.yields w.trace ++ head :: rest ∧
        pkt.Placed g.memory .read head rest ∧ pkt.WithinLimit maxDataSize) ∧
    (∀ pkt w', fromRxVirtqChain g maxDataSize w = (.ok pkt, w') →
      ∃ head rest, Walk.yields w'.trace = Walk.yields w.trace ++ head :: rest ∧
        pkt.Placed g.memory .write head rest ∧ (pkt.WithinLimit maxDataSize ↔
          head.hasNext = true ∨ head.len.toNat ≤ PKT_HEADER_SIZE + maxDataSize.toNat)) ∧
    (∀ (layout : GuestMemory) addr count access s, 0 < count →
      (Single layout.asT addr count access s ↔ layout.Backs s ∧ s.guestAddr = addr ∧ s.len = count)) ∧
    ∀ (R : Type → Type) [RangeMapLike R] (m : IommuMemory R) addr count access s, m.useIommu = true → 0 < count →
      Single m.asT addr count access s → Accessible m.iotlb.translation addr count access ∧ s.len = count ∧
        (∃ b, m.backend.Backs ⟨s.toVolatileSlice, b⟩) ∧
        ∀ i < count, (m.iotlb.translation (addr + i)).map Prod.fst = some (s.guestAddr + i) :=
  ⟨fun _ _ h => fromTxVirtqChain_spec h, fun _ _ h => fromRxVirtqChain_spec h,
    fun _ _ _ _ _ hcount => single_asT_iff hcount, fun _ _ _ _ _ _ _ huse hcount h => single_iommu huse hcount h⟩

/-- A guest whose descriptor table at 0x1000 has the given entries. -/
def guestWith (descs : List Descriptor) : Guest where
  descriptors _ addr := descs[(addr - 0x1000) / DESCRIPTOR_SIZE]?
  contents _ _ := 0
  memory := GuestMemory.asT ⟨[⟨0, 0x7000, 0x10000, by decide, by decide⟩], by decide, fun _ => 0⟩

/-- The chain of that table. -/
def firstChain : Walk := ⟨.new 0x1000 2 0, []⟩

/-- A header in a buffer of its own, and 16 bytes of data. -/
def twoBuffers : Guest := guestWith [⟨0x2000, 44, 3, 1⟩, ⟨0x3000, 16, 2, 0⟩]

theorem rx_data_of_two_buffers :
    ∃ pkt w', fromRxVirtqChain twoBuffers 16 firstChain = (.ok pkt, w') ∧ pkt.WithinLimit 16 := by
  have hok : (fromRxVirtqChain twoBuffers 16 firstChain).1.isOk = true := by decide +kernel
  obtain ⟨pkt, hpkt⟩ := isOk_iff.1 hok
  refine ⟨pkt, _, Prod.ext hpkt rfl, ?_⟩
  obtain ⟨head, rest, hyields, _, hlimit⟩ := (vsock_data_limit_iff twoBuffers 16 firstChain).2.1 pkt _ (Prod.ext hpkt rfl)
  have htrace : yields (fromRxVirtqChain twoBuffers 16 firstChain).2.trace =
      [⟨0x2000, 44, 3, 1⟩, ⟨0x3000, 16, 2, 0⟩] := by decide +kernel
  rw [htrace] at hyields
  obtain ⟨rfl, _⟩ := cons.inj hyields
  exact hlimit.2 (.inl (by decide))

theorem rx_data_over_limit :
    ∃ pkt w', fromRxVirtqChain (guestWith [⟨0x2000, 144, 2, 0⟩]) 16 firstChain = (.ok pkt, w') ∧
      pkt.dataSlice.map (fun s => s.len) = some 100 ∧ ¬ pkt.WithinLimit 16 := by
  have hlen : ((fromRxVirtqChain (guestWith [⟨0x2000, 144, 2, 0⟩]) 16 firstChain).1.toOption.map
      fun pkt => pkt.dataSlice.map fun s => s.len) = some (some 100) := by decide +kernel
  obtain ⟨pkt, hpkt, hlen⟩ := Option.map_eq_some_iff.1 hlen
  refine ⟨pkt, _, Prod.ext (toOption_eq_some.1 hpkt) rfl, hlen, fun hlimit => ?_⟩
  obtain ⟨s, hs, hlen⟩ := Option.map_eq_some_iff.1 hlen
  have : s.len ≤ 16 := hlimit s hs
  omega

end VsockPacket

end RustVmm.VirtioVsock
