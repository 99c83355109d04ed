import Mathlib.Data.List.Nodup
import RustVmm.VmmSysUtil.Fam

/-!
# File descriptors in control messages

Model of `raw_recvmsg`, on Linux with 64-bit words.  The kernel is a parameter: it installs as many descriptors as have
room in the control buffer.

* `recvmsg_no_leak_iff` — when every descriptor that was installed is returned or closed.
-/

set_option autoImplicit false

namespace RustVmm.VmmSysUtil

open Lib FamStructWrapper List Exec

/-! ## Control messages -/

/-- A `c_int`. -/
abbrev RawFd := Int32

abbrev Errno := Nat

def ENOMEM : Errno := 12
def ENOBUFS : Errno := 105
def SOL_SOCKET : Int := 1
def SCM_RIGHTS : Int := 1
def MSG_CTRUNC : UInt32 := 8

/-- `size_of::<cmsghdr>()`. -/
def CMSGHDR_SIZE : Nat := 16

/-- `size_of::<RawFd>()`. -/
def RAW_FD_SIZE : Nat := 4

/-- `CMSG_ALIGN`: the next multiple of a word. -/
def CMSG_ALIGN (len : Nat) : Nat := (len + 7) / 8 * 8

/-- `CMSG_LEN`; the sum fits in a `c_uint` for all lengths up to `max_len`. -/
def CMSG_LEN (length : Nat) : Nat := CMSG_ALIGN CMSGHDR_SIZE + length

/-- `CMSG_SPACE`, a `c_uint`. -/
def CMSG_SPACE (length : Nat) : Nat := (CMSG_ALIGN length + CMSG_ALIGN CMSGHDR_SIZE) % 2 ^ 32

/-- `CmsgHdr`.  The length is never below that of the header, once it has been set. -/
structure CmsgHdr where
  cmsgLen : Nat
  cmsgLevel : Int
  cmsgType : Int
  header_le : CMSGHDR_SIZE ≤ cmsgLen

variable (length : Nat)

theorem CMSG_LEN_eq : CMSG_LEN length = 16 + length := rfl

namespace CmsgHdr

def maxLen : Nat := (2 ^ 32 - 1 - CMSGHDR_SIZE) / RAW_FD_SIZE

def len (self : CmsgHdr) : Nat := (self.cmsgLen - CMSGHDR_SIZE) / RAW_FD_SIZE

theorem header_le_CMSG_LEN : CMSGHDR_SIZE ≤ CMSG_LEN length := Nat.le_add_right 16 length

def setLen (len : Nat) (self : CmsgHdr) : CmsgHdr :=
  { self with
    cmsgLen := CMSG_LEN (len * RAW_FD_SIZE % 2 ^ 32)
    header_le := header_le_CMSG_LEN _ }

instance : FamStruct CmsgHdr RawFd where
  headerSize := CMSGHDR_SIZE
  entrySize := RAW_FD_SIZE
  maxLen := maxLen
  withLen len := ⟨CMSG_LEN (len * RAW_FD_SIZE % 2 ^ 32), 0, 0, header_le_CMSG_LEN _⟩
  len := len
  setLen := setLen
  zeroEntry := 0

variable {k : Nat}

theorem len_of_cmsgLen {self : CmsgHdr} (h : self.cmsgLen = CMSG_LEN (k * RAW_FD_SIZE)) : self.len = k := by
  unfold len
  rw [h, CMSG_LEN_eq]
  unfold RAW_FD_SIZE CMSGHDR_SIZE
  omega

theorem len_of_le (h : k ≤ maxLen) {self : CmsgHdr} (hself : self.cmsgLen = CMSG_LEN (k * RAW_FD_SIZE % 2 ^ 32)) :
    self.len = k := by
  refine len_of_cmsgLen (hself.trans (congrArg CMSG_LEN (Nat.mod_eq_of_lt ?_)))
  unfold maxLen RAW_FD_SIZE CMSGHDR_SIZE at h
  unfold RAW_FD_SIZE
  omega

/-- A `c_int` as it lies in memory. -/
def fdCodec : Codec RawFd where
  size := RAW_FD_SIZE
  encode fd := u32Bytes fd.toUInt32
  decode bytes := (u32OfBytes bytes).toInt32
  size_pos := by decide
  length_encode _ := rfl
  decode_encode fd := by rw [u32OfBytes_u32Bytes, Int32.toInt32_toUInt32]

instance : PodFam CmsgHdr RawFd where
  codec := fdCodec
  size_eq := rfl
  headerSize_pos := by decide
  decode_zero := by decide
  len_withLen _ hn := len_of_le hn rfl
  len_setLen _ hn _ := len_of_le hn rfl

end CmsgHdr

abbrev CmsgBuffer := FamStructWrapper CmsgHdr

/-! ## The kernel -/

structure Rights (controllen : Nat) (openFds : List RawFd) where
  fds : List RawFd
  fits : CMSG_LEN (fds.length * RAW_FD_SIZE) ≤ controllen
  nodup : fds.Nodup
  fresh : ∀ fd ∈ fds, fd ∉ openFds

inductive Reply (controllen : Nat) (openFds : List RawFd) where
  | error (errno : Errno)
  | received (totalRead : Nat) (msgFlags : UInt32) (rights : Option (Rights controllen openFds))

/-- The kernel, as `recvmsg` is called with a control buffer of some length. -/
abbrev Kernel := ∀ (controllen : Nat) (openFds : List RawFd), Reply controllen openFds

def Reply.installed {controllen : Nat} {openFds : List RawFd} : Reply controllen openFds → List RawFd
  | error _ => []
  | received _ _ none => []
  | received _ _ (some rights) => rights.fds

/-- The kernel writes the header and the numbers of what it has installed. -/
def receive {controllen : Nat} {openFds : List RawFd} (self : CmsgBuffer) :
    Option (Rights controllen openFds) → CmsgBuffer
  | none => self
  | some rights =>
    { self with
      header := ⟨CMSG_LEN (rights.fds.length * RAW_FD_SIZE), SOL_SOCKET, SCM_RIGHTS,
        CmsgHdr.header_le_CMSG_LEN _⟩
      array := CmsgHdr.fdCodec.fill self.array rights.fds }

/-! ## `raw_recvmsg` -/

/-- The open descriptors of the process, and the slice of the caller. -/
structure Process where
  openFds : List RawFd
  inFds : List RawFd
  deriving DecidableEq, Repr

namespace Process

def controllen (inFds : List RawFd) : Nat :=
  if inFds.isEmpty then 0 else CMSG_SPACE (inFds.length * RAW_FD_SIZE % 2 ^ 32)

/-- `libc::close`, for some descriptors. -/
def closeAll (fds : List RawFd) (self : Process) : Process :=
  { self with openFds := self.openFds.filter fun fd => !fds.contains fd }

/-- `in_fds[..fds.len()].copy_from_slice(fds)`. -/
def copyFromSlice (fds : List RawFd) : Exec Process Errno Unit := fun self =>
  if fds.length ≤ self.inFds.length then
    (.ok (), { self with inFds := fds ++ self.inFds.drop fds.length })
  else (.panic, self)

def takeControl (cmsgBuffer : CmsgBuffer) (cmsgCapacity : Nat) (teardown : Bool) :
    Exec Process Errno (Bool × Nat) := do
  let self ← .get
  if !self.inFds.isEmpty && cmsgBuffer.header.cmsgLevel == SOL_SOCKET &&
      cmsgBuffer.header.cmsgType == SCM_RIGHTS then do
    let cmsg := { cmsgBuffer with
      header := cmsgBuffer.header.setLen (min cmsgBuffer.header.len cmsgCapacity) }
    let fds := cmsg.asSlice
    if teardown || decide (fds.length > self.inFds.length) then do
      .set (self.closeAll fds)
      return (true, 0)
    else do
      copyFromSlice fds
      return (false, fds.length)
  else return (teardown, 0)

/-- `CmsgBuffer::new(..).map_err(|_| Error::new(ENOMEM))`. -/
def newBuffer (alloc : Allocator) (numElements : Nat) : Outcome Errno CmsgBuffer :=
  match FamStructWrapper.new CmsgHdr alloc numElements with
  | .ok cmsgBuffer => .ok cmsgBuffer
  | .err (.error _) => .err ENOMEM
  | .err .capacityOverflow | .panic => .panic

def rawRecvmsg (alloc : Allocator) (kernel : Kernel) : Exec Process Errno (Nat × Nat) := do
  let self ← .get
  let cmsgBuffer ← .lift (newBuffer alloc self.inFds.length)
  let cmsgCapacity := cmsgBuffer.header.len
  match kernel (controllen self.inFds) self.openFds with
  | .error errno => .lift (.err errno)
  | .received totalRead msgFlags rights => do
    .set { self with openFds := self.openFds ++ (Reply.received totalRead msgFlags rights).installed }
    let (teardown, copiedFdsCount) ←
      takeControl (receive cmsgBuffer rights) cmsgCapacity (msgFlags &&& MSG_CTRUNC != 0)
    .lift (.ensure (!teardown) ENOBUFS)
    return (totalRead, copiedFdsCount)

end Process

/-! ## Lengths -/

theorem Process.newBuffer_eq_ok {alloc : Allocator} {n : Nat} {cmsgBuffer : CmsgBuffer}
    (h : newBuffer alloc n = .ok cmsgBuffer) :
    n ≤ CmsgHdr.maxLen ∧ cmsgBuffer.header.cmsgLevel = 0 ∧ cmsgBuffer.header.len = n := by
  unfold newBuffer at h
  split at h
  · rename_i hnew
    cases h
    obtain ⟨hmax, _, _, -, -, rfl⟩ := new_eq_zeroed hnew
    exact ⟨hmax, rfl, CmsgHdr.len_of_le hmax rfl⟩
  · cases h
  · cases h
  · cases h

theorem Rights.length_le {openFds inFds : List RawFd} (rights : Rights (Process.controllen inFds) openFds) :
    inFds ≠ [] ∧ rights.fds.length ≤ inFds.length + inFds.length % 2 := by
  have hfits := rights.fits
  unfold Process.controllen at hfits
  rw [CMSG_LEN_eq] at hfits
  split at hfits
  · omega
  · rename_i hne
    unfold CMSG_SPACE CMSG_ALIGN RAW_FD_SIZE CMSGHDR_SIZE at hfits
    exact ⟨by simpa using hne, by omega⟩

/-! ## What becomes of the descriptors -/

namespace Process

/-- What the kernel installs, if there is a buffer to call it with. -/
def installed (alloc : Allocator) (kernel : Kernel) (self : Process) : List RawFd :=
  match newBuffer alloc self.inFds.length with
  | .ok _ => (kernel (controllen self.inFds) self.openFds).installed
  | _ => []

/-- A descriptor has been returned in the slice, below the count, or it is closed. -/
def Settled (after : Outcome Errno (Nat × Nat) × Process) (fd : RawFd) : Prop :=
  (∃ totalRead count i, after.1 = .ok (totalRead, count) ∧ i < count ∧ after.2.inFds[i]? = some fd) ∨
    fd ∉ after.2.openFds

theorem takeControl_rights (self : Process) {controllen : Nat} {openFds : List RawFd}
    (rights : Rights controllen openFds) (cmsgBuffer : CmsgBuffer) (hne : self.inFds ≠ [])
    (hmax : self.inFds.length ≤ CmsgHdr.maxLen) (teardown : Bool) :
    takeControl (receive cmsgBuffer (some rights)) self.inFds.length teardown self =
      if teardown then (.ok (true, 0), self.closeAll (rights.fds.take self.inFds.length))
      else (.ok (false, (rights.fds.take self.inFds.length).length),
        { self with inFds := rights.fds.take self.inFds.length ++
          self.inFds.drop (rights.fds.take self.inFds.length).length }) := by
  have hlen : (receive cmsgBuffer (some rights)).header.len = rights.fds.length :=
    CmsgHdr.len_of_cmsgLen rfl
  have hslice : asSlice { receive cmsgBuffer (some rights) with
      header := (receive cmsgBuffer (some rights)).header.setLen
        (min (receive cmsgBuffer (some rights)).header.len self.inFds.length) } =
      rights.fds.take self.inFds.length := by
    show CmsgHdr.fdCodec.view (CmsgHdr.fdCodec.fill _ rights.fds) (CmsgHdr.len (CmsgHdr.setLen _ _)) = _
    rw [hlen, CmsgHdr.len_of_le (by omega) rfl, Codec.view_fill_of_le _ (Nat.min_le_left _ _), ← take_take,
      take_of_length_le (length_take_le' _ _)]
  have hroom : (rights.fds.take self.inFds.length).length ≤ self.inFds.length := length_take_le _ _
  unfold takeControl
  rw [bind_of_ok (get_apply self), if_pos (by simp [hne, receive]), hslice, decide_eq_false (by omega), Bool.or_false]
  cases teardown with
  | true => rfl
  | false =>
    rw [if_neg Bool.false_ne_true]
    have hcopy : copyFromSlice (rights.fds.take self.inFds.length) self = (.ok (), { self with
        inFds := rights.fds.take self.inFds.length ++
          self.inFds.drop (rights.fds.take self.inFds.length).length }) := if_pos hroom
    rw [bind_of_ok hcopy]
    rfl

/-- The process after the kernel has installed some descriptors. -/
def install (fds : List RawFd) (self : Process) : Process := { self with openFds := self.openFds ++ fds }

variable {self : Process}

theorem finish_apply {control : Exec Process Errno (Bool × Nat)} {after : Process} {teardown : Bool}
    {count : Nat} (h : control self = (.ok (teardown, count), after)) (totalRead : Nat) :
    (do let (teardown, copiedFdsCount) ← control
        .lift (.ensure (!teardown) ENOBUFS)
        return (totalRead, copiedFdsCount) : Exec Process Errno (Nat × Nat)) self =
      (if teardown then .err ENOBUFS else .ok (totalRead, count), after) := by
  rw [bind_of_ok h]
  cases teardown <;> rfl

variable {alloc : Allocator} {kernel : Kernel}

theorem rawRecvmsg_eq {cmsgBuffer : CmsgBuffer} (hnew : newBuffer alloc self.inFds.length = .ok cmsgBuffer) :
    rawRecvmsg alloc kernel self =
      match kernel (controllen self.inFds) self.openFds with
      | .error errno => (.err errno, self)
      | .received totalRead msgFlags none =>
        (if msgFlags &&& MSG_CTRUNC != 0 then .err ENOBUFS else .ok (totalRead, 0), self)
      | .received totalRead msgFlags (some rights) =>
        let fds := rights.fds.take self.inFds.length
        if msgFlags &&& MSG_CTRUNC != 0 then
          (.err ENOBUFS, (self.install rights.fds).closeAll fds)
        else (.ok (totalRead, fds.length),
          { self.install rights.fds with inFds := fds ++ self.inFds.drop fds.length }) := by
  obtain ⟨hmax, hlevel, hlen⟩ := newBuffer_eq_ok hnew
  unfold rawRecvmsg
  rw [bind_of_ok (get_apply self), hnew, lift_bind_apply]
  simp only [hlen]
  cases kernel (controllen self.inFds) self.openFds with
  | error errno => rfl
  | received totalRead msgFlags rights =>
    dsimp only
    cases rights with
    | none =>
      have hskip : takeControl cmsgBuffer self.inFds.length (msgFlags &&& MSG_CTRUNC != 0)
          (self.install []) = (.ok (msgFlags &&& MSG_CTRUNC != 0, 0), self.install []) := by
        unfold takeControl
        rw [bind_of_ok (get_apply _), if_neg (by rw [hlevel]; simp [SOL_SOCKET])]
        rfl
      have hinstall : { self with openFds := self.openFds ++ [] } = self := by rw [append_nil]
      exact (finish_apply hskip totalRead).trans (by rw [install, hinstall])
    | some rights =>
      have hne : self.inFds ≠ [] := rights.length_le.1
      have htake := takeControl_rights (self.install rights.fds) rights cmsgBuffer hne hmax
        (msgFlags &&& MSG_CTRUNC != 0)
      by_cases hflag : (msgFlags &&& MSG_CTRUNC != 0) = true
      · rw [if_pos hflag] at htake
        exact (finish_apply htake totalRead).trans (if_pos hflag).symm
      · rw [if_neg hflag] at htake
        exact (finish_apply htake totalRead).trans (if_neg hflag).symm

theorem rawRecvmsg_of_no_buffer (h : ∀ cmsgBuffer, newBuffer alloc self.inFds.length ≠ .ok cmsgBuffer) :
    (∀ r, (rawRecvmsg alloc kernel self).1 ≠ .ok r) ∧ (rawRecvmsg alloc kernel self).2 = self := by
  unfold rawRecvmsg
  rw [bind_of_ok (get_apply self)]
  cases hnew : newBuffer alloc self.inFds.length with
  | ok cmsgBuffer => exact absurd hnew (h cmsgBuffer)
  | err e | panic => exact ⟨nofun, rfl⟩

variable {fds : List RawFd} {fd : RawFd}

theorem mem_closeAll : fd ∈ (self.closeAll fds).openFds ↔ fd ∈ self.openFds ∧ fd ∉ fds := by
  simp [closeAll]

/-- **`raw_recvmsg` closes nothing of its caller.** -/
theorem rawRecvmsg_keeps_open (alloc : Allocator) (kernel : Kernel) (self : Process) (hfd : fd ∈ self.openFds) :
    fd ∈ (rawRecvmsg alloc kernel self).2.openFds := by
  by_cases hnew : ∃ cmsgBuffer, newBuffer alloc self.inFds.length = .ok cmsgBuffer
  · obtain ⟨cmsgBuffer, hnew⟩ := hnew
    rw [rawRecvmsg_eq hnew]
    cases kernel (controllen self.inFds) self.openFds with
    | error errno => exact hfd
    | received totalRead msgFlags rights =>
      cases rights with
      | none => exact hfd
      | some rights =>
        dsimp only
        split
        · refine mem_closeAll.2 ⟨mem_append_left _ hfd, fun hmem => ?_⟩
          exact rights.fresh fd (mem_of_mem_take hmem) hfd
        · exact mem_append_left _ hfd
  · rw [(rawRecvmsg_of_no_buffer fun cmsgBuffer h => hnew ⟨cmsgBuffer, h⟩).2]
    exact hfd

theorem settled_iff (hnodup : fds.Nodup) {n : Nat} {S : RawFd → Prop}
    (hin : ∀ fd ∈ fds.take n, S fd) (hout : ∀ fd ∈ fds, fd ∉ fds.take n → ¬ S fd) :
    (∀ fd ∈ fds, S fd) ↔ fds.length ≤ n := by
  constructor
  · intro hall
    by_contra hlt
    have hlt : n < fds.length := by omega
    refine hout fds[n] (getElem_mem hlt) (fun hmem => ?_) (hall _ (getElem_mem hlt))
    obtain ⟨i, hi, heq⟩ := mem_take_iff_getElem.1 hmem
    have := (Nodup.getElem_inj_iff hnodup).1 heq
    omega
  · intro hle
    rw [take_of_length_le hle] at hin
    exact hin

/-- The law for one call: `fds` are the descriptors it has installed and `after` is its result. -/
def NoLeakIff (inFds fds : List RawFd) (after : Outcome Errno (Nat × Nat) × Process) : Prop :=
  (∀ totalRead count, after.1 = .ok (totalRead, count) → count ≤ inFds.length) ∧
    fds.length ≤ inFds.length + inFds.length % 2 ∧
    ((∀ fd ∈ fds, Settled after fd) ↔ fds.length ≤ inFds.length)

theorem noLeakIff_nil (inFds : List RawFd) {after : Outcome Errno (Nat × Nat) × Process}
    (h : ∀ totalRead count, after.1 = .ok (totalRead, count) → count = 0) : NoLeakIff inFds [] after :=
  ⟨fun totalRead count heq => h totalRead count heq ▸ Nat.zero_le _, Nat.zero_le _,
    iff_of_true (fun _ hfd => absurd hfd not_mem_nil) (Nat.zero_le _)⟩

variable (rights : Rights (controllen self.inFds) self.openFds)

theorem noLeakIff_closed : NoLeakIff self.inFds rights.fds
      (.err ENOBUFS, (self.install rights.fds).closeAll (rights.fds.take self.inFds.length)) := by
  refine ⟨nofun, rights.length_le.2, settled_iff rights.nodup (fun fd hfd => .inr ?_) ?_⟩
  · exact fun hopen => (mem_closeAll.1 hopen).2 hfd
  · rintro fd hfd hnot (⟨_, _, _, hok, _⟩ | hclosed)
    · cases hok
    · exact hclosed (mem_closeAll.2 ⟨mem_append_right _ hfd, hnot⟩)

theorem noLeakIff_returned (totalRead : Nat) :
    let fds := rights.fds.take self.inFds.length
    NoLeakIff self.inFds rights.fds (.ok (totalRead, fds.length),
      { self.install rights.fds with inFds := fds ++ self.inFds.drop fds.length }) := by
  intro fds
  refine ⟨?_, rights.length_le.2, settled_iff rights.nodup (fun fd hfd => .inl ?_) ?_⟩
  · intro totalRead' count heq
    cases heq
    exact length_take_le _ _
  · obtain ⟨i, hi, heq⟩ := mem_iff_getElem.1 hfd
    refine ⟨totalRead, fds.length, i, rfl, hi, ?_⟩
    rw [getElem?_append_left hi, getElem?_eq_getElem hi]
    exact congrArg some heq
  · rintro fd hfd hnot (⟨_, _, i, hok, hi, hget⟩ | hclosed)
    · cases hok
      rw [getElem?_append_left hi] at hget
      exact hnot (mem_of_getElem? hget)
    · exact hclosed (mem_append_right _ hfd)

/-- **No descriptor is lost** exactly if the kernel does not install more than the slice has room for; it
can install one more if that number is odd.  The count that is returned is within the slice. -/
theorem recvmsg_no_leak_iff (alloc : Allocator) (kernel : Kernel) (self : Process) :
    let after := rawRecvmsg alloc kernel self
    let fds := self.installed alloc kernel
    (∀ totalRead count, after.1 = .ok (totalRead, count) → count ≤ self.inFds.length) ∧
    fds.length ≤ self.inFds.length + self.inFds.length % 2 ∧
    ((∀ fd ∈ fds, Settled after fd) ↔ fds.length ≤ self.inFds.length) := by
  unfold installed
  split
  · rename_i cmsgBuffer hnew
    rw [rawRecvmsg_eq hnew]
    cases kernel (controllen self.inFds) self.openFds with
    | error errno => exact noLeakIff_nil _ nofun
    | received totalRead msgFlags rights =>
      cases rights with
      | none =>
        refine noLeakIff_nil _ fun totalRead' count heq => ?_
        dsimp only at heq
        split at heq
        · cases heq
        · cases heq
          rfl
      | some rights =>
        dsimp only
        split
        · exact noLeakIff_closed rights
        · exact noLeakIff_returned rights totalRead
  · rename_i hnew
    exact noLeakIff_nil _ fun totalRead count heq => absurd heq ((rawRecvmsg_of_no_buffer hnew).1 _)

/-- A kernel that installs the descriptors 5 and 6 if it can, and reports flags. -/
def twoRights (msgFlags : UInt32) : Kernel := fun controllen openFds =>
  if h : 24 ≤ controllen ∧ 5 ∉ openFds ∧ 6 ∉ openFds then
    .received 1 msgFlags (some ⟨[5, 6], h.1, by decide, by simpa using h.2⟩)
  else .error 11

/-- The message is truncated: what has been received is closed, and nothing else. -/
theorem rawRecvmsg_keeps_open_truncated :
    let after := rawRecvmsg doubling (twoRights MSG_CTRUNC) ⟨[3, 4], [0, 0]⟩
    installed doubling (twoRights MSG_CTRUNC) ⟨[3, 4], [0, 0]⟩ = [5, 6] ∧ after.1 = .err ENOBUFS ∧
      5 ∉ after.2.openFds ∧ 6 ∉ after.2.openFds ∧ 3 ∈ after.2.openFds ∧ 4 ∈ after.2.openFds :=
  ⟨by decide, by decide, by decide, by decide,
    rawRecvmsg_keeps_open doubling (twoRights MSG_CTRUNC) ⟨[3, 4], [0, 0]⟩ (by decide),
    rawRecvmsg_keeps_open doubling (twoRights MSG_CTRUNC) ⟨[3, 4], [0, 0]⟩ (by decide)⟩

theorem second_descriptor_leaks :
    let after := rawRecvmsg doubling (twoRights 0) ⟨[3], [0]⟩
    installed doubling (twoRights 0) ⟨[3], [0]⟩ = [5, 6] ∧ after = (.ok (1, 1), ⟨[3, 5, 6], [5]⟩) ∧ ¬ Settled after 6 := by
  intro after
  have hafter : after = (.ok (1, 1), ⟨[3, 5, 6], [5]⟩) := by decide
  refine ⟨by decide, hafter, ?_⟩
  rw [hafter]
  rintro (⟨_, _, i, hok, hi, hget⟩ | hclosed)
  · cases hok
    obtain rfl : i = 0 := by omega
    cases hget
  · exact hclosed (by decide)

end Process

end RustVmm.VmmSysUtil
