import RustVmm.LinuxLoader.Pvh

/-!
# The notes of a segment

`parse_elf_note` on an image in memory, compared with a walk over its contents (`noteWalk`).

* `parse_elf_note_walks` — it is this walk, and does not panic.
-/

set_option autoImplicit false

namespace RustVmm.LinuxLoader.Elf

open Lib VmMemory Exec Outcome

/-! ## The walk -/

/-- The type and the length of the name are those of the note with the entry point. -/
def IsCandidate (nhdr : Elf64Nhdr) : Prop :=
  nhdr.nType = XEN_ELFNOTE_PHYS32_ENTRY ∧ nhdr.nNamesz.toNat = PVH_NOTE_STR_SZ

instance (nhdr : Elf64Nhdr) : Decidable (IsCandidate nhdr) := inferInstanceAs (Decidable (_ ∧ _))

/-- The entry point in the descriptor of the note at an offset of the image. -/
def pvhEntryAt (image : List UInt8) (here : Nat) : Except KernelLoaderError PvhBootCapability :=
  if (nhdrAt image here).nDescsz.toNat < 4 then .error (.elf .invalidPvhNote)
  else if image.length < here + NHDR_SIZE + PVH_NOTE_STR_SZ + 4 then .error (.elf .readNoteHeader)
  else .ok (.pvhEntryPresent (.ofNat (leField image (here + NHDR_SIZE + PVH_NOTE_STR_SZ) 4)))

variable (nhdr : Elf64Nhdr)

theorem noteSize_pos : 0 < noteSize nhdr := Nat.add_pos_left (Nat.add_pos_left (by decide) _) _

def noteWalk (nameNeeded : Bool) (image : List UInt8) (phdr : Elf64Phdr) (start : Nat) :
    Except KernelLoaderError PvhBootCapability :=
  let here := phdr.pOffset.toNat + start
  let nhdr := nhdrAt image here
  if _hstart : start < phdr.pFilesz.toNat then
    if image.length < here + NHDR_SIZE then .error (.elf .readNoteHeader)
    else if nameNeeded = true ∧ IsCandidate nhdr ∧ image.length < here + NHDR_SIZE + PVH_NOTE_STR_SZ then
      .error (.elf .readNoteHeader)
    else if IsPvhNote image here then pvhEntryAt image here
    else if U32_MAX < align4 nhdr.nNamesz.toNat ∨ U32_MAX < align4 nhdr.nDescsz.toNat then .error (.elf .overflow)
    else noteWalk nameNeeded image phdr (start + noteSize nhdr)
  else .ok .pvhEntryNotPresent
termination_by phdr.pFilesz.toNat - start
decreasing_by exact Nat.sub_lt_sub_left _hstart (Nat.lt_add_of_pos_right (noteSize_pos nhdr))

/-! ## The calls on an image in memory -/

variable {len : Nat} {error : Error} {c : Cursor}

theorem readExact_of_le (h : c.pos + len ≤ c.data.length) :
    readExact len error c = (.ok ((c.data.drop c.pos).take len), { c with pos := c.pos + len }) := by
  unfold readExact Exec.mapErr
  dsimp only [KernelImage.readExact]
  rw [List.length_drop, if_pos (by omega)]
  rfl

theorem readExact_of_lt (hlen : 0 < len) (h : c.data.length < c.pos + len) :
    readExact len error c = (.err (.elf error), { c with pos := c.data.length }) := by
  unfold readExact Exec.mapErr
  dsimp only [KernelImage.readExact]
  rw [List.length_drop, if_neg (by omega)]
  rfl

/-! ## Sizes -/

/-- A size of the note does not fit into 32 bits once it is aligned. -/
abbrev TooLong (nhdr : Elf64Nhdr) : Prop :=
  U32_MAX < align4 nhdr.nNamesz.toNat ∨ U32_MAX < align4 nhdr.nDescsz.toNat

theorem alignUp_eq {n : Nat} (h : n < 2 ^ 32) : alignUp n ELFNOTE_ALIGN = .ok (align4 n) := by
  have hmod : n &&& (ELFNOTE_ALIGN - 1) = n % 4 := Nat.and_two_pow_sub_one_eq_mod n 2
  have hor : n ||| (ELFNOTE_ALIGN - 1) = 4 * (n / 4) + 3 := or_two_pow_sub_one n 2
  have hpow : (ELFNOTE_ALIGN).isPowerOfTwo := ⟨2, rfl⟩
  unfold alignUp align4
  rw [ensure, if_pos (decide_eq_true hpow), ok_bind]
  dsimp only
  split
  · congr 1
    omega
  · rw [checkedAdd_eq_some.2 ⟨by show _ ≤ 18446744073709551615; omega, rfl⟩, unwrap_some]
    congr 1
    omega

variable {readSize : Nat}

theorem skipNote_eq (h : readSize < 2 ^ 63) :
    (TooLong nhdr → skipNote nhdr readSize = .err .overflow) ∧
    (¬ TooLong nhdr → ∃ hlt, skipNote nhdr readSize = .ok ⟨readSize + noteSize nhdr, hlt⟩) := by
  unfold skipNote
  rw [alignUp_eq nhdr.nNamesz.toNat_lt, alignUp_eq nhdr.nDescsz.toNat_lt, ok_bind, ok_bind]
  constructor
  · intro hbig
    rw [ensure, if_neg (by simp; omega)]
    rfl
  · intro hsmall
    rw [ensure, if_pos (by simp; omega), ok_bind]
    have hfits : readSize + NHDR_SIZE + U32_MAX + U32_MAX ≤ U64_MAX := by
      show readSize + 12 + 4294967295 + 4294967295 ≤ 18446744073709551615
      omega
    have hsum : ((checkedAdd readSize NHDR_SIZE).bind fun n => (checkedAdd n (align4 nhdr.nNamesz.toNat)).bind fun n =>
        checkedAdd n (align4 nhdr.nDescsz.toNat)) = some (readSize + noteSize nhdr) := by
      simp only [Option.bind_eq_some_iff, checkedAdd_eq_some]
      unfold noteSize
      exact ⟨_, ⟨by omega, rfl⟩, _, ⟨by omega, rfl⟩, by omega, by omega⟩
    split
    · rename_i next hnext
      obtain rfl := Option.some.inj (hsum.symm.trans hnext)
      exact ⟨Nat.lt_add_of_pos_right (noteSize_pos nhdr), rfl⟩
    · rename_i hnone
      rw [hsum] at hnone
      cases hnone

/-! ## The search -/

/-- What follows the loop of `parse_elf_note`. -/
def finishNote (phdr : Elf64Phdr) (found : Elf64Nhdr × Nat) : Exec Cursor KernelLoaderError PvhBootCapability :=
  if found.2 ≥ phdr.pFilesz.toNat then return .pvhEntryNotPresent else readPvhEntry found.1

variable {here : Nat}

theorem readPvhEntry_cursor (hpos : c.pos = here + NHDR_SIZE + PVH_NOTE_STR_SZ)
    (hnamesz : (nhdrAt c.data here).nNamesz.toNat = PVH_NOTE_STR_SZ) (hlen : c.pos < 2 ^ 63) :
    (readPvhEntry (nhdrAt c.data here) c).1 = .ofExcept (pvhEntryAt c.data here) := by
  have hseek : (seek (.current ((align4 PVH_NOTE_STR_SZ : Int) - PVH_NOTE_STR_SZ)) .seekNoteHeader : Exec Cursor _ _) c =
      (.ok c.pos, c) := by
    have hzero : (align4 PVH_NOTE_STR_SZ : Int) - PVH_NOTE_STR_SZ = 0 := by decide
    have hbound : (c.pos : Int) ≤ U64_MAX := by
      show (c.pos : Int) ≤ 18446744073709551615
      omega
    unfold seek Exec.mapErr
    dsimp only [Seek.seek]
    rw [hzero, if_pos ⟨Int.natCast_nonneg _, hbound⟩]
    rfl
  unfold readPvhEntry pvhEntryAt
  rw [hnamesz]
  show ((seek (.current ((align4 PVH_NOTE_STR_SZ : Int) - PVH_NOTE_STR_SZ)) .seekNoteHeader >>= _) c).1 = _
  rw [bind_of_ok hseek, ensure_bind_apply]
  by_cases hdesc : (nhdrAt c.data here).nDescsz.toNat < 4
  · rw [if_neg (by simpa using hdesc), if_pos hdesc]
    rfl
  rw [if_pos (by simpa using hdesc), if_neg hdesc]
  by_cases hread : c.data.length < here + NHDR_SIZE + PVH_NOTE_STR_SZ + 4
  · rw [bind_of_err (readExact_of_lt (by decide) (by omega)), if_pos hread]
    rfl
  · rw [bind_of_ok (readExact_of_le (by omega)), if_neg hread, hpos]
    simp only [leField, List.drop_zero, List.take_take, Nat.min_self]
    rfl

theorem isPvhNote_cursor (hpos : c.pos = here + NHDR_SIZE) : isPvhNote (nhdrAt c.data here) c =
      if IsCandidate (nhdrAt c.data here) then
        if c.data.length < here + NHDR_SIZE + PVH_NOTE_STR_SZ then
          (.err (.elf .readNoteHeader), { c with pos := c.data.length })
        else (.ok (decide (IsPvhNote c.data here)), { c with pos := here + NHDR_SIZE + PVH_NOTE_STR_SZ })
      else (.ok false, c) := by
  by_cases hcand : IsCandidate (nhdrAt c.data here)
  · have hbody : (isPvhNote (nhdrAt c.data here) : Exec Cursor _ _) =
        readExact PVH_NOTE_STR_SZ .readNoteHeader >>= fun buf => pure (buf == PVH_NOTE_STR) := if_pos hcand
    rw [hbody, if_pos hcand]
    by_cases hname : c.data.length < here + NHDR_SIZE + PVH_NOTE_STR_SZ
    · rw [bind_of_err (readExact_of_lt (by decide) (by omega)), if_pos hname]
    · have hsame : ((c.data.drop (here + NHDR_SIZE)).take PVH_NOTE_STR_SZ == PVH_NOTE_STR) =
          decide (IsPvhNote c.data here) := by
        rw [Bool.eq_iff_iff, beq_iff_eq, decide_eq_true_eq]
        exact ⟨fun hstr => ⟨hcand.1, hcand.2, hstr⟩, fun hpvh => hpvh.2.2⟩
      rw [bind_of_ok (readExact_of_le (by omega)), if_neg hname, hpos, hsame]
      rfl
  · have hbody : (isPvhNote (nhdrAt c.data here) : Exec Cursor _ _) = pure false := if_neg hcand
    rw [hbody, if_neg hcand]
    rfl

/-- The rest of a turn of the loop, for a note that is passed over. -/
def skipThenFind (phdr : Elf64Phdr) (nhdr : Elf64Nhdr) (readSize : Nat) :
    Exec Cursor KernelLoaderError (Elf64Nhdr × Nat) := do
  let ⟨next, _⟩ ← .lift ((skipNote nhdr readSize).mapErr .elf)
  let offset ← .lift (.unwrap (checkedAdd phdr.pOffset.toNat next))
  let _ ← seek (.start offset) .seekNoteHeader
  findPvhNote phdr nhdr next

variable {phdr : Elf64Phdr}

theorem skipThenFind_of_big {nhdr : Elf64Nhdr} (h : phdr.pOffset.toNat + readSize < 2 ^ 63) (hbig : TooLong nhdr) :
    skipThenFind phdr nhdr readSize c = (.err (.elf .overflow), c) := by
  unfold skipThenFind
  rw [(skipNote_eq nhdr (Nat.lt_of_le_of_lt (Nat.le_add_left _ _) h)).1 hbig]
  rfl

theorem skipThenFind_of_fits {nhdr : Elf64Nhdr} (h : phdr.pOffset.toNat + readSize < 2 ^ 63) (hfits : ¬ TooLong nhdr) :
    skipThenFind phdr nhdr readSize c = findPvhNote phdr nhdr (readSize + noteSize nhdr)
      { c with pos := phdr.pOffset.toNat + (readSize + noteSize nhdr) } := by
  obtain ⟨hlt, hskip⟩ := (skipNote_eq nhdr (Nat.lt_of_le_of_lt (Nat.le_add_left _ _) h)).2 hfits
  rw [not_or, Nat.not_lt, Nat.not_lt] at hfits
  -- the header before was in the image, so there is room for the sum
  have hsum : checkedAdd phdr.pOffset.toNat (readSize + noteSize nhdr) =
      some (phdr.pOffset.toNat + (readSize + noteSize nhdr)) := by
    refine checkedAdd_eq_some.2 ⟨?_, rfl⟩
    have hsize : noteSize nhdr ≤ 12 + 4294967295 + 4294967295 :=
      Nat.add_le_add (Nat.add_le_add (Nat.le_refl 12) hfits.1) hfits.2
    show _ ≤ 18446744073709551615
    omega
  unfold skipThenFind
  rw [hskip]
  show (lift (.unwrap (checkedAdd phdr.pOffset.toNat (readSize + noteSize nhdr))) >>= fun offset =>
    seek (.start offset) .seekNoteHeader >>= fun _ => findPvhNote phdr nhdr (readSize + noteSize nhdr)) c = _
  rw [hsum]
  rfl

theorem findPvhNote_of_header (hlt : readSize < phdr.pFilesz.toNat) (hpos : c.pos = phdr.pOffset.toNat + readSize)
    (hhdr : ¬ c.data.length < phdr.pOffset.toNat + readSize + NHDR_SIZE) :
    findPvhNote phdr nhdr readSize c = (isPvhNote (nhdrAt c.data (phdr.pOffset.toNat + readSize)) >>= fun found =>
        if found = true then pure (nhdrAt c.data (phdr.pOffset.toNat + readSize), readSize)
        else skipThenFind phdr (nhdrAt c.data (phdr.pOffset.toNat + readSize)) readSize)
      { c with pos := phdr.pOffset.toNat + readSize + NHDR_SIZE } := by
  rw [findPvhNote, dif_pos hlt, bind_of_ok (readExact_of_le (by omega)), hpos]
  rfl

theorem skip_walks {image : List UInt8} {nhdr : Elf64Nhdr}
    (hdata : c.data = image) (hbound : phdr.pOffset.toNat + readSize < 2 ^ 63)
    (hrest : ∀ (next : Nat) (c' : Cursor), readSize < next → c'.data = image → c'.pos = phdr.pOffset.toNat + next →
      ((findPvhNote phdr nhdr next >>= finishNote phdr) c').1 = .ofExcept (noteWalk true image phdr next)) :
    ((skipThenFind phdr nhdr readSize >>= finishNote phdr) c).1 =
      .ofExcept (if TooLong nhdr then .error (.elf .overflow)
        else noteWalk true image phdr (readSize + noteSize nhdr)) := by
  by_cases hbig : TooLong nhdr
  · rw [if_pos hbig, bind_of_err (skipThenFind_of_big hbound hbig)]
    rfl
  · rw [if_neg hbig, bind_of_eq (skipThenFind_of_fits hbound hbig)]
    exact hrest _ _ (Nat.lt_add_of_pos_right (noteSize_pos nhdr)) hdata rfl

theorem findPvhNote_walks (phdr : Elf64Phdr) {image : List UInt8} (hlen : image.length < 2 ^ 63)
    (nhdr : Elf64Nhdr) (readSize : Nat) {c : Cursor} (hdata : c.data = image)
    (hpos : c.pos = phdr.pOffset.toNat + readSize) :
    ((findPvhNote phdr nhdr readSize >>= finishNote phdr) c).1 = .ofExcept (noteWalk true image phdr readSize) := by
  subst hdata
  rw [noteWalk]
  by_cases hlt : readSize < phdr.pFilesz.toNat
  · rw [dif_pos hlt]
    by_cases hhdr : c.data.length < phdr.pOffset.toNat + readSize + NHDR_SIZE
    · have hfail : readExact NHDR_SIZE .readNoteHeader c = _ := readExact_of_lt (by decide) (hpos ▸ hhdr)
      rw [findPvhNote, dif_pos hlt, if_pos hhdr, bind_of_err (bind_of_err hfail _)]
      rfl
    have hbound : phdr.pOffset.toNat + readSize < 2 ^ 63 := by omega
    have hname := isPvhNote_cursor (c := { c with pos := phdr.pOffset.toNat + readSize + NHDR_SIZE }) rfl
    have hrest : ∀ nhdr (next : Nat) (c' : Cursor), readSize < next → c'.data = c.data →
        c'.pos = phdr.pOffset.toNat + next →
        ((findPvhNote phdr nhdr next >>= finishNote phdr) c').1 = .ofExcept (noteWalk true c.data phdr next) :=
      fun nhdr next c' _ hdata' hpos' => findPvhNote_walks phdr hlen nhdr next hdata' hpos'
    have hheader := findPvhNote_of_header nhdr hlt hpos hhdr
    rw [if_neg hhdr]
    by_cases hcand : IsCandidate (nhdrAt c.data (phdr.pOffset.toNat + readSize))
    · rw [if_pos hcand] at hname
      by_cases hend : c.data.length < phdr.pOffset.toNat + readSize + NHDR_SIZE + PVH_NOTE_STR_SZ
      · rw [if_pos hend] at hname
        rw [bind_of_err hname] at hheader
        rw [bind_of_err hheader, if_pos ⟨rfl, hcand, hend⟩]
        rfl
      rw [if_neg hend] at hname
      rw [bind_of_ok hname] at hheader
      rw [if_neg fun h => hend h.2.2]
      by_cases hpvh : IsPvhNote c.data (phdr.pOffset.toNat + readSize)
      · rw [if_pos (decide_eq_true hpvh)] at hheader
        rw [bind_of_ok hheader, if_pos hpvh, finishNote, if_neg (Nat.not_le.2 hlt)]
        exact readPvhEntry_cursor
          (c := { c with pos := phdr.pOffset.toNat + readSize + NHDR_SIZE + PVH_NOTE_STR_SZ }) rfl hpvh.2.1
          (Nat.lt_of_le_of_lt (Nat.not_lt.1 hend) hlen)
      · rw [if_neg (by simpa using hpvh)] at hheader
        rw [bind_of_eq hheader, if_neg hpvh]
        exact skip_walks rfl hbound (hrest _)
    · -- the name is not looked at
      rw [if_neg hcand] at hname
      rw [bind_of_ok hname, if_neg Bool.false_ne_true] at hheader
      rw [bind_of_eq hheader, if_neg fun h => hcand h.2.1, if_neg fun h : IsPvhNote _ _ => hcand ⟨h.1, h.2.1⟩]
      exact skip_walks rfl hbound (hrest _)
  · rw [findPvhNote, dif_neg hlt, dif_neg hlt]
    show (finishNote phdr (nhdr, readSize) c).1 = _
    rw [finishNote, if_pos (Nat.not_lt.1 hlt)]
    rfl
termination_by phdr.pFilesz.toNat - readSize
decreasing_by exact Nat.sub_lt_sub_left hlt ‹_›

/-- **Parsing the notes of a segment is a walk over them.**  For every image in memory that is shorter than
`2 ^ 63` bytes and every program header, `parse_elf_note` returns what the walk does: it does not panic, and no sum
overflows.  It is an error too if the name of a note that could be the one is not in the image. -/
theorem parse_elf_note_walks (image : Cursor) (hlen : image.data.length < 2 ^ 63) (phdr : Elf64Phdr) :
    (parseElfNote phdr image).1 = .ofExcept (noteWalk true image.data phdr 0) ∧
      (parseElfNote phdr image).1 ≠ .panic := by
  have hwalk : (parseElfNote phdr image).1 = .ofExcept (noteWalk true image.data phdr 0) := by
    exact findPvhNote_walks phdr hlen {} 0 rfl rfl
  refine ⟨hwalk, ?_⟩
  rw [hwalk]
  exact ofExcept_ne_panic _

/-- A segment that ends with the header of a note that could be the one. -/
def cutName : Cursor := ⟨[4, 0, 0, 0, 4, 0, 0, 0, 18, 0, 0, 0], 0⟩

def cutPhdr : Elf64Phdr := ⟨PT_NOTE, 0, 0, 12, 12⟩

theorem cut_name_is_an_error : (parseElfNote cutPhdr cutName).1 = .err (.elf .readNoteHeader) ∧
    noteWalk false cutName.data cutPhdr 0 = .ok .pvhEntryNotPresent :=
  ⟨by decide +kernel, by decide +kernel⟩

/-- A segment of three notes; the name and the descriptor of the second one are padded. -/
def threeNotes : Cursor where
  data := noteBytes 3 [0x47, 0x4e, 0x55, 0] ++ [3, 0, 0, 0, 5, 0, 0, 0, 18, 0, 0, 0, 0x58, 0x65, 0, 0, 1, 2, 3, 4, 5, 0,
    0, 0] ++ noteBytes 18 PVH_NOTE_STR
  pos := 0

def threePhdr : Elf64Phdr := ⟨PT_NOTE, 0, 0, 64, 64⟩

theorem parse_elf_note_walks_three : threeNotes.data.length < 2 ^ 63 ∧
    noteWalk true threeNotes.data threePhdr 0 = .ok (.pvhEntryPresent 0x100000) ∧
    (parseElfNote threePhdr threeNotes).1 = .ok (.pvhEntryPresent 0x100000) := by
  have hlen : threeNotes.data.length < 2 ^ 63 := by decide +kernel
  have hwalk : noteWalk true threeNotes.data threePhdr 0 = .ok (.pvhEntryPresent 0x100000) := by
    decide +kernel
  refine ⟨hlen, hwalk, ?_⟩
  rw [(parse_elf_note_walks threeNotes hlen _).1, hwalk]
  rfl

end RustVmm.LinuxLoader.Elf
