import RustVmm.LinuxLoader.Elf
import RustVmm.VmMemory.Effects

/-!
# The PVH entry point

Nothing is assumed of an image but that calls on it that succeed do what they say (`LawfulImage`).

* `load_eq_ok`, `loadPhdr_eq_ok` — what a load that returns has done.
* `pvh_present_iff` — it is the last segment of notes that decides.
-/

set_option autoImplicit false

namespace RustVmm.LinuxLoader.Elf

open Lib VmMemory List Traced Outcome Exec

/-! ## Images -/

/-- The position to seek to, from a position in an image of a length. -/
def SeekFrom.target (length pos : Nat) : SeekFrom → Nat
  | .start offset => offset
  | .current offset => (pos + offset).toNat
  | .fromEnd => length

/-- An image with contents.  Calls may fail, but those that succeed read at the position, and move it. -/
class LawfulImage (F : Type) [ReadVolatile F] [KernelImage F] where
  data : F → List UInt8
  pos : F → Nat
  readExact_ok : ∀ {len : Nat} {f f' : F} {bytes : List UInt8},
    KernelImage.readExact len f = (.ok bytes, f') →
      bytes = ((data f).drop (pos f)).take len ∧ bytes.length = len ∧ data f' = data f ∧ pos f' = pos f + len
  seek_ok : ∀ {s : SeekFrom} {f f' : F} {n : Nat},
    Seek.seek s f = (.ok n, f') → data f' = data f ∧ pos f' = s.target (data f).length (pos f)
  data_readVolatile : ∀ (f : F) (len : Nat), data (ReadVolatile.readVolatile f len).2 = data f

instance : LawfulImage Cursor where
  data := Cursor.data
  pos := Cursor.pos
  readExact_ok {len c c' bytes} h := by
    dsimp only [KernelImage.readExact] at h
    split at h
    · rename_i hlen
      cases h
      exact ⟨rfl, List.length_take_of_le hlen, rfl, rfl⟩
    · cases h
  seek_ok {s c c' n} h := by
    cases s with
    | start offset =>
      cases h
      exact ⟨rfl, rfl⟩
    | current offset =>
      dsimp only [Seek.seek] at h
      split at h
      · cases h
        exact ⟨rfl, rfl⟩
      · cases h
    | fromEnd =>
      cases h
      exact ⟨rfl, rfl⟩
  data_readVolatile _ _ := rfl

/-! ## Notes -/

/-- The least multiple of the alignment of notes that is not below a size. -/
def align4 (n : Nat) : Nat := (n + 3) / 4 * 4

def noteSize (nhdr : Elf64Nhdr) : Nat := NHDR_SIZE + align4 nhdr.nNamesz.toNat + align4 nhdr.nDescsz.toNat

def nhdrAt (image : List UInt8) (offset : Nat) : Elf64Nhdr := .ofBytes ((image.drop offset).take NHDR_SIZE)

/-- The note at an offset of the image is of type 18, and its name is `Xen\0`. -/
def IsPvhNote (image : List UInt8) (offset : Nat) : Prop := (nhdrAt image offset).nType = XEN_ELFNOTE_PHYS32_ENTRY ∧
    (nhdrAt image offset).nNamesz.toNat = PVH_NOTE_STR_SZ ∧
    (image.drop (offset + NHDR_SIZE)).take PVH_NOTE_STR_SZ = PVH_NOTE_STR

instance (image : List UInt8) (offset : Nat) : Decidable (IsPvhNote image offset) :=
  inferInstanceAs (Decidable (_ ∧ _ ∧ _))

inductive NoteFrom (image : List UInt8) (phdr : Elf64Phdr) : Nat → Nat → Prop
  | here {start : Nat} (hstart : start < phdr.pFilesz.toNat) : NoteFrom image phdr start start
  | later {start offset : Nat} (hstart : start < phdr.pFilesz.toNat)
      (hread : phdr.pOffset.toNat + start + NHDR_SIZE ≤ image.length)
      (hrest : NoteFrom image phdr (start + noteSize (nhdrAt image (phdr.pOffset.toNat + start))) offset) :
      NoteFrom image phdr start offset

/-- From an offset on, the segment has a note with the PVH entry point. -/
def HasPvhNoteFrom (image : List UInt8) (phdr : Elf64Phdr) (start : Nat) : Prop :=
  ∃ offset, NoteFrom image phdr start offset ∧ IsPvhNote image (phdr.pOffset.toNat + offset)

/-- The segment has a note of type 18 with the name `Xen\0`. -/
def HasPvhNote (image : List UInt8) (phdr : Elf64Phdr) : Prop := HasPvhNoteFrom image phdr 0

variable {phdr : Elf64Phdr} {start : Nat}

theorem not_hasPvhNoteFrom {image : List UInt8}
    (h : ¬ start < phdr.pFilesz.toNat) : ¬ HasPvhNoteFrom image phdr start := by
  rintro ⟨offset, hnote, -⟩
  cases hnote with
  | here hstart | later hstart hread hrest => exact h hstart

theorem hasPvhNoteFrom_next {image : List UInt8}
    (hstart : start < phdr.pFilesz.toNat) (hread : phdr.pOffset.toNat + start + NHDR_SIZE ≤ image.length)
    (hnot : ¬ IsPvhNote image (phdr.pOffset.toNat + start)) :
    HasPvhNoteFrom image phdr (start + noteSize (nhdrAt image (phdr.pOffset.toNat + start))) ↔
      HasPvhNoteFrom image phdr start := by
  constructor
  · rintro ⟨offset, hnote, hpvh⟩
    exact ⟨offset, .later hstart hread hnote, hpvh⟩
  · rintro ⟨offset, hnote, hpvh⟩
    cases hnote with
    | here _ => exact absurd hpvh hnot
    | later _ _ hrest => exact ⟨offset, hrest, hpvh⟩

/-! ## The calls on the image -/

open LawfulImage (data pos)

variable {F : Type} [ReadVolatile F] [KernelImage F] [LawfulImage F] {image : List UInt8}

/-- The contents of the image, and the position in it. -/
def At (image : List UInt8) (p : Nat) (f : F) : Prop := data f = image ∧ pos f = p

variable {error : Error} {f f' : F}

theorem readExact_eq_ok {len p : Nat} {bytes : List UInt8} (hf : At image p f)
    (h : readExact len error f = (.ok bytes, f')) :
    bytes = (image.drop p).take len ∧ len ≤ image.length - p ∧ At image (p + len) f' := by
  obtain ⟨rfl, rfl⟩ := hf
  obtain ⟨hbytes, hlen, hdata, hpos⟩ := LawfulImage.readExact_ok (mapErr_eq_ok h)
  refine ⟨hbytes, ?_, hdata, hpos⟩
  rw [← length_drop, ← hlen, hbytes]
  exact length_take_le' _ _

theorem seek_eq_ok {s : SeekFrom} {n : Nat} (hf : data f = image)
    (h : seek s error f = (.ok n, f')) : At image (s.target image.length (pos f)) f' := by
  obtain ⟨hdata, hpos⟩ := LawfulImage.seek_ok (mapErr_eq_ok h)
  exact ⟨hdata.trans hf, hf ▸ hpos⟩

/-! ## The search in one segment -/

theorem alignUp_four {n m : Nat} (h : alignUp n ELFNOTE_ALIGN = .ok m) : m = align4 n := by
  obtain ⟨_, _, h⟩ := bind_eq_ok.1 h
  have hmod : n &&& (ELFNOTE_ALIGN - 1) = n % 4 := Nat.and_two_pow_sub_one_eq_mod n 2
  have hor : n ||| (ELFNOTE_ALIGN - 1) = 4 * (n / 4) + 3 := or_two_pow_sub_one n 2
  dsimp only at h
  unfold align4
  split at h
  · cases h
    omega
  · have := checkedAdd_eq_some.1 (unwrap_eq_ok.1 h)
    omega

variable {nhdr : Elf64Nhdr}

theorem skipNote_eq_ok {readSize : Nat} {next : {n : Nat // readSize < n}}
    (h : skipNote nhdr readSize = .ok next) : next.1 = readSize + noteSize nhdr := by
  obtain ⟨namesz, hnamesz, h⟩ := bind_eq_ok.1 h
  obtain ⟨descsz, hdescsz, h⟩ := bind_eq_ok.1 h
  obtain ⟨_, _, h⟩ := bind_eq_ok.1 h
  rw [noteSize, ← alignUp_four hnamesz, ← alignUp_four hdescsz]
  split at h
  · rename_i n hn
    cases h
    simp only [Option.bind_eq_some_iff, checkedAdd_eq_some] at hn
    show n = _
    omega
  · cases h

theorem isPvhNote_eq_ok {p : Nat} {found : Bool} (hf : At image (p + NHDR_SIZE) f)
    (h : isPvhNote (nhdrAt image p) f = (.ok found, f')) :
    data f' = image ∧ (found = true ↔ IsPvhNote image p) := by
  unfold isPvhNote at h
  split at h
  · rename_i hhdr
    obtain ⟨buf, f₁, hread, h⟩ := bind_eq_ok h
    obtain ⟨rfl, -, hdata, -⟩ := readExact_eq_ok hf hread
    cases h
    refine ⟨hdata, ?_⟩
    rw [beq_iff_eq]
    exact ⟨fun hname => ⟨hhdr.1, hhdr.2, hname⟩, fun hpvh => hpvh.2.2⟩
  · rename_i hhdr
    cases h
    exact ⟨hf.1, nofun, fun hpvh => absurd ⟨hpvh.1, hpvh.2.1⟩ hhdr⟩

theorem findPvhNote_eq_ok {phdr : Elf64Phdr} {nhdr nhdr' : Elf64Nhdr} {readSize readSize' : Nat} {f f' : F}
    (hf : At image (phdr.pOffset.toNat + readSize) f)
    (h : findPvhNote phdr nhdr readSize f = (.ok (nhdr', readSize'), f')) :
    data f' = image ∧ (readSize' < phdr.pFilesz.toNat ↔ HasPvhNoteFrom image phdr readSize) := by
  rw [findPvhNote] at h
  split at h
  · rename_i hlt
    obtain ⟨bytes, f₁, hread, h⟩ := bind_eq_ok h
    obtain ⟨rfl, hlen, hf₁⟩ := readExact_eq_ok hf hread
    obtain ⟨found, f₂, hfound, h⟩ := bind_eq_ok h
    obtain ⟨hf₂, hiff⟩ := isPvhNote_eq_ok hf₁ hfound
    cases found with
    | true =>
      cases h
      exact ⟨hf₂, fun _ => ⟨readSize, .here hlt, hiff.1 rfl⟩, fun _ => hlt⟩
    | false =>
      obtain ⟨⟨next, hnext⟩, hskip, h⟩ := lift_bind_eq_ok h
      obtain ⟨offset, hoffset, h⟩ := lift_bind_eq_ok h
      obtain ⟨_, f₃, hseek, h⟩ := bind_eq_ok h
      have hnot : ¬ IsPvhNote image (phdr.pOffset.toNat + readSize) := fun hpvh => Bool.noConfusion (hiff.2 hpvh)
      have hbound : phdr.pOffset.toNat + readSize + NHDR_SIZE ≤ image.length := by
        have : 0 < NHDR_SIZE := by decide
        omega
      have hsize : next = readSize + noteSize (nhdrAt image (phdr.pOffset.toNat + readSize)) :=
        skipNote_eq_ok (mapErr_eq_ok.1 hskip)
      have hf₃ := seek_eq_ok hf₂ hseek
      rw [← (checkedAdd_eq_some.1 (unwrap_eq_ok.1 hoffset)).2] at hf₃
      have hrest := findPvhNote_eq_ok hf₃ h
      rwa [hsize, hasPvhNoteFrom_next hlt hbound hnot] at hrest
  · rename_i hge
    cases h
    exact ⟨hf.1, fun hlt => absurd hlt hge, fun hpvh => absurd hpvh (not_hasPvhNoteFrom hge)⟩
termination_by phdr.pFilesz.toNat - readSize
decreasing_by omega

variable {cap : PvhBootCapability}

theorem readPvhEntry_eq_ok (hf : data f = image)
    (h : readPvhEntry nhdr f = (.ok cap, f')) : data f' = image ∧ ∃ addr, cap = .pvhEntryPresent addr := by
  obtain ⟨namesz, _, h⟩ := lift_bind_eq_ok h
  obtain ⟨_, f₁, hseek, h⟩ := bind_eq_ok h
  obtain ⟨_, _, h⟩ := lift_bind_eq_ok h
  obtain ⟨bytes, f₂, hread, h⟩ := bind_eq_ok h
  obtain ⟨-, -, hdata, -⟩ := readExact_eq_ok (seek_eq_ok hf hseek) hread
  cases h
  exact ⟨hdata, _, rfl⟩

theorem parseElfNote_eq_ok (hf : data f = image) (h : parseElfNote phdr f = (.ok cap, f')) :
    data f' = image ∧ ((∃ addr, cap = .pvhEntryPresent addr) ↔ HasPvhNote image phdr) := by
  obtain ⟨_, f₁, hseek, h⟩ := bind_eq_ok h
  obtain ⟨⟨nhdr, readSize⟩, f₂, hfind, h⟩ := bind_eq_ok h
  obtain ⟨hf₂, hiff⟩ := findPvhNote_eq_ok (seek_eq_ok hf hseek) hfind
  rw [HasPvhNote, ← hiff]
  dsimp only at h
  split at h
  · rename_i hge
    cases h
    exact ⟨hf₂, fun ⟨_, hcap⟩ => PvhBootCapability.noConfusion hcap, fun hlt => absurd hlt (Nat.not_lt.2 hge)⟩
  · rename_i hlt
    obtain ⟨hdata, hcap⟩ := readPvhEntry_eq_ok hf₂ h
    exact ⟨hdata, fun _ => Nat.not_le.1 hlt, fun _ => hcap⟩

/-! ## The program headers -/

def phdrAt (image : List UInt8) (phoff i : Nat) : Elf64Phdr :=
  .ofBytes ((image.drop (phoff + i * PHDR_SIZE)).take PHDR_SIZE)

def programHeaders (image : List UInt8) : List Elf64Phdr :=
  let ehdr := Elf64Ehdr.ofBytes (image.take EHDR_SIZE)
  (List.range ehdr.ePhnum.toNat).map (phdrAt image ehdr.ePhoff.toNat)

/-! ## Segments -/

/-- What is added to the addresses of the image. -/
def kernelBase : Option UInt64 → Nat
  | some kOffset => kOffset.toNat
  | none => 0

def loadAddress (kernelOffset : Option UInt64) (phdr : Elf64Phdr) : Nat := kernelBase kernelOffset + phdr.pPaddr.toNat

/-- Where its memory ends. -/
def segmentEnd (kernelOffset : Option UInt64) (phdr : Elf64Phdr) : Nat :=
  loadAddress kernelOffset phdr + phdr.pMemsz.toNat

/-- The segment is to be loaded, and has bytes in the image. -/
def Loaded (phdr : Elf64Phdr) : Prop := phdr.pType = PT_LOAD ∧ phdr.pFilesz ≠ 0

instance : DecidablePred Loaded := fun _ => inferInstanceAs (Decidable (_ ∧ _))

theorem not_loaded_of_note (h : phdr.pType = PT_NOTE) : ¬ Loaded phdr := fun hl => by
  rw [hl.1] at h
  revert h
  decide

variable {result : KernelLoaderResult} {trace : List Effect} {highmemStartAddress : Option UInt64}
variable {result' : KernelLoaderResult}

section Step

variable {mem : GuestMemoryT} {kernelOffset : Option UInt64}

theorem loadPhdr_eq_ok (h : loadPhdr mem kernelOffset result phdr f = ⟨.ok result', f', trace⟩) : data f' = data f ∧
    (Loaded phdr ∧ result' = { result with kernelEnd := max result.kernelEnd (segmentEnd kernelOffset phdr) } ∧
        (∃ f₁, At (data f) phdr.pOffset.toNat f₁ ∧
          mem.readExactVolatileFrom (loadAddress kernelOffset phdr) phdr.pFilesz.toNat f₁ = ⟨.ok (), f', trace⟩) ∨
      phdr.pType = PT_NOTE ∧ trace = [] ∧ (∃ cap, result' = { result with pvhBootCap := cap } ∧
          (kernelOffset = none → ((∃ addr, cap = .pvhEntryPresent addr) ↔ HasPvhNote (data f) phdr))) ∨
      ¬ Loaded phdr ∧ phdr.pType ≠ PT_NOTE ∧ trace = [] ∧ result' = result) := by
  unfold loadPhdr at h
  split at h
  · rename_i hskip
    have hnot : ¬ Loaded phdr := fun hl => hskip.elim (fun ht => ht hl.1) hl.2
    split at h
    · rename_i hnote
      cases kernelOffset with
      | some kOffset =>
        cases h
        exact ⟨rfl, .inr (.inl ⟨hnote, rfl, _, rfl, nofun⟩)⟩
      | none =>
        obtain ⟨cap, f₁, hparse, h⟩ := exec_bind_eq_ok h
        cases h
        obtain ⟨hdata, hcap⟩ := parseElfNote_eq_ok rfl hparse
        exact ⟨hdata, .inr (.inl ⟨hnote, rfl, cap, rfl, fun _ => hcap⟩)⟩
    · rename_i hother
      cases h
      exact ⟨rfl, .inr (.inr ⟨hnot, hother, rfl, rfl⟩)⟩
  · rename_i hload
    have hloaded : Loaded phdr := by
      rw [not_or, not_not] at hload
      exact hload
    obtain ⟨_, f₁, hseek, h⟩ := exec_bind_eq_ok h
    have hf₁ : At (data f) phdr.pOffset.toNat f₁ := seek_eq_ok rfl hseek
    obtain ⟨memOffset, hoffset, h⟩ := lift_bind_eq_ok h
    have haddr : memOffset = loadAddress kernelOffset phdr := by
      cases kernelOffset with
      | some kOffset => exact (checkedAdd_eq_some.1 (okOr_eq_ok.1 hoffset)).2.symm
      | none =>
        cases hoffset
        exact (Nat.zero_add _).symm
    obtain ⟨_, f₂, w₁, w₂, hcopy, hrest, rfl⟩ := bind_eq_ok h
    obtain ⟨kernelEnd, hend, hrest⟩ := lift_bind_eq_ok hrest
    obtain ⟨_, rfl⟩ := checkedAdd_eq_some.1 (okOr_eq_ok.1 hend)
    cases hrest
    subst haddr
    have hread := mapErr_eq_ok hcopy
    have hkeeps : (mem.readExactVolatileFrom (loadAddress kernelOffset phdr) phdr.pFilesz.toNat :
        Traced F Effect VmMemory.Error Unit).Keeps fun g => data g = data f :=
      GuestMemoryT.keeps_readExactVolatileFrom
        (fun g len hg => (LawfulImage.data_readVolatile g len).trans hg) mem _ _
    have hdata := hkeeps f₁ hf₁.1
    rw [hread] at hdata
    rw [append_nil]
    exact ⟨hdata, .inl ⟨hloaded, rfl, f₁, hf₁, hread⟩⟩

/-! ## A load that returns -/

theorem readPhdrs_eq_ok {phoff phnum : Nat} {phdrs : List Elf64Phdr}
    (hf : At image phoff f) (h : readPhdrs phnum f = ⟨.ok phdrs, f', trace⟩) :
    phdrs = (range phnum).map (phdrAt image phoff) ∧ data f' = image ∧ trace = [] := by
  -- one header for each number that the loop has gone over
  let I (done : List Nat) (phdrs : List Elf64Phdr) (f : F) (trace : List Effect) : Prop :=
    At image (phoff + done.length * PHDR_SIZE) f ∧
      phdrs = (range done.length).map (phdrAt image phoff) ∧ trace = []
  have hloop : I (range phnum) phdrs f' trace := by
    refine foldlM_eq_ok I (fun {done phdrs _ f _ _ _ _} hdone hturn => ?_) ⟨by simpa using hf, rfl, rfl⟩ h
    obtain ⟨hat, rfl, rfl⟩ := hdone
    obtain ⟨bytes, f₁, hread, hturn⟩ := exec_bind_eq_ok hturn
    obtain ⟨rfl, -, hdata, hpos⟩ := readExact_eq_ok hat hread
    cases hturn
    refine ⟨⟨hdata, ?_⟩, ?_, rfl⟩
    · rw [hpos, length_append, length_singleton, Nat.succ_mul, Nat.add_assoc]
    · rw [length_append, length_singleton, range_succ, map_append]
      rfl
  obtain ⟨hat, hphdrs, htrace⟩ := hloop
  rw [length_range] at hphdrs
  exact ⟨hphdrs, hat.1, htrace⟩

theorem load_eq_ok (h : load mem kernelOffset highmemStartAddress f = ⟨.ok result, f', trace⟩) :
    ∃ kernelLoad f₁, data f₁ = data f ∧
      (programHeaders (data f)).foldlM (loadPhdr mem kernelOffset) { kernelLoad } f₁ = ⟨.ok result, f', trace⟩ := by
  obtain ⟨_, f₁, hseek, h⟩ := exec_bind_eq_ok h
  have hf₁ : At (data f) 0 f₁ := seek_eq_ok rfl hseek
  obtain ⟨bytes, f₂, hread, h⟩ := exec_bind_eq_ok h
  obtain ⟨rfl, -, hf₂⟩ := readExact_eq_ok hf₁ hread
  obtain ⟨_, _, h⟩ := lift_bind_eq_ok h
  obtain ⟨_, _, h⟩ := lift_bind_eq_ok h
  obtain ⟨kernelLoad, _, h⟩ := lift_bind_eq_ok h
  obtain ⟨_, f₃, hseek, h⟩ := exec_bind_eq_ok h
  have hf₃ := seek_eq_ok hf₂.1 hseek
  obtain ⟨phdrs, f₄, w₁, w₂, hphdrs, hloop, rfl⟩ := bind_eq_ok h
  obtain ⟨rfl, hdata, rfl⟩ := readPhdrs_eq_ok hf₃ hphdrs
  exact ⟨kernelLoad, f₄, hdata, hloop⟩

end Step

/-! ## The last note -/

/-- Those of type `PT_NOTE`. -/
def noteHeaders (phdrs : List Elf64Phdr) : List Elf64Phdr := phdrs.filter fun phdr => phdr.pType = PT_NOTE

/-- The last segment of type `PT_NOTE` has a note with the entry point. -/
def LastHasPvhNote (image : List UInt8) (phdrs : List Elf64Phdr) : Prop :=
  ∃ phdr, (noteHeaders phdrs).getLast? = some phdr ∧ HasPvhNote image phdr

theorem not_lastHasPvhNote_nil (image : List UInt8) : ¬ LastHasPvhNote image [] := by
  rintro ⟨phdr, hlast, -⟩
  cases hlast

variable {done : List Elf64Phdr}

theorem lastHasPvhNote_append_note (h : phdr.pType = PT_NOTE) :
    LastHasPvhNote image (done ++ [phdr]) ↔ HasPvhNote image phdr := by
  have hlast : (noteHeaders (done ++ [phdr])).getLast? = some phdr := by
    rw [noteHeaders, filter_append, filter_cons_of_pos (by simpa using h)]
    exact getLast?_concat
  rw [LastHasPvhNote, hlast]
  exact ⟨fun ⟨_, hp, hpvh⟩ => Option.some.inj hp ▸ hpvh, fun hpvh => ⟨phdr, rfl, hpvh⟩⟩

theorem lastHasPvhNote_append_other (h : phdr.pType ≠ PT_NOTE) :
    LastHasPvhNote image (done ++ [phdr]) ↔ LastHasPvhNote image done := by
  have hnone : noteHeaders (done ++ [phdr]) = noteHeaders done := by
    rw [noteHeaders, filter_append, filter_cons_of_neg (by simpa using h)]
    exact append_nil _
  rw [LastHasPvhNote, hnone, LastHasPvhNote]

/-- What the loop over the program headers keeps. -/
def Reported (image : List UInt8) (done : List Elf64Phdr) (result : KernelLoaderResult) (f : F) : Prop :=
  data f = image ∧ ((∃ addr, result.pvhBootCap = .pvhEntryPresent addr) ↔ LastHasPvhNote image done)

theorem Reported.next {mem : GuestMemoryT} (hdone : Reported image done result f)
    (h : loadPhdr mem none result phdr f = ⟨.ok result', f', trace⟩) :
    Reported image (done ++ [phdr]) result' f' := by
  obtain ⟨rfl, hcap⟩ := hdone
  obtain ⟨hdata, hcases⟩ := loadPhdr_eq_ok h
  refine ⟨hdata, ?_⟩
  obtain ⟨hloaded, rfl, -⟩ | ⟨hnote, -, cap, rfl, hsearch⟩ | ⟨-, hother, -, rfl⟩ := hcases
  · rw [lastHasPvhNote_append_other fun hnote => not_loaded_of_note hnote hloaded]
    exact hcap
  · rw [lastHasPvhNote_append_note hnote]
    exact hsearch rfl
  · rw [lastHasPvhNote_append_other hother]
    exact hcap

theorem load_reported {mem : GuestMemoryT} (h : load mem none highmemStartAddress f = ⟨.ok result, f', trace⟩) :
    Reported (data f) (programHeaders (data f)) result f' := by
  obtain ⟨kernelLoad, f₁, hf₁, hloop⟩ := load_eq_ok h
  have hstart : Reported (data f) [] { kernelLoad } f₁ := ⟨hf₁, fun ⟨_, hcap⟩ => PvhBootCapability.noConfusion hcap,
      fun hlast => absurd hlast (not_lastHasPvhNote_nil (data f))⟩
  exact foldlM_eq_ok (fun done result g _ => Reported (data f) done result g)
    (fun hdone hphdr => hdone.next hphdr) hstart hloop

/-- **The note in the last segment of type `PT_NOTE` is reported.**  An image with a PVH note in some segment
of that type is reported to have a PVH entry point if, and only if, there is such a note in the last segment
of that type as well, since the search in each of them replaces the result of the ones before. -/
theorem pvh_present_iff {mem : GuestMemoryT} {highmemStartAddress : Option UInt64} {image : F}
    {result : KernelLoaderResult} (hload : (load mem none highmemStartAddress image).outcome = .ok result) :
    let notes := noteHeaders (programHeaders (data image))
    ((∃ addr, result.pvhBootCap = .pvhEntryPresent addr) ↔ ∃ phdr ∈ notes, HasPvhNote (data image) phdr) ↔
      ((∃ phdr ∈ notes, HasPvhNote (data image) phdr) →
        ∃ phdr, notes.getLast? = some phdr ∧ HasPvhNote (data image) phdr) := by
  intro notes
  rcases heq : load mem none highmemStartAddress image with ⟨o, f', trace⟩
  rw [heq] at hload
  cases hload
  have hreported : (∃ addr, result.pvhBootCap = .pvhEntryPresent addr) ↔
      ∃ phdr, notes.getLast? = some phdr ∧ HasPvhNote (data image) phdr := (load_reported heq).2
  rw [hreported]
  constructor
  · exact fun h => h.2
  · refine fun h => ⟨fun ⟨phdr, hlast, hpvh⟩ => ⟨phdr, ?_, hpvh⟩, h⟩
    exact mem_of_getLast? hlast

/-- The ELF header of an image with three program headers. -/
def ehdrBytes : List UInt8 :=
  ELFMAG ++ [2, 1, 1] ++ .replicate 25 0 ++ [64] ++ .replicate 21 0 ++ [56, 0, 3] ++ .replicate 7 0

def phdrBytes (type offset filesz : UInt8) : List UInt8 :=
  [type, 0, 0, 0, 0, 0, 0, 0, offset] ++ .replicate 23 0 ++ [filesz] ++ .replicate 7 0 ++ [filesz] ++ .replicate 15 0

/-- A note with a name and a descriptor of four bytes. -/
def noteBytes (type : UInt8) (name : List UInt8) : List UInt8 :=
  [4, 0, 0, 0, 4, 0, 0, 0, type, 0, 0, 0] ++ name ++ [0, 0, 0x10, 0]

/-- An image with two segments of type `PT_NOTE`, and one that loads both of them. -/
def twoNotes (first second : List UInt8) : Cursor where
  data := ehdrBytes ++ phdrBytes 1 232 40 ++ phdrBytes 4 232 20 ++ phdrBytes 4 252 20 ++ first ++ second
  pos := 0

def bootMemory : GuestMemoryT := GuestMemory.asT ⟨[⟨0, 0xa000, 0x10000, by decide, by decide⟩], by decide, fun _ => 0⟩

/-- A PVH note that is followed by one of another kind in a segment of its own. -/
def pvhThenGnu : Cursor := twoNotes (noteBytes 18 PVH_NOTE_STR) (noteBytes 3 [0x47, 0x4e, 0x55, 0])

def gnuThenPvh : Cursor := twoNotes (noteBytes 3 [0x47, 0x4e, 0x55, 0]) (noteBytes 18 PVH_NOTE_STR)

theorem first_note_overwritten : (load bootMemory none none pvhThenGnu).outcome =
      .ok { kernelLoad := 0, kernelEnd := 40, pvhBootCap := .pvhEntryNotPresent } ∧
    ∃ phdr ∈ noteHeaders (programHeaders pvhThenGnu.data), HasPvhNote pvhThenGnu.data phdr :=
  ⟨by decide +kernel, phdrAt pvhThenGnu.data 64 1, by decide +kernel, 0, .here (by decide +kernel),
    by decide +kernel⟩

theorem last_note_reported : (load bootMemory none none gnuThenPvh).outcome =
      .ok { kernelLoad := 0, kernelEnd := 40, pvhBootCap := .pvhEntryPresent 0x100000 } ∧
    let notes := noteHeaders (programHeaders gnuThenPvh.data)
    ((∃ addr, PvhBootCapability.pvhEntryPresent 0x100000 = .pvhEntryPresent addr) ↔
        ∃ phdr ∈ notes, HasPvhNote gnuThenPvh.data phdr) ↔
      ((∃ phdr ∈ notes, HasPvhNote gnuThenPvh.data phdr) →
        ∃ phdr, notes.getLast? = some phdr ∧ HasPvhNote gnuThenPvh.data phdr) :=
  have hload : (load bootMemory none none gnuThenPvh).outcome = .ok
      { kernelLoad := 0, kernelEnd := 40, pvhBootCap := .pvhEntryPresent 0x100000 } := by decide +kernel
  ⟨hload, pvh_present_iff hload⟩

end RustVmm.LinuxLoader.Elf
