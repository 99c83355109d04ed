import RustVmm.LinuxLoader.Pvh
import RustVmm.VmMemory.Transfers

/-!
# The segments of an ELF image

What a load that succeeds says and does, by the program headers and the bytes of the image.

* `kernel_end_covers_iff` — when the end that `load` reports covers every segment.
* `elf_load_places_segments` — what it leaves in guest memory.
-/

set_option autoImplicit false

namespace RustVmm.LinuxLoader.Elf

open Lib VmMemory LawfulImage List

variable {F : Type} [ReadVolatile F] [KernelImage F] [LawfulImage F]
variable {mem : GuestMemoryT} {kernelOffset : Option UInt64}

/-! ## Where the kernel ends -/

/-- The end of the segments that are copied. -/
def loadedEnd (kernelOffset : Option UInt64) (phdrs : List Elf64Phdr) : Nat :=
  (phdrs.filter (Loaded ·)).foldl (fun last phdr => max last (segmentEnd kernelOffset phdr)) 0

variable {done phdrs : List Elf64Phdr} {phdr : Elf64Phdr}

theorem loadedEnd_append : loadedEnd kernelOffset (done ++ [phdr]) =
      if Loaded phdr then max (loadedEnd kernelOffset done) (segmentEnd kernelOffset phdr)
      else loadedEnd kernelOffset done := by
  unfold loadedEnd
  rw [filter_append, foldl_append]
  split
  · rename_i h
    rw [filter_cons_of_pos (by simpa using h)]
    rfl
  · rename_i h
    rw [filter_cons_of_neg (by simpa using h)]
    rfl

theorem le_loadedEnd (hmem : phdr ∈ phdrs) (h : Loaded phdr) :
    segmentEnd kernelOffset phdr ≤ loadedEnd kernelOffset phdrs := by
  induction phdrs using reverseRecOn with
  | nil => cases hmem
  | append_singleton done last ih =>
    rw [loadedEnd_append]
    rcases mem_append.1 hmem with hdone | hlast
    · have hle := ih hdone
      split <;> omega
    · obtain rfl := mem_singleton.1 hlast
      rw [if_pos h]
      exact Nat.le_max_right _ _

variable {result result' : KernelLoaderResult} {trace : List Effect}

theorem foldlM_kernelEnd {f f' : F} (hstart : result.kernelEnd = 0)
    (h : phdrs.foldlM (loadPhdr mem kernelOffset) result f = ⟨.ok result', f', trace⟩) :
    result'.kernelEnd = loadedEnd kernelOffset phdrs := by
  refine Traced.foldlM_eq_ok (fun done result _ _ => result.kernelEnd = loadedEnd kernelOffset done)
    (fun hdone hphdr => ?_) hstart h
  rw [loadedEnd_append, ← hdone]
  obtain ⟨hloaded, rfl, -⟩ | ⟨hnote, -, cap, rfl, -⟩ | ⟨hnot, -, -, rfl⟩ := (loadPhdr_eq_ok hphdr).2
  · rw [if_pos hloaded]
  · rw [if_neg (not_loaded_of_note hnote)]
  · rw [if_neg hnot]

/-- **The reported end covers every segment exactly if those without file bytes end below the others.**  Only
segments that are copied are counted. -/
theorem kernel_end_covers_iff {highmemStartAddress : Option UInt64} {image : F} {result : KernelLoaderResult}
    (hload : (load mem kernelOffset highmemStartAddress image).outcome = .ok result) :
    result.kernelEnd = loadedEnd kernelOffset (programHeaders (data image)) ∧
    ((∀ phdr ∈ programHeaders (data image), phdr.pType = PT_LOAD → segmentEnd kernelOffset phdr ≤ result.kernelEnd) ↔
      ∀ phdr ∈ programHeaders (data image), phdr.pType = PT_LOAD → phdr.pFilesz = 0 →
        segmentEnd kernelOffset phdr ≤ loadedEnd kernelOffset (programHeaders (data image))) := by
  rcases heq : load mem kernelOffset highmemStartAddress image with ⟨o, f', trace⟩
  rw [heq] at hload
  cases hload
  obtain ⟨kernelLoad, f₁, hf₁, hloop⟩ := load_eq_ok heq
  have hend := foldlM_kernelEnd rfl hloop
  rw [hend]
  refine ⟨rfl, fun hall phdr hmem htype _ => hall phdr hmem htype, fun hempty phdr hmem htype => ?_⟩
  by_cases hsize : phdr.pFilesz = 0
  · exact hempty phdr hmem htype hsize
  · exact le_loadedEnd hmem ⟨htype, hsize⟩

/-- A program header with a segment at an address that takes more memory than it has bytes. -/
def segmentHeader (type offset paddr filesz memsz : UInt8) : List UInt8 :=
  [type, 0, 0, 0, 0, 0, 0, 0, offset] ++ .replicate 15 0 ++ [paddr] ++ .replicate 7 0 ++ [filesz] ++ .replicate 7 0 ++
    [memsz] ++ .replicate 15 0

/-- An image with eight bytes of code, a note, and a segment of the given size that has no bytes in the image. -/
def bssImage (memsz : UInt8) : Cursor where
  data := ehdrBytes ++ segmentHeader 1 232 0x10 8 8 ++ segmentHeader 4 240 0 20 20 ++
    segmentHeader 1 0 0x14 0 memsz ++ [1, 2, 3, 4, 5, 6, 7, 8] ++ noteBytes 18 PVH_NOTE_STR
  pos := 3

/-- Two regions that meet in the middle of the code. -/
def splitMemory : GuestMemory :=
  ⟨[⟨0, 0x14, 0x10000, by decide, by decide⟩, ⟨0x14, 0x11000, 0x20000, by decide, by decide⟩], by decide, fun _ => 0xff⟩

theorem kernel_end_below_bss : (load splitMemory.asT none none (bssImage 0x40)).outcome =
      .ok { kernelLoad := 0, kernelEnd := 0x18, pvhBootCap := .pvhEntryPresent 0x100000 } ∧
    ∃ phdr ∈ programHeaders (bssImage 0x40).data, phdr.pType = PT_LOAD ∧ 0x18 < segmentEnd none phdr :=
  ⟨by decide +kernel, phdrAt (bssImage 0x40).data 64 2, by decide +kernel, by decide +kernel, by decide +kernel⟩

theorem kernel_end_covers_small_bss : (load splitMemory.asT none none (bssImage 4)).outcome =
      .ok { kernelLoad := 0, kernelEnd := 0x18, pvhBootCap := .pvhEntryPresent 0x100000 } ∧
    ∀ phdr ∈ programHeaders (bssImage 4).data, phdr.pType = PT_LOAD → segmentEnd none phdr ≤ 0x18 := by
  have hload : (load splitMemory.asT none none (bssImage 4)).outcome =
      .ok { kernelLoad := 0, kernelEnd := 0x18, pvhBootCap := .pvhEntryPresent 0x100000 } := by decide +kernel
  exact ⟨hload, (kernel_end_covers_iff hload).2.2 (by decide +kernel)⟩

/-! ## What is in guest memory -/

def segmentBytes (image : List UInt8) (phdr : Elf64Phdr) : List UInt8 :=
  (image.drop phdr.pOffset.toNat).take phdr.pFilesz.toNat

/-- Guest memory overwritten by segments, in the order of their headers. -/
def placeSegments (kernelOffset : Option UInt64) (image : List UInt8) (phdrs : List Elf64Phdr)
    (bytes : Nat → UInt8) : Nat → UInt8 :=
  phdrs.foldl (fun bytes phdr =>
    if phdr.pType = PT_LOAD then storeBytes bytes (loadAddress kernelOffset phdr) (segmentBytes image phdr)
    else bytes) bytes

theorem placeSegments_of_not_loaded {image : List UInt8} (h : ¬ Loaded phdr) (bytes : Nat → UInt8) :
    placeSegments kernelOffset image [phdr] bytes = bytes := by
  show (if _ then _ else _) = bytes
  split
  · rename_i htype
    have hsize : phdr.pFilesz = 0 := not_not.1 fun hne => h ⟨htype, hne⟩
    rw [segmentBytes, hsize]
    exact storeBytes_nil _ _
  · rfl

/-- The segment is in the image as a whole, and its place is in guest memory. -/
def Fits (kernelOffset : Option UInt64) (mem : GuestMemory) (image : List UInt8) (phdr : Elf64Phdr) : Prop :=
  (segmentBytes image phdr).length = phdr.pFilesz.toNat ∧ mem.Mapped (loadAddress kernelOffset phdr) phdr.pFilesz.toNat

theorem loadPhdr_places {mem : GuestMemory} {f f' : Cursor}
    (h : loadPhdr mem.asT kernelOffset result phdr f = ⟨.ok result', f', trace⟩) (bytes : Nat → UInt8) :
    f'.data = f.data ∧ applyBytes bytes trace = placeSegments kernelOffset f.data [phdr] bytes ∧
      (Loaded phdr → Fits kernelOffset mem f.data phdr) := by
  obtain ⟨hdata, hcases⟩ := loadPhdr_eq_ok h
  obtain ⟨hloaded, -, f₁, ⟨hdata₁, hpos₁⟩, hread⟩ | ⟨hnote, rfl, -⟩ | ⟨hnot, -, rfl, -⟩ := hcases
  · have hrest : FullReads.rest f₁ = f.data.drop phdr.pOffset.toNat := by
      show f₁.data.drop f₁.pos = _
      rw [show f₁.data = f.data from hdata₁, show f₁.pos = _ from hpos₁]
    obtain ⟨hmapped, hlen, hmoved⟩ := GuestMemoryT.readExactVolatileFrom_eq_ok hread
    rw [hrest] at hlen
    refine ⟨hdata, ?_, fun _ => ⟨hlen, hmapped⟩⟩
    rw [hmoved.apply, hrest]
    exact (if_pos hloaded.1).symm
  · have hnot := not_loaded_of_note hnote
    exact ⟨hdata, (placeSegments_of_not_loaded hnot bytes).symm, fun hl => absurd hl hnot⟩
  · exact ⟨hdata, (placeSegments_of_not_loaded hnot bytes).symm, fun hl => absurd hl hnot⟩

/-- What the loop over the program headers keeps. -/
structure Placed (kernelOffset : Option UInt64) (mem : GuestMemory) (image : List UInt8) (done : List Elf64Phdr)
    (f : Cursor) (trace : List Effect) : Prop where
  data_eq : f.data = image
  bytes_eq : applyBytes mem.bytes trace = placeSegments kernelOffset image done mem.bytes
  fits : ∀ phdr ∈ done, Loaded phdr → Fits kernelOffset mem image phdr

theorem Placed.next {mem : GuestMemory} {image : List UInt8} {f f' : Cursor} {trace' : List Effect}
    (h : Placed kernelOffset mem image done f trace)
    (hphdr : loadPhdr mem.asT kernelOffset result phdr f = ⟨.ok result', f', trace'⟩) :
    Placed kernelOffset mem image (done ++ [phdr]) f' (trace ++ trace') := by
  obtain ⟨rfl, hbytes, hfits⟩ := h
  obtain ⟨hdata', hbytes', hfit⟩ := loadPhdr_places hphdr (applyBytes mem.bytes trace)
  refine ⟨hdata', ?_, fun other hmem hl => ?_⟩
  · rw [applyBytes_append, hbytes', hbytes]
    unfold placeSegments
    rw [foldl_append]
  · rcases mem_append.1 hmem with hmem | hmem
    · exact hfits other hmem hl
    · obtain rfl := mem_singleton.1 hmem
      exact hfit hl

/-- **Guest memory after a load** is what it was, overwritten by the segments of the image in the order of their
headers.  All of their bytes are in the image, and they go to addresses of guest memory. -/
theorem elf_load_places_segments {mem : GuestMemory} {highmemStartAddress : Option UInt64} {image : Cursor}
    {result : KernelLoaderResult}
    (hload : (load mem.asT kernelOffset highmemStartAddress image).outcome = .ok result) :
    mem.apply (load mem.asT kernelOffset highmemStartAddress image).trace =
      { mem with bytes := placeSegments kernelOffset image.data (programHeaders image.data) mem.bytes } ∧
    ∀ phdr ∈ programHeaders image.data, phdr.pType = PT_LOAD →
      (segmentBytes image.data phdr).length = phdr.pFilesz.toNat ∧
      mem.Mapped (loadAddress kernelOffset phdr) phdr.pFilesz.toNat := by
  rcases heq : load mem.asT kernelOffset highmemStartAddress image with ⟨o, f', trace⟩
  rw [heq] at hload
  cases hload
  obtain ⟨kernelLoad, f₁, hf₁, hloop⟩ := load_eq_ok heq
  have hplaced : Placed kernelOffset mem image.data (programHeaders image.data) f' trace :=
    Traced.foldlM_eq_ok (fun done _ f trace => Placed kernelOffset mem image.data done f trace)
      (fun hdone hphdr => hdone.next hphdr) ⟨hf₁, rfl, nofun⟩ hloop
  refine ⟨?_, fun phdr hmem htype => ?_⟩
  · unfold GuestMemory.apply
    rw [hplaced.bytes_eq]
  · by_cases hsize : phdr.pFilesz = 0
    · rw [segmentBytes, hsize]
      exact ⟨rfl, fun a hle hlt => absurd hlt (Nat.not_lt.2 hle)⟩
    · exact hplaced.fits phdr hmem ⟨htype, hsize⟩

theorem elf_load_places_split : (load splitMemory.asT none none (bssImage 0x40)).outcome =
      .ok { kernelLoad := 0, kernelEnd := 0x18, pvhBootCap := .pvhEntryPresent 0x100000 } ∧
    bytesAt (splitMemory.apply (load splitMemory.asT none none (bssImage 0x40)).trace).bytes 0xe 12 =
      [0xff, 0xff, 1, 2, 3, 4, 5, 6, 7, 8, 0xff, 0xff] := by
  have hload : (load splitMemory.asT none none (bssImage 0x40)).outcome =
      .ok { kernelLoad := 0, kernelEnd := 0x18, pvhBootCap := .pvhEntryPresent 0x100000 } := by decide +kernel
  refine ⟨hload, ?_⟩
  rw [(elf_load_places_segments hload).1]
  decide +kernel

end RustVmm.LinuxLoader.Elf
