import RustVmm.LinuxLoader.Elf
import RustVmm.VmMemory.Transfers

/-!
# The bzImage loader

Model of `linux-loader/src/loader/bzimage/mod.rs`.  The setup header says how long the setup is (`setupSize`) and,
without an offset of the caller, where the kernel goes (`loadAddress`).

* `bzimage_load_consistent_iff` — the result fits what is in guest memory; the setup header does below 4 GiB only.
-/

set_option autoImplicit false

namespace RustVmm.LinuxLoader.BzImage

open Lib VmMemory Traced
open LinuxLoader.Elf (leField Seek SeekFrom)

inductive Error where
  | invalidBzImage
  | overflow
  | readBzImageHeader
  | readBzImageCompressedKernel
  | seekBzImageEnd
  | seekBzImageHeader
  | seekBzImageCompressedKernel
  | underflow
  deriving DecidableEq, Repr

/-- `loader::Error`, with the errors that the bzImage loader returns. -/
inductive KernelLoaderError where
  | bzimage (error : Error)
  | invalidKernelStartAddress
  | memoryOverflow
  deriving DecidableEq, Repr

/-- `setup_header`, as far as the loader looks at it. -/
structure SetupHeader where
  setupSects : UInt8
  header : UInt32
  version : UInt16
  loadflags : UInt8
  code32Start : UInt32
  deriving DecidableEq, Repr

/-- `size_of::<setup_header>()`. -/
def SETUP_HEADER_SIZE : Nat := 123

/-- The structure is packed. -/
def SetupHeader.ofBytes (bytes : List UInt8) : SetupHeader where
  setupSects := .ofNat (leField bytes 0 1)
  header := .ofNat (leField bytes 17 4)
  version := .ofNat (leField bytes 21 2)
  loadflags := .ofNat (leField bytes 32 1)
  code32Start := .ofNat (leField bytes 35 4)

/-- `KernelLoaderResult`, with what the bzImage loader fills in. -/
structure KernelLoaderResult where
  kernelLoad : Nat
  kernelEnd : Nat := 0
  setupHeader : Option SetupHeader := none
  deriving DecidableEq, Repr

def HDRS : UInt32 := 0x53726448

variable {F : Type} [ReadVolatile F] [Seek F]

/-- One call of `read_volatile` on a zeroed header.  It may deliver less. -/
def readHeader : Exec F KernelLoaderError SetupHeader := fun f =>
  match ReadVolatile.readVolatile f SETUP_HEADER_SIZE with
  | (.bytes data, f') => (.ok (.ofBytes (data ++ .replicate (SETUP_HEADER_SIZE - data.length) 0)), f')
  | (.interrupted, f') => (.err (.bzimage .readBzImageHeader), f')
  | (.error _ _, f') => (.err (.bzimage .readBzImageHeader), f')

def validateHeader (bootHeader : SetupHeader) : Outcome KernelLoaderError Unit := do
  .ensure (bootHeader.header == HDRS) (.bzimage .invalidBzImage)
  .ensure (!(bootHeader.version < 0x0200 || bootHeader.loadflags &&& 0x1 == 0)) (.bzimage .invalidBzImage)

def setupSectors (bootHeader : SetupHeader) : Nat :=
  if bootHeader.setupSects.toNat = 0 then 4 else bootHeader.setupSects.toNat

def load (mem : GuestMemoryT) (kernelOffset highmemStartAddress : Option UInt64) :
    Traced F Effect KernelLoaderError KernelLoaderResult := do
  let kernelSize ← .exec ((Seek.seek .fromEnd).mapErr fun _ => .bzimage .seekBzImageEnd)
  let _ ← .exec ((Seek.seek (.start 0x1F1)).mapErr fun _ => .bzimage .seekBzImageHeader)
  let bootHeader ← .exec readHeader
  .lift (validateHeader bootHeader)
  let setupSize ← .lift (.okOr ((checkedAdd (setupSectors bootHeader) 1).bind (checkedMul · 512)) (.bzimage .overflow))
  let kernelSize ← .lift (.okOr (checkedSub kernelSize setupSize) (.bzimage .underflow))
  .lift (match highmemStartAddress with
    | some addr => .ensure (!(bootHeader.code32Start.toNat < addr.toNat)) .invalidKernelStartAddress
    | none => .ok ())
  let memOffset := match kernelOffset with
    | some start => start.toNat
    | none => bootHeader.code32Start.toNat
  let _ ← .exec ((Seek.seek (.start setupSize)).mapErr fun _ => .bzimage .seekBzImageCompressedKernel)
  (mem.readExactVolatileFrom memOffset kernelSize).mapErr fun _ => .bzimage .readBzImageCompressedKernel
  let kernelEnd ← .lift (.okOr (checkedAdd memOffset kernelSize) .memoryOverflow)
  -- `mem_offset.raw_value() as u32`
  return { kernelLoad := memOffset, kernelEnd, setupHeader := some { bootHeader with code32Start := .ofNat memOffset } }

/-! ## An image in memory -/

def imageHeader (image : List UInt8) : SetupHeader :=
  let data := (image.drop 0x1F1).take SETUP_HEADER_SIZE
  .ofBytes (data ++ .replicate (SETUP_HEADER_SIZE - data.length) 0)

/-- The bytes before the kernel. -/
def setupSize (image : List UInt8) : Nat := 512 * (setupSectors (imageHeader image) + 1)

/-- Where the kernel goes. -/
def loadAddress (kernelOffset : Option UInt64) (image : List UInt8) : Nat :=
  match kernelOffset with
  | some start => start.toNat
  | none => (imageHeader image).code32Start.toNat

theorem setupSize_of_okOr {image : List UInt8} {size : Nat} {error : KernelLoaderError}
    (h : Outcome.okOr ((checkedAdd (setupSectors (imageHeader image)) 1).bind (checkedMul · 512)) error = .ok size) :
    size = setupSize image := by
  obtain ⟨sectors, hsectors, hsize⟩ := Option.bind_eq_some_iff.1 (Outcome.okOr_eq_ok.1 h)
  obtain ⟨_, rfl⟩ := checkedAdd_eq_some.1 hsectors
  obtain ⟨_, rfl⟩ := checkedMul_eq_some.1 hsize
  exact Nat.mul_comm _ _

theorem load_eq_ok {mem : GuestMemoryT} {kernelOffset highmemStartAddress : Option UInt64} {image f' : Cursor}
    {result : KernelLoaderResult} {trace : List Effect}
    (h : load mem kernelOffset highmemStartAddress image = ⟨.ok result, f', trace⟩) :
    setupSize image.data ≤ image.data.length ∧
    result =
      { kernelLoad := loadAddress kernelOffset image.data
        kernelEnd := loadAddress kernelOffset image.data + (image.data.length - setupSize image.data)
        setupHeader := some { imageHeader image.data with
          code32Start := .ofNat (loadAddress kernelOffset image.data) } } ∧
    mem.readExactVolatileFrom (loadAddress kernelOffset image.data) (image.data.length - setupSize image.data)
      { image with pos := setupSize image.data } = ⟨.ok (), f', trace⟩ := by
  obtain ⟨length, f₁, hend, h₁⟩ := exec_bind_eq_ok h
  cases hend
  obtain ⟨_, f₂, hseek, h₂⟩ := exec_bind_eq_ok h₁
  cases hseek
  obtain ⟨bootHeader, f₃, hheader, h₃⟩ := exec_bind_eq_ok h₂
  obtain ⟨rfl, hdata⟩ : bootHeader = imageHeader image.data ∧ f₃.data = image.data := by
    cases hheader
    exact ⟨rfl, rfl⟩
  obtain ⟨_, _, h₄⟩ := lift_bind_eq_ok h₃
  obtain ⟨size, hsize, h₅⟩ := lift_bind_eq_ok h₄
  obtain rfl := setupSize_of_okOr hsize
  obtain ⟨kernelSize, hkernel, h₆⟩ := lift_bind_eq_ok h₅
  obtain ⟨hle, rfl⟩ := checkedSub_eq_some.1 (Outcome.okOr_eq_ok.1 hkernel)
  obtain ⟨_, _, h₇⟩ := lift_bind_eq_ok h₆
  obtain ⟨_, f₄, hstart, h₈⟩ := exec_bind_eq_ok h₇
  have hf₄ : f₄ = { image with pos := setupSize image.data } := by
    cases hstart
    show Cursor.mk f₃.data _ = _
    rw [hdata]
  obtain ⟨_, f₅, w₁, w₂, hcopy, h₉, rfl⟩ := bind_eq_ok h₈
  obtain ⟨kernelEnd, hkernelEnd, h₁₀⟩ := lift_bind_eq_ok h₉
  obtain ⟨_, rfl⟩ := checkedAdd_eq_some.1 (Outcome.okOr_eq_ok.1 hkernelEnd)
  have hread := mapErr_eq_ok hcopy
  rw [hf₄] at hread
  cases h₁₀
  rw [List.append_nil]
  exact ⟨hle, rfl, hread⟩

/-- **The result fits what is in guest memory**: the kernel is at `kernel_load` up to `kernel_end`, and nothing else
has changed.  The setup header has room for an address of 32 bits, so it has that of the result exactly if the kernel
is loaded below 4 GiB. -/
theorem bzimage_load_consistent_iff {mem : GuestMemory} {kernelOffset highmemStartAddress : Option UInt64}
    {image : Cursor} {result : KernelLoaderResult}
    (hload : (load mem.asT kernelOffset highmemStartAddress image).outcome = .ok result) :
    (∃ header, result.setupHeader = some header ∧ header.setupSects = (imageHeader image.data).setupSects ∧
      (header.code32Start.toNat = result.kernelLoad ↔ loadAddress kernelOffset image.data < 2 ^ 32)) ∧
    result.kernelLoad = loadAddress kernelOffset image.data ∧ setupSize image.data ≤ image.data.length ∧
    result.kernelEnd = result.kernelLoad + (image.data.length - setupSize image.data) ∧
    mem.Mapped result.kernelLoad (image.data.length - setupSize image.data) ∧
    (let after := mem.apply (load mem.asT kernelOffset highmemStartAddress image).trace
     bytesAt after.bytes result.kernelLoad (image.data.length - setupSize image.data) =
        image.data.drop (setupSize image.data) ∧
      ∀ a, a < result.kernelLoad ∨ result.kernelEnd ≤ a → after.bytes a = mem.bytes a) := by
  rcases heq : load mem.asT kernelOffset highmemStartAddress image with ⟨o, f', trace⟩
  rw [heq] at hload
  cases hload
  obtain ⟨hle, rfl, hread⟩ := load_eq_ok heq
  obtain ⟨hmapped, _, hmoved⟩ := GuestMemoryT.readExactVolatileFrom_eq_ok hread
  -- the rest of the image is as long as what is read
  have hbytes : applyBytes mem.bytes trace = storeBytes mem.bytes (loadAddress kernelOffset image.data)
      (image.data.drop (setupSize image.data)) := by
    rw [hmoved.apply]
    show storeBytes _ _ ((image.data.drop (setupSize image.data)).take _) = _
    rw [List.take_of_length_le (Nat.le_of_eq List.length_drop)]
  refine ⟨⟨_, rfl, rfl, ?_⟩, rfl, hle, rfl, hmapped, ?_, fun a ha => ?_⟩
  · exact Nat.mod_eq_iff_lt (by decide)
  · show bytesAt (applyBytes mem.bytes trace) _ _ = _
    rw [hbytes, ← List.length_drop]
    exact bytesAt_storeBytes_same _ _ _
  · show applyBytes mem.bytes trace a = _
    rw [hbytes]
    apply storeBytes_of_outside
    rw [List.length_drop]
    exact ha

/-- An image with one setup sector besides the boot sector, and a kernel of eight bytes for 1 MiB. -/
def smallImage : Cursor where
  data := .replicate 0x1F1 0 ++ [1] ++ .replicate 16 0 ++ [0x48, 0x64, 0x72, 0x53, 0, 2] ++ .replicate 9 0 ++
    [1, 0, 0, 0, 0, 0x10, 0] ++ .replicate 488 0 ++ [1, 2, 3, 4, 5, 6, 7, 8]
  pos := 0

/-- Guest memory at 1 MiB and at 4 GiB. -/
def highMemory : GuestMemory :=
  ⟨[⟨0x100000, 0x12000, 0x10000, by decide, by decide⟩, ⟨0x100000000, 0x13000, 0x200000, by decide, by decide⟩],
    by decide, fun _ => 0xff⟩

theorem code32_start_truncated : (load highMemory.asT (some 0x100000000) none smallImage).outcome =
      .ok { kernelLoad := 0x100000000, kernelEnd := 0x100000008, setupHeader := some
              { setupSects := 1, header := HDRS, version := 0x200, loadflags := 1, code32Start := 0 } } := by
  decide +kernel

theorem bzimage_load_consistent_default : (load highMemory.asT none (some 0x100000) smallImage).outcome =
      .ok { kernelLoad := 0x100000, kernelEnd := 0x100008, setupHeader := some
              { setupSects := 1, header := HDRS, version := 0x200, loadflags := 1, code32Start := 0x100000 } } ∧
    bytesAt (highMemory.apply (load highMemory.asT none (some 0x100000) smallImage).trace).bytes 0x100000 8 =
      [1, 2, 3, 4, 5, 6, 7, 8] := by
  have hload : (load highMemory.asT none (some 0x100000) smallImage).outcome =
      .ok { kernelLoad := 0x100000, kernelEnd := 0x100008, setupHeader := some
              { setupSects := 1, header := HDRS, version := 0x200, loadflags := 1, code32Start := 0x100000 } } := by
    decide +kernel
  have hsize : smallImage.data.length - setupSize smallImage.data = 8 := by decide +kernel
  obtain ⟨_, _, _, _, _, hbytes, _⟩ := bzimage_load_consistent_iff hload
  rw [hsize] at hbytes
  decide +kernel

end RustVmm.LinuxLoader.BzImage
