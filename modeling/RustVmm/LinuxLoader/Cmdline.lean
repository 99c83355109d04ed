import Mathlib.Data.List.DropRight
import RustVmm.Lib.Outcome
import RustVmm.Lib.Run
import RustVmm.Lib.U64

/-!
# The kernel command line

Model of `linux-loader/src/cmdline/mod.rs`.  Strings are lists of characters, and `len` is the number of their bytes.

* `Insertion.perform_eq` — an insertion either does nothing or appends its string, and which of them is decided by its
  checks and the size.
* `cmdline_capacity` — capacity and contents, after any sequence of insertions.
-/

set_option autoImplicit false

namespace RustVmm.LinuxLoader

open Lib List Outcome Exec

/-! ## Strings -/

abbrev Str := List Char

/-- `str::len`, in bytes. -/
def len (s : Str) : Nat := (s.map Char.utf8Size).sum

/-- `char::is_whitespace`: the Unicode property `White_Space`. -/
def isWhitespace (c : Char) : Bool :=
  let n := c.toNat
  (9 ≤ n && n ≤ 13) || n == 0x20 || n == 0x85 || n == 0xa0 || n == 0x1680 ||
    (0x2000 ≤ n && n ≤ 0x200a) || n == 0x2028 || n == 0x2029 || n == 0x202f || n == 0x205f || n == 0x3000

def trim (s : Str) : Str := (s.dropWhile isWhitespace).rdropWhile isWhitespace

def bytes (s : Str) : List UInt8 := s.flatMap String.utf8EncodeChar

theorem len_append (s t : Str) : len (s ++ t) = len s + len t := by
  rw [len, map_append, sum_append]
  rfl

theorem len_cons (c : Char) (s : Str) : len (c :: s) = c.utf8Size + len s := rfl

theorem length_bytes (s : Str) : (bytes s).length = len s := by
  rw [bytes, length_flatMap]
  simp only [String.length_utf8EncodeChar]
  rfl

/-! ## Validation -/

inductive Error where
  | nullTerminator
  | noBootArgsInserted
  | invalidCapacity
  | invalidAscii
  | hasSpace
  | hasEquals
  | missingVal (key : Str)
  | mmioSize
  | tooLarge
  | noQuoteSpace
  | invalidQuote
  deriving DecidableEq, Repr

def validChar (c : Char) : Bool := ' ' ≤ c && c ≤ '~'

def validStr (s : Str) : Outcome Error Unit :=
  if s.all validChar then .ok () else .err .invalidAscii

def isQuoted (s : Str) : Bool :=
  if len s < 2 then false
  else match s.head?, s.getLast? with
    | some first, some last => first == '"' && last == '"'
    | _, _ => false

def containsDoubleQuotes (s : Str) : Bool :=
  if len s < 3 then false else ((s.drop 1).take (len s - 2)).any (· == '"')

def validKey (s : Str) : Outcome Error Unit :=
  if !s.all validChar then .err .invalidAscii
  else if s.contains ' ' then .err .hasSpace
  else if s.contains '=' then .err .hasEquals
  else .ok ()

def validValue (s : Str) : Outcome Error Unit :=
  if !s.all validChar then .err .invalidAscii
  else if containsDoubleQuotes s then .err .invalidQuote
  else if s.contains ' ' && !isQuoted s then .err .noQuoteSpace
  else .ok ()

/-! ## The command line -/

def INIT_ARGS_SEPARATOR : Str := [' ', '-', '-', ' ']

structure Cmdline where
  bootArgs : Str
  initArgs : Str
  capacity : UInt64
  deriving DecidableEq, Repr

/-- `a + b` of `usize`, which panics on overflow. -/
def addUsize {ε : Type} (a b : Nat) : Outcome ε Nat := .unwrap (checkedAdd a b)

variable {valid : Outcome Error Unit}

namespace Cmdline

def new (capacity : UInt64) : Outcome Error Cmdline :=
  if capacity = 0 then .err .invalidCapacity else .ok ⟨[], [], capacity⟩

def getNullTerminatedRepresentationSize (self : Cmdline) : Outcome Error Nat := do
  let size ← addUsize (len self.bootArgs) 1
  if self.initArgs.isEmpty then return size
  else do
    let more ← addUsize (len INIT_ARGS_SEPARATOR) (len self.initArgs)
    addUsize size more

def insertStr (slug : Str) : Exec Cmdline Error Unit := do
  let s := trim slug
  .lift (validStr s)
  let self ← .get
  let size ← .lift self.getNullTerminatedRepresentationSize
  let size ← .lift (if self.bootArgs.isEmpty then .ok size else .okOr (checkedAdd size 1) .tooLarge)
  let size ← .lift (.okOr (checkedAdd size (len s)) .tooLarge)
  if size > self.capacity.toNat then .lift (.err .tooLarge)
  else
    .set { self with
      bootArgs := (if self.bootArgs.isEmpty then self.bootArgs else self.bootArgs ++ [' ']) ++ s }

def insertInitArgs (slug : Str) : Exec Cmdline Error Unit := do
  let s := trim slug
  .lift (validStr s)
  let self ← .get
  let size ← .lift self.getNullTerminatedRepresentationSize
  let size ← .lift (.okOr (checkedAdd size (if self.initArgs.isEmpty then len INIT_ARGS_SEPARATOR else 1)) .tooLarge)
  let size ← .lift (.okOr (checkedAdd size (len s)) .tooLarge)
  if size > self.capacity.toNat then .lift (.err .tooLarge)
  else
    .set { self with
      initArgs := (if self.initArgs.isEmpty then self.initArgs else self.initArgs ++ [' ']) ++ s }

def insert (key val : Str) : Exec Cmdline Error Unit := do
  .lift (validKey key)
  .lift (validValue val)
  insertStr (key ++ '=' :: val)

def insertMultiple (key : Str) (vals : List Str) : Exec Cmdline Error Unit := do
  .lift (validKey key)
  .lift (.ensure (!vals.isEmpty) (.missingVal key))
  .lift (vals.forM validValue)
  insertStr (key ++ '=' :: [','].intercalate vals)

def guestusizeToStr (size : Nat) : Str :=
  if size % 2 ^ 30 = 0 then Nat.toDigits 10 (size / 2 ^ 30) ++ ['G']
  else if size % 2 ^ 20 = 0 then Nat.toDigits 10 (size / 2 ^ 20) ++ ['M']
  else if size % 2 ^ 10 = 0 then Nat.toDigits 10 (size / 2 ^ 10) ++ ['K']
  else Nat.toDigits 10 size

/-- The argument of a virtio device, `<size>@<baseaddr>:<irq>[:<id>]`. -/
def deviceStr (size baseaddr : UInt64) (irq : UInt32) (id : Option UInt32) : Str :=
  "virtio_mmio.device=".toList ++ guestusizeToStr size.toNat ++ "@0x".toList ++
    Nat.toDigits 16 baseaddr.toNat ++ ':' :: Nat.toDigits 10 irq.toNat ++
      match id with
      | none => []
      | some id => ':' :: Nat.toDigits 10 id.toNat

def addVirtioMmioDevice (size baseaddr : UInt64) (irq : UInt32) (id : Option UInt32) : Exec Cmdline Error Unit := do
  .lift (.ensure (size ≠ 0) .mmioSize)
  insertStr (deviceStr size baseaddr irq id)

/-- `CString::new`: the bytes without the terminating NUL. -/
def cstringNew (s : Str) : Outcome Error (List UInt8) :=
  if (bytes s).contains 0 then .err .nullTerminator else .ok (bytes s)

def asCstring (self : Cmdline) : Outcome Error (List UInt8) :=
  if self.bootArgs.isEmpty && self.initArgs.isEmpty then cstringNew []
  else if self.bootArgs.isEmpty then .err .noBootArgsInserted
  else if self.initArgs.isEmpty then cstringNew self.bootArgs
  else cstringNew (self.bootArgs ++ INIT_ARGS_SEPARATOR ++ self.initArgs)

def checkOutsideDoubleQuotes (slug : Str) : Bool := slug.count '"' % 2 == 0

def findSeparator (before : Str) : Str → Option (Str × Str)
  | [] => none
  | c :: rest =>
    if INIT_ARGS_SEPARATOR.isPrefixOf (c :: rest) then
      if checkOutsideDoubleQuotes before then some (before, rest.drop 3)
      else findSeparator (before ++ INIT_ARGS_SEPARATOR) (rest.drop 3)
    else findSeparator (before ++ [c]) rest
termination_by s => s.length
decreasing_by
  · simp only [List.length_drop, List.length_cons]
    omega
  · simp only [List.length_cons]
    omega

def tryFrom (cmdlineRaw : Str) (capacity : UInt64) : Outcome Error Cmdline := do
  if capacity = 0 then .err .invalidCapacity
  else do
    let (bootArgs, initArgs) := (findSeparator [] cmdlineRaw).getD (cmdlineRaw, [])
    let bootArgs := trim bootArgs
    let initArgs := trim initArgs
    let size ← .okOr (checkedAdd (len bootArgs) 1) Error.tooLarge
    let size ←
      if initArgs.isEmpty then .ok size
      else do
        let size ← .okOr (checkedAdd size (len INIT_ARGS_SEPARATOR)) Error.tooLarge
        .okOr (checkedAdd size (len initArgs)) Error.tooLarge
    if size > capacity.toNat then .err .invalidCapacity
    else .ok ⟨bootArgs, initArgs, capacity⟩

/-! ## Sizes -/

/-- Number of bytes of two halves with the separator and the NUL. -/
def sizeOf (bootArgs initArgs : Str) : Nat :=
  len bootArgs + 1 + if initArgs = [] then 0 else len INIT_ARGS_SEPARATOR + len initArgs

def Fits (self : Cmdline) : Prop := sizeOf self.bootArgs self.initArgs ≤ self.capacity.toNat

theorem capacity_le (self : Cmdline) : self.capacity.toNat ≤ U64_MAX := by
  have := self.capacity.toNat_lt
  rw [U64_MAX_eq]
  omega

variable {self : Cmdline}

theorem getNullTerminatedRepresentationSize_eq (h : self.Fits) :
    self.getNullTerminatedRepresentationSize = .ok (sizeOf self.bootArgs self.initArgs) := by
  have hcap := self.capacity_le
  unfold Fits sizeOf at h
  unfold getNullTerminatedRepresentationSize sizeOf addUsize
  by_cases hinit : self.initArgs = []
  · rw [checkedAdd_of_le (by omega), hinit]
    rfl
  · rw [if_neg hinit] at h ⊢
    rw [checkedAdd_of_le (by omega), checkedAdd_of_le (by omega), unwrap_some, ok_bind,
      if_neg (by simpa using hinit), unwrap_some, ok_bind, checkedAdd_of_le (by omega)]
    rfl

/-- One half with a string added to it. -/
def push (args s : Str) : Str := if args = [] then s else args ++ ' ' :: s

theorem push_eq (args s : Str) : (if args.isEmpty then args else args ++ [' ']) ++ s = push args s := by
  unfold push
  cases args <;> simp

theorem len_push (args s : Str) : len (push args s) = (len args + if args = [] then 0 else 1) + len s := by
  unfold push
  by_cases h : args = []
  · rw [h]
    exact (Nat.zero_add _).symm
  · rw [if_neg h, if_neg h, len_append, Nat.add_assoc]
    rfl

theorem charge_set {result : Cmdline} {size l : Nat} {first : Outcome Error Nat}
    (hfirst : first = .ok size ∨ first = .err .tooLarge ∧ U64_MAX < size) :
    (do let size ← lift first
        let size ← .lift (.okOr (checkedAdd size l) .tooLarge)
        if size > self.capacity.toNat then .lift (.err .tooLarge) else .set result :
      Exec Cmdline Error Unit) self =
      if self.capacity.toNat < size + l then (.err .tooLarge, self) else (.ok (), result) := by
  have hcap := self.capacity_le
  rcases hfirst with rfl | ⟨rfl, hlt⟩
  · by_cases hle : size + l ≤ U64_MAX
    · rw [lift_bind_apply]
      dsimp only
      rw [checkedAdd_of_le hle, lift_bind_apply]
      dsimp only [okOr_some]
      split <;> rfl
    · rw [lift_bind_apply]
      dsimp only
      rw [checkedAdd_of_lt (by omega), if_pos (by omega)]
      rfl
  · rw [lift_bind_apply, if_pos (by omega)]

theorem okOr_checkedAdd (a b : Nat) : (okOr (checkedAdd a b) Error.tooLarge) = .ok (a + b) ∨
    okOr (checkedAdd a b) Error.tooLarge = .err .tooLarge ∧ U64_MAX < a + b := by
  by_cases h : a + b ≤ U64_MAX
  · exact .inl (by rw [checkedAdd_of_le h]; rfl)
  · exact .inr ⟨by rw [checkedAdd_of_lt (by omega)]; rfl, by omega⟩

/-- How an insertion ends, if `valid` is the outcome of the checks and `result` the longer command line. -/
def outcome (self result : Cmdline) (valid : Outcome Error Unit) : Outcome Error Unit × Cmdline :=
  match valid with
  | .ok _ =>
    if self.capacity.toNat < sizeOf result.bootArgs result.initArgs then (.err .tooLarge, self) else (.ok (), result)
  | .err e => (.err e, self)
  | .panic => (.panic, self)

theorem lift_bind_outcome {result : Cmdline} {f : Exec Cmdline Error Unit}
    (h : f self = self.outcome result valid) (check : Outcome Error Unit) :
    (lift check >>= fun _ => f) self = self.outcome result (check >>= fun _ => valid) := by
  cases check with
  | ok u => exact h
  | err e | panic => rfl

theorem lift_bind_outcome_ok {result : Cmdline} {f : Exec Cmdline Error Unit}
    (h : f self = self.outcome result (.ok ())) (check : Outcome Error Unit) :
    (lift check >>= fun _ => f) self = self.outcome result check := by
  rw [lift_bind_outcome h]
  cases check <;> rfl

theorem outcome_tooLarge (self result : Cmdline) : (self.outcome result (.ok ())).1 = .err .tooLarge ↔
    self.capacity.toNat < sizeOf result.bootArgs result.initArgs := by
  unfold outcome
  dsimp only
  split
  · rename_i h
    exact iff_of_true rfl h
  · rename_i h
    exact iff_of_false nofun h

theorem outcome_ne_panic (self result : Cmdline) (h : valid ≠ .panic) :
    (self.outcome result valid).1 ≠ .panic := by
  unfold outcome
  split
  · split <;> exact nofun
  · exact nofun
  · exact absurd rfl h

theorem insertStr_eq {self : Cmdline} (h : self.Fits) (slug : Str) : insertStr slug self =
    self.outcome { self with bootArgs := push self.bootArgs (trim slug) } (validStr (trim slug)) := by
  refine lift_bind_outcome_ok ?_ _
  have hsize : sizeOf (push self.bootArgs (trim slug)) self.initArgs =
      (sizeOf self.bootArgs self.initArgs + if self.bootArgs = [] then 0 else 1) + len (trim slug) := by
    unfold sizeOf
    rw [len_push]
    omega
  rw [bind_of_ok (get_apply self), getNullTerminatedRepresentationSize_eq h, push_eq, outcome, hsize]
  refine charge_set ?_
  by_cases hboot : self.bootArgs = []
  · rw [hboot]
    exact .inl rfl
  · rw [if_neg (by simpa using hboot), if_neg hboot]
    exact okOr_checkedAdd _ _

theorem insertInitArgs_eq (h : self.Fits) {slug : Str} (hs : trim slug ≠ []) : insertInitArgs slug self =
    self.outcome { self with initArgs := push self.initArgs (trim slug) } (validStr (trim slug)) := by
  refine lift_bind_outcome_ok ?_ _
  have hsize : sizeOf self.bootArgs (push self.initArgs (trim slug)) = (sizeOf self.bootArgs self.initArgs +
        if self.initArgs.isEmpty then len INIT_ARGS_SEPARATOR else 1) + len (trim slug) := by
    have hpush : push self.initArgs (trim slug) ≠ [] := by
      unfold push
      split
      · exact hs
      · simp
    unfold sizeOf
    rw [if_neg hpush, len_push]
    by_cases hinit : self.initArgs = []
    · simp only [hinit, if_true, isEmpty_nil]
      rw [show len [] = 0 from rfl]
      omega
    · rw [if_neg hinit, if_neg hinit, if_neg (by simpa using hinit)]
      omega
  rw [bind_of_ok (get_apply self), getNullTerminatedRepresentationSize_eq h, lift_bind_apply, push_eq, outcome, hsize]
  exact charge_set (okOr_checkedAdd _ _)

end Cmdline

/-! ## Insertions as data -/

inductive Insertion where
  | insert (key val : Str)
  | insertMultiple (key : Str) (vals : List Str)
  | insertStr (slug : Str)
  | insertInitArgs (slug : Str)
  | addVirtioMmioDevice (size baseaddr : UInt64) (irq : UInt32) (id : Option UInt32)
  deriving DecidableEq, Repr

variable {cl : Cmdline}

namespace Insertion

open Cmdline (lift_bind_outcome insertStr_eq insertInitArgs_eq)

def perform : Insertion → Exec Cmdline Error Unit
  | insert key val => Cmdline.insert key val
  | insertMultiple key vals => Cmdline.insertMultiple key vals
  | insertStr slug => Cmdline.insertStr slug
  | insertInitArgs slug => Cmdline.insertInitArgs slug
  | addVirtioMmioDevice size baseaddr irq id => Cmdline.addVirtioMmioDevice size baseaddr irq id

def text : Insertion → Str
  | insert key val => key ++ '=' :: val
  | insertMultiple key vals => key ++ '=' :: [','].intercalate vals
  | insertStr slug => slug
  | insertInitArgs slug => slug
  | addVirtioMmioDevice size baseaddr irq id => Cmdline.deviceStr size baseaddr irq id

def isInit : Insertion → Bool
  | insertInitArgs _ => true
  | _ => false

/-- The checks of what is inserted, without those of the size. -/
def validate : Insertion → Outcome Error Unit
  | insert key val => do
    validKey key
    validValue val
    validStr (trim (key ++ '=' :: val))
  | insertMultiple key vals => do
    validKey key
    .ensure (!vals.isEmpty) (.missingVal key)
    vals.forM validValue
    validStr (trim (key ++ '=' :: [','].intercalate vals))
  | insertStr slug => validStr (trim slug)
  | insertInitArgs slug => validStr (trim slug)
  | addVirtioMmioDevice size baseaddr irq id => do
    .ensure (size ≠ 0) .mmioSize
    validStr (trim (Cmdline.deviceStr size baseaddr irq id))

/-- The command line with the string of the insertion. -/
def result (c : Insertion) (cl : Cmdline) : Cmdline :=
  if c.isInit then { cl with initArgs := Cmdline.push cl.initArgs (trim c.text) }
  else { cl with bootArgs := Cmdline.push cl.bootArgs (trim c.text) }

/-- A string that is not only whitespace. -/
def NotBlank (c : Insertion) : Prop := trim c.text ≠ []

instance (c : Insertion) : Decidable c.NotBlank := inferInstanceAs (Decidable (_ ≠ _))

variable {valid : Outcome Error Unit}

theorem perform_eq (h : cl.Fits) {c : Insertion} (hs : c.NotBlank) :
    c.perform cl = cl.outcome (c.result cl) c.validate := by
  cases c with
  | insert key val => exact lift_bind_outcome (lift_bind_outcome (insertStr_eq h _) _) _
  | insertMultiple key vals => exact lift_bind_outcome (lift_bind_outcome (lift_bind_outcome (insertStr_eq h _) _) _) _
  | insertStr slug => exact insertStr_eq h slug
  | insertInitArgs slug => exact insertInitArgs_eq h hs
  | addVirtioMmioDevice size baseaddr irq id => exact lift_bind_outcome (insertStr_eq h _) _

variable (c : Insertion)

theorem validate_ne_panic : c.validate ≠ .panic := by
  have hstr : ∀ s, validStr s ≠ .panic := fun s => by unfold validStr; split <;> exact nofun
  have hkey : ∀ s, validKey s ≠ .panic := fun s => by
    unfold validKey
    repeat' split
    all_goals exact nofun
  have hvalue : ∀ s, validValue s ≠ .panic := fun s => by
    unfold validValue
    repeat' split
    all_goals exact nofun
  cases c with
  | insert key val =>
    exact bind_ne_panic (hkey key) fun _ _ => bind_ne_panic (hvalue val) fun _ _ => hstr _
  | insertMultiple key vals =>
    exact bind_ne_panic (hkey key) fun _ _ =>
      bind_ne_panic (ensure_ne_panic _ _) fun _ _ =>
        bind_ne_panic (forM_ne_panic vals hvalue) fun _ _ => hstr _
  | insertStr slug | insertInitArgs slug => exact hstr _
  | addVirtioMmioDevice size baseaddr irq id =>
    exact bind_ne_panic (ensure_ne_panic _ _) fun _ _ => hstr _

/-! ## Sequences of insertions -/

def step (cl : Cmdline) (c : Insertion) : Cmdline := (c.perform cl).2

/-- The insertions of a sequence that succeed. -/
def succeeded : Cmdline → List Insertion → List Insertion
  | _, [] => []
  | cl, c :: cs =>
    if (c.perform cl).1 = .ok () then c :: succeeded (step cl c) cs else succeeded (step cl c) cs

theorem perform_cases (h : cl.Fits) {c : Insertion} (hs : c.NotBlank) :
    ((c.perform cl).1 ≠ .ok () ∧ (c.perform cl).2 = cl) ∨ (c.perform cl = (.ok (), c.result cl) ∧
        Cmdline.sizeOf (c.result cl).bootArgs (c.result cl).initArgs ≤ cl.capacity.toNat) := by
  rw [perform_eq h hs]
  unfold Cmdline.outcome
  split
  · split
    · exact .inl ⟨nofun, rfl⟩
    · exact .inr ⟨rfl, by omega⟩
  · exact .inl ⟨nofun, rfl⟩
  · exact .inl ⟨nofun, rfl⟩

theorem capacity_result (cl : Cmdline) : (c.result cl).capacity = cl.capacity := by
  unfold result
  split <;> rfl

theorem fits_step (h : cl.Fits) {c : Insertion} (hs : c.NotBlank) :
    (step cl c).Fits ∧ (step cl c).capacity = cl.capacity := by
  unfold step
  rcases perform_cases h hs with ⟨_, hsame⟩ | ⟨hdone, hroom⟩
  · rw [hsame]
    exact ⟨h, rfl⟩
  · rw [hdone]
    refine ⟨?_, c.capacity_result cl⟩
    show _ ≤ (c.result cl).capacity.toNat
    rw [capacity_result]
    exact hroom

/-- The arguments of one half to start with. -/
def start (args : Str) : List Str := if args = [] then [] else [args]

theorem intercalate_start (args : Str) : [' '].intercalate (start args) = args := by
  unfold start
  split
  · rename_i h
    rw [h]
    rfl
  · simp [intercalate]

theorem intercalate_start_push {args s : Str} (hs : s ≠ []) (rest : List Str) :
    [' '].intercalate (start (Cmdline.push args s) ++ rest) = [' '].intercalate (start args ++ s :: rest) := by
  unfold start Cmdline.push
  by_cases h : args = []
  · rw [if_pos h, if_pos h, if_neg hs]
    rfl
  · rw [if_neg h, if_neg h]
    cases rest with
    | nil => simp [intercalate]
    | cons r rest => simp [intercalate_cons_cons]

/-- The strings that one half gets from some insertions. -/
def added (init : Bool) (cs : List Insertion) : List Str :=
  (cs.filter fun c => c.isInit == init).map fun c => trim c.text

def half (init : Bool) (cl : Cmdline) : Str := if init then cl.initArgs else cl.bootArgs

variable (init : Bool)

theorem half_result (c : Insertion) (cl : Cmdline) : half init (c.result cl) =
      if c.isInit = init then Cmdline.push (half init cl) (trim c.text) else half init cl := by
  unfold half result
  cases init <;> cases c.isInit <;> rfl

variable {cs : List Insertion}

theorem half_run (h : cl.Fits) (hs : ∀ c ∈ cs, c.NotBlank) :
    half init (run step cl cs) = [' '].intercalate (start (half init cl) ++ added init (succeeded cl cs)) := by
  induction cs generalizing cl with
  | nil =>
    rw [succeeded, added, filter_nil, map_nil, append_nil, intercalate_start]
    rfl
  | cons c cs ih =>
    obtain ⟨hc, hcs⟩ := forall_mem_cons.1 hs
    rw [run_cons, ih (fits_step h hc).1 hcs, succeeded]
    unfold step
    rcases perform_cases h hc with ⟨hfail, hsame⟩ | ⟨hdone, _⟩
    · rw [hsame, if_neg hfail]
    · rw [hdone, if_pos rfl, half_result]
      unfold added
      by_cases hinit : c.isInit = init
      · rw [if_pos hinit, filter_cons_of_pos (by simpa using hinit), map_cons, intercalate_start_push hc]
      · rw [if_neg hinit, filter_cons_of_neg (by simpa using hinit)]

theorem fits_run (h : cl.Fits) (hs : ∀ c ∈ cs, c.NotBlank) :
    (run step cl cs).Fits ∧ (run step cl cs).capacity = cl.capacity := by
  induction cs generalizing cl with
  | nil => exact ⟨h, rfl⟩
  | cons c cs ih =>
    obtain ⟨hc, hcs⟩ := forall_mem_cons.1 hs
    obtain ⟨hfits, hcap⟩ := fits_step h hc
    obtain ⟨hfits', hcap'⟩ := ih hfits hcs
    exact ⟨hfits', hcap'.trans hcap⟩

end Insertion

/-! ## New command lines -/

variable {capacity : UInt64}

theorem Cmdline.new_eq_ok (h : Cmdline.new capacity = .ok cl) : capacity ≠ 0 ∧ cl = ⟨[], [], capacity⟩ := by
  unfold Cmdline.new at h
  split at h
  · cases h
  · rename_i hzero
    cases h
    exact ⟨hzero, rfl⟩

theorem Cmdline.fits_new (h : Cmdline.new capacity = .ok cl) : cl.Fits := by
  obtain ⟨hzero, rfl⟩ := new_eq_ok h
  have : capacity.toNat ≠ 0 := fun h => hzero (UInt64.toNat_inj.1 h)
  show 0 + 1 + 0 ≤ capacity.toNat
  omega

/-- What `try_from` takes for the two halves, before it trims them. -/
def Cmdline.halves (raw : Str) : Str × Str := (Cmdline.findSeparator [] raw).getD (raw, [])

variable {raw : Str}

theorem Cmdline.tryFrom_eq_ok : Cmdline.tryFrom raw capacity = .ok cl ↔
      cl = ⟨trim (halves raw).1, trim (halves raw).2, capacity⟩ ∧ cl.Fits := by
  unfold halves Cmdline.tryFrom
  generalize (Cmdline.findSeparator [] raw).getD (raw, []) = args
  obtain ⟨boot, init⟩ := args
  constructor
  · intro h
    split at h
    · cases h
    obtain ⟨size, hsize, h⟩ := bind_eq_ok.1 h
    obtain ⟨_, rfl⟩ := checkedAdd_eq_some.1 (okOr_eq_ok.1 hsize)
    have hstored : ∀ {total : Nat}, total = sizeOf (trim boot) (trim init) →
        (if total > capacity.toNat then err Error.invalidCapacity
          else .ok ⟨trim boot, trim init, capacity⟩) = .ok cl →
        cl = ⟨trim boot, trim init, capacity⟩ ∧ cl.Fits := by
      rintro total rfl hif
      split at hif
      · cases hif
      · rename_i hroom
        cases hif
        exact ⟨rfl, Nat.not_lt.1 hroom⟩
    split at h
    · rename_i hinit
      refine hstored ?_ h
      rw [sizeOf, if_pos (isEmpty_iff.1 hinit)]
    · rename_i hinit
      obtain ⟨sep, hsep, h⟩ := bind_eq_ok.1 h
      obtain ⟨total, htotal, h⟩ := bind_eq_ok.1 h
      obtain ⟨_, rfl⟩ := checkedAdd_eq_some.1 (okOr_eq_ok.1 hsep)
      obtain ⟨_, rfl⟩ := checkedAdd_eq_some.1 (okOr_eq_ok.1 htotal)
      refine hstored ?_ h
      rw [sizeOf, if_neg (fun h => hinit (isEmpty_iff.2 h)), Nat.add_assoc]
  · rintro ⟨rfl, hfits⟩
    have hcap := capacity_le ⟨trim boot, trim init, capacity⟩
    have hroom : sizeOf (trim boot) (trim init) ≤ capacity.toNat := hfits
    have hzero : capacity ≠ 0 := by
      rintro rfl
      exact absurd hroom (by unfold sizeOf; simp)
    unfold sizeOf at hroom
    dsimp only at hcap ⊢
    rw [if_neg hzero, checkedAdd_of_le (by omega), okOr_some, ok_bind]
    by_cases hinit : trim init = []
    · rw [if_pos hinit] at hroom
      rw [if_pos (isEmpty_iff.2 hinit), ok_bind, if_neg (Nat.not_lt.2 hroom)]
    · rw [if_neg hinit] at hroom
      rw [if_neg (fun h => hinit (isEmpty_iff.1 h)), checkedAdd_of_le (by omega), okOr_some,
        ok_bind, checkedAdd_of_le (by omega), okOr_some, ok_bind, if_neg (by omega)]

theorem Cmdline.fits_tryFrom (h : Cmdline.tryFrom raw capacity = .ok cl) : cl.Fits := (tryFrom_eq_ok.1 h).2

/-! ## Rendering -/

variable {b : List UInt8}

theorem Cmdline.cstringNew_eq_ok {s : Str} (h : Cmdline.cstringNew s = .ok b) : b = bytes s := by
  unfold Cmdline.cstringNew at h
  split at h
  · cases h
  · cases h
    rfl

theorem bytes_append (s t : Str) : bytes (s ++ t) = bytes s ++ bytes t := flatMap_append

theorem Cmdline.asCstring_eq_ok (h : cl.asCstring = .ok b) : b = bytes cl.bootArgs ++
      if cl.initArgs = [] then [] else bytes INIT_ARGS_SEPARATOR ++ bytes cl.initArgs := by
  unfold Cmdline.asCstring at h
  by_cases hinit : cl.initArgs = [] <;> by_cases hboot : cl.bootArgs = [] <;>
    simp only [hinit, hboot, List.isEmpty_iff, Bool.and_eq_true, if_true, if_false, and_true, and_false] at h ⊢
  · exact Cmdline.cstringNew_eq_ok h
  · rw [Cmdline.cstringNew_eq_ok h, append_nil]
  · cases h
  · rw [Cmdline.cstringNew_eq_ok h, bytes_append, bytes_append, append_assoc]

theorem Cmdline.length_asCstring (h : cl.asCstring = .ok b) :
    (b ++ [0]).length = Cmdline.sizeOf cl.bootArgs cl.initArgs := by
  rw [Cmdline.asCstring_eq_ok h]
  unfold Cmdline.sizeOf
  split
  · simp only [length_append, length_bytes, length_nil, length_singleton]
  · simp only [length_append, length_bytes, length_singleton]
    omega

/-- **Capacity and contents of a command line**, after every sequence of insertions. -/
theorem cmdline_capacity (cl₀ : Cmdline)
    (hnew : (∃ capacity, Cmdline.new capacity = .ok cl₀) ∨ ∃ raw capacity, Cmdline.tryFrom raw capacity = .ok cl₀)
    (cs : List Insertion) (hs : ∀ c ∈ cs, c.NotBlank) :
    let cl := run Insertion.step cl₀ cs
    cl.bootArgs = [' '].intercalate ((if cl₀.bootArgs = [] then [] else [cl₀.bootArgs]) ++
      ((Insertion.succeeded cl₀ cs).filter fun c => c.isInit == false).map fun c => trim c.text) ∧
    cl.initArgs = [' '].intercalate ((if cl₀.initArgs = [] then [] else [cl₀.initArgs]) ++
      ((Insertion.succeeded cl₀ cs).filter fun c => c.isInit == true).map fun c => trim c.text) ∧
    (∀ b, cl.asCstring = .ok b → (b ++ [0]).length ≤ cl₀.capacity.toNat ∧ b = bytes cl.bootArgs ++
        if cl.initArgs = [] then [] else bytes INIT_ARGS_SEPARATOR ++ bytes cl.initArgs) ∧
    (∀ c : Insertion, c.NotBlank → c.validate = .ok () → ((c.perform cl).1 = .err .tooLarge ↔
      cl₀.capacity.toNat < Cmdline.sizeOf (c.result cl).bootArgs (c.result cl).initArgs)) ∧
    ∀ c : Insertion, c.NotBlank → (c.perform cl).1 ≠ .panic ∧ ((c.perform cl).1 ≠ .ok () → (c.perform cl).2 = cl) := by
  intro cl
  have hfits₀ : cl₀.Fits := by
    rcases hnew with ⟨_, h⟩ | ⟨_, _, h⟩
    · exact Cmdline.fits_new h
    · exact Cmdline.fits_tryFrom h
  obtain ⟨hfits, hcap⟩ := Insertion.fits_run hfits₀ hs
  refine ⟨Insertion.half_run false hfits₀ hs, Insertion.half_run true hfits₀ hs, ?_, ?_, ?_⟩
  · intro b hb
    rw [Cmdline.length_asCstring hb, ← hcap]
    exact ⟨hfits, Cmdline.asCstring_eq_ok hb⟩
  · intro c hc hvalid
    rw [Insertion.perform_eq hfits hc, hvalid, ← hcap]
    exact cl.outcome_tooLarge (c.result cl)
  · intro c hc
    refine ⟨?_, fun hfail => ?_⟩
    · rw [Insertion.perform_eq hfits hc]
      exact cl.outcome_ne_panic _ c.validate_ne_panic
    · rcases Insertion.perform_cases hfits hc with ⟨_, hsame⟩ | ⟨hdone, _⟩
      · exact hsame
      · exact absurd (congrArg Prod.fst hdone) hfail

theorem cmdline_capacity_full :
    let cs := [.insertStr ['f', 'o', 'o'], .insertInitArgs ['b', 'a', 'r']]
    let cl := run Insertion.step ⟨[], [], 11⟩ cs
    cl.bootArgs = ['f', 'o', 'o'] ∧ cl.initArgs = ['b', 'a', 'r'] ∧
      ((Insertion.insertStr ['x']).perform cl).1 = .err .tooLarge := by
  intro cs cl
  obtain ⟨hboot, hinit, _, hroom, _⟩ := cmdline_capacity ⟨[], [], 11⟩ (.inl ⟨11, by decide⟩) cs (by decide)
  exact ⟨hboot.trans (by decide), hinit.trans (by decide),
    (hroom (.insertStr ['x']) (by decide) (by decide)).2 (by decide)⟩

end RustVmm.LinuxLoader
