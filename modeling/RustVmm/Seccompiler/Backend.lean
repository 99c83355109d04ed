import Mathlib.Tactic.Linarith
import RustVmm.Lib.ClassicBpf
import RustVmm.Lib.Outcome

/-!
# The seccomp backend

Model of `seccompiler/src/backend`: a filter and its compilation to classic BPF.

* `SeccompCondition`, `SeccompRule`, `SeccompFilter` — what has passed `validate`, with the check as a field.
* `SeccompFilter.intoBpf` — the compiler, `SeccompFilter.verdict` what a filter means.
-/

set_option autoImplicit false

namespace RustVmm.Seccompiler

open Lib Lib.ClassicBpf

inductive Error where
  | emptyRule
  | filterTooLarge (len : Nat)
  | identicalActions
  | invalidArgumentNumber
  | invalidTargetArch (arch : String)
  deriving DecidableEq, Repr

/-! ## `bpf.rs` -/

abbrev BpfProgram := List SockFilter

def ARG_NUMBER_MAX : UInt8 := 5
def CONDITION_MAX_LEN : UInt8 := 6
def BPF_MAX_LEN : Nat := 4096

def SECCOMP_DATA_NR_OFFSET : UInt8 := 0
def SECCOMP_DATA_ARCH_OFFSET : UInt8 := 4
def SECCOMP_DATA_ARGS_OFFSET : UInt8 := 16
def SECCOMP_DATA_ARG_SIZE : UInt8 := 8

def AUDIT_ARCH_X86_64 : UInt32 := 62 ||| 0x80000000 ||| 0x40000000
def AUDIT_ARCH_AARCH64 : UInt32 := 183 ||| 0x80000000 ||| 0x40000000
def AUDIT_ARCH_RISCV64 : UInt32 := 243 ||| 0x80000000 ||| 0x40000000

def bpfJump (code : UInt16) (k : UInt32) (jt jf : UInt8) : SockFilter := ⟨code, jt, jf, k⟩

def bpfStmt (code : UInt16) (k : UInt32) : SockFilter := ⟨code, 0, 0, k⟩

inductive TargetArch where
  | x86_64
  | aarch64
  | riscv64
  deriving DecidableEq, Repr

def TargetArch.getAuditValue : TargetArch → UInt32
  | .x86_64 => AUDIT_ARCH_X86_64
  | .aarch64 => AUDIT_ARCH_AARCH64
  | .riscv64 => AUDIT_ARCH_RISCV64

inductive SeccompAction where
  | allow
  | errno (x : UInt32)
  | killThread
  | killProcess
  | log
  | trace (x : UInt32)
  | trap
  | userNotif
  deriving DecidableEq, Repr

def SECCOMP_RET_KILL_PROCESS : UInt32 := 0x80000000
def SECCOMP_RET_KILL_THREAD : UInt32 := 0x00000000
def SECCOMP_RET_TRAP : UInt32 := 0x00030000
def SECCOMP_RET_ERRNO : UInt32 := 0x00050000
def SECCOMP_RET_USER_NOTIF : UInt32 := 0x7fc00000
def SECCOMP_RET_TRACE : UInt32 := 0x7ff00000
def SECCOMP_RET_LOG : UInt32 := 0x7ffc0000
def SECCOMP_RET_ALLOW : UInt32 := 0x7fff0000
def SECCOMP_RET_DATA : UInt32 := 0x0000ffff

/-- `u32::from(SeccompAction)`: the return code of an action. -/
def SeccompAction.toU32 : SeccompAction → UInt32
  | .allow => SECCOMP_RET_ALLOW
  | .errno x => SECCOMP_RET_ERRNO ||| (x &&& SECCOMP_RET_DATA)
  | .killThread => SECCOMP_RET_KILL_THREAD
  | .killProcess => SECCOMP_RET_KILL_PROCESS
  | .log => SECCOMP_RET_LOG
  | .trace x => SECCOMP_RET_TRACE ||| (x &&& SECCOMP_RET_DATA)
  | .trap => SECCOMP_RET_TRAP
  | .userNotif => SECCOMP_RET_USER_NOTIF

def buildArchValidationSequence (targetArch : TargetArch) : BpfProgram :=
  [bpfStmt (BPF_LD ||| BPF_W ||| BPF_ABS) SECCOMP_DATA_ARCH_OFFSET.toUInt32,
   bpfJump (BPF_JMP ||| BPF_JEQ ||| BPF_K) targetArch.getAuditValue 1 0,
   bpfStmt (BPF_RET ||| BPF_K) SECCOMP_RET_KILL_PROCESS]

def addU8 (a b : UInt8) : Outcome Error UInt8 :=
  if a.toNat + b.toNat < 256 then .ok (a + b) else .panic

def mulU8 (a b : UInt8) : Outcome Error UInt8 :=
  if a.toNat * b.toNat < 256 then .ok (a * b) else .panic

/-! ## `condition.rs` -/

inductive SeccompCmpArgLen where
  | dword
  | qword
  deriving DecidableEq, Repr

inductive SeccompCmpOp where
  | eq
  | ge
  | gt
  | le
  | lt
  | maskedEq (mask : UInt64)
  | ne
  deriving DecidableEq, Repr

/-- A condition on one argument; `arg_index` has passed `validate`. -/
structure SeccompCondition where
  argIndex : UInt8
  argLen : SeccompCmpArgLen
  operator : SeccompCmpOp
  value : UInt64
  argIndex_le : argIndex ≤ ARG_NUMBER_MAX
  deriving DecidableEq, Repr

namespace SeccompCondition

def new (argIndex : UInt8) (argLen : SeccompCmpArgLen) (operator : SeccompCmpOp)
    (value : UInt64) : Outcome Error SeccompCondition :=
  if h : argIndex ≤ ARG_NUMBER_MAX then .ok ⟨argIndex, argLen, operator, value, h⟩
  else .err .invalidArgumentNumber

/-- The offsets of the most and of the least significant half of the argument. -/
def getDataOffsets (self : SeccompCondition) : Outcome Error (UInt8 × UInt8) := do
  let argSize ← mulU8 self.argIndex SECCOMP_DATA_ARG_SIZE
  let argOffset ← addU8 SECCOMP_DATA_ARGS_OFFSET argSize
  let msbOffset ← addU8 argOffset (SECCOMP_DATA_ARG_SIZE / 2)
  return (msbOffset, argOffset)

def msb (v : UInt64) : UInt32 := (v >>> 32).toUInt32

def lsb (v : UInt64) : UInt32 := v.toUInt32

def halves (argLen : SeccompCmpArgLen) (msbCheck : Outcome Error BpfProgram)
    (lsbCheck : BpfProgram) : Outcome Error BpfProgram :=
  match argLen with
  | .dword => .ok lsbCheck
  | .qword => do
    let bpf ← msbCheck
    return bpf ++ lsbCheck

def intoEqBpf (self : SeccompCondition) (offset : UInt8) : Outcome Error BpfProgram := do
  let (msbOffset, lsbOffset) ← self.getDataOffsets
  halves self.argLen (do
      let jf ← addU8 offset 2
      return [bpfStmt (BPF_LD ||| BPF_W ||| BPF_ABS) msbOffset.toUInt32,
        bpfJump (BPF_JMP ||| BPF_JEQ ||| BPF_K) (msb self.value) 0 jf])
    [bpfStmt (BPF_LD ||| BPF_W ||| BPF_ABS) lsbOffset.toUInt32,
      bpfJump (BPF_JMP ||| BPF_JEQ ||| BPF_K) (lsb self.value) 0 offset]

def intoNeBpf (self : SeccompCondition) (offset : UInt8) : Outcome Error BpfProgram := do
  let (msbOffset, lsbOffset) ← self.getDataOffsets
  halves self.argLen (.ok [bpfStmt (BPF_LD ||| BPF_W ||| BPF_ABS) msbOffset.toUInt32,
      bpfJump (BPF_JMP ||| BPF_JEQ ||| BPF_K) (msb self.value) 0 2])
    [bpfStmt (BPF_LD ||| BPF_W ||| BPF_ABS) lsbOffset.toUInt32,
      bpfJump (BPF_JMP ||| BPF_JEQ ||| BPF_K) (lsb self.value) offset 0]

/-- `into_ge_bpf` and `into_gt_bpf`: they differ in the comparison of the least significant
half. -/
def intoGreaterBpf (cmp : UInt16) (self : SeccompCondition) (offset : UInt8) : Outcome Error BpfProgram := do
  let (msbOffset, lsbOffset) ← self.getDataOffsets
  halves self.argLen (do
      let jf ← addU8 offset 2
      return [bpfStmt (BPF_LD ||| BPF_W ||| BPF_ABS) msbOffset.toUInt32,
        bpfJump (BPF_JMP ||| BPF_JGT ||| BPF_K) (msb self.value) 3 0,
        bpfJump (BPF_JMP ||| BPF_JEQ ||| BPF_K) (msb self.value) 0 jf])
    [bpfStmt (BPF_LD ||| BPF_W ||| BPF_ABS) lsbOffset.toUInt32,
      bpfJump (BPF_JMP ||| cmp ||| BPF_K) (lsb self.value) 0 offset]

def intoGeBpf (self : SeccompCondition) (offset : UInt8) : Outcome Error BpfProgram :=
  intoGreaterBpf BPF_JGE self offset

def intoGtBpf (self : SeccompCondition) (offset : UInt8) : Outcome Error BpfProgram :=
  intoGreaterBpf BPF_JGT self offset

/-- `into_le_bpf` and `into_lt_bpf`. -/
def intoLessBpf (cmp : UInt16) (self : SeccompCondition) (offset : UInt8) : Outcome Error BpfProgram := do
  let (msbOffset, lsbOffset) ← self.getDataOffsets
  halves self.argLen (do
      let jt ← addU8 offset 3
      return [bpfStmt (BPF_LD ||| BPF_W ||| BPF_ABS) msbOffset.toUInt32,
        bpfJump (BPF_JMP ||| BPF_JGT ||| BPF_K) (msb self.value) jt 0,
        bpfJump (BPF_JMP ||| BPF_JEQ ||| BPF_K) (msb self.value) 0 2])
    [bpfStmt (BPF_LD ||| BPF_W ||| BPF_ABS) lsbOffset.toUInt32,
      bpfJump (BPF_JMP ||| cmp ||| BPF_K) (lsb self.value) offset 0]

def intoLeBpf (self : SeccompCondition) (offset : UInt8) : Outcome Error BpfProgram := intoLessBpf BPF_JGT self offset

def intoLtBpf (self : SeccompCondition) (offset : UInt8) : Outcome Error BpfProgram := intoLessBpf BPF_JGE self offset

def intoMaskedEqBpf (self : SeccompCondition) (offset : UInt8) (mask : UInt64) : Outcome Error BpfProgram := do
  let value := self.value &&& mask
  let (msbOffset, lsbOffset) ← self.getDataOffsets
  halves self.argLen (do
      let jf ← addU8 offset 3
      return [bpfStmt (BPF_LD ||| BPF_W ||| BPF_ABS) msbOffset.toUInt32,
        bpfStmt (BPF_ALU ||| BPF_AND ||| BPF_K) (msb mask),
        bpfJump (BPF_JMP ||| BPF_JEQ ||| BPF_K) (msb value) 0 jf])
    [bpfStmt (BPF_LD ||| BPF_W ||| BPF_ABS) lsbOffset.toUInt32, bpfStmt (BPF_ALU ||| BPF_AND ||| BPF_K) (lsb mask),
      bpfJump (BPF_JMP ||| BPF_JEQ ||| BPF_K) (lsb value) 0 offset]

/-- The `match` of `into_bpf`. -/
def emit (self : SeccompCondition) (offset : UInt8) : Outcome Error BpfProgram :=
  match self.operator with
  | .eq => self.intoEqBpf offset
  | .ge => self.intoGeBpf offset
  | .gt => self.intoGtBpf offset
  | .le => self.intoLeBpf offset
  | .lt => self.intoLtBpf offset
  | .maskedEq mask => self.intoMaskedEqBpf offset mask
  | .ne => self.intoNeBpf offset

/-- `SeccompCondition::into_bpf`, with its `assert!`. -/
def intoBpf (self : SeccompCondition) (offset : UInt8) : Outcome Error BpfProgram := do
  let result ← self.emit offset
  if result.length ≤ CONDITION_MAX_LEN.toNat then return result else .panic

end SeccompCondition

/-! ## `rule.rs` -/

/-- And-bound conditions; `validate` refuses an empty rule. -/
structure SeccompRule where
  conditions : List SeccompCondition
  nonempty : conditions ≠ []
  deriving DecidableEq, Repr

namespace SeccompRule

def new (conditions : List SeccompCondition) : Outcome Error SeccompRule :=
  if h : conditions = [] then .err .emptyRule else .ok ⟨conditions, h⟩

/-- The three helper jumps that bring the offset back into reach. -/
def helperJumps (offset : UInt8) : BpfProgram :=
  [bpfStmt (BPF_JMP ||| BPF_JA) 2, bpfStmt (BPF_JMP ||| BPF_JA) (offset.toUInt32 + 1),
   bpfStmt (BPF_JMP ||| BPF_JA) (offset.toUInt32 + 1)]

/-- `append_condition`: the accumulator and the offset to the next rule. -/
def appendCondition (state : List BpfProgram × UInt8) (condition : SeccompCondition) :
    Outcome Error (List BpfProgram × UInt8) := do
  let (accumulator, offset) :=
    if state.2.toNat + (CONDITION_MAX_LEN.toNat + 1) > 255 then
      (state.1 ++ [helperJumps state.2], 1)
    else state
  let condition ← condition.intoBpf offset
  let len ← .unwrap (if condition.length < 256 then some condition.length.toUInt8 else none)
  let offset ← addU8 offset len
  return (accumulator ++ [condition], offset)

/-- The two jumps in front of a rule: into it, and past it. -/
def entryJumps (offset : UInt8) : BpfProgram :=
  [bpfStmt (BPF_JMP ||| BPF_JA) 1, bpfStmt (BPF_JMP ||| BPF_JA) (offset.toUInt32 + 1)]

/-- `From<SeccompRule> for BpfProgram`: the rule is built backwards. -/
def intoBpf (rule : SeccompRule) : Outcome Error BpfProgram := do
  let (accumulator, offset) ← rule.conditions.foldlM appendCondition ([], 1)
  return (accumulator ++ [entryJumps offset]).reverse.flatten

end SeccompRule

/-! ## `filter.rs` -/

/-- Syscall numbers with their or-bound rules; the two actions differ. -/
structure SeccompFilter where
  rules : Std.TreeMap Int (List SeccompRule)
  mismatchAction : SeccompAction
  matchAction : SeccompAction
  targetArch : TargetArch
  actions_ne : mismatchAction ≠ matchAction

namespace SeccompFilter

def new (rules : Std.TreeMap Int (List SeccompRule)) (mismatchAction matchAction : SeccompAction)
    (targetArch : TargetArch) : Outcome Error SeccompFilter :=
  if h : mismatchAction = matchAction then .err .identicalActions
  else .ok ⟨rules, mismatchAction, matchAction, targetArch, h⟩

/-- One rule of a chain, with the on-match action behind it. -/
def compileRule (matchAction : SeccompAction) (rule : SeccompRule) : Outcome Error BpfProgram := do
  let bpf ← rule.intoBpf
  return bpf ++ [bpfStmt (BPF_RET ||| BPF_K) matchAction.toU32]

/-- `syscall_number.try_into().unwrap()`. -/
def syscallU32 (syscallNumber : Int) : Outcome Error UInt32 :=
  if 0 ≤ syscallNumber ∧ syscallNumber < 4294967296 then .ok (UInt32.ofNat syscallNumber.toNat)
  else .panic

/-- `append_syscall_chain`: the program that is pushed onto the accumulator. -/
def syscallChain (mismatchAction matchAction : SeccompAction)
    (entry : Int × List SeccompRule) : Outcome Error BpfProgram := do
  let chain ← entry.2.mapM (compileRule matchAction)
  let nr ← syscallU32 entry.1
  return [bpfJump (BPF_JMP ||| BPF_JEQ ||| BPF_K) nr 0 1] ++ (if chain.isEmpty then
      [bpfStmt (BPF_JMP ||| BPF_JA) 1, bpfStmt (BPF_JMP ||| BPF_JA) 2, bpfStmt (BPF_RET ||| BPF_K) matchAction.toU32]
    else chain.flatten) ++
    [bpfStmt (BPF_RET ||| BPF_K) mismatchAction.toU32]

/-- `TryFrom<SeccompFilter> for BpfProgram`. -/
def intoBpf (filter : SeccompFilter) : Outcome Error BpfProgram :=
  let result := buildArchValidationSequence filter.targetArch
  if filter.rules.isEmpty then
    .ok (result ++ [bpfStmt (BPF_RET ||| BPF_K) filter.mismatchAction.toU32])
  else do
    let chains ← filter.rules.toList.mapM (syscallChain filter.mismatchAction filter.matchAction)
    let result := result ++
      ([[bpfStmt (BPF_LD ||| BPF_W ||| BPF_ABS) SECCOMP_DATA_NR_OFFSET.toUInt32]] ++ chains ++
        [[bpfStmt (BPF_RET ||| BPF_K) filter.mismatchAction.toU32]]).flatten
    if result.length ≥ BPF_MAX_LEN then .err (.filterTooLarge result.length) else .ok result

end SeccompFilter

/-! ## What a filter sees and means -/

/-- `struct seccomp_data`. -/
structure SeccompData where
  nr : UInt32
  arch : UInt32
  instructionPointer : UInt64
  args : Fin 6 → UInt64

/-- The 32-bit words of the structure in memory, least significant half first. -/
def SeccompData.words (d : SeccompData) : List UInt32 :=
  [d.nr, d.arch, SeccompCondition.lsb d.instructionPointer, SeccompCondition.msb d.instructionPointer] ++
    (List.ofFn d.args).flatMap fun a => [SeccompCondition.lsb a, SeccompCondition.msb a]

/-- A load at a byte offset: word aligned and inside of the structure. -/
def SeccompData.load (d : SeccompData) (k : UInt32) : Option UInt32 :=
  if k.toNat % 4 = 0 then d.words[k.toNat / 4]? else none

/-- What an operator means, on values of either width; a mask is narrowed like the values. -/
def SeccompCmpOp.eval {α : Type} [DecidableEq α] [LT α] [DecidableLT α] [LE α] [DecidableLE α]
    [AndOp α] (op : SeccompCmpOp) (narrow : UInt64 → α) (arg value : α) : Bool :=
  match op with
  | .eq => arg = value
  | .ge => arg ≥ value
  | .gt => arg > value
  | .le => arg ≤ value
  | .lt => arg < value
  | .maskedEq mask => arg &&& narrow mask = value &&& narrow mask
  | .ne => arg ≠ value

namespace SeccompCondition

def arg (self : SeccompCondition) (args : Fin 6 → UInt64) : UInt64 :=
  args ⟨self.argIndex.toNat, Nat.lt_succ_of_le (UInt8.le_iff_toNat_le.1 self.argIndex_le)⟩

/-- What a condition means: `Dword` compares the low 32 bits, `Qword` the 64-bit values. -/
def holds (self : SeccompCondition) (args : Fin 6 → UInt64) : Bool :=
  match self.argLen with
  | .dword => self.operator.eval UInt64.toUInt32 (self.arg args).toUInt32 self.value.toUInt32
  | .qword => self.operator.eval id (self.arg args) self.value

end SeccompCondition

def SeccompRule.holds (rule : SeccompRule) (args : Fin 6 → UInt64) : Bool := rule.conditions.all fun c => c.holds args

/-- A chain of rules holds if it is empty or one of its rules holds. -/
def chainHolds (chain : List SeccompRule) (args : Fin 6 → UInt64) : Bool :=
  chain.isEmpty || chain.any fun rule => rule.holds args

namespace SeccompFilter

def matchesCall (filter : SeccompFilter) (nr : UInt32) (args : Fin 6 → UInt64) : Bool :=
  match filter.rules[(nr.toNat : Int)]? with
  | some chain => chainHolds chain args
  | none => false

/-- What the program has to return. -/
def verdict (filter : SeccompFilter) (d : SeccompData) : UInt32 :=
  if d.arch ≠ filter.targetArch.getAuditValue then SECCOMP_RET_KILL_PROCESS
  else if filter.matchesCall d.nr d.args then filter.matchAction.toU32
  else filter.mismatchAction.toU32

end SeccompFilter

end RustVmm.Seccompiler
