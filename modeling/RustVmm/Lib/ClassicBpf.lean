import Mathlib.Logic.Basic

/-!
# Classic BPF

The fragment that packet filters and system-call filters are made of: word loads at absolute offsets, a 32-bit
accumulator, masking, forward jumps and returns.

* `run_eq_exec` — the machine with a program counter agrees with `exec`, which runs down the rest of the program.
* `checked_of_fits` — the check that is made part by part (`Fits`) is the one of the whole program.
-/

set_option autoImplicit false

namespace RustVmm.Lib.ClassicBpf

open List

/-! ## Instructions -/

structure SockFilter where
  code : UInt16
  jt : UInt8
  jf : UInt8
  k : UInt32
  deriving DecidableEq, Repr

def BPF_LD : UInt16 := 0x00
def BPF_ALU : UInt16 := 0x04
def BPF_JMP : UInt16 := 0x05
def BPF_RET : UInt16 := 0x06
def BPF_W : UInt16 := 0x00
def BPF_ABS : UInt16 := 0x20
def BPF_AND : UInt16 := 0x50
def BPF_JA : UInt16 := 0x00
def BPF_JEQ : UInt16 := 0x10
def BPF_JGT : UInt16 := 0x20
def BPF_JGE : UInt16 := 0x30
def BPF_K : UInt16 := 0x00

inductive Cmp where
  | eq
  | gt
  | ge
  deriving DecidableEq, Repr

def Cmp.test (c : Cmp) (a k : UInt32) : Bool :=
  match c with
  | .eq => decide (a = k)
  | .gt => decide (k < a)
  | .ge => decide (k ≤ a)

inductive Insn where
  | ld (k : UInt32)
  | and (k : UInt32)
  | ja (k : Nat)
  | jump (c : Cmp) (k : UInt32) (jt jf : Nat)
  | ret (k : UInt32)
  | invalid
  deriving DecidableEq, Repr

def decode (i : SockFilter) : Insn :=
  if i.code = BPF_LD ||| BPF_W ||| BPF_ABS then .ld i.k
  else if i.code = BPF_ALU ||| BPF_AND ||| BPF_K then .and i.k
  else if i.code = BPF_JMP ||| BPF_JA then .ja i.k.toNat
  else if i.code = BPF_JMP ||| BPF_JEQ ||| BPF_K then .jump .eq i.k i.jt.toNat i.jf.toNat
  else if i.code = BPF_JMP ||| BPF_JGT ||| BPF_K then .jump .gt i.k i.jt.toNat i.jf.toNat
  else if i.code = BPF_JMP ||| BPF_JGE ||| BPF_K then .jump .ge i.k i.jt.toNat i.jf.toNat
  else if i.code = BPF_RET ||| BPF_K then .ret i.k
  else .invalid

/-! ## The machine -/

structure State where
  pc : Nat
  acc : UInt32
  deriving DecidableEq, Repr

inductive Step where
  | next (s : State)
  | done (result : UInt32)
  | fault
  deriving DecidableEq, Repr

/-- One instruction.  `data k` is the word at offset `k` of the data the filter looks at. -/
def step (data : UInt32 → Option UInt32) (prog : List SockFilter) (s : State) : Step :=
  match (prog[s.pc]?).map decode with
  | none => .fault
  | some (.ld k) =>
    match data k with
    | some w => .next ⟨s.pc + 1, w⟩
    | none => .fault
  | some (.and k) => .next ⟨s.pc + 1, s.acc &&& k⟩
  | some (.ja k) => .next ⟨s.pc + 1 + k, s.acc⟩
  | some (.jump c k jt jf) => .next ⟨s.pc + 1 + (if c.test s.acc k then jt else jf), s.acc⟩
  | some (.ret k) => .done k
  | some .invalid => .fault

/-- At most `fuel` steps; `none` if the program has not returned by then or has faulted. -/
def runFrom (data : UInt32 → Option UInt32) (prog : List SockFilter) : Nat → State → Option UInt32
  | 0, _ => none
  | fuel + 1, s =>
    match step data prog s with
    | .next s' => runFrom data prog fuel s'
    | .done r => some r
    | .fault => none

def run (data : UInt32 → Option UInt32) (prog : List SockFilter) : Option UInt32 := runFrom data prog prog.length ⟨0, 0⟩

/-! ## Evaluation by suffixes -/

def exec (data : UInt32 → Option UInt32) : List SockFilter → UInt32 → Option UInt32
  | [], _ => none
  | i :: rest, a =>
    match decode i with
    | .ld k =>
      match data k with
      | some w => exec data rest w
      | none => none
    | .and k => exec data rest (a &&& k)
    | .ja k => exec data (rest.drop k) a
    | .jump c k jt jf => exec data (rest.drop (if c.test a k then jt else jf)) a
    | .ret k => some k
    | .invalid => none
termination_by prog => prog.length
decreasing_by all_goals grind

section Exec

variable {data : UInt32 → Option UInt32} {i : SockFilter} {rest : List SockFilter} {a k : UInt32}

@[simp] theorem exec_nil : exec data [] a = none := by rw [exec]

theorem exec_ld {w : UInt32} (hi : decode i = .ld k) (hw : data k = some w) :
    exec data (i :: rest) a = exec data rest w := by
  rw [exec, hi]
  simp only [hw]

theorem exec_and (hi : decode i = .and k) : exec data (i :: rest) a = exec data rest (a &&& k) := by
  rw [exec, hi]

theorem exec_ja {n : Nat} (hi : decode i = .ja n) : exec data (i :: rest) a = exec data (rest.drop n) a := by
  rw [exec, hi]

variable {jt jf : Nat}

theorem exec_jump {c : Cmp} (hi : decode i = .jump c k jt jf) :
    exec data (i :: rest) a = exec data (rest.drop (if c.test a k then jt else jf)) a := by
  rw [exec, hi]

theorem exec_jump_true {c : Cmp} (hi : decode i = .jump c k jt jf) (h : c.test a k = true) :
    exec data (i :: rest) a = exec data (rest.drop jt) a := by
  rw [exec_jump hi, if_pos h]

theorem exec_jump_false {c : Cmp} (hi : decode i = .jump c k jt jf) (h : c.test a k = false) :
    exec data (i :: rest) a = exec data (rest.drop jf) a := by
  rw [exec_jump hi, if_neg (by simp [h])]

theorem exec_ret (hi : decode i = .ret k) : exec data (i :: rest) a = some k := by
  rw [exec, hi]

end Exec

theorem runFrom_eq_exec (data : UInt32 → Option UInt32) (prog : List SockFilter) :
    ∀ (fuel pc : Nat) (a : UInt32), prog.length ≤ pc + fuel →
      runFrom data prog fuel ⟨pc, a⟩ = exec data (prog.drop pc) a := by
  intro fuel
  induction fuel with
  | zero =>
    intro pc a h
    rw [drop_eq_nil_of_le (by omega), exec_nil, runFrom]
  | succ fuel ih =>
    intro pc a h
    rw [runFrom, step]
    by_cases hpc : pc < prog.length
    · rw [getElem?_eq_getElem hpc, drop_eq_getElem_cons hpc, exec]
      -- each instruction moves the counter as far as `exec` drops
      cases hd : decode prog[pc] with
      | ld k =>
        simp only [Option.map_some, hd]
        cases data k with
        | none => rfl
        | some w => exact ih (pc + 1) w (by omega)
      | and k =>
        simp only [Option.map_some, hd]
        exact ih (pc + 1) _ (by omega)
      | ja k | jump c k jt jf =>
        simp only [Option.map_some, hd]
        rw [ih _ _ (by omega), drop_drop]
      | ret k | invalid => simp only [Option.map_some, hd]
    · have hle : prog.length ≤ pc := Nat.le_of_not_lt hpc
      rw [getElem?_eq_none hle, drop_eq_nil_of_le hle, exec_nil]
      rfl

theorem run_eq_exec (data : UInt32 → Option UInt32) (prog : List SockFilter) : run data prog = exec data prog 0 := by
  rw [run, runFrom_eq_exec data prog prog.length 0 0 (by omega), drop_zero]

/-! ## The static check -/

/-- Offsets, from the next instruction on, at which an instruction continues. -/
def Insn.successors : Insn → List Nat
  | .ld _ => [0]
  | .and _ => [0]
  | .ja k => [k]
  | .jump _ _ jt jf => [jt, jf]
  | .ret _ => []
  | .invalid => []

/-- The instruction is known, and loads only what is permitted. -/
def Insn.Known (permitted : UInt32 → Prop) : Insn → Prop
  | .ld k => permitted k
  | .and _ => True
  | .ja _ => True
  | .jump _ _ _ _ => True
  | .ret _ => True
  | .invalid => False

/-- The positions at which the instruction at `pc` continues. -/
def Insn.targets (pc : Nat) (i : Insn) : List Nat := i.successors.map (pc + 1 + ·)

/-- Every instruction of the program is known, and continues forward and inside of the
program. -/
def Checked (permitted : UInt32 → Prop) (prog : List SockFilter) : Prop := ∀ pc i, prog[pc]? = some i →
    (decode i).Known permitted ∧ ∀ t ∈ (decode i).targets pc, pc < t ∧ t < prog.length

/-- The check for a fragment that is followed by `n` instructions. -/
def Fits (permitted : UInt32 → Prop) : List SockFilter → Nat → Prop
  | [], _ => True
  | i :: rest, n =>
    ((decode i).Known permitted ∧ ∀ o ∈ (decode i).successors, o < rest.length + n) ∧ Fits permitted rest n

section Fits

variable {permitted : UInt32 → Prop}

@[simp] theorem fits_nil (n : Nat) : Fits permitted [] n := trivial

theorem fits_cons (i : SockFilter) (rest : List SockFilter) (n : Nat) : Fits permitted (i :: rest) n ↔
      ((decode i).Known permitted ∧ ∀ o ∈ (decode i).successors, o < rest.length + n) ∧ Fits permitted rest n := Iff.rfl

theorem fits_append (p q : List SockFilter) (n : Nat) :
    Fits permitted (p ++ q) n ↔ Fits permitted p (q.length + n) ∧ Fits permitted q n := by
  induction p with
  | nil => simp
  | cons i rest ih =>
    rw [cons_append, fits_cons, ih, length_append, Nat.add_assoc]
    exact and_assoc.symm

theorem checked_of_fits {prog : List SockFilter} (h : Fits permitted prog 0) : Checked permitted prog := by
  induction prog with
  | nil =>
    intro pc i hi
    simp at hi
  | cons j rest ih =>
    intro pc i hi
    obtain ⟨⟨hk, hs⟩, hrest⟩ := (fits_cons j rest 0).1 h
    cases pc with
    | zero =>
      have hij : j = i := by simpa using hi
      rw [← hij]
      refine ⟨hk, fun t ht => ?_⟩
      obtain ⟨o, ho, rfl⟩ := mem_map.1 ht
      have := hs o ho
      simp only [length_cons]
      omega
    | succ pc =>
      have hi' : rest[pc]? = some i := by simpa using hi
      obtain ⟨hk', hs'⟩ := ih hrest pc i hi'
      refine ⟨hk', fun t ht => ?_⟩
      obtain ⟨o, ho, rfl⟩ := mem_map.1 ht
      have := hs' _ (mem_map.2 ⟨o, ho, rfl⟩)
      simp only [length_cons]
      omega

end Fits

end RustVmm.Lib.ClassicBpf
