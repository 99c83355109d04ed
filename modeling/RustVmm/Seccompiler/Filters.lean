import RustVmm.Seccompiler.Rules

/-!
# Compiled filters

A filter is a block for each system call (`SyscallCode`), after the check of the architecture.

* `compiled_filter_verdict` — the program returns the verdict of the filter.
* `compiled_filter_checked` — it passes the static check of the kernel, and the compiler does not panic.
-/

set_option autoImplicit false

namespace RustVmm.Seccompiler

open Lib Lib.ClassicBpf List Insn SeccompFilter Outcome

/-! ## One system call -/

/-- The block of the system call `nr`. -/
structure SyscallCode (nr : UInt32) (chain : List SeccompRule) (m mm : UInt32) (B : BpfProgram) : Prop where
  hit : ∀ (d : SeccompData) (next : BpfProgram),
    exec d.load (B ++ next) nr = some (if chainHolds chain d.args then m else mm)
  miss : ∀ (d : SeccompData) (next : BpfProgram) (a : UInt32), a ≠ nr → exec d.load (B ++ next) a = exec d.load next a
  fits : ∀ n, 1 ≤ n → Fits Permitted B n

variable {nr m mm : UInt32} {chain : List SeccompRule}

theorem syscallCode_of {C : BpfProgram} (henter : ∀ (d : SeccompData) (next : BpfProgram) (a : UInt32),
      exec d.load (C ++ next) a = some (if chainHolds chain d.args then m else mm))
    (hpass : ∀ (d : SeccompData) (next : BpfProgram) (a : UInt32),
      exec d.load ((C ++ next).drop 1) a = exec d.load next a) (hfits : ∀ n, 1 ≤ n → Fits Permitted C n)
    (hlen : 0 < C.length) : SyscallCode nr chain m mm ([bpfJump (BPF_JMP ||| BPF_JEQ ||| BPF_K) nr 0 1] ++ C) := by
  refine ⟨fun d next => ?_, fun d next a hne => ?_, fun n hn => ?_⟩
  · rw [append_assoc, cons_append, exec_jump_true (decode_jeq nr 0 1) (by simp [Cmp.test])]
    exact henter d next nr
  · rw [append_assoc, cons_append, exec_jump_false (decode_jeq nr 0 1) (by simp [Cmp.test, hne])]
    exact hpass d next a
  · refine ⟨?_, hfits n hn⟩
    simp [Known, successors]
    omega

theorem syscallU32_eq_ok {k : Int} (h : syscallU32 k = .ok nr) : (nr.toNat : Int) = k := by
  unfold syscallU32 at h
  split at h
  · cases h
    rw [UInt32.toNat_ofNat_of_lt' (by show k.toNat < 4294967296; omega)]
    omega
  · cases h

theorem syscallChain_spec (m mm : SeccompAction) (k : Int) (chain : List SeccompRule)
    (hnr : syscallU32 k = .ok nr) : ∃ B, syscallChain mm m (k, chain) = .ok B ∧
      SyscallCode nr chain m.toU32 mm.toU32 B := by
  obtain ⟨Rs, hRs, hlen, hc⟩ := compileChain_spec m mm chain
  unfold syscallChain
  rw [hRs, hnr]
  refine ⟨_, rfl, ?_⟩
  cases chain with
  | nil =>
    -- no rules: the number alone decides
    have hnil : Rs = [] := length_eq_zero_iff.1 hlen
    subst hnil
    apply syscallCode_of
    · intro d next a
      show exec d.load (bpfStmt (BPF_JMP ||| BPF_JA) 1 :: _) a = _
      rw [exec_stmt_ja]
      exact exec_stmt_ret
    · intro d next a
      show exec d.load (bpfStmt (BPF_JMP ||| BPF_JA) 2 :: _) a = _
      rw [exec_stmt_ja]
      rfl
    · simp [fits_cons, Known, successors]
      omega
    · simp
  | cons rule chain =>
    have hne : Rs.isEmpty = false := by
      cases Rs with
      | nil => simp at hlen
      | cons R Rs => rfl
    rw [hne]
    apply syscallCode_of
    · intro d next a
      have h := hc.enter d next a
      simpa [chainHolds] using h
    · exact hc.pass
    · exact hc.fits
    · exact hc.length_pos

/-! ## All system calls -/

/-- The chain that a list of entries gives to a number. -/
def lookupChain (entries : List (Int × List SeccompRule)) (nr : UInt32) : Option (List SeccompRule) :=
  (entries.find? fun e => decide (e.1 = (nr.toNat : Int))).map Prod.snd

/-- The blocks of all system calls: they decide by the number in the accumulator. -/
structure FilterCode (entries : List (Int × List SeccompRule)) (m mm : UInt32) (F : BpfProgram) : Prop where
  run : ∀ (d : SeccompData) (next : BpfProgram) (a : UInt32),
    exec d.load (F ++ next) a =
      match lookupChain entries a with
      | some chain => some (if chainHolds chain d.args then m else mm)
      | none => exec d.load next a
  fits : ∀ n, 1 ≤ n → Fits Permitted F n

theorem SyscallCode.append {k : Int} (hk : (nr.toNat : Int) = k) {entries : List (Int × List SeccompRule)}
    {B F : BpfProgram} (hb : SyscallCode nr chain m mm B) (hf : FilterCode entries m mm F) :
    FilterCode ((k, chain) :: entries) m mm (B ++ F) := by
  refine ⟨fun d next a => ?_, fun n hn => ?_⟩
  · rw [append_assoc]
    by_cases ha : a = nr
    · have hl : lookupChain ((k, chain) :: entries) a = some chain := by
        simp [lookupChain, ha, hk]
      rw [hl, ha]
      exact hb.hit d (F ++ next)
    · have hne : ¬ k = (a.toNat : Int) := by
        intro h
        apply ha
        apply UInt32.toNat_inj.1
        omega
      have hl : lookupChain ((k, chain) :: entries) a = lookupChain entries a := by
        simp [lookupChain, hne]
      rw [hl, hb.miss d (F ++ next) a ha]
      exact hf.run d next a
  · rw [fits_append]
    exact ⟨hb.fits _ (by omega), hf.fits n hn⟩

theorem blocks_spec (m mm : SeccompAction) (entries : List (Int × List SeccompRule))
    (hk : ∀ e ∈ entries, ∃ nr, syscallU32 e.1 = .ok nr) :
    ∃ Bs, entries.mapM (syscallChain mm m) = .ok Bs ∧ FilterCode entries m.toU32 mm.toU32 Bs.flatten := by
  induction entries with
  | nil =>
    refine ⟨[], rfl, fun d next a => rfl, fun n _ => trivial⟩
  | cons e entries ih =>
    obtain ⟨nr, hnr⟩ := hk e mem_cons_self
    obtain ⟨B, hB, hb⟩ := syscallChain_spec m mm e.1 e.2 hnr
    obtain ⟨Bs, hBs, hf⟩ := ih fun e' he' => hk e' (mem_cons_of_mem _ he')
    refine ⟨B :: Bs, ?_, ?_⟩
    · rw [mapM_cons, hB, hBs]
      rfl
    · exact hb.append (syscallU32_eq_ok hnr) hf

theorem lookupChain_toList (rules : Std.TreeMap Int (List SeccompRule)) (nr : UInt32) :
    lookupChain rules.toList nr = rules[(nr.toNat : Int)]? := by
  unfold lookupChain
  cases hf : rules.toList.find? fun e => decide (e.1 = (nr.toNat : Int)) with
  | some e =>
    have hmem : (e.1, e.2) ∈ rules.toList := mem_of_find?_eq_some hf
    have hkey : e.1 = (nr.toNat : Int) := by simpa using find?_some hf
    rw [Option.map_some, ← hkey, Std.TreeMap.mem_toList_iff_getElem?_eq_some.1 hmem]
  | none =>
    cases hg : rules[(nr.toNat : Int)]? with
    | none => rfl
    | some chain =>
      have hmem := Std.TreeMap.mem_toList_iff_getElem?_eq_some.2 hg
      have := find?_eq_none.1 hf _ hmem
      simp at this

/-! ## The whole program -/

/-- The numbers of the filter fit a `u32`. -/
def Representable (filter : SeccompFilter) : Prop :=
  ∀ e ∈ filter.rules.toList, ∃ nr, SeccompFilter.syscallU32 e.1 = .ok nr

theorem exec_arch (arch : TargetArch) (d : SeccompData) (next : BpfProgram) (a : UInt32) :
    exec d.load (buildArchValidationSequence arch ++ next) a =
      if d.arch ≠ arch.getAuditValue then some SECCOMP_RET_KILL_PROCESS
      else exec d.load next d.arch := by
  have hload : d.load SECCOMP_DATA_ARCH_OFFSET.toUInt32 = some d.arch := rfl
  unfold buildArchValidationSequence
  rw [cons_append, exec_stmt_ld hload, cons_append, cons_append]
  by_cases h : d.arch = arch.getAuditValue
  · rw [exec_jump_true (decode_jeq _ 1 0) (by simp [Cmp.test, h]), if_neg (by simp [h])]
    rfl
  · rw [exec_jump_false (decode_jeq _ 1 0) (by simp [Cmp.test, h]), if_pos h]
    exact exec_stmt_ret

theorem fits_arch (arch : TargetArch) {n : Nat} (hn : 1 ≤ n) : Fits Permitted (buildArchValidationSequence arch) n := by
  unfold buildArchValidationSequence
  simp [fits_cons, Known, successors, Permitted, SECCOMP_DATA_ARCH_OFFSET]
  omega

/-- What a compiled filter is: it returns the verdict, and passes the static check. -/
structure Program (filter : SeccompFilter) (prog : BpfProgram) : Prop where
  run : ∀ d : SeccompData, exec d.load prog 0 = some (filter.verdict d)
  fits : Fits Permitted prog 0

variable {filter : SeccompFilter}

theorem program_of {body : BpfProgram} (hlen : 1 ≤ body.length)
    (hrun : ∀ (d : SeccompData) (a : UInt32), exec d.load body a =
      some (if filter.matchesCall d.nr d.args then filter.matchAction.toU32
        else filter.mismatchAction.toU32)) (hfits : Fits Permitted body 0) :
    Program filter (buildArchValidationSequence filter.targetArch ++ body) := by
  refine ⟨fun d => ?_, ?_⟩
  · rw [exec_arch, verdict]
    by_cases h : d.arch = filter.targetArch.getAuditValue
    · rw [if_neg (by simp [h]), if_neg (by simp [h]), hrun]
    · rw [if_pos h, if_pos h]
  · rw [fits_append]
    exact ⟨fits_arch _ (by omega), hfits⟩

theorem program_empty (h : filter.rules.isEmpty = true) :
    Program filter (buildArchValidationSequence filter.targetArch ++
      [bpfStmt (BPF_RET ||| BPF_K) filter.mismatchAction.toU32]) := by
  apply program_of
  · simp
  · intro d a
    have hnone : filter.rules[(d.nr.toNat : Int)]? = none := Std.TreeMap.getElem?_of_isEmpty h
    rw [exec_stmt_ret, matchesCall, hnone]
    rfl
  · simp [fits_cons, Known, successors]

theorem program_blocks {Bs : List BpfProgram}
    (hf : FilterCode filter.rules.toList filter.matchAction.toU32 filter.mismatchAction.toU32
      Bs.flatten) : Program filter (buildArchValidationSequence filter.targetArch ++
      ([[bpfStmt (BPF_LD ||| BPF_W ||| BPF_ABS) SECCOMP_DATA_NR_OFFSET.toUInt32]] ++ Bs ++
        [[bpfStmt (BPF_RET ||| BPF_K) filter.mismatchAction.toU32]]).flatten) := by
  have hshape : ([[bpfStmt (BPF_LD ||| BPF_W ||| BPF_ABS) SECCOMP_DATA_NR_OFFSET.toUInt32]] ++ Bs ++
        [[bpfStmt (BPF_RET ||| BPF_K) filter.mismatchAction.toU32]]).flatten =
      bpfStmt (BPF_LD ||| BPF_W ||| BPF_ABS) SECCOMP_DATA_NR_OFFSET.toUInt32 ::
        (Bs.flatten ++ [bpfStmt (BPF_RET ||| BPF_K) filter.mismatchAction.toU32]) := by
    simp
  rw [hshape]
  apply program_of
  · simp
  · intro d a
    have hload : d.load SECCOMP_DATA_NR_OFFSET.toUInt32 = some d.nr := rfl
    rw [exec_stmt_ld hload, hf.run, lookupChain_toList, matchesCall]
    cases filter.rules[(d.nr.toNat : Int)]? with
    | some chain => rfl
    | none => exact exec_stmt_ret
  · rw [fits_cons, fits_append]
    refine ⟨?_, hf.fits _ (by simp), ?_⟩
    · simp [Known, successors, Permitted, SECCOMP_DATA_NR_OFFSET]
    · simp [fits_cons, Known, successors]

theorem intoBpf_cases (hk : Representable filter) : (∃ len, filter.intoBpf = .err (.filterTooLarge len)) ∨
      ∃ prog, filter.intoBpf = .ok prog ∧ prog.length < BPF_MAX_LEN ∧ Program filter prog := by
  obtain ⟨Bs, hBs, hf⟩ := blocks_spec filter.matchAction filter.mismatchAction _ hk
  unfold intoBpf
  dsimp only
  by_cases he : filter.rules.isEmpty = true
  · refine .inr ⟨_, if_pos he, ?_, program_empty he⟩
    simp [buildArchValidationSequence, BPF_MAX_LEN]
  · rw [if_neg he, hBs, ok_bind]
    split
    · exact .inl ⟨_, rfl⟩
    · rename_i hlen
      exact .inr ⟨_, rfl, Nat.lt_of_not_le hlen, program_blocks hf⟩

theorem representable_of_ok {prog : BpfProgram} (h : filter.intoBpf = .ok prog) : Representable filter := by
  intro e he
  have hne : ¬ filter.rules.isEmpty = true := by
    intro hemp
    have hnone : filter.rules[e.1]? = none := Std.TreeMap.getElem?_of_isEmpty hemp
    have hsome := Std.TreeMap.mem_toList_iff_getElem?_eq_some.1 he
    rw [hnone] at hsome
    cases hsome
  unfold intoBpf at h
  rw [if_neg hne] at h
  obtain ⟨Bs, hBs, _⟩ := bind_eq_ok.1 h
  obtain ⟨B, hB⟩ := mapM_eq_ok hBs e he
  obtain ⟨chain, _, hB⟩ := bind_eq_ok.1 hB
  obtain ⟨nr, hnr, _⟩ := bind_eq_ok.1 hB
  exact ⟨nr, hnr⟩

theorem program_of_ok {prog : BpfProgram} (h : filter.intoBpf = .ok prog) :
    prog.length < BPF_MAX_LEN ∧ Program filter prog := by
  rcases intoBpf_cases (representable_of_ok h) with ⟨len, herr⟩ | ⟨prog', hok, hlen, hp⟩
  · rw [herr] at h
    cases h
  · rw [hok] at h
    cases h
    exact ⟨hlen, hp⟩

theorem representable_of_keys (h : ∀ nr ∈ filter.rules, 0 ≤ nr ∧ nr < 4294967296) : Representable filter := by
  intro e he
  have hmem : e.1 ∈ filter.rules := by
    rw [Std.TreeMap.mem_iff_isSome_getElem?, Std.TreeMap.mem_toList_iff_getElem?_eq_some.1 he]
    rfl
  exact ⟨_, if_pos (h e.1 hmem)⟩

/-- **Compiler correctness.**  A compiled filter, run as classic BPF on any data, returns the
verdict of the filter: kill on a foreign architecture, the match action for a system call that
matches, the mismatch action otherwise. -/
theorem compiled_filter_verdict {filter : SeccompFilter} {prog : BpfProgram}
    (h : filter.intoBpf = .ok prog) (d : SeccompData) :
    ClassicBpf.run d.load prog = some (filter.verdict d) := by
  rw [run_eq_exec]
  exact (program_of_ok h).2.run d

/-- `read` with at most a page, `getpid` always. -/
def readGetpid : SeccompFilter where
  rules := (Std.TreeMap.empty.insert 0 [⟨[⟨2, .qword, .le, 4096, by decide⟩], by simp⟩]).insert 39 []
  mismatchAction := .trap
  matchAction := .allow
  targetArch := .x86_64
  actions_ne := by decide

theorem compiled_filter_verdict_read : ∃ prog, readGetpid.intoBpf = .ok prog ∧
    ClassicBpf.run (SeccompData.load ⟨0, AUDIT_ARCH_X86_64, 0, fun _ => 4097⟩) prog = some SECCOMP_RET_TRAP :=
  ⟨_, rfl, compiled_filter_verdict (show readGetpid.intoBpf = .ok _ from rfl) _⟩

/-- **Static validity.**  The compiler does not panic, so no jump offset overflows its `u8`; a
condition has at most `CONDITION_MAX_LEN` instructions; and a compiled program is shorter than
`BPF_MAX_LEN`, has only known instructions with aligned loads inside of `seccomp_data` and
strictly forward jumps inside of the program, and returns on all data. -/
theorem compiled_filter_checked (filter : SeccompFilter) (hkeys : ∀ nr ∈ filter.rules, 0 ≤ nr ∧ nr < 4294967296) :
    filter.intoBpf ≠ .panic ∧
    (∀ (c : SeccompCondition) (offset : UInt8) (code : BpfProgram),
      c.emit offset = .ok code → code.length ≤ CONDITION_MAX_LEN.toNat) ∧
    ∀ prog, filter.intoBpf = .ok prog → prog.length < 4096 ∧ Checked Permitted prog ∧
      ∀ d : SeccompData, ∃ code, ClassicBpf.run d.load prog = some code := by
  refine ⟨?_, fun c o code h => emit_length_le h, ?_⟩
  · intro hpanic
    rcases intoBpf_cases (representable_of_keys hkeys) with ⟨len, herr⟩ | ⟨prog, hok, _⟩
    · rw [herr] at hpanic
      cases hpanic
    · rw [hok] at hpanic
      cases hpanic
  · intro prog hprog
    obtain ⟨hlen, hp⟩ := program_of_ok hprog
    refine ⟨hlen, checked_of_fits hp.fits, fun d => ?_⟩
    rw [run_eq_exec]
    exact ⟨_, hp.run d⟩

theorem compiled_filter_checked_readGetpid : ∃ prog, readGetpid.intoBpf = .ok prog ∧
    prog.length < 4096 ∧ Checked Permitted prog := by
  have hkeys : ∀ nr ∈ readGetpid.rules, 0 ≤ nr ∧ nr < 4294967296 := by
    intro nr h
    have hlist : ∀ nr ∈ readGetpid.rules.keys, 0 ≤ nr ∧ nr < 4294967296 := by decide
    exact hlist nr (Std.TreeMap.mem_keys.2 h)
  obtain ⟨hlen, hchecked, _⟩ := (compiled_filter_checked readGetpid hkeys).2.2 _ rfl
  exact ⟨_, rfl, hlen, hchecked⟩

end RustVmm.Seccompiler
