import RustVmm.Seccompiler.Conditions

/-!
# Rules and chains of rules

A rule is built backwards, with the offset to the next rule kept along; helper jumps bring the offset back to 1 when it
would leave the range of a `u8` (`Building`).

* `compileRule_spec` — a rule with its action: entered at its first instruction it decides, at its second it passes on.
* `compileChain_spec` — the rules of one system call.
-/

set_option autoImplicit false

namespace RustVmm.Seccompiler

open Lib Lib.ClassicBpf SeccompRule List Insn Outcome

/-! ## Building a rule -/

def allHold (cs : List SeccompCondition) (d : SeccompData) : Bool := cs.all fun c => c.holds d.args

/-- The code `P` for the conditions `cs`, with offset `o` to the next rule. -/
structure Building (cs : List SeccompCondition) (P : BpfProgram) (o : UInt8) : Prop where
  pos : 1 ≤ o.toNat
  le : o.toNat ≤ 254
  reach : o.toNat ≤ P.length + 1
  run : ∀ (d : SeccompData) (tail : BpfProgram) (a : UInt32), ∃ a',
    exec d.load (P ++ tail) a = exec d.load (if allHold cs d then tail else tail.drop 1) a'
  next : ∀ (d : SeccompData) (tail : BpfProgram) (a : UInt32),
    exec d.load ((P ++ tail).drop o.toNat) a = exec d.load (tail.drop 1) a
  skip : ∀ (d : SeccompData) (tail : BpfProgram) (a : UInt32),
    exec d.load ((P ++ tail).drop (o.toNat + 1)) a = exec d.load (tail.drop 2) a
  fits : ∀ n, 3 ≤ n → Fits Permitted P n

theorem Building.nil : Building [] [] 1 := by
  refine ⟨Nat.le_refl _, by decide, Nat.le_refl _, fun d tail a => ⟨a, rfl⟩, fun d tail a => rfl,
    fun d tail a => rfl, fun n _ => trivial⟩

theorem toNat_offset_succ (o : UInt8) : (o.toUInt32 + 1).toNat = o.toNat + 1 := by
  have := o.toNat_lt
  show (o.toNat + 1) % 4294967296 = o.toNat + 1
  omega

variable {cs : List SeccompCondition} {o : UInt8}

theorem Building.helper {P : BpfProgram} (hb : Building cs P o) : Building cs (helperJumps o ++ P) 1 := by
  have ho := toNat_offset_succ o
  have h2 : (2 : UInt32).toNat = 2 := rfl
  have h1 : (1 : UInt8).toNat = 1 := rfl
  have hreach := hb.reach
  unfold helperJumps
  refine ⟨Nat.le_refl _, by decide, by simp, fun d tail a => ?_, fun d tail a => ?_, fun d tail a => ?_, fun n hn => ?_⟩
  · obtain ⟨a', h⟩ := hb.run d tail a
    refine ⟨a', ?_⟩
    rw [cons_append, cons_append, exec_stmt_ja]
    exact h
  · -- the second helper jump leads where `offset` led
    rw [h1, cons_append, cons_append, drop_succ_cons, drop_zero,
      cons_append, cons_append, exec_stmt_ja, ho, cons_append, cons_append]
    exact hb.next d tail a
  · rw [h1, cons_append, cons_append, drop_succ_cons, cons_append,
      cons_append, drop_succ_cons, drop_zero, cons_append, cons_append, exec_stmt_ja, ho]
    exact hb.skip d tail a
  · rw [fits_append]
    refine ⟨?_, hb.fits n hn⟩
    simp [fits_cons, Known, successors, ho, h2]
    omega

theorem Building.cons {P code : BpfProgram} {o' : UInt8} {c : SeccompCondition} (hb : Building cs P o)
    (hc : Compiles c o code) (ho : o.toNat ≤ 248) (ho' : o'.toNat = o.toNat + code.length) :
    Building (cs ++ [c]) (code ++ P) o' := by
  have hlen := hc.length_le
  have hpos := hb.pos
  have hreach := hb.reach
  refine ⟨by omega, by omega, by rw [length_append]; omega, fun d tail a => ?_,
    fun d tail a => ?_, fun d tail a => ?_, fun n hn => ?_⟩
  · obtain ⟨a₁, h₁⟩ := hc.checks.exec d (P ++ tail) a
    have hall : allHold (cs ++ [c]) d = (allHold cs d && c.holds d.args) := by
      simp [allHold, all_append]
    rw [append_assoc, h₁, hall]
    cases c.holds d.args with
    | true =>
      obtain ⟨a₂, h₂⟩ := hb.run d tail a₁
      exact ⟨a₂, by simpa using h₂⟩
    | false => exact ⟨a₁, by simpa using hb.next d tail a₁⟩
  · rw [append_assoc, ho', Nat.add_comm, ← drop_drop, drop_left]
    exact hb.next d tail a
  · rw [append_assoc, ho', show o.toNat + code.length + 1 = code.length + (o.toNat + 1) by omega,
      ← drop_drop, drop_left]
    exact hb.skip d tail a
  · rw [fits_append]
    exact ⟨hc.checks.fits _ (by omega), hb.fits n hn⟩

theorem appendCondition_spec {acc : List BpfProgram} (hb : Building cs acc.reverse.flatten o) (c : SeccompCondition) :
    ∃ acc' o', appendCondition (acc, o) c = .ok (acc', o') ∧ Building (cs ++ [c]) acc'.reverse.flatten o' := by
  -- after the helper jumps, if they are needed, the offset leaves room for a condition
  obtain ⟨acc₁, o₁, hstate, hb₁, ho₁⟩ : ∃ acc₁ o₁,
      (if o.toNat + (CONDITION_MAX_LEN.toNat + 1) > 255 then (acc ++ [helperJumps o], 1)
        else (acc, o)) = (acc₁, o₁) ∧ Building cs acc₁.reverse.flatten o₁ ∧ o₁.toNat ≤ 248 := by
    have h6 : CONDITION_MAX_LEN.toNat = 6 := rfl
    by_cases hlt : o.toNat + (CONDITION_MAX_LEN.toNat + 1) > 255
    · refine ⟨_, _, if_pos hlt, ?_, by decide⟩
      simpa using hb.helper
    · exact ⟨acc, o, if_neg hlt, hb, by omega⟩
  obtain ⟨code, hcode, hc⟩ := intoBpf_spec c (o := o₁) (by omega)
  have hlen := hc.length_le
  have hn : code.length.toUInt8.toNat = code.length := by
    show code.length % 256 = code.length
    omega
  obtain ⟨o', ho', hon⟩ := addU8_of_lt (a := o₁) (b := code.length.toUInt8) (by omega)
  refine ⟨acc₁ ++ [code], o', ?_, ?_⟩
  · unfold appendCondition
    rw [hstate]
    dsimp only
    rw [hcode, ok_bind, if_pos (by omega), unwrap_some, ok_bind, ho']
    rfl
  · have := hb₁.cons hc ho₁ (by omega : o'.toNat = o₁.toNat + code.length)
    simpa using this

theorem foldlM_appendCondition (cs : List SeccompCondition) :
    ∀ {ds : List SeccompCondition} {acc : List BpfProgram} {o : UInt8},
      Building ds acc.reverse.flatten o →
      ∃ acc' o', cs.foldlM appendCondition (acc, o) = .ok (acc', o') ∧ Building (ds ++ cs) acc'.reverse.flatten o' := by
  induction cs with
  | nil =>
    intro ds acc o hb
    exact ⟨acc, o, rfl, by simpa using hb⟩
  | cons c cs ih =>
    intro ds acc o hb
    obtain ⟨acc₁, o₁, h₁, hb₁⟩ := appendCondition_spec hb c
    obtain ⟨acc', o', h', hb'⟩ := ih hb₁
    refine ⟨acc', o', ?_, by simpa using hb'⟩
    rw [foldlM_cons, h₁, ok_bind, h']

/-! ## A rule with its action -/

structure RuleCode (rule : SeccompRule) (m : UInt32) (R : BpfProgram) : Prop where
  enter : ∀ (d : SeccompData) (next : BpfProgram) (a : UInt32), ∃ a',
    exec d.load (R ++ next) a = if rule.holds d.args then some m else exec d.load next a'
  pass : ∀ (d : SeccompData) (next : BpfProgram) (a : UInt32),
    exec d.load ((R ++ next).drop 1) a = exec d.load (next.drop 1) a
  fits : ∀ n, 2 ≤ n → Fits Permitted R n

theorem Building.ruleCode {rule : SeccompRule} {P : BpfProgram} (hb : Building rule.conditions P o) (m : UInt32) :
    RuleCode rule m (entryJumps o ++ P ++ [bpfStmt (BPF_RET ||| BPF_K) m]) := by
  have ho := toNat_offset_succ o
  have h1 : (1 : UInt32).toNat = 1 := rfl
  have hreach := hb.reach
  unfold entryJumps
  refine ⟨fun d next a => ?_, fun d next a => ?_, fun n hn => ?_⟩
  · obtain ⟨a', h⟩ := hb.run d (bpfStmt (BPF_RET ||| BPF_K) m :: next) a
    simp only [append_assoc, cons_append, nil_append]
    rw [exec_stmt_ja, h1, drop_succ_cons, drop_zero, h]
    have hholds : rule.holds d.args = allHold rule.conditions d := rfl
    rw [hholds]
    cases allHold rule.conditions d with
    | true => simp [exec_stmt_ret]
    | false => simp
  · simp only [append_assoc, cons_append, nil_append]
    rw [drop_succ_cons, drop_zero, exec_stmt_ja, ho]
    exact hb.skip d (bpfStmt (BPF_RET ||| BPF_K) m :: next) a
  · simp only [cons_append, nil_append]
    rw [fits_cons, fits_cons, fits_append]
    refine ⟨?_, ?_, hb.fits _ (by simp; omega), ?_⟩
    · simp [Known, successors]
      omega
    · simp [Known, successors, ho]
      omega
    · simp [fits_cons, Known, successors]

theorem compileRule_spec (m : SeccompAction) (rule : SeccompRule) :
    ∃ R, SeccompFilter.compileRule m rule = .ok R ∧ RuleCode rule m.toU32 R := by
  have h₀ : Building [] ([] : List BpfProgram).reverse.flatten 1 := Building.nil
  obtain ⟨acc, o, hf, hb⟩ := foldlM_appendCondition rule.conditions h₀
  refine ⟨_, ?_, hb.ruleCode m.toU32⟩
  rw [SeccompFilter.compileRule, intoBpf, hf]
  simp

/-! ## The chain of a system call -/

/-- The rules of one system call, followed by the mismatch action `mm`. -/
structure ChainCode (chain : List SeccompRule) (m mm : UInt32) (C : BpfProgram) : Prop where
  enter : ∀ (d : SeccompData) (next : BpfProgram) (a : UInt32),
    exec d.load (C ++ next) a = some (if chain.any fun rule => rule.holds d.args then m else mm)
  pass : ∀ (d : SeccompData) (next : BpfProgram) (a : UInt32),
    exec d.load ((C ++ next).drop 1) a = exec d.load next a
  fits : ∀ n, 1 ≤ n → Fits Permitted C n
  length_pos : 0 < C.length

theorem RuleCode.append {rule : SeccompRule} {chain : List SeccompRule} {m mm : UInt32}
    {R C : BpfProgram} (hr : RuleCode rule m R) (hc : ChainCode chain m mm C) :
    ChainCode (rule :: chain) m mm (R ++ C) := by
  refine ⟨fun d next a => ?_, fun d next a => ?_, fun n hn => ?_, ?_⟩
  · obtain ⟨a', h⟩ := hr.enter d (C ++ next) a
    rw [append_assoc, h, hc.enter d next a']
    cases hrule : rule.holds d.args <;> simp [hrule]
  · rw [append_assoc, hr.pass, hc.pass]
  · have hpos := hc.length_pos
    rw [fits_append]
    exact ⟨hr.fits _ (by omega), hc.fits n hn⟩
  · have hpos := hc.length_pos
    rw [length_append]
    omega

theorem compileChain_spec (m mm : SeccompAction) (chain : List SeccompRule) :
    ∃ Rs, chain.mapM (SeccompFilter.compileRule m) = .ok Rs ∧ Rs.length = chain.length ∧
      ChainCode chain m.toU32 mm.toU32 (Rs.flatten ++ [bpfStmt (BPF_RET ||| BPF_K) mm.toU32]) := by
  induction chain with
  | nil =>
    refine ⟨[], rfl, rfl, fun d next a => ?_, fun d next a => rfl, fun n _ => ?_, by simp⟩
    · exact exec_stmt_ret
    · simp [fits_cons, Known, successors]
  | cons rule chain ih =>
    obtain ⟨R, hR, hr⟩ := compileRule_spec m rule
    obtain ⟨Rs, hRs, hlen, hc⟩ := ih
    refine ⟨R :: Rs, ?_, by simp [hlen], ?_⟩
    · rw [mapM_cons, hR, hRs]
      rfl
    · rw [flatten_cons, append_assoc]
      exact hr.append hc

end RustVmm.Seccompiler
