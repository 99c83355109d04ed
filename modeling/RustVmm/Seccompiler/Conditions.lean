import RustVmm.Seccompiler.Backend

/-!
# One condition

The code of a condition, in front of any other code, goes on behind itself if the condition holds and skips `offset`
instructions otherwise (`Compiles`).

* `intoBpf_spec` — each of the seven operators compiles to such code.
* `emit_length_le` — at most `CONDITION_MAX_LEN` instructions.
-/

set_option autoImplicit false

namespace RustVmm.Seccompiler

open Lib Lib.ClassicBpf SeccompCondition Outcome List Insn Cmp SeccompCmpOp

/-! ## Halves of a 64-bit value -/

theorem toNat_halves (v : UInt64) : v.toNat = (msb v).toNat * 4294967296 + (lsb v).toNat := by
  have hlt := v.toNat_lt
  have h32 : (32 : UInt64).toNat % 64 = 32 := rfl
  simp only [msb, lsb, UInt64.toNat_toUInt32, UInt64.toNat_shiftRight, h32, Nat.shiftRight_eq_div_pow]
  omega

theorem msb_and (a b : UInt64) : msb (a &&& b) = msb a &&& msb b := by
  simp only [msb]
  apply UInt32.toBitVec_inj.1
  ext i hi
  simp

theorem lsb_and (a b : UInt64) : lsb (a &&& b) = lsb a &&& lsb b := by
  exact UInt64.toUInt32_and a b

theorem eq_iff_halves (a b : UInt64) : a = b ↔ msb a = msb b ∧ lsb a = lsb b := by
  rw [← UInt64.toNat_inj, ← UInt32.toNat_inj, ← UInt32.toNat_inj, toNat_halves a, toNat_halves b]
  have := (lsb a).toNat_lt
  have := (lsb b).toNat_lt
  omega

theorem lt_iff_halves (a b : UInt64) : a < b ↔ msb a < msb b ∨ (msb a = msb b ∧ lsb a < lsb b) := by
  rw [UInt64.lt_iff_toNat_lt, UInt32.lt_iff_toNat_lt, UInt32.lt_iff_toNat_lt, ← UInt32.toNat_inj,
    toNat_halves a, toNat_halves b]
  have := (lsb a).toNat_lt
  have := (lsb b).toNat_lt
  omega

theorem le_iff_halves (a b : UInt64) : a ≤ b ↔ msb a < msb b ∨ (msb a = msb b ∧ lsb a ≤ lsb b) := by
  rw [UInt64.le_iff_toNat_le, UInt32.lt_iff_toNat_lt, UInt32.le_iff_toNat_le, ← UInt32.toNat_inj,
    toNat_halves a, toNat_halves b]
  have := (lsb a).toNat_lt
  have := (lsb b).toNat_lt
  omega

/-! ## The instructions that the compiler uses -/

@[simp] theorem decode_ld (k : UInt32) : decode (bpfStmt (BPF_LD ||| BPF_W ||| BPF_ABS) k) = .ld k := rfl

@[simp] theorem decode_and (k : UInt32) : decode (bpfStmt (BPF_ALU ||| BPF_AND ||| BPF_K) k) = .and k := rfl

@[simp] theorem decode_ja (k : UInt32) : decode (bpfStmt (BPF_JMP ||| BPF_JA) k) = .ja k.toNat := rfl

@[simp] theorem decode_ret (k : UInt32) : decode (bpfStmt (BPF_RET ||| BPF_K) k) = .ret k := rfl

@[simp] theorem decode_jeq (k : UInt32) (jt jf : UInt8) :
    decode (bpfJump (BPF_JMP ||| BPF_JEQ ||| BPF_K) k jt jf) = .jump .eq k jt.toNat jf.toNat := rfl

@[simp] theorem decode_jgt (k : UInt32) (jt jf : UInt8) :
    decode (bpfJump (BPF_JMP ||| BPF_JGT ||| BPF_K) k jt jf) = .jump .gt k jt.toNat jf.toNat := rfl

@[simp] theorem decode_jge (k : UInt32) (jt jf : UInt8) :
    decode (bpfJump (BPF_JMP ||| BPF_JGE ||| BPF_K) k jt jf) = .jump .ge k jt.toNat jf.toNat := rfl

section Exec

variable {data : UInt32 → Option UInt32} {rest : BpfProgram} {a k w : UInt32}

theorem exec_stmt_ld (h : data k = some w) :
    exec data (bpfStmt (BPF_LD ||| BPF_W ||| BPF_ABS) k :: rest) a = exec data rest w :=
  exec_ld (decode_ld k) h

theorem exec_stmt_and : exec data (bpfStmt (BPF_ALU ||| BPF_AND ||| BPF_K) k :: rest) a = exec data rest (a &&& k) :=
  exec_and (decode_and k)

theorem exec_stmt_ja : exec data (bpfStmt (BPF_JMP ||| BPF_JA) k :: rest) a = exec data (rest.drop k.toNat) a :=
  exec_ja (decode_ja k)

theorem exec_stmt_ret : exec data (bpfStmt (BPF_RET ||| BPF_K) k :: rest) a = some k := exec_ret (decode_ret k)

end Exec

/-! ## Arithmetic and loads -/

/-- The loads a filter may make: words of `struct seccomp_data`. -/
def Permitted (k : UInt32) : Prop := k.toNat % 4 = 0 ∧ k.toNat < 64

variable {a b o : UInt8}

theorem addU8_of_lt (h : a.toNat + b.toNat < 256) : ∃ c : UInt8, addU8 a b = .ok c ∧ c.toNat = a.toNat + b.toNat := by
  refine ⟨a + b, if_pos h, ?_⟩
  exact Nat.mod_eq_of_lt h

theorem mulU8_of_lt (h : a.toNat * b.toNat < 256) : ∃ c : UInt8, mulU8 a b = .ok c ∧ c.toNat = a.toNat * b.toNat := by
  refine ⟨a * b, if_pos h, ?_⟩
  exact Nat.mod_eq_of_lt h

theorem words_arg (d : SeccompData) (i : Fin 6) : d.words[4 + 2 * i.val]? = some (lsb (d.args i)) ∧
      d.words[5 + 2 * i.val]? = some (msb (d.args i)) := by
  match i with
  | 0 | 1 | 2 | 3 | 4 | 5 => exact ⟨rfl, rfl⟩

/-- The code puts `f` of the data into the accumulator. -/
structure Loads (code : BpfProgram) (f : SeccompData → UInt32) : Prop where
  exec : ∀ (d : SeccompData) (rest : BpfProgram) (a : UInt32), exec d.load (code ++ rest) a = exec d.load rest (f d)
  fits : ∀ n, 0 < n → Fits Permitted code n

variable {hi lo code : BpfProgram} {f : SeccompData → UInt32}

theorem loads_word {i : Nat} (ho : o.toNat = 4 * i) (hi : i < 16) (hf : ∀ d : SeccompData, d.words[i]? = some (f d)) :
    Loads [bpfStmt (BPF_LD ||| BPF_W ||| BPF_ABS) o.toUInt32] f := by
  have hn : o.toUInt32.toNat = 4 * i := (UInt8.toNat_toUInt32 o).trans ho
  have hp : Permitted o.toUInt32 := ⟨by omega, by omega⟩
  refine ⟨fun d rest a => exec_stmt_ld ?_, fun n hn => by simp [fits_cons, Known, successors, hp, hn]⟩
  rw [SeccompData.load, if_pos hp.1, show o.toUInt32.toNat / 4 = i by omega, hf]

theorem Loads.and (h : Loads code f) (mask : UInt32) :
    Loads (code ++ [bpfStmt (BPF_ALU ||| BPF_AND ||| BPF_K) mask]) fun d => f d &&& mask := by
  refine ⟨fun d rest a => ?_, fun n hn => (fits_append code _ n).2 ⟨h.fits _ (by simp), ?_⟩⟩
  · rw [append_assoc, h.exec]
    exact exec_stmt_and
  · simp [fits_cons, Known, successors, hn]

theorem getDataOffsets_spec (c : SeccompCondition) : ∃ m l, c.getDataOffsets = .ok (m, l) ∧
      Loads [bpfStmt (BPF_LD ||| BPF_W ||| BPF_ABS) m.toUInt32] (fun d => msb (c.arg d.args)) ∧
      Loads [bpfStmt (BPF_LD ||| BPF_W ||| BPF_ABS) l.toUInt32] fun d => lsb (c.arg d.args) := by
  have hi : c.argIndex.toNat ≤ 5 := UInt8.le_iff_toNat_le.1 c.argIndex_le
  have h8 : SECCOMP_DATA_ARG_SIZE.toNat = 8 := rfl
  have h16 : SECCOMP_DATA_ARGS_OFFSET.toNat = 16 := rfl
  have h4 : (SECCOMP_DATA_ARG_SIZE / 2).toNat = 4 := rfl
  obtain ⟨s, hs, hsn⟩ := mulU8_of_lt (a := c.argIndex) (by rw [h8]; omega)
  rw [h8] at hsn
  obtain ⟨l, hl, hln⟩ := addU8_of_lt (a := SECCOMP_DATA_ARGS_OFFSET) (b := s) (by omega)
  obtain ⟨m, hm, hmn⟩ := addU8_of_lt (a := l) (b := SECCOMP_DATA_ARG_SIZE / 2) (by omega)
  have hw := fun d => words_arg d ⟨c.argIndex.toNat, by omega⟩
  refine ⟨m, l, ?_, loads_word ?_ ?_ fun d => (hw d).2, loads_word ?_ ?_ fun d => (hw d).1⟩
  · rw [getDataOffsets, hs, ok_bind, hl, ok_bind, hm]
    rfl
  all_goals dsimp only; omega

/-! ## Checks of one half -/

/-- The code goes on behind itself if `b` holds of the data, and skips `o` instructions if not. -/
structure Checks (code : BpfProgram) (o : Nat) (b : SeccompData → Bool) : Prop where
  exec : ∀ (d : SeccompData) (rest : BpfProgram) (a : UInt32), ∃ a',
    exec d.load (code ++ rest) a = exec d.load (if b d then rest else rest.drop o) a'
  fits : ∀ n, o < n → Fits Permitted code n

structure Decides (code : BpfProgram) (len o : Nat) (v : SeccompData → Option Bool) : Prop where
  exec : ∀ (d : SeccompData) (rest : BpfProgram) (a : UInt32), ∃ a',
    exec d.load (code ++ rest) a = exec d.load (match v d with
        | none => rest
        | some true => rest.drop len
        | some false => rest.drop (len + o)) a'
  fits : ∀ n, len + o < n → Fits Permitted code n

variable {v : SeccompData → Option Bool}

theorem Decides.append {o : Nat} {b : SeccompData → Bool} (hhi : Decides hi lo.length o v) (hlo : Checks lo o b) :
    Checks (hi ++ lo) o fun d => (v d).getD (b d) := by
  refine ⟨fun d rest a => ?_, fun n hn => ?_⟩
  · obtain ⟨a₁, h₁⟩ := hhi.exec d (lo ++ rest) a
    rw [append_assoc, h₁]
    cases hv : v d with
    | none =>
      obtain ⟨a₂, h₂⟩ := hlo.exec d rest a₁
      exact ⟨a₂, h₂⟩
    | some r =>
      cases r with
      | true => simp
      | false => simp [drop_append, drop_eq_nil_of_le]
  · exact (fits_append hi lo n).2 ⟨hhi.fits _ (by omega), hlo.fits n hn⟩

section Checks

variable {k : UInt32} {o j : UInt8} {cmp : Cmp} {i : SockFilter} {r : Bool} {len : Nat}

theorem Loads.checks (h : Loads code f) (hi : decode i = .jump cmp k (if r then 0 else o.toNat) (if r then o.toNat else 0)) :
    Checks (code ++ [i]) o.toNat fun d => bif r then cmp.test (f d) k else !cmp.test (f d) k := by
  refine ⟨fun d rest a => ⟨f d, ?_⟩, fun n hn => (fits_append code [i] n).2 ⟨h.fits _ (by simp), ?_⟩⟩
  · rw [append_assoc, h.exec, cons_append]
    cases ht : cmp.test (f d) k with
    | true => rw [exec_jump_true hi ht]; cases r <;> simp
    | false => rw [exec_jump_false hi ht]; cases r <;> simp
  · cases r <;> simp [fits_cons, hi, Known, successors] <;> omega

theorem Loads.decides_eq (h : Loads code f) (hj : j.toNat = if r then len else len + o.toNat) :
    Decides (code ++ [bpfJump (BPF_JMP ||| BPF_JEQ ||| BPF_K) k 0 j]) len o.toNat
      fun d => if f d = k then none else some r := by
  refine ⟨fun d rest a => ⟨f d, ?_⟩, fun n hn => (fits_append code _ n).2 ⟨h.fits _ (by simp), ?_⟩⟩
  · rw [append_assoc, h.exec, cons_append]
    by_cases he : f d = k
    · rw [exec_jump_true (decode_jeq k 0 j) (by simp [test, he])]
      simp [he]
    · rw [exec_jump_false (decode_jeq k 0 j) (by simp [test, he])]
      cases r <;> simp [he, hj]
  · cases r <;> simp [fits_cons, Known, successors, hj] <;> omega

theorem Loads.decides_order {jt : UInt8} (h : Loads code f) (hjt : jt.toNat = (if r then len else len + o.toNat) + 1)
    (hj : j.toNat = if r then len + o.toNat else len) :
    Decides (code ++ [bpfJump (BPF_JMP ||| BPF_JGT ||| BPF_K) k jt 0, bpfJump (BPF_JMP ||| BPF_JEQ ||| BPF_K) k 0 j])
      len o.toNat fun d => if k < f d then some r else if f d = k then none else some (!r) := by
  refine ⟨fun d rest a => ⟨f d, ?_⟩, fun n hn => (fits_append code _ n).2 ⟨h.fits _ (by simp), ?_⟩⟩
  · rw [append_assoc, h.exec, cons_append, cons_append]
    by_cases hg : k < f d
    · rw [exec_jump_true (decode_jgt k jt 0) (by simp [test, hg])]
      cases r <;> simp [hg, hjt]
    · rw [exec_jump_false (decode_jgt k jt 0) (by simpa [test] using hg)]
      rw [show (0 : UInt8).toNat = 0 from rfl, drop_zero]
      by_cases he : f d = k
      · rw [exec_jump_true (decode_jeq k 0 j) (by simp [test, he])]
        simp [he]
      · rw [exec_jump_false (decode_jeq k 0 j) (by simp [test, he])]
        cases r <;> simp [hg, he, hj]
  · cases r <;> simp [fits_cons, Known, successors, hj, hjt] <;> omega

end Checks

/-! ## The seven operators -/

/-- The code of a condition: at most six instructions that check it. -/
structure Compiles (c : SeccompCondition) (o : UInt8) (code : BpfProgram) : Prop where
  length_le : code.length ≤ 6
  checks : Checks code o.toNat fun d => c.holds d.args

variable {c : SeccompCondition}

theorem halves_spec {b : SeccompData → Bool} (hhi : Decides hi lo.length o.toNat v) (hlo : Checks lo o.toNat b)
    (hlen : hi.length + lo.length ≤ 6)
    (hdword : ∀ d : SeccompData, c.operator.eval UInt64.toUInt32 (lsb (c.arg d.args)) (lsb c.value) = b d)
    (hqword : ∀ d : SeccompData, c.operator.eval id (c.arg d.args) c.value = (v d).getD (b d)) :
    ∃ code, halves c.argLen (.ok hi) lo = .ok code ∧ Compiles c o code := by
  unfold halves
  cases hl : c.argLen with
  | dword =>
    refine ⟨lo, rfl, by omega, ?_⟩
    simp only [holds, hl]
    exact funext hdword ▸ hlo
  | qword =>
    refine ⟨hi ++ lo, rfl, by rw [length_append]; omega, ?_⟩
    simp only [holds, hl]
    exact funext hqword ▸ hhi.append hlo

variable {c : SeccompCondition} {o : UInt8}

theorem intoEqBpf_spec (ho : o.toNat + 3 < 256) (hop : c.operator = .eq) :
    ∃ code, c.intoEqBpf o = .ok code ∧ Compiles c o code := by
  obtain ⟨m, l, hml, hhi, hlo⟩ := getDataOffsets_spec c
  obtain ⟨j, hj, hjn⟩ := addU8_of_lt (b := 2) (by show o.toNat + 2 < 256; omega)
  unfold intoEqBpf
  rw [hml, hj]
  apply halves_spec
  · exact hhi.decides_eq (r := false) (by rw [hjn]; simp; omega)
  · exact hlo.checks (r := true) (decode_jeq _ _ _)
  · simp
  · exact fun d => by rw [hop]; rfl
  · intro d
    simp only [hop, eval, test, eq_iff_halves]
    by_cases h1 : msb (c.arg d.args) = msb c.value <;> simp [h1]

theorem intoNeBpf_spec (hop : c.operator = .ne) : ∃ code, c.intoNeBpf o = .ok code ∧ Compiles c o code := by
  obtain ⟨m, l, hml, hhi, hlo⟩ := getDataOffsets_spec c
  unfold intoNeBpf
  rw [hml]
  apply halves_spec
  · exact hhi.decides_eq (r := true) rfl
  · exact hlo.checks (r := false) (decode_jeq _ _ _)
  · simp
  · exact fun d => by rw [hop]; exact decide_not
  · intro d
    simp only [hop, eval, test, ne_eq, eq_iff_halves]
    by_cases h1 : msb (c.arg d.args) = msb c.value <;> simp [h1]

theorem order_spec {m l jt j : UInt8} {i : SockFilter} {cmp : Cmp} {r : Bool}
    (hhi : Loads [bpfStmt (BPF_LD ||| BPF_W ||| BPF_ABS) m.toUInt32] fun d => msb (c.arg d.args))
    (hlo : Loads [bpfStmt (BPF_LD ||| BPF_W ||| BPF_ABS) l.toUInt32] fun d => lsb (c.arg d.args))
    (hjt : jt.toNat = (if r then 2 else 2 + o.toNat) + 1) (hj : j.toNat = if r then 2 + o.toNat else 2)
    (hi : decode i = .jump cmp (lsb c.value) (if r then 0 else o.toNat) (if r then o.toNat else 0))
    (hdword : ∀ x y : UInt32, c.operator.eval UInt64.toUInt32 x y = bif r then cmp.test x y else !cmp.test x y)
    (hqword : ∀ x y : UInt64, c.operator.eval id x y =
      bif r then decide (msb y < msb x) || (decide (msb x = msb y) && cmp.test (lsb x) (lsb y))
        else !(decide (msb y < msb x) || (decide (msb x = msb y) && cmp.test (lsb x) (lsb y)))) :
    ∃ prog, halves c.argLen (.ok [bpfStmt (BPF_LD ||| BPF_W ||| BPF_ABS) m.toUInt32,
        bpfJump (BPF_JMP ||| BPF_JGT ||| BPF_K) (msb c.value) jt 0,
        bpfJump (BPF_JMP ||| BPF_JEQ ||| BPF_K) (msb c.value) 0 j])
      [bpfStmt (BPF_LD ||| BPF_W ||| BPF_ABS) l.toUInt32, i] = .ok prog ∧ Compiles c o prog := by
  refine halves_spec (hhi.decides_order hjt hj) (hlo.checks hi) (by simp) (fun d => hdword _ _) fun d => ?_
  simp only [hqword]
  by_cases h1 : msb c.value < msb (c.arg d.args)
  · cases r <;> simp [h1]
  · by_cases h2 : msb (c.arg d.args) = msb c.value <;> cases r <;> simp [h1, h2]

theorem intoGreaterBpf_spec {code : UInt16} {cmp : Cmp} (ho : o.toNat + 3 < 256)
    (hcode : ∀ k jt jf, decode (bpfJump (BPF_JMP ||| code ||| BPF_K) k jt jf) = .jump cmp k jt.toNat jf.toNat)
    (hdword : ∀ x y : UInt32, c.operator.eval UInt64.toUInt32 x y = cmp.test x y)
    (hqword : ∀ x y : UInt64, c.operator.eval id x y =
      (decide (msb y < msb x) || (decide (msb x = msb y) && cmp.test (lsb x) (lsb y)))) :
    ∃ prog, c.intoGreaterBpf code o = .ok prog ∧ Compiles c o prog := by
  obtain ⟨m, l, hml, hhi, hlo⟩ := getDataOffsets_spec c
  obtain ⟨j, hj, hjn⟩ := addU8_of_lt (b := 2) (by show o.toNat + 2 < 256; omega)
  unfold intoGreaterBpf
  rw [hml, hj]
  exact order_spec (r := true) hhi hlo rfl (hjn.trans (Nat.add_comm _ _)) (hcode _ _ _) hdword hqword

theorem intoLessBpf_spec {code : UInt16} {cmp : Cmp} (ho : o.toNat + 3 < 256)
    (hcode : ∀ k jt jf, decode (bpfJump (BPF_JMP ||| code ||| BPF_K) k jt jf) = .jump cmp k jt.toNat jf.toNat)
    (hdword : ∀ x y : UInt32, c.operator.eval UInt64.toUInt32 x y = !cmp.test x y)
    (hqword : ∀ x y : UInt64, c.operator.eval id x y =
      !(decide (msb y < msb x) || (decide (msb x = msb y) && cmp.test (lsb x) (lsb y)))) :
    ∃ prog, c.intoLessBpf code o = .ok prog ∧ Compiles c o prog := by
  obtain ⟨m, l, hml, hhi, hlo⟩ := getDataOffsets_spec c
  obtain ⟨j, hj, hjn⟩ := addU8_of_lt (b := 3) (by show o.toNat + 3 < 256; omega)
  unfold intoLessBpf
  rw [hml, hj]
  exact order_spec (r := false) hhi hlo (by rw [hjn]; simp; omega) rfl (hcode _ _ _) hdword hqword

theorem intoMaskedEqBpf_spec {mask : UInt64} (ho : o.toNat + 3 < 256) (hop : c.operator = .maskedEq mask) :
    ∃ code, c.intoMaskedEqBpf o mask = .ok code ∧ Compiles c o code := by
  obtain ⟨m, l, hml, hhi, hlo⟩ := getDataOffsets_spec c
  obtain ⟨j, hj, hjn⟩ := addU8_of_lt (b := 3) (by show o.toNat + 3 < 256; omega)
  unfold intoMaskedEqBpf
  rw [hml, hj]
  apply halves_spec
  · exact (hhi.and (msb mask)).decides_eq (r := false) (by rw [hjn]; simp; omega)
  · exact (hlo.and (lsb mask)).checks (r := true) (decode_jeq _ _ _)
  · simp
  · intro d
    rw [hop, test, lsb_and]
    rfl
  · intro d
    simp only [hop, eval, test, eq_iff_halves, id, msb_and, lsb_and]
    by_cases h1 : msb (c.arg d.args) &&& msb mask = msb c.value &&& msb mask <;> simp [h1]

theorem emit_spec (c : SeccompCondition) (ho : o.toNat + 3 < 256) :
    ∃ code, c.emit o = .ok code ∧ Compiles c o code := by
  unfold emit
  split
  · rename_i hop; exact intoEqBpf_spec ho hop
  · rename_i hop
    apply intoGreaterBpf_spec ho decode_jge
    · intro x y; simp [hop, eval, test]
    · simp only [hop, eval, test, ge_iff_le, le_iff_halves]
      simp [eq_comm]
  · rename_i hop
    apply intoGreaterBpf_spec ho decode_jgt
    · intro x y; simp [hop, eval, test]
    · simp only [hop, eval, test, gt_iff_lt, lt_iff_halves]
      simp [eq_comm]
  · rename_i hop
    apply intoLessBpf_spec ho decode_jgt
    · intro x y
      simp only [hop, eval, test, ← decide_not, UInt32.not_lt]
    · intro x y
      have hle : x ≤ y ↔ ¬ (msb y < msb x ∨ (msb y = msb x ∧ lsb y < lsb x)) := by
        rw [← lt_iff_halves, UInt64.not_lt]
      simp only [hop, eval, test, hle, decide_not, Bool.decide_or, Bool.decide_and, eq_comm]
  · rename_i hop
    apply intoLessBpf_spec ho decode_jge
    · intro x y
      simp only [hop, eval, test, ← decide_not, UInt32.not_le]
    · intro x y
      have hlt : x < y ↔ ¬ (msb y < msb x ∨ (msb y = msb x ∧ lsb y ≤ lsb x)) := by
        rw [← le_iff_halves, UInt64.not_le]
      simp only [hop, eval, test, hlt, decide_not, Bool.decide_or, Bool.decide_and, eq_comm]
  · rename_i mask hop; exact intoMaskedEqBpf_spec ho hop
  · rename_i hop; exact intoNeBpf_spec hop

/-! ## The length of a condition, at any offset -/

variable {argLen : SeccompCmpArgLen}

theorem halves_length {msbCheck : Outcome Error BpfProgram} {n : Nat} (hlo : lo.length ≤ n)
    (hhi : ∀ hi, msbCheck = .ok hi → hi.length + lo.length ≤ n) (h : halves argLen msbCheck lo = .ok code) :
    code.length ≤ n := by
  cases argLen with
  | dword =>
    cases h
    exact hlo
  | qword =>
    obtain ⟨hi, hok, hcode⟩ := bind_eq_ok.1 h
    cases hcode
    rw [length_append]
    exact hhi hi hok

theorem halves_jump_length {j : UInt8} {f : UInt8 → BpfProgram} {n : Nat} (hf : ∀ x, (f x).length + lo.length ≤ n)
    (h : halves argLen (addU8 o j >>= fun x => pure (f x)) lo = .ok code) : code.length ≤ n := by
  refine halves_length (Nat.le_of_add_left_le (hf 0)) ?_ h
  intro hi hhi
  obtain ⟨x, _, hx⟩ := bind_eq_ok.1 hhi
  cases hx
  exact hf x

theorem emit_length_le (h : c.emit o = .ok code) : code.length ≤ CONDITION_MAX_LEN.toNat := by
  obtain ⟨m, l, hml, _⟩ := getDataOffsets_spec c
  show code.length ≤ 6
  unfold emit intoEqBpf intoNeBpf intoGeBpf intoGtBpf intoLeBpf intoLtBpf intoGreaterBpf intoLessBpf intoMaskedEqBpf at h
  simp only [hml, ok_bind] at h
  split at h
  case h_7 =>
    refine halves_length (by simp) ?_ h
    intro hi hhi
    cases hhi
    simp
  all_goals exact halves_jump_length (fun _ => by simp) h

theorem intoBpf_spec (c : SeccompCondition) (ho : o.toNat + 3 < 256) :
    ∃ code, c.intoBpf o = .ok code ∧ Compiles c o code := by
  obtain ⟨code, hc, h⟩ := emit_spec c ho
  refine ⟨code, ?_, h⟩
  rw [intoBpf, hc]
  exact if_pos h.length_le

end RustVmm.Seccompiler
