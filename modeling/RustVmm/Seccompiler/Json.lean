import Mathlib.Data.List.Forall2
import RustVmm.Seccompiler.Backend

/-!
# The JSON frontend

Model of `JsonCompiler::make_seccomp_filter`, which folds the rules of a deserialized document into one vector for each
system call (`Folded`).

* `Folded.matchesCall_iff_not_shadowed` — what the filter matches, in terms of the document.
* `json_filter_meaning_iff` — this is what the document says, unless a rule without `args` is shadowed.
-/

set_option autoImplicit false

namespace RustVmm.Seccompiler

open Lib List Outcome

/-! ## The frontend -/

/-- `frontend::json::Error`, without the errors of the parser. -/
inductive JsonError where
  | backend (error : Error)
  | syscallName (name : String) (arch : TargetArch)
  deriving DecidableEq, Repr

structure JsonCondition where
  argIndex : UInt8
  argLen : SeccompCmpArgLen
  operator : SeccompCmpOp
  value : UInt64
  deriving DecidableEq, Repr

/-- A rule of the document; `conditions` is its `args` property. -/
structure JsonRule where
  syscall : String
  conditions : Option (List JsonCondition)
  deriving DecidableEq, Repr

structure JsonFilter where
  mismatchAction : SeccompAction
  matchAction : SeccompAction
  rules : List JsonRule
  deriving DecidableEq, Repr

structure SyscallTable where
  map : List (String × Int)

def SyscallTable.getSyscallNr (self : SyscallTable) (sysName : String) : Option Int := self.map.lookup sysName

structure JsonCompiler where
  arch : TargetArch
  syscallTable : SyscallTable

/-- `TryFrom<JsonCondition> for SeccompCondition`. -/
def JsonCondition.tryInto (cond : JsonCondition) : Outcome JsonError SeccompCondition :=
  (SeccompCondition.new cond.argIndex cond.argLen cond.operator cond.value).mapErr .backend

namespace JsonCompiler

/-- One pass of the loop of `make_seccomp_filter`. -/
def addRule (self : JsonCompiler) (ruleMap : Std.TreeMap Int (List SeccompRule))
    (jsonRule : JsonRule) : Outcome JsonError (Std.TreeMap Int (List SeccompRule)) := do
  let syscallNr ← .okOr (self.syscallTable.getSyscallNr jsonRule.syscall)
    (.syscallName jsonRule.syscall self.arch)
  -- `entry(syscall_nr).or_default()`
  let ruleAccumulator := ruleMap.getD syscallNr []
  match jsonRule.conditions with
  | none => return ruleMap.insert syscallNr ruleAccumulator
  | some conditions => do
    let seccompConditions ← conditions.mapM JsonCondition.tryInto
    let rule ← (SeccompRule.new seccompConditions).mapErr .backend
    return ruleMap.insert syscallNr (ruleAccumulator ++ [rule])

def makeSeccompFilter (self : JsonCompiler) (filter : JsonFilter) : Outcome JsonError SeccompFilter := do
  let ruleMap ← filter.rules.foldlM self.addRule Std.TreeMap.empty
  (SeccompFilter.new ruleMap filter.mismatchAction filter.matchAction self.arch).mapErr .backend

end JsonCompiler

/-! ## What a document means -/

/-- A condition object: the argument at `index` compared with `val`, as wide as `type` says. -/
def JsonCondition.holds (self : JsonCondition) (args : Fin 6 → UInt64) : Bool :=
  if h : self.argIndex.toNat < 6 then
    match self.argLen with
    | .dword => self.operator.eval UInt64.toUInt32 (args ⟨_, h⟩).toUInt32 self.value.toUInt32
    | .qword => self.operator.eval id (args ⟨_, h⟩) self.value
  else false

/-- A rule object holds for any arguments if it has no `args`, else if all its conditions do. -/
def JsonRule.holds (self : JsonRule) (args : Fin 6 → UInt64) : Bool :=
  match self.conditions with
  | none => true
  | some conditions => conditions.all fun c => c.holds args

/-- The rule object is about the system call with this number. -/
def JsonRule.names (self : JsonRule) (table : SyscallTable) (nr : Int) : Bool :=
  table.getSyscallNr self.syscall = some nr

/-- The filter of the document matches: one of its rules does. -/
def JsonFilter.matchesCall (self : JsonFilter) (table : SyscallTable) (nr : UInt32) (args : Fin 6 → UInt64) : Bool :=
  self.rules.any fun rule => rule.names table nr.toNat && rule.holds args

/-! ## Rules keep their meaning -/

theorem JsonCondition.tryInto_holds {cond : JsonCondition} {c : SeccompCondition}
    (h : cond.tryInto = .ok c) (args : Fin 6 → UInt64) : c.holds args = cond.holds args := by
  unfold JsonCondition.tryInto SeccompCondition.new at h
  split at h
  · rename_i hle
    cases h
    have hlt : cond.argIndex.toNat < 6 := Nat.lt_succ_of_le (UInt8.le_iff_toNat_le.1 hle)
    rw [JsonCondition.holds, dif_pos hlt]
    rfl
  · cases h

theorem tryInto_all {conditions : List JsonCondition} {cs : List SeccompCondition}
    (h : conditions.mapM JsonCondition.tryInto = .ok cs) (args : Fin 6 → UInt64) :
    (cs.all fun c => c.holds args) = conditions.all fun c => c.holds args := by
  induction conditions generalizing cs with
  | nil =>
    cases h
    rfl
  | cons cond conditions ih =>
    rw [mapM_cons] at h
    obtain ⟨c, hc, h⟩ := bind_eq_ok.1 h
    obtain ⟨cs', hcs, h⟩ := bind_eq_ok.1 h
    cases h
    rw [all_cons, all_cons, JsonCondition.tryInto_holds hc, ih hcs]

/-- A backend rule with the meaning of a rule object. -/
def SameMeaning (jsonRule : JsonRule) (rule : SeccompRule) : Prop := ∀ args, rule.holds args = jsonRule.holds args

variable {table : SyscallTable}

theorem names_unique {rule : JsonRule} {k : Int} (h : table.getSyscallNr rule.syscall = some k) (nr : Int) :
    rule.names table nr = decide (k = nr) := by
  rw [JsonRule.names, h]
  simp

variable {self : JsonCompiler} {m m' : Std.TreeMap Int (List SeccompRule)} {jsonRule : JsonRule}

theorem addRule_spec (h : self.addRule m jsonRule = .ok m') :
    ∃ k new, self.syscallTable.getSyscallNr jsonRule.syscall = some k ∧
      List.Forall₂ SameMeaning ([jsonRule].filter fun r => r.conditions.isSome) new ∧
      m' = m.insert k (m.getD k [] ++ new) := by
  obtain ⟨k, hk, h⟩ := bind_eq_ok.1 h
  have hnr := okOr_eq_ok.1 hk
  split at h
  · rename_i hnone
    cases h
    refine ⟨k, [], hnr, ?_, by rw [append_nil]⟩
    simp [hnone]
  · rename_i conditions hsome
    obtain ⟨cs, hcs, h⟩ := bind_eq_ok.1 h
    obtain ⟨rule, hrule, h⟩ := bind_eq_ok.1 h
    cases h
    refine ⟨k, [rule], hnr, ?_, rfl⟩
    have hmean : SameMeaning jsonRule rule := by
      intro args
      unfold SeccompRule.new at hrule
      split at hrule
      · cases hrule
      · cases hrule
        rw [JsonRule.holds, hsome]
        exact tryInto_all hcs args
    simp [hsome, hmean]

/-! ## The vectors of the rule map -/

/-- The rules with `args` for a system call, in the order of the document. -/
def argRules (table : SyscallTable) (nr : Int) (rules : List JsonRule) : List JsonRule :=
  rules.filter fun r => r.names table nr && r.conditions.isSome

/-- What the loop has built from the rules that are done. -/
structure Folded (table : SyscallTable) (done : List JsonRule)
    (m : Std.TreeMap Int (List SeccompRule)) : Prop where
  contains : ∀ nr, m.contains nr = done.any fun r => r.names table nr
  chain : ∀ nr, List.Forall₂ SameMeaning (argRules table nr done) (m.getD nr [])

theorem Folded.nil (table : SyscallTable) : Folded table [] Std.TreeMap.empty := by
  refine ⟨fun nr => ?_, fun nr => ?_⟩
  · rfl
  · exact List.Forall₂.nil

theorem Folded.addRule {done : List JsonRule} (hf : Folded self.syscallTable done m)
    (h : self.addRule m jsonRule = .ok m') : Folded self.syscallTable (done ++ [jsonRule]) m' := by
  obtain ⟨k, new, hk, hnew, rfl⟩ := addRule_spec h
  have hnames := names_unique hk
  refine ⟨fun nr => ?_, fun nr => ?_⟩
  · have hcmp : (compare k nr == .eq) = decide (k = nr) := by
      by_cases hnr : k = nr <;> simp [hnr]
    rw [Std.TreeMap.contains_insert, hf.contains, hcmp, Bool.or_comm]
    simp [hnames]
  · rw [Std.TreeMap.getD_insert, argRules, filter_append]
    by_cases hnr : k = nr
    · subst hnr
      have hlast : ([jsonRule].filter fun r => r.names self.syscallTable k && r.conditions.isSome) =
          [jsonRule].filter fun r => r.conditions.isSome := by
        simp [filter_cons, hnames]
      rw [hlast, if_pos (by simp)]
      exact rel_append (hf.chain k) hnew
    · have hlast : ([jsonRule].filter fun r =>
          r.names self.syscallTable nr && r.conditions.isSome) = [] := by
        simp [hnames, hnr]
      rw [hlast, if_neg (by simpa using hnr), append_nil]
      exact hf.chain nr

variable {filter : SeccompFilter} {json : JsonFilter}

theorem makeSeccompFilter_chain (h : self.makeSeccompFilter json = .ok filter) :
    Folded self.syscallTable json.rules filter.rules := by
  obtain ⟨m, hm, h⟩ := bind_eq_ok.1 h
  have hfold : Folded self.syscallTable json.rules m :=
    foldlM_invariant (Folded self.syscallTable) (fun _ _ _ _ => Folded.addRule)
      (Folded.nil _) hm
  unfold SeccompFilter.new at h
  split at h
  · cases h
  · cases h
    exact hfold

/-! ## Meaning of the whole filter -/

theorem matchesCall_eq (filter : SeccompFilter) (nr : UInt32) (args : Fin 6 → UInt64) : filter.matchesCall nr args =
      (filter.rules.contains (nr.toNat : Int) && chainHolds (filter.rules.getD (nr.toNat : Int) []) args) := by
  rw [SeccompFilter.matchesCall, Std.TreeMap.contains_eq_isSome_getElem?, Std.TreeMap.getD_eq_getD_getElem?]
  cases filter.rules[(nr.toNat : Int)]? with
  | none => rfl
  | some chain => simp

variable {rules : List JsonRule}

theorem chainHolds_of_sameMeaning {chain : List SeccompRule} (h : List.Forall₂ SameMeaning rules chain)
    (args : Fin 6 → UInt64) : chainHolds chain args = (rules.isEmpty || rules.any fun r => r.holds args) := by
  have hany : (chain.any fun r => r.holds args) = rules.any fun r => r.holds args := by
    induction h with
    | nil => rfl
    | cons hr _ ih => rw [any_cons, any_cons, hr args, ih]
  have hempty : chain.isEmpty = rules.isEmpty := by
    cases h <;> rfl
  rw [chainHolds, hany, hempty]

def JsonFilter.HasArgless (self : JsonFilter) (table : SyscallTable) (nr : UInt32) : Prop :=
  ∃ r ∈ self.rules, r.names table nr.toNat = true ∧ r.conditions = none

def JsonFilter.Shadowed (self : JsonFilter) (table : SyscallTable) (nr : UInt32) (args : Fin 6 → UInt64) : Prop :=
  self.HasArgless table nr ∧ argRules table nr.toNat self.rules ≠ [] ∧
    ∀ r ∈ argRules table nr.toNat self.rules, r.holds args = false

instance (self : JsonFilter) (table : SyscallTable) (nr : UInt32) (args : Fin 6 → UInt64) :
    Decidable (self.Shadowed table nr args) :=
  inferInstanceAs (Decidable ((∃ r ∈ self.rules, r.names table nr.toNat = true ∧ r.conditions = none) ∧ _ ∧ _))

theorem mem_argRules {nr : Int} {r : JsonRule} :
    r ∈ argRules table nr rules ↔ r ∈ rules ∧ r.names table nr = true ∧ r.conditions ≠ none := by
  rw [argRules, mem_filter, Bool.and_eq_true, Option.isSome_iff_ne_none]

theorem JsonFilter.matchesCall_iff (self : JsonFilter) (table : SyscallTable) (nr : UInt32) (args : Fin 6 → UInt64) :
    self.matchesCall table nr args = true ↔
      self.HasArgless table nr ∨ ∃ r ∈ argRules table nr.toNat self.rules, r.holds args = true := by
  rw [JsonFilter.matchesCall, any_eq_true]
  constructor
  · rintro ⟨r, hr, hm⟩
    rw [Bool.and_eq_true] at hm
    by_cases hc : r.conditions = none
    · exact .inl ⟨r, hr, hm.1, hc⟩
    · exact .inr ⟨r, mem_argRules.2 ⟨hr, hm.1, hc⟩, hm.2⟩
  · rintro (⟨r, hr, hn, hc⟩ | ⟨r, hr, hh⟩)
    · refine ⟨r, hr, ?_⟩
      rw [hn, JsonRule.holds, hc]
      rfl
    · obtain ⟨hr, hn, _⟩ := mem_argRules.1 hr
      exact ⟨r, hr, by rw [hn, hh]; rfl⟩

theorem Folded.matchesCall_iff (hf : Folded table json.rules filter.rules) (nr : UInt32)
    (args : Fin 6 → UInt64) : filter.matchesCall nr args = true ↔
      (json.HasArgless table nr ∨ argRules table nr.toNat json.rules ≠ []) ∧
      (argRules table nr.toNat json.rules = [] ∨ ∃ r ∈ argRules table nr.toNat json.rules, r.holds args = true) := by
  have hnamed : (json.rules.any fun r => r.names table nr.toNat) = true ↔
      json.HasArgless table nr ∨ argRules table nr.toNat json.rules ≠ [] := by
    rw [any_eq_true]
    constructor
    · rintro ⟨r, hr, hn⟩
      by_cases hc : r.conditions = none
      · exact .inl ⟨r, hr, hn, hc⟩
      · exact .inr (ne_nil_of_mem (mem_argRules.2 ⟨hr, hn, hc⟩))
    · rintro (⟨r, hr, hn, _⟩ | hne)
      · exact ⟨r, hr, hn⟩
      · obtain ⟨r, hr⟩ := exists_mem_of_ne_nil _ hne
        exact ⟨r, (mem_argRules.1 hr).1, (mem_argRules.1 hr).2.1⟩
  rw [matchesCall_eq, Bool.and_eq_true, hf.contains, hnamed,
    chainHolds_of_sameMeaning (hf.chain _), Bool.or_eq_true, List.isEmpty_iff, any_eq_true]

theorem Folded.matchesCall_iff_not_shadowed
    (hf : Folded table json.rules filter.rules) (nr : UInt32) (args : Fin 6 → UInt64) :
    filter.matchesCall nr args = true ↔ json.matchesCall table nr args = true ∧ ¬ json.Shadowed table nr args := by
  have hnone : (∀ r ∈ argRules table nr.toNat json.rules, r.holds args = false) ↔
      ¬ ∃ r ∈ argRules table nr.toNat json.rules, r.holds args = true := by simp
  have hempty : argRules table nr.toNat json.rules = [] →
      ¬ ∃ r ∈ argRules table nr.toNat json.rules, r.holds args = true := by simp +contextual
  rw [hf.matchesCall_iff, json.matchesCall_iff, JsonFilter.Shadowed, hnone]
  generalize (∃ r ∈ argRules table nr.toNat json.rules, r.holds args = true) = held at hempty ⊢
  tauto

/-- **When a filter means what its document says.**  The filter that `make_seccomp_filter` returns
matches a call exactly when the document does, unless the call is matched only by a rule without
`args` whose system call also has rules with `args`. -/
theorem json_filter_meaning_iff {compiler : JsonCompiler} {json : JsonFilter}
    {filter : SeccompFilter} (h : compiler.makeSeccompFilter json = .ok filter) (nr : UInt32)
    (args : Fin 6 → UInt64) :
    filter.matchesCall nr args = json.matchesCall compiler.syscallTable nr args ↔
      ¬ json.Shadowed compiler.syscallTable nr args := by
  have hshadowed : json.Shadowed compiler.syscallTable nr args → json.matchesCall compiler.syscallTable nr args = true :=
    fun hs => (json.matchesCall_iff ..).2 (.inl hs.1)
  rw [Bool.eq_iff_iff, (makeSeccompFilter_chain h).matchesCall_iff_not_shadowed]
  exact ⟨fun heq hs => (heq.2 (hshadowed hs)).2 hs, fun hnot => and_iff_left hnot⟩

/-- Part of the table of `x86_64`. -/
def futexTable : SyscallTable := ⟨[("futex", 202), ("read", 0)]⟩

/-- `read` in general, `futex` for one operation. -/
def readFutex : JsonFilter :=
  ⟨.trap, .allow, [⟨"read", none⟩, ⟨"futex", some [⟨1, .dword, .eq, 129⟩]⟩]⟩

theorem json_filter_meaning_read : ∃ filter,
    JsonCompiler.makeSeccompFilter ⟨.x86_64, futexTable⟩ readFutex = .ok filter ∧
    filter.matchesCall 0 (fun _ => 7) = readFutex.matchesCall futexTable 0 (fun _ => 7) ∧
    readFutex.matchesCall futexTable 0 (fun _ => 7) = true :=
  ⟨_, rfl, (json_filter_meaning_iff (show JsonCompiler.makeSeccompFilter ⟨.x86_64, futexTable⟩
    readFutex = .ok _ from rfl) 0 _).2 (by decide), rfl⟩

/-- **A rule without `args` that is lost.**  `futex` is allowed by the first rule whatever its
arguments are, but the filter traps it unless its operation is 129. -/
theorem json_argless_rule_lost : ∃ filter,
    JsonCompiler.makeSeccompFilter ⟨.x86_64, futexTable⟩
      ⟨.trap, .allow, [⟨"futex", none⟩, ⟨"futex", some [⟨1, .dword, .eq, 129⟩]⟩]⟩ = .ok filter ∧
    JsonFilter.matchesCall
      ⟨.trap, .allow, [⟨"futex", none⟩, ⟨"futex", some [⟨1, .dword, .eq, 129⟩]⟩]⟩ futexTable 202
      (fun _ => 0) = true ∧
    filter.matchesCall 202 (fun _ => 0) = false :=
  ⟨_, rfl, rfl, rfl⟩

end RustVmm.Seccompiler
