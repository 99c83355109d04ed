import RustVmm.Seccompiler.Filters
import RustVmm.Seccompiler.Json

/-!
# From documents to programs

The frontend and the backend in a row.  Maps are lists of entries, in the order in which they are iterated.

* `compile_from_json_verdict` — the programs of a document return what it says, under the names it gives.
-/

set_option autoImplicit false

namespace RustVmm.Seccompiler

open Lib List Outcome ClassicBpf

/-- Which half of the compiler has failed. -/
inductive CompileError where
  | backend (error : Error)
  | jsonFrontend (error : JsonError)
  deriving DecidableEq, Repr

/-- A parsed document.  The parser refuses a name that occurs twice. -/
structure JsonFilterMap where
  filters : List (String × JsonFilter)
  distinct : (filters.map Prod.fst).Nodup

/-- The loop of either half: a new map with the same names. -/
def mapValues {ε α β : Type} (f : α → Outcome ε β) (entries : List (String × α)) : Outcome ε (List (String × β)) :=
  entries.mapM fun (name, value) => do
    let value ← f value
    return (name, value)

/-- `JsonCompiler::compile`, after the parser. -/
def JsonCompiler.compile (self : JsonCompiler) (document : JsonFilterMap) :
    Outcome JsonError (List (String × SeccompFilter)) := mapValues self.makeSeccompFilter document.filters

/-- `compile_from_json`, where `iterated` is the order in which the second map is iterated. -/
def compileFromJson (compiler : JsonCompiler) (iterated : List (String × SeccompFilter) → List (String × SeccompFilter))
    (document : JsonFilterMap) : Outcome CompileError (List (String × BpfProgram)) := do
  let filters ← (compiler.compile document).mapErr .jsonFrontend
  (mapValues SeccompFilter.intoBpf (iterated filters)).mapErr .backend

/-- What a document says of a call; a rule that is shadowed does not count. -/
def JsonFilter.verdict (self : JsonFilter) (compiler : JsonCompiler) (d : SeccompData) : UInt32 :=
  if d.arch ≠ compiler.arch.getAuditValue then SECCOMP_RET_KILL_PROCESS
  else if self.matchesCall compiler.syscallTable d.nr d.args = true ∧
      ¬ self.Shadowed compiler.syscallTable d.nr d.args then
    self.matchAction.toU32
  else self.mismatchAction.toU32

theorem mapValues_eq_ok {ε α β : Type} {f : α → Outcome ε β} {entries : List (String × α)} {values : List (String × β)}
    (h : mapValues f entries = .ok values) : values.map Prod.fst = entries.map Prod.fst ∧
      ∀ e ∈ entries, ∃ value, f e.2 = .ok value ∧ (e.1, value) ∈ values := by
  induction entries generalizing values with
  | nil =>
    cases h
    exact ⟨rfl, nofun⟩
  | cons e entries ih =>
    rw [mapValues, mapM_cons] at h
    obtain ⟨_, hfirst, hrest⟩ := bind_eq_ok.1 h
    obtain ⟨value, hvalue, ⟨⟩⟩ := bind_eq_ok.1 hfirst
    obtain ⟨rest, hok, ⟨⟩⟩ := bind_eq_ok.1 hrest
    obtain ⟨hnames, hall⟩ := ih hok
    refine ⟨congrArg (e.1 :: ·) hnames, forall_mem_cons.2 ⟨⟨value, hvalue, mem_cons_self⟩, fun e' he' => ?_⟩⟩
    obtain ⟨value', hvalue', hmem⟩ := hall e' he'
    exact ⟨value', hvalue', mem_cons_of_mem _ hmem⟩

theorem verdict_eq {compiler : JsonCompiler} {json : JsonFilter} {filter : SeccompFilter}
    (h : compiler.makeSeccompFilter json = .ok filter) (d : SeccompData) :
    filter.verdict d = json.verdict compiler d := by
  have hfold := makeSeccompFilter_chain h
  obtain ⟨m, _, h⟩ := bind_eq_ok.1 h
  rw [mapErr_eq_ok, SeccompFilter.new] at h
  split at h
  · cases h
  · cases h
    simp only [SeccompFilter.verdict, JsonFilter.verdict, hfold.matchesCall_iff_not_shadowed]

/-- **Documents mean what they say.**  If `compile_from_json` succeeds, in whatever order its maps are iterated, there
is one program for each filter of the document, under its name, which passes the static check of the kernel and
returns on every call what the document says: kill on a foreign architecture, the match action for a call that is
named and not shadowed, the mismatch action otherwise. -/
theorem compile_from_json_verdict {compiler : JsonCompiler}
    {iterated : List (String × SeccompFilter) → List (String × SeccompFilter)} (hiterated : ∀ l, (iterated l).Perm l)
    {document : JsonFilterMap} {programs : List (String × BpfProgram)}
    (h : compileFromJson compiler iterated document = .ok programs) :
    (programs.map Prod.fst).Perm (document.filters.map Prod.fst) ∧
      ∀ name json, (name, json) ∈ document.filters → ∃ prog, (name, prog) ∈ programs ∧ prog.length < 4096 ∧
        Checked Permitted prog ∧ ∀ d : SeccompData, ClassicBpf.run d.load prog = some (json.verdict compiler d) := by
  obtain ⟨filters, hfront, hback⟩ := bind_eq_ok.1 h
  obtain ⟨hnames, hfilters⟩ := mapValues_eq_ok (mapErr_eq_ok.1 hfront)
  obtain ⟨hnames', hprograms⟩ := mapValues_eq_ok (mapErr_eq_ok.1 hback)
  refine ⟨?_, fun name json hjson => ?_⟩
  · rw [hnames', ← hnames]
    exact (hiterated filters).map _
  · obtain ⟨filter, hmake, hmem⟩ := hfilters _ hjson
    obtain ⟨prog, hprog, hmem'⟩ := hprograms _ ((hiterated filters).mem_iff.2 hmem)
    obtain ⟨hlen, hp⟩ := program_of_ok hprog
    refine ⟨prog, hmem', hlen, checked_of_fits hp.fits, fun d => ?_⟩
    rw [run_eq_exec, hp.run d, verdict_eq hmake]

theorem compile_from_json_verdict_read : ∃ programs,
    compileFromJson ⟨.x86_64, futexTable⟩ reverse ⟨[("main", readFutex)], by simp⟩ = .ok programs ∧
      ∃ prog, ("main", prog) ∈ programs ∧ Checked Permitted prog := by
  refine ⟨_, rfl, ?_⟩
  obtain ⟨prog, hmem, _, hchecked, _⟩ := (compile_from_json_verdict reverse_perm
    (show compileFromJson ⟨.x86_64, futexTable⟩ reverse ⟨[("main", readFutex)], by simp⟩ = .ok _ from rfl)).2
    "main" readFutex mem_cons_self
  exact ⟨prog, hmem, hchecked⟩

end RustVmm.Seccompiler
