import RustVmm.LinuxLoader.Quotes

/-!
# The text of a command line

* `cmdline_printable_iff` — what is inserted cannot make the text unprintable, but `try_from` can.
* `findSeparator_append` — the search for the separator passes what is before it.
* `cmdline_round_trip` — the halves are found again in the string that is rendered.
-/

set_option autoImplicit false

namespace RustVmm.LinuxLoader

open Lib List Exec Cmdline Insertion

/-! ## Printable characters -/

/-- Both halves consist of printable ASCII characters. -/
def Cmdline.Printable (cl : Cmdline) : Prop := cl.bootArgs.all validChar = true ∧ cl.initArgs.all validChar = true

instance (cl : Cmdline) : Decidable cl.Printable := inferInstanceAs (Decidable (_ ∧ _))

variable {s args before : Str}

theorem validStr_eq_ok {u : Unit} (h : validStr s = .ok u) : s.all validChar = true := by
  unfold validStr at h
  split at h
  · assumption
  · cases h

theorem Cmdline.all_push (hs : s.all validChar = true) :
    (push args s).all validChar = true ↔ args.all validChar = true := by
  unfold push
  split
  · rename_i hargs
    rw [hargs]
    exact iff_of_true hs rfl
  · rw [all_append, all_cons, hs, show validChar ' ' = true from rfl]
    simp

theorem Cmdline.charge_cases (self result : Cmdline) (first : Outcome Error Nat) (l : Nat) :
    let after := ((do
      let size ← lift first
      let size ← .lift (.okOr (checkedAdd size l) .tooLarge)
      if size > self.capacity.toNat then .lift (.err .tooLarge) else .set result : Exec Cmdline Error Unit) self).2
    after = self ∨ after = result := by
  intro after
  rcases lift_bind_cases first _ self with hsame | ⟨size, _, hfirst⟩
  · exact .inl hsame
  rcases lift_bind_cases (.okOr (checkedAdd size l) Error.tooLarge) _ self with hsame | ⟨total, _, htotal⟩
  · exact .inl ((congrArg Prod.snd hfirst).trans hsame)
  unfold after
  rw [hfirst, htotal]
  split
  · exact .inl rfl
  · exact .inr rfl

theorem Cmdline.checked_cases {self result : Cmdline} {f : Cmdline → Nat → Exec Cmdline Error Unit}
    (hf : ∀ size, (f self size self).2 = self ∨ (f self size self).2 = result) :
    let after := ((do
      .lift (validStr s)
      let self ← .get
      let size ← .lift self.getNullTerminatedRepresentationSize
      f self size : Exec Cmdline Error Unit) self).2
    after = self ∨ s.all validChar = true ∧ after = result := by
  intro after
  rcases lift_bind_cases (validStr s) _ self with hsame | ⟨_, hvalid, heq⟩
  · exact .inl hsame
  rcases lift_bind_cases self.getNullTerminatedRepresentationSize (f self) self with hsame | ⟨size, _, hsize⟩
  · exact .inl ((congrArg Prod.snd heq).trans hsame)
  unfold after
  rw [heq, bind_of_ok (get_apply self), hsize]
  exact (hf size).imp_right fun hresult => ⟨validStr_eq_ok hvalid, hresult⟩

theorem Cmdline.insertStr_cases (slug : Str) (self : Cmdline) :
    (insertStr slug self).2 = self ∨ (trim slug).all validChar = true ∧
      (insertStr slug self).2 = { self with bootArgs := push self.bootArgs (trim slug) } := by
  rw [← push_eq]
  exact checked_cases fun _ => charge_cases _ _ _ _

theorem Cmdline.insertInitArgs_cases (slug : Str) (self : Cmdline) :
    (insertInitArgs slug self).2 = self ∨ (trim slug).all validChar = true ∧
      (insertInitArgs slug self).2 = { self with initArgs := push self.initArgs (trim slug) } := by
  rw [← push_eq]
  exact checked_cases fun _ => charge_cases _ _ _ _

namespace Insertion

/-- What a call can leave behind: the command line as it was, or with a valid string in one half. -/
def Leaves (c : Insertion) (cl after : Cmdline) : Prop :=
  after = cl ∨ (trim c.text).all validChar = true ∧ after = c.result cl

theorem leaves_lift_bind {c : Insertion} {cl : Cmdline} {f : Exec Cmdline Error Unit} (h : c.Leaves cl (f cl).2)
    (check : Outcome Error Unit) : c.Leaves cl ((lift check >>= fun _ => f) cl).2 := by
  rcases lift_bind_cases check (fun _ => f) cl with hsame | ⟨_, _, heq⟩
  · exact .inl hsame
  · rw [heq]
    exact h

theorem leaves_insertStr {c : Insertion} (hboot : c.isInit = false) (cl : Cmdline) :
    c.Leaves cl (Cmdline.insertStr c.text cl).2 := by
  unfold Leaves result
  rw [hboot]
  exact insertStr_cases c.text cl

theorem step_cases (c : Insertion) (cl : Cmdline) : c.Leaves cl (step cl c) := by
  cases c with
  | insert key val =>
    have hstr := leaves_insertStr (c := insert key val) rfl cl
    exact leaves_lift_bind (leaves_lift_bind hstr _) _
  | insertMultiple key vals =>
    have hstr := leaves_insertStr (c := insertMultiple key vals) rfl cl
    exact leaves_lift_bind (leaves_lift_bind (leaves_lift_bind hstr _) _) _
  | insertStr slug => exact leaves_insertStr rfl cl
  | insertInitArgs slug => exact insertInitArgs_cases slug cl
  | addVirtioMmioDevice size baseaddr irq id =>
    have hstr := leaves_insertStr (c := addVirtioMmioDevice size baseaddr irq id) rfl cl
    exact leaves_lift_bind hstr _

theorem printable_step (cl : Cmdline) (c : Insertion) : (step cl c).Printable ↔ cl.Printable := by
  rcases step_cases c cl with hsame | ⟨hvalid, hresult⟩
  · rw [hsame]
  · rw [hresult]
    unfold result
    split
    · exact and_congr Iff.rfl (all_push hvalid)
    · exact and_congr (all_push hvalid) Iff.rfl

theorem printable_run (cl : Cmdline) (cs : List Insertion) : (run step cl cs).Printable ↔ cl.Printable := by
  induction cs generalizing cl with
  | nil => exact Iff.rfl
  | cons c cs ih => exact (ih (step cl c)).trans (printable_step cl c)

end Insertion

variable {cl : Cmdline}

theorem Cmdline.printable_new {capacity : UInt64} (h : new capacity = .ok cl) : cl.Printable := by
  obtain ⟨_, rfl⟩ := new_eq_ok h
  exact ⟨rfl, rfl⟩

/-! ## The terminator -/

theorem zero_not_mem_utf8EncodeChar {c : Char} (h : validChar c = true) : (0 : UInt8) ∉ String.utf8EncodeChar c := by
  obtain ⟨hlow, hhigh⟩ := validChar_iff.1 h
  have hone : String.utf8EncodeChar c = [.ofNat c.toNat] := if_pos (by show c.toNat ≤ 0x7f; omega)
  rw [hone, mem_singleton]
  intro hzero
  have hnat : 0 = c.toNat % 256 := congrArg UInt8.toNat hzero
  omega

theorem Cmdline.cstringNew_of_valid (h : s.all validChar = true) : cstringNew s = .ok (bytes s) := by
  have hzero : (0 : UInt8) ∉ bytes s := by
    intro hmem
    obtain ⟨c, hc, hmem⟩ := mem_flatMap.1 hmem
    exact zero_not_mem_utf8EncodeChar (all_eq_true.1 h c hc) hmem
  unfold cstringNew
  rw [if_neg (by simpa using hzero)]

def Cmdline.rendered (cl : Cmdline) : Str :=
  cl.bootArgs ++ if cl.initArgs = [] then [] else INIT_ARGS_SEPARATOR ++ cl.initArgs

theorem Cmdline.asCstring_of_printable (h : cl.Printable) : cl.asCstring =
      if cl.bootArgs = [] ∧ cl.initArgs ≠ [] then .err .noBootArgsInserted else .ok (bytes cl.rendered) := by
  obtain ⟨hboot, hinit⟩ := h
  have hvalid : (cl.bootArgs ++ INIT_ARGS_SEPARATOR ++ cl.initArgs).all validChar = true := by
    rw [all_append, all_append, hboot, hinit]
    decide
  unfold asCstring rendered
  by_cases hempty : cl.bootArgs = [] <;> by_cases hnone : cl.initArgs = []
  · rw [hempty, hnone]
    rfl
  · rw [if_neg (by simpa [hempty] using hnone), if_pos (isEmpty_iff.2 hempty), if_pos ⟨hempty, hnone⟩]
  · rw [if_neg (by simp [hempty]), if_neg (by simpa using hempty), if_pos (isEmpty_iff.2 hnone),
      if_neg (fun h => hempty h.1), if_pos hnone, append_nil, cstringNew_of_valid hboot]
  · rw [if_neg (by simp [hempty]), if_neg (by simpa using hempty), if_neg (by simpa using hnone),
      if_neg (fun h => hempty h.1), if_neg hnone, cstringNew_of_valid hvalid, append_assoc]

/-! ## Where a command line comes from -/

inductive Origin where
  | new (capacity : UInt64)
  | tryFrom (cmdlineRaw : Str) (capacity : UInt64)

namespace Origin

def build : Origin → Outcome Error Cmdline
  | new capacity => Cmdline.new capacity
  | tryFrom cmdlineRaw capacity => Cmdline.tryFrom cmdlineRaw capacity

/-- The halves of the string are printable, without the whitespace around them. -/
def Printable : Origin → Prop
  | new _ => True
  | tryFrom cmdlineRaw _ =>
    (trim (Cmdline.halves cmdlineRaw).1).all validChar = true ∧
      (trim (Cmdline.halves cmdlineRaw).2).all validChar = true

instance : DecidablePred Printable
  | new _ => inferInstanceAs (Decidable True)
  | tryFrom _ _ => inferInstanceAs (Decidable (_ ∧ _))

theorem printable_build {o : Origin} {cl : Cmdline} (h : o.build = .ok cl) : cl.Printable ↔ o.Printable := by
  cases o with
  | new capacity => exact iff_of_true (printable_new h) trivial
  | tryFrom cmdlineRaw capacity =>
    obtain ⟨rfl, _⟩ := tryFrom_eq_ok.1 h
    exact Iff.rfl

end Origin

/-- **Nothing that is inserted makes a command line printable or not.**  `try_from` does not look at the characters of
its string; a printable command line is never refused for a NUL. -/
theorem cmdline_printable_iff (o : Origin) (cl₀ : Cmdline) (hbuild : o.build = .ok cl₀) (cs : List Insertion) :
    let cl := run Insertion.step cl₀ cs
    (cl.Printable ↔ o.Printable) ∧ (o.Printable → cl.asCstring ≠ .err .nullTerminator) := by
  intro cl
  have hiff : cl.Printable ↔ o.Printable := (printable_run cl₀ cs).trans (Origin.printable_build hbuild)
  refine ⟨hiff, fun hprintable hnull => ?_⟩
  rw [asCstring_of_printable (hiff.2 hprintable)] at hnull
  split at hnull <;> cases hnull

theorem try_from_accepts_nul : Cmdline.tryFrom ['a', '\x00', 'b'] 16 = .ok ⟨['a', '\x00', 'b'], [], 16⟩ ∧
    ¬ (run Insertion.step ⟨['a', '\x00', 'b'], [], 16⟩ [.insertStr ['c']]).Printable ∧
    (run Insertion.step ⟨['a', '\x00', 'b'], [], 16⟩ [.insertStr ['c']]).asCstring = .err .nullTerminator := by
  decide +kernel

theorem cmdline_printable_trimmed :
    let cs := [.insertStr ['b', '\n', 'c'], .insertInitArgs ['d']]
    let cl := run Insertion.step ⟨['a'], [], 16⟩ cs
    cl.Printable ∧ cl.asCstring ≠ .err .nullTerminator := by
  intro cs cl
  obtain ⟨hiff, hnull⟩ := cmdline_printable_iff (.tryFrom ['a', '\n'] 16) ⟨['a'], [], 16⟩ (by decide +kernel) cs
  have hprintable : (Origin.tryFrom ['a', '\n'] 16).Printable := by decide +kernel
  exact ⟨hiff.2 hprintable, hnull hprintable⟩

/-! ## No whitespace at the ends -/

theorem trimmed_trim (s : Str) : Trimmed (trim s) := by
  unfold trim
  constructor
  · intro c hc
    obtain ⟨after, hafter⟩ := rdropWhile_prefix isWhitespace (s.dropWhile isWhitespace)
    have hhead : (s.dropWhile isWhitespace).head? = some c := by
      rw [← hafter, head?_append, show _ = some c from hc]
      rfl
    have hnot := head?_dropWhile_not isWhitespace s
    rw [hhead] at hnot
    exact hnot
  · intro c hc
    have hne : (s.dropWhile isWhitespace).rdropWhile isWhitespace ≠ [] := by
      intro hnil
      rw [hnil] at hc
      cases hc
    rw [getLast?_eq_some_getLast hne] at hc
    rw [← Option.some.inj hc]
    exact Bool.eq_false_iff.2 (rdropWhile_last_not isWhitespace _ hne)

theorem Trimmed.push (hargs : Trimmed args) (hs : Trimmed s) (hne : s ≠ []) : Trimmed (push args s) := by
  unfold Cmdline.push
  split
  · exact hs
  · rename_i hargs'
    obtain ⟨first, rest, rfl⟩ := exists_cons_of_ne_nil hargs'
    obtain ⟨c, s', rfl⟩ := exists_cons_of_ne_nil hne
    refine ⟨hargs.1, ?_⟩
    rw [getLast?_append]
    intro last hlast
    refine hs.2 last ?_
    exact hlast

theorem Insertion.trimmed_run {cs : List Insertion} (hs : ∀ c ∈ cs, c.NotBlank) (init : Bool)
    (h : Trimmed (half init cl)) : Trimmed (half init (run step cl cs)) := by
  induction cs generalizing cl with
  | nil => exact h
  | cons c cs ih =>
    obtain ⟨hc, hcs⟩ := forall_mem_cons.1 hs
    refine ih hcs ?_
    rcases step_cases c cl with hsame | ⟨_, hresult⟩
    · rw [hsame]
      exact h
    · rw [hresult, half_result]
      split
      · exact h.push (trimmed_trim _) hc
      · exact h

/-! ## The search for the separator -/

theorem findSeparator_match (before t : Str) : findSeparator before (INIT_ARGS_SEPARATOR ++ t) =
      if checkOutsideDoubleQuotes before then some (before, t)
      else findSeparator (before ++ INIT_ARGS_SEPARATOR) t := by
  show findSeparator before (' ' :: '-' :: '-' :: ' ' :: t) = _
  rw [findSeparator]
  rfl

theorem findSeparator_skip {rest : Str} {c : Char} (h : ¬ INIT_ARGS_SEPARATOR <+: c :: rest) :
    findSeparator before (c :: rest) = findSeparator (before ++ [c]) rest := by
  rw [findSeparator, if_neg (by simpa using h)]

/-- The parameter that ends the boot arguments. -/
def DASHES : Str := ['-', '-']

theorem quoted_of_dashes (hno : DASHES ∉ splitOutside ' ' '"' false (before ++ s))
    (hs : INIT_ARGS_SEPARATOR <+: s ∨ s = ' ' :: DASHES) : checkOutsideDoubleQuotes before = false := by
  by_contra houtside
  have heven : stateAfter '"' false before = false := by
    rw [stateAfter_false_iff]
    simpa [checkOutsideDoubleQuotes] using houtside
  have hwhole : Whole ' ' '"' false DASHES := whole_of_not_mem (by decide) false
  apply hno
  rcases hs with ⟨t, rfl⟩ | rfl
  · show DASHES ∈ splitOutside ' ' '"' false (before ++ ' ' :: (DASHES ++ ' ' :: t))
    rw [splitOutside_append_of_outside (by decide) heven]
    exact mem_append_right _ mem_cons_self
  · rw [splitOutside_append_of_outside (by decide) heven]
    exact mem_append_right _ mem_cons_self

theorem match_at_border {tail : Str} (hs : s ≠ []) (htail : tail = [] ∨ INIT_ARGS_SEPARATOR <+: tail)
    (h : INIT_ARGS_SEPARATOR <+: s ++ tail) : INIT_ARGS_SEPARATOR <+: s ∨ s = ' ' :: DASHES := by
  rcases htail with rfl | ⟨t, rfl⟩
  · rw [append_nil] at h
    exact .inl h
  · match s, hs, h with
    | [a], _, h => simp [INIT_ARGS_SEPARATOR] at h
    | [a, b], _, h => simp [INIT_ARGS_SEPARATOR] at h
    | [a, b, c], _, h =>
      right
      obtain ⟨rfl, rfl, rfl⟩ : ' ' = a ∧ '-' = b ∧ '-' = c := by simpa [INIT_ARGS_SEPARATOR] using h
      rfl
    | a :: b :: c :: d :: s, _, h =>
      left
      simpa [INIT_ARGS_SEPARATOR] using h

theorem findSeparator_append {line tail : Str} (hno : DASHES ∉ splitOutside ' ' '"' false line)
    (heven : line.count '"' % 2 = 0) (htail : tail = [] ∨ INIT_ARGS_SEPARATOR <+: tail) (before s : Str)
    (hline : before ++ s = line) :
    findSeparator before (s ++ tail) = findSeparator line tail := by
  -- a match inside of quotes is passed over as a whole, so the induction is on the length
  induction hlen : s.length using Nat.strong_induction_on generalizing before s with
  | _ n ih =>
    subst hlen
    cases s with
    | nil =>
      rw [append_nil] at hline
      rw [hline]
      rfl
    | cons c s =>
      by_cases hmatch : INIT_ARGS_SEPARATOR <+: c :: s ++ tail
      · have hborder := match_at_border (cons_ne_nil c s) htail hmatch
        have hquoted := quoted_of_dashes (hline ▸ hno) hborder
        rcases hborder with ⟨t, ht⟩ | ht
        · rw [← ht, append_assoc, findSeparator_match, hquoted]
          refine ih t.length ?_ (before ++ INIT_ARGS_SEPARATOR) t ?_ rfl
          · rw [← ht, length_append]
            exact Nat.lt_add_of_pos_left (by decide)
          · rw [append_assoc, ht, hline]
        · -- the quotes are all before the `--`
          rw [ht] at hline
          rw [← hline, count_append, show (' ' :: DASHES).count '"' = 0 from rfl, Nat.add_zero] at heven
          rw [checkOutsideDoubleQuotes, heven] at hquoted
          cases hquoted
      · refine (findSeparator_skip hmatch).trans (ih s.length (Nat.lt_succ_self _) (before ++ [c]) s ?_ rfl)
        rw [append_assoc]
        exact hline

/-- **Rendering and parsing**: boot arguments with quotes in pairs and no parameter `--` come back, with the init
arguments. -/
theorem cmdline_round_trip (capacity : UInt64) (cl₀ : Cmdline) (hnew : Cmdline.new capacity = .ok cl₀)
    (cs : List Insertion) (hs : ∀ c ∈ cs, c.NotBlank)
    (hboot : (run Insertion.step cl₀ cs).bootArgs ≠ [])
    (heven : (run Insertion.step cl₀ cs).bootArgs.count '"' % 2 = 0)
    (hno : DASHES ∉ pieces (run step cl₀ cs).bootArgs) :
    let cl := run step cl₀ cs
    cl.asCstring = .ok (bytes cl.rendered) ∧ tryFrom cl.rendered capacity = .ok cl := by
  intro cl
  obtain ⟨hempty, hcap₀⟩ : (∀ init, half init cl₀ = []) ∧ cl₀.capacity = capacity := by
    obtain ⟨_, rfl⟩ := new_eq_ok hnew
    exact ⟨fun init => by cases init <;> rfl, rfl⟩
  obtain ⟨hfits, hcap⟩ := fits_run (fits_new hnew) hs
  have htrimmed : ∀ init, trim (half init cl) = half init cl := fun init =>
    (trimmed_run hs init (by rw [hempty init]; exact ⟨nofun, nofun⟩)).trim_eq
  have hprintable : cl.Printable := (printable_run cl₀ cs).2 (printable_new hnew)
  -- the search passes over the boot arguments, and finds the separator if there is one
  have hsearch : ∀ tail, tail = [] ∨ INIT_ARGS_SEPARATOR <+: tail →
      findSeparator [] (cl.bootArgs ++ tail) = findSeparator cl.bootArgs tail := by
    intro tail htail
    unfold pieces at hno
    rw [if_neg hboot] at hno
    exact findSeparator_append hno heven htail [] cl.bootArgs rfl
  have hhalves : halves cl.rendered = (cl.bootArgs, cl.initArgs) := by
    unfold halves rendered
    split
    · rename_i hinit
      rw [hsearch [] (.inl rfl), hinit, append_nil, findSeparator]
      rfl
    · rw [hsearch _ (.inr (prefix_append _ _)), findSeparator_match,
        if_pos (by simpa [checkOutsideDoubleQuotes] using heven)]
      rfl
  constructor
  · rw [asCstring_of_printable hprintable, if_neg fun h => hboot h.1]
  · rw [tryFrom_eq_ok, hhalves]
    refine ⟨?_, hfits⟩
    show cl = ⟨trim (half false cl), trim (half true cl), capacity⟩
    rw [htrimmed, htrimmed, ← hcap₀, ← hcap]
    rfl

theorem cmdline_round_trip_quoted :
    let cs := [.insertStr ['a'], .insert ['b'] ['"', 'x', ' ', '-', '-', ' ', 'y', '"'], .insertInitArgs ['-', '-']]
    let cl := run Insertion.step ⟨[], [], 32⟩ cs
    cl.bootArgs = ['a', ' ', 'b', '=', '"', 'x', ' ', '-', '-', ' ', 'y', '"'] ∧ cl.initArgs = ['-', '-'] ∧
      Cmdline.tryFrom cl.rendered 32 = .ok cl := by
  intro cs cl
  exact ⟨by decide, by decide,
    (cmdline_round_trip 32 ⟨[], [], 32⟩ (by decide) cs (by decide) (by decide) (by decide) (by decide)).2⟩

end RustVmm.LinuxLoader
