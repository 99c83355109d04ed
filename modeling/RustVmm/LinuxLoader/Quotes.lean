import RustVmm.Lib.QuotedSplit
import RustVmm.LinuxLoader.Cmdline

/-!
# Quotes on the kernel command line

The kernel splits its command line at the spaces outside of double quotes.  `insert` checks every value on its own; a
quote at one end of a value only, or in a key, is not rejected.

* `cmdline_pieces` — when the kernel finds the items that were inserted.
-/

set_option autoImplicit false

namespace RustVmm.LinuxLoader

open Lib List Outcome Insertion

/-- The parameters of a line. -/
def pieces (line : Str) : List Str := if line = [] then [] else splitOutside ' ' '"' false line

/-! ## Values and keys -/

variable {key v s : Str}

theorem validKey_eq_ok (h : validKey key = .ok ()) : key.all validChar = true ∧ ' ' ∉ key ∧ '=' ∉ key := by
  unfold validKey at h
  split at h
  · cases h
  split at h
  · cases h
  split at h
  · cases h
  rename_i hchars hspace heq
  exact ⟨by simpa using hchars, by simpa using hspace, by simpa using heq⟩

theorem validValue_eq_ok (h : validValue v = .ok ()) :
    v.all validChar = true ∧ containsDoubleQuotes v = false ∧ (' ' ∈ v → isQuoted v = true) := by
  unfold validValue at h
  split at h
  · cases h
  split at h
  · cases h
  split at h
  · cases h
  rename_i hchars hquotes hspace
  refine ⟨by simpa using hchars, by simpa using hquotes, fun hmem => ?_⟩
  simpa [hmem] using hspace

theorem length_le_len (s : Str) : s.length ≤ len s := by
  induction s with
  | nil => exact Nat.le_refl 0
  | cons c s ih =>
    have := c.utf8Size_pos
    rw [len_cons, length_cons]
    omega

theorem isQuoted_eq_true (h : isQuoted v = true) : ∃ mid, v = '"' :: (mid ++ ['"']) := by
  unfold isQuoted at h
  split at h
  · cases h
  rename_i hlen
  cases v with
  | nil => cases h
  | cons first t =>
    rcases eq_nil_or_concat t with rfl | ⟨mid, last, rfl⟩
    · simp only [head?_cons, getLast?_singleton, Bool.and_eq_true, beq_iff_eq] at h
      rw [h.1] at hlen
      exact absurd (by decide) hlen
    · rw [concat_eq_append, head?_cons, ← cons_append, getLast?_concat] at h
      simp only [Bool.and_eq_true, beq_iff_eq] at h
      exact ⟨mid, by rw [h.1, h.2, concat_eq_append]⟩

theorem not_mem_of_containsDoubleQuotes {mid : Str}
    (h : containsDoubleQuotes ('"' :: (mid ++ ['"'])) = false) : '"' ∉ mid := by
  have hlen : len ('"' :: (mid ++ ['"'])) = 1 + (len mid + 1) := by
    rw [len_cons, len_append]
    rfl
  have hmid := length_le_len mid
  unfold containsDoubleQuotes at h
  rw [hlen] at h
  split at h
  · have : mid = [] := length_eq_zero_iff.1 (by omega)
    rw [this]
    exact not_mem_nil
  · intro hmem
    have hmem' : '"' ∈ (('"' :: (mid ++ ['"'])).drop 1).take (1 + (len mid + 1) - 2) := by
      rw [drop_one, tail_cons, take_append, take_of_length_le (by omega)]
      exact mem_append_left _ hmem
    exact absurd (any_eq_false.1 h '"' hmem') (by decide)

theorem quoted_of_space (h : validValue v = .ok ()) (hspace : ' ' ∈ v) :
    ∃ mid, v = '"' :: (mid ++ ['"']) ∧ '"' ∉ mid ∧ ' ' ∈ mid := by
  obtain ⟨_, hquotes, hquoted⟩ := validValue_eq_ok h
  obtain ⟨mid, rfl⟩ := isQuoted_eq_true (hquoted hspace)
  refine ⟨mid, rfl, not_mem_of_containsDoubleQuotes hquotes, ?_⟩
  simpa using hspace

theorem whole_value (h : validValue v = .ok ()) (quoted : Bool) :
    Whole ' ' '"' quoted v ↔ (' ' ∈ v → quoted = false) := by
  by_cases hspace : ' ' ∈ v
  · obtain ⟨mid, rfl, hno, hmid⟩ := quoted_of_space h hspace
    rw [whole_cons_of_ne (by decide), whole_append]
    have hlast : ∀ q, Whole ' ' '"' q ['"'] := fun q => whole_of_not_mem (by decide) q
    rw [and_iff_left (hlast _)]
    cases quoted with
    | false => exact iff_of_true (whole_true_of_no_quote hno) fun _ => rfl
    | true =>
      refine iff_of_false (fun hw => ?_) fun hcontra => nomatch hcontra hspace
      exact (whole_false_of_no_quote hno).1 hw hmid
  · exact iff_of_true (whole_of_not_mem hspace quoted) fun hmem => absurd hmem hspace

/-! ## Items -/

variable {vals : List Str}

theorem whole_values (h : ∀ v ∈ vals, validValue v = .ok ()) (quoted : Bool) :
    Whole ' ' '"' quoted ([','].intercalate vals) ↔
      ∀ i : Fin vals.length, ' ' ∈ vals.get i → stateAfter '"' quoted (vals.take i).flatten = false := by
  induction vals generalizing quoted with
  | nil => exact iff_of_true trivial fun i => i.elim0
  | cons v vals ih =>
    obtain ⟨hv, hvals⟩ := forall_mem_cons.1 h
    have hplaces : (∀ i : Fin (v :: vals).length, ' ' ∈ (v :: vals).get i →
        stateAfter '"' quoted ((v :: vals).take i).flatten = false) ↔
        Whole ' ' '"' quoted v ∧ Whole ' ' '"' (stateAfter '"' quoted v) ([','].intercalate vals) := by
      rw [whole_value hv, ih hvals]
      refine Fin.forall_fin_succ.trans (and_congr Iff.rfl (forall_congr' fun i => ?_))
      rw [Fin.val_succ, take_succ_cons, flatten_cons, stateAfter_append]
      rfl
    rw [hplaces]
    cases vals with
    | nil =>
      rw [intercalate_singleton]
      exact (and_iff_left trivial).symm
    | cons v' vals =>
      rw [intercalate_cons_cons, append_assoc, whole_append, singleton_append, whole_cons_plain (by decide) (by decide)]

/-! ## Calls -/

namespace Insertion

/-- Key and values of the calls that insert an item `key=value,…`. -/
def keyed : Insertion → Option (Str × List Str)
  | insert key val => some (key, [val])
  | insertMultiple key vals => some (key, vals)
  | _ => none

/-- Every value with a space comes after an even number of quotes of its item. -/
def Protected (c : Insertion) : Prop :=
  match c.keyed with
  | some (key, vals) =>
    ∀ i : Fin vals.length, ' ' ∈ vals.get i → (key ++ (vals.take i).flatten).count '"' % 2 = 0
  | none => True

/-- The number of quotes of the item is even. -/
def Balanced (c : Insertion) : Prop := c.text.count '"' % 2 = 0

instance (c : Insertion) : Decidable c.Protected := by
  unfold Protected
  split <;> infer_instance

instance (c : Insertion) : Decidable c.Balanced := inferInstanceAs (Decidable (_ = _))

theorem text_of_keyed {c : Insertion} {key : Str} {vals : List Str} (h : c.keyed = some (key, vals)) :
    c.text = key ++ '=' :: [','].intercalate vals ∧ c.isInit = false := by
  cases c <;> cases h
  · exact ⟨congrArg (key ++ '=' :: ·) intercalate_singleton.symm, rfl⟩
  · exact ⟨rfl, rfl⟩

theorem valid_of_keyed {c : Insertion} {key : Str} {vals : List Str} (h : c.keyed = some (key, vals))
    (hvalid : c.validate = .ok ()) : validKey key = .ok () ∧ ∀ v ∈ vals, validValue v = .ok () := by
  cases c <;> cases h
  · obtain ⟨_, hkey, hvalid⟩ := bind_eq_ok.1 hvalid
    obtain ⟨_, hval, _⟩ := bind_eq_ok.1 hvalid
    exact ⟨hkey, by simpa using hval⟩
  · obtain ⟨_, hkey, hvalid⟩ := bind_eq_ok.1 hvalid
    obtain ⟨_, _, hvalid⟩ := bind_eq_ok.1 hvalid
    obtain ⟨_, hvals, _⟩ := bind_eq_ok.1 hvalid
    exact ⟨hkey, forM_eq_ok.1 hvals⟩

end Insertion

theorem stateAfter_false_iff (s : Str) : stateAfter '"' false s = false ↔ s.count '"' % 2 = 0 := by
  rw [stateAfter_eq]
  rcases Nat.mod_two_eq_zero_or_one (s.count '"') with h | h <;> simp [h]

variable {c : Insertion}

theorem Insertion.whole_text (hkeyed : c.keyed = some (key, vals)) (hvalid : c.validate = .ok ()) :
    Whole ' ' '"' false c.text ↔ c.Protected := by
  obtain ⟨hkey, hvals⟩ := valid_of_keyed hkeyed hvalid
  obtain ⟨_, hspace, _⟩ := validKey_eq_ok hkey
  rw [(text_of_keyed hkeyed).1, whole_append, and_iff_right (whole_of_not_mem hspace false),
    whole_cons_plain (by decide) (by decide), whole_values hvals]
  simp only [← stateAfter_append, stateAfter_false_iff]
  unfold Protected
  rw [hkeyed]

/-! ## Trimming -/

theorem validChar_iff {c : Char} : validChar c = true ↔ 0x20 ≤ c.toNat ∧ c.toNat ≤ 0x7e := by
  unfold validChar
  simp only [Bool.and_eq_true, decide_eq_true_eq, Char.le_def, UInt32.le_iff_toNat_le]
  rfl

theorem isWhitespace_of_validChar {c : Char} (h : validChar c = true) (hc : isWhitespace c = true) : c = ' ' := by
  have hrange := validChar_iff.1 h
  unfold isWhitespace at hc
  simp only [Bool.and_eq_true, Bool.or_eq_true, decide_eq_true_eq, beq_iff_eq] at hc
  refine Char.ext (UInt32.toNat_inj.1 ?_)
  show c.toNat = 0x20
  omega

/-- The text neither starts nor ends with whitespace. -/
def Trimmed (s : Str) : Prop := (∀ c ∈ s.head?, isWhitespace c = false) ∧ ∀ c ∈ s.getLast?, isWhitespace c = false

theorem Trimmed.trim_eq (h : Trimmed s) : trim s = s := by
  obtain ⟨hfirst, hlast⟩ := h
  have hleft : s.dropWhile isWhitespace = s := by
    cases s with
    | nil => rfl
    | cons c s => exact dropWhile_cons_of_neg (by simpa using hfirst c rfl)
  unfold trim
  rw [hleft]
  refine rdropWhile_eq_self_iff.2 fun hne hws => ?_
  rw [hlast _ (getLast?_eq_some_getLast hne)] at hws
  cases hws

theorem trim_eq_self (hvalid : s.all validChar = true) (hfirst : s.head? ≠ some ' ') (hlast : s.getLast? ≠ some ' ') :
    trim s = s := by
  have hchar : ∀ c ∈ s, c ≠ ' ' → isWhitespace c = false := fun c hc hne =>
    Bool.eq_false_iff.2 fun hws => hne (isWhitespace_of_validChar (all_eq_true.1 hvalid c hc) hws)
  apply Trimmed.trim_eq
  constructor
  · intro c hc
    exact hchar c (mem_of_mem_head? hc) fun heq => hfirst (heq ▸ hc)
  · intro c hc
    exact hchar c (mem_of_getLast? hc) fun heq => hlast (heq ▸ hc)

theorem getLast?_append_value (h : validValue v = .ok ()) (hs : s.getLast? ≠ some ' ') :
    (s ++ v).getLast? ≠ some ' ' := by
  rw [getLast?_append]
  intro hlast
  cases hv : v.getLast? with
  | none =>
    rw [hv] at hlast
    exact hs hlast
  | some c =>
    rw [hv] at hlast
    obtain rfl : c = ' ' := Option.some.inj hlast
    obtain ⟨mid, rfl, _⟩ := quoted_of_space h (mem_of_getLast? hv)
    rw [← cons_append, getLast?_concat] at hv
    cases hv

theorem getLast?_append_values (h : ∀ v ∈ vals, validValue v = .ok ()) (hs : s.getLast? ≠ some ' ') :
    (s ++ [','].intercalate vals).getLast? ≠ some ' ' := by
  induction vals generalizing s with
  | nil =>
    rw [intercalate_nil, append_nil]
    exact hs
  | cons v vals ih =>
    obtain ⟨hv, hvals⟩ := forall_mem_cons.1 h
    have hsv := getLast?_append_value hv hs
    cases vals with
    | nil =>
      rw [intercalate_singleton]
      exact hsv
    | cons v' vals =>
      rw [intercalate_cons_cons, ← append_assoc, ← append_assoc]
      refine ih hvals ?_
      rw [getLast?_concat]
      decide

theorem all_validChar_values (h : ∀ v ∈ vals, validValue v = .ok ()) :
    ([','].intercalate vals).all validChar = true := by
  induction vals with
  | nil => rfl
  | cons v vals ih =>
    obtain ⟨hv, hvals⟩ := forall_mem_cons.1 h
    cases vals with
    | nil =>
      rw [intercalate_singleton]
      exact (validValue_eq_ok hv).1
    | cons v' vals =>
      rw [intercalate_cons_cons, all_append, all_append, (validValue_eq_ok hv).1, ih hvals]
      decide

theorem Insertion.trim_text (hkeyed : c.keyed = some (key, vals)) (hvalid : c.validate = .ok ()) :
    trim c.text = c.text := by
  obtain ⟨hkey, hvals⟩ := valid_of_keyed hkeyed hvalid
  obtain ⟨hchars, hspace, _⟩ := validKey_eq_ok hkey
  rw [(text_of_keyed hkeyed).1]
  refine trim_eq_self ?_ ?_ ?_
  · rw [all_append, hchars, all_cons, all_validChar_values hvals]
    decide
  · cases key with
    | nil => simp
    | cons k key =>
      intro hk
      exact hspace (Option.some.inj hk ▸ mem_cons_self)
  · rw [append_cons]
    refine getLast?_append_values hvals ?_
    rw [getLast?_concat]
    decide

theorem trim_ne_nil {c : Char} (hmem : c ∈ s) (hc : isWhitespace c = false) : trim s ≠ [] := by
  intro hnil
  have hall := rdropWhile_eq_nil_iff.1 hnil
  obtain ⟨before, after, rfl⟩ := append_of_mem hmem
  have hin : c ∈ (before ++ c :: after).dropWhile isWhitespace := by
    rw [dropWhile_append]
    split
    · rw [dropWhile_cons_of_neg (by simpa using hc)]
      exact mem_cons_self
    · exact mem_append_right _ mem_cons_self
  exact absurd (hall c hin) (by simpa using hc)

theorem Insertion.notBlank_of_keyed (h : c.keyed.isSome) : c.NotBlank := by
  obtain ⟨⟨key, vals⟩, hkeyed⟩ := Option.isSome_iff_exists.1 h
  unfold NotBlank
  rw [(text_of_keyed hkeyed).1]
  exact trim_ne_nil (mem_append_right _ mem_cons_self) (by decide)

/-! ## Sequences of calls -/

theorem Insertion.validate_of_mem_succeeded {cs : List Insertion} {cl : Cmdline} (h : cl.Fits)
    (hs : ∀ c ∈ cs, c.NotBlank) : ∀ c ∈ succeeded cl cs, c ∈ cs ∧ c.validate = .ok () := by
  induction cs generalizing cl with
  | nil => exact fun c hc => absurd hc not_mem_nil
  | cons c cs ih =>
    obtain ⟨hc, hcs⟩ := forall_mem_cons.1 hs
    have hrest := ih (fits_step h hc).1 hcs
    have hlater : ∀ c' ∈ succeeded (step cl c) cs, c' ∈ c :: cs ∧ c'.validate = .ok () :=
      fun c' hc' => ⟨mem_cons_of_mem _ (hrest c' hc').1, (hrest c' hc').2⟩
    rw [succeeded]
    split
    · rename_i hdone
      refine forall_mem_cons.2 ⟨⟨mem_cons_self, ?_⟩, hlater⟩
      rw [perform_eq h hc] at hdone
      cases hvalid : c.validate with
      | ok u => rfl
      | err e | panic => rw [hvalid] at hdone; cases hdone
    · exact hlater

theorem intercalate_ne_nil (hs : s ≠ []) (rest : List Str) : [' '].intercalate (s :: rest) ≠ [] := by
  cases rest with
  | nil =>
    rw [intercalate_singleton]
    exact hs
  | cons r rest =>
    simp

/-- **The parameters of the command line** are the items that have been inserted, in order, exactly if no
space of an item is left outside of quotes by earlier quotes of it and no item but the last leaves a quote
open. -/
theorem cmdline_pieces (capacity : UInt64) (cl₀ : Cmdline) (hnew : Cmdline.new capacity = .ok cl₀)
    (cs : List Insertion) (hkeyed : ∀ c ∈ cs, c.keyed.isSome) :
    let done := Insertion.succeeded cl₀ cs
    pieces (run Insertion.step cl₀ cs).bootArgs = done.map Insertion.text ↔
      (∀ c ∈ done, c.Protected) ∧ ∀ c ∈ done.dropLast, c.Balanced := by
  intro done
  have hfits := Cmdline.fits_new hnew
  have hblank : ∀ c ∈ cs, c.NotBlank := fun c hc => notBlank_of_keyed (hkeyed c hc)
  have hdone : ∀ c ∈ done, ∃ key vals, c.keyed = some (key, vals) ∧ c.validate = .ok () := by
    intro c hc
    obtain ⟨hmem, hvalid⟩ := validate_of_mem_succeeded hfits hblank c hc
    obtain ⟨⟨key, vals⟩, hsome⟩ := Option.isSome_iff_exists.1 (hkeyed c hmem)
    exact ⟨key, vals, hsome, hvalid⟩
  -- the boot arguments are the items, joined
  have hboot : (run step cl₀ cs).bootArgs = [' '].intercalate (done.map text) := by
    have hempty : cl₀.bootArgs = [] := by rw [(Cmdline.new_eq_ok hnew).2]
    have hrun := half_run false hfits hblank
    have hitems : added false done = done.map text := by
      unfold added
      rw [filter_eq_self.2 fun c hc => ?_]
      · refine map_congr_left fun c hc => ?_
        obtain ⟨key, vals, hsome, hvalid⟩ := hdone c hc
        exact trim_text hsome hvalid
      · obtain ⟨key, vals, hsome, _⟩ := hdone c hc
        rw [(text_of_keyed hsome).2]
        rfl
    rw [hitems, show half false cl₀ = [] from hempty] at hrun
    exact hrun
  rw [hboot]
  cases hcases : done with
  | nil => exact iff_of_true rfl ⟨fun c hc => absurd hc not_mem_nil, fun c hc => absurd hc not_mem_nil⟩
  | cons c rest =>
    have hne : [' '].intercalate ((c :: rest).map text) ≠ [] := by
      refine intercalate_ne_nil ?_ _
      obtain ⟨key, vals, hsome, _⟩ := hdone c (hcases ▸ mem_cons_self)
      rw [(text_of_keyed hsome).1]
      simp
    unfold pieces
    rw [if_neg hne, splitOutside_intercalate (by simp), ← hcases, ← map_dropLast]
    simp only [forall_mem_map]
    refine and_congr (forall₂_congr fun c hc => ?_) (forall₂_congr fun c _ => stateAfter_false_iff _)
    obtain ⟨key, vals, hsome, hvalid⟩ := hdone c hc
    exact whole_text hsome hvalid

theorem cmdline_pieces_quoted :
    let cs := [.insert ['a'] ['"', 'x', ' ', 'y', '"'], .insertMultiple ['b'] [['1'], ['2']]]
    pieces (run Insertion.step ⟨[], [], 32⟩ cs).bootArgs =
      [['a', '=', '"', 'x', ' ', 'y', '"'], ['b', '=', '1', ',', '2']] := by
  intro cs
  exact (cmdline_pieces 32 ⟨[], [], 32⟩ (by decide) cs (by decide)).2 (by decide)

theorem cmdline_pieces_merged :
    let cs := [.insert ['a'] ['"'], .insert ['b'] ['c']]
    let cl := run Insertion.step ⟨[], [], 32⟩ cs
    Cmdline.new 32 = .ok ⟨[], [], 32⟩ ∧ Insertion.succeeded ⟨[], [], 32⟩ cs = cs ∧
      pieces cl.bootArgs = [['a', '=', '"', ' ', 'b', '=', 'c']] ∧
      pieces cl.bootArgs ≠ cs.map Insertion.text := by
  decide

end RustVmm.LinuxLoader
