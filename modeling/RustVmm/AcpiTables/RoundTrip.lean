import RustVmm.AcpiTables.Parser

/-!
# AML is read back as it was written

* `reads_pkgLength`, `reads_pkg` — a package length says how far it is from its own first byte to the end.
* `Aml.subterm_infix`, `Aml.pkgLength_packaged` — the packages inside of an encoding.
* `aml_roundTrip` — the parser reads every valid object back.
-/

set_option autoImplicit false

namespace RustVmm.AcpiTables

open Lib Lib.Parser List Reads Outcome Lead Aml

/-! ## Package lengths -/

theorem lengthLength_pos (len : Nat) : 1 ≤ lengthLength len := by
  unfold lengthLength
  split_ifs <;> omega

theorem lengthLength_le (len : Nat) : lengthLength len ≤ 4 := by
  unfold lengthLength
  split_ifs <;> omega

def pkgValue (len : Nat) (includeSelf : Bool) : Nat := len + if includeSelf then lengthLength len else 0

variable {len n : Nat}

theorem createPkgLength_short (h : len < 63) (includeSelf : Bool) :
    createPkgLength len includeSelf = [UInt8.ofNat (pkgValue len includeSelf)] := by
  have hl : lengthLength len = 1 := if_pos h
  simp only [createPkgLength, pkgValue, hl]

theorem createPkgLength_long (h : 63 ≤ len) (includeSelf : Bool) : createPkgLength len includeSelf =
      (UInt8.ofNat (lengthLength len - 1) <<< 6 ||| UInt8.ofNat (pkgValue len includeSelf % 16)) ::
        leBytes (lengthLength len - 1) (pkgValue len includeSelf / 16) := by
  have hand : ∀ v : Nat, v &&& 0xf = v % 16 := fun v => Nat.and_two_pow_sub_one_eq_mod v 4
  have hl : lengthLength len = 2 ∨ lengthLength len = 3 ∨ lengthLength len = 4 := by
    unfold lengthLength
    split_ifs <;> simp
    omega
  rcases hl with hl | hl | hl <;>
    simp [createPkgLength, pkgValue, hl, leBytes, hand, Nat.shiftRight_eq_div_pow, Nat.div_div_eq_div_mul]

theorem length_createPkgLength (len : Nat) (includeSelf : Bool) :
    (createPkgLength len includeSelf).length = lengthLength len := by
  have hpos := lengthLength_pos len
  rcases Nat.lt_or_ge len 63 with h | h
  · rw [createPkgLength_short h, show lengthLength len = 1 from if_pos h]
    rfl
  · rw [createPkgLength_long h, length_cons, length_leBytes]
    omega

theorem lead_bits : ∀ (k : Fin 4) (x : Fin 16), ((UInt8.ofNat k <<< 6 ||| UInt8.ofNat x) >>> 6).toNat = k ∧
      ((UInt8.ofNat k <<< 6 ||| UInt8.ofNat x) &&& 0xf).toNat = x := by
  decide

theorem short_bits : ∀ v : Fin 64, ((UInt8.ofNat v) >>> 6).toNat = 0 ∧ ((UInt8.ofNat v) &&& 0x3f).toNat = v := by
  decide

theorem pkgValue_lt {includeSelf : Bool} (h : pkgValue len includeSelf < 2 ^ 28) :
    pkgValue len includeSelf / 16 < 256 ^ (lengthLength len - 1) ∨ len < 63 := by
  unfold pkgValue lengthLength at *
  split_ifs at h ⊢ <;> omega

theorem reads_pkgLength {includeSelf : Bool} (h : pkgValue len includeSelf < 2 ^ 28) (rest : List UInt8) :
    Reads pkgLength (createPkgLength len includeSelf) (pkgValue len includeSelf) rest := by
  rcases Nat.lt_or_ge len 63 with hshort | hlong
  · have hv : pkgValue len includeSelf < 64 := by
      have hl : lengthLength len = 1 := if_pos hshort
      unfold pkgValue
      split <;> omega
    have hbits := short_bits ⟨_, hv⟩
    rw [createPkgLength_short hshort]
    refine next_bind ?_
    simp only [hbits.1, hbits.2, if_true]
    rfl
  · have hle := (pkgValue_lt h).resolve_right (by omega)
    have hk : lengthLength len - 1 < 4 := by have := lengthLength_le len; omega
    have hne : lengthLength len - 1 ≠ 0 := by
      unfold lengthLength
      split_ifs <;> omega
    have hbits := lead_bits ⟨_, hk⟩ ⟨_, Nat.mod_lt (pkgValue len includeSelf) (by omega : 16 > 0)⟩
    rw [createPkgLength_long hlong]
    refine next_bind ?_
    simp only [hbits.1, hbits.2, if_neg hne]
    have hread := (reads_le _ _ hle rest).map fun high => pkgValue len includeSelf % 16 + 16 * high
    rwa [Nat.mod_add_div] at hread

variable {body bs op : List UInt8}

theorem reads_pkgLength_self (hlen : body.length + 4 < 2 ^ 28) (rest : List UInt8) :
    Reads pkgLength (createPkgLength body.length true) (body.length + lengthLength body.length) rest := by
  have hle := lengthLength_le body.length
  have hlt : pkgValue body.length true < 2 ^ 28 := by
    rw [pkgValue, if_pos rfl]
    omega
  exact reads_pkgLength hlt rest

theorem reads_pkg {α : Type} {p : Parser UInt8 α} {a : α} (h : Reads p body a []) (hlen : body.length + 4 < 2 ^ 28)
    (rest : List UInt8) : Reads (pkg p) (createPkgLength body.length true ++ body) a rest := by
  have hlength : pkgLength.run (createPkgLength body.length true ++ body ++ rest) =
      some (body.length + lengthLength body.length, body ++ rest) := by
    rw [append_assoc]
    exact reads_pkgLength_self hlen _
  have hused : (createPkgLength body.length true ++ body ++ rest).length - (body ++ rest).length =
      lengthLength body.length := by
    simp only [length_append, length_createPkgLength]
    omega
  show pkg p (createPkgLength body.length true ++ body ++ rest) = _
  simp only [pkg, hlength, Option.bind_eq_bind, Option.bind_some, hused, Nat.add_sub_cancel,
    if_pos (Nat.le_add_left _ _)]
  exact h.within rest

/-! ## Names -/

theorem reads_fourBytesFrom (s : NameSeg) (rest : List UInt8) :
    Reads (fourBytesFrom s.c0) [s.c1, s.c2, s.c3] s rest := by
  have h1 := (reads_next s.c1 ([s.c2] ++ ([s.c3] ++ rest))).map (NameSeg.mk s.c0)
  exact (h1.seq (reads_next s.c2 ([s.c3] ++ rest))).seq (reads_next s.c3 rest)

variable {s : NameSeg}

theorem reads_nameSegFrom (hs : s.Valid) (rest : List UInt8) : Reads (nameSegFrom s.c0) [s.c1, s.c2, s.c3] s rest :=
  (reads_fourBytesFrom s rest).filterMap (if_pos hs)

theorem reads_nameSeg (hs : s.Valid) (rest : List UInt8) : Reads nameSeg s.bytes s rest :=
  (reads_nameSegFrom hs rest).next_bind

variable {b : UInt8}

theorem isLeadNameChar_ne {c : UInt8} (hb : isLeadNameChar b) (hc : isLeadNameChar c = false) : b ≠ c := by
  rintro rfl
  exact absurd hb (by simp [hc])

theorem reads_namePath {p : Path} (hp : p.Valid) {count : List UInt8} (hcount : p.countPrefix = .ok count)
    (rest : List UInt8) : ∃ lead tail, count ++ p.nameParts.flatMap NameSeg.bytes = lead :: tail ∧
      isNameStart lead ∧ lead ≠ 0x5c ∧ lead ≠ 0x5e ∧ Reads (namePath lead) tail p.nameParts rest := by
  obtain ⟨hpos, hmax, hv⟩ := hp
  have hseg : ∀ s ∈ p.nameParts, ∀ rest, Reads nameSeg s.bytes s rest := fun s hs => reads_nameSeg (hv s hs)
  have hparts := reads_times rest p.nameParts hseg
  unfold Path.countPrefix at hcount
  split at hcount
  case h_1 => cases hcount
  case h_2 hone =>
    -- nothing stands before a single part: its own first character takes the place of the count
    cases hcount
    obtain ⟨s, hs⟩ := length_eq_one_iff.1 hone
    have hsv := hv s (by simp [hs])
    refine ⟨s.c0, [s.c1, s.c2, s.c3], by simp [hs, NameSeg.bytes], by simp [isNameStart, hsv.1],
      isLeadNameChar_ne hsv.1 (by decide), isLeadNameChar_ne hsv.1 (by decide), ?_⟩
    rw [namePath, if_neg (isLeadNameChar_ne hsv.1 (by decide)), if_neg (isLeadNameChar_ne hsv.1 (by decide)), hs]
    exact (reads_nameSegFrom hsv rest).map fun s => [s]
  case h_3 htwo =>
    cases hcount
    rw [htwo] at hparts
    exact ⟨_, _, rfl, by decide, by decide, by decide, hparts⟩
  case h_4 n =>
    cases hcount
    have hn : (UInt8.ofNat p.nameParts.length).toNat = p.nameParts.length := by
      rw [UInt8.toNat_ofNat']
      omega
    refine ⟨_, _, rfl, by decide, by decide, by decide, next_bind ?_⟩
    rw [hn]
    exact hparts

theorem reads_nameStringFrom {p : Path} (hp : p.Valid) (hbs : p.toAmlBytes = .ok bs) (rest : List UInt8) :
    ∃ first tail, bs = first :: tail ∧ isNameStart first ∧ Reads (nameStringFrom first) tail p rest := by
  obtain ⟨count, hcount, hok⟩ := bind_eq_ok.1 hbs
  obtain ⟨lead, tail, heq, hstart, hroot, hparent, hread⟩ := reads_namePath hp hcount rest
  obtain ⟨root, parent, parts, hex⟩ := p
  cases hok
  rw [append_assoc, heq]
  cases root <;> cases parent
  · refine ⟨lead, tail, rfl, hstart, ?_⟩
    rw [nameStringFrom, if_neg hroot, if_neg hparent]
    exact hread.map fun parts => (⟨false, false, parts, by simp⟩ : Path)
  · exact ⟨0x5e, lead :: tail, rfl, by decide,
      (next_bind hread).map fun parts => (⟨false, true, parts, by simp⟩ : Path)⟩
  · exact ⟨0x5c, lead :: tail, rfl, by decide,
      (next_bind hread).map fun parts => (⟨true, false, parts, by simp⟩ : Path)⟩
  · exact absurd ⟨rfl, rfl⟩ hex

theorem reads_nameString {p : Path} (hp : p.Valid) (hbs : p.toAmlBytes = .ok bs) (rest : List UInt8) :
    Reads nameString bs p rest := by
  obtain ⟨first, tail, rfl, -, hread⟩ := reads_nameStringFrom hp hbs rest
  exact hread.next_bind

/-! ## Productions -/

variable {sub : Parser UInt8 Aml} {t : Aml} {xs rest : List UInt8}
variable {lead : Lead}

theorem reads_lead (hlead : ofByte b = some lead) (h : Reads (lead.operands sub) xs t rest) :
    Reads (production sub) (b :: xs) t rest := by
  refine next_bind ?_
  simpa only [hlead] using h

theorem reads_extLead {lead : ExtLead} (hlead : ExtLead.ofByte b = some lead)
    (h : Reads (lead.operands sub) xs t rest) :
    Reads (production sub) (EXTOPPREFIX :: b :: xs) t rest := by
  have hext : ofByte EXTOPPREFIX = some .extended := rfl
  refine reads_lead hext (next_bind ?_)
  simpa only [hlead] using h

/-! ## Integers -/

theorem reads_integerOf {width : Nat} (hlead : ofByte b = some (.integerOf width)) {v : UInt64}
    (hv : v.toNat < 256 ^ width) (rest : List UInt8) :
    Reads (production sub) (b :: leBytes width v.toNat) (.qword v) rest := by
  refine reads_lead hlead ?_
  have h := (reads_le width v.toNat hv rest).map fun v => qword (UInt64.ofNat v)
  rwa [UInt64.ofNat_toNat] at h

theorem reads_byte (v : UInt8) (rest : List UInt8) :
    Reads (production sub) (Byte.toAmlBytes v) (.qword v.toUInt64) rest := by
  unfold Byte.toAmlBytes
  split_ifs with hzero hone
  · subst hzero
    exact reads_lead rfl rfl
  · subst hone
    exact reads_lead rfl rfl
  · have h : Reads (production sub) (BYTEPREFIX :: leBytes 1 v.toUInt64.toNat) (.qword v.toUInt64) rest :=
      reads_integerOf rfl v.toNat_lt rest
    simpa [leBytes] using h

-- Each of the wider types falls back to the one below it for the values that this one has.
variable (v : UInt16)

theorem reads_word (rest : List UInt8) : Reads (production sub) (Word.toAmlBytes v) (.qword v.toUInt64) rest := by
  unfold Word.toAmlBytes
  split_ifs with hsmall
  · have hle : v.toNat ≤ 255 := UInt16.le_iff_toNat_le.1 hsmall
    have heq : v.toUInt8.toUInt64 = v.toUInt64 := by
      rw [← UInt64.toNat_inj]
      simp
      omega
    exact heq ▸ reads_byte v.toUInt8 rest
  · exact reads_integerOf rfl (v := v.toUInt64) v.toNat_lt rest

theorem reads_dword (v : UInt32) (rest : List UInt8) :
    Reads (production sub) (DWord.toAmlBytes v) (.qword v.toUInt64) rest := by
  unfold DWord.toAmlBytes
  split_ifs with hsmall
  · have hle : v.toNat ≤ 65535 := UInt32.le_iff_toNat_le.1 hsmall
    have heq : v.toUInt16.toUInt64 = v.toUInt64 := by
      rw [← UInt64.toNat_inj]
      simp
      omega
    exact heq ▸ reads_word v.toUInt16 rest
  · exact reads_integerOf rfl (v := v.toUInt64) v.toNat_lt rest

theorem reads_qword (v : UInt64) (rest : List UInt8) : Reads (production sub) (QWord.toAmlBytes v) (.qword v) rest := by
  unfold QWord.toAmlBytes
  split_ifs with hsmall
  · have hle : v.toNat ≤ 4294967295 := UInt64.le_iff_toNat_le.1 hsmall
    have heq : v.toUInt32.toUInt64 = v := by
      rw [← UInt64.toNat_inj]
      simp
      omega
    have h : Reads (production sub) _ _ rest := reads_dword v.toUInt32 rest
    rwa [heq] at h
  · exact reads_integerOf rfl v.toNat_lt rest

/-! ## Fields -/

theorem ofFlags_flags (accessType : FieldAccessType) (lockRule : FieldLockRule) (updateRule : FieldUpdateRule) :
    Field.ofFlags (Field.flags accessType lockRule updateRule) = some (accessType, lockRule, updateRule) := by
  cases accessType <;> cases lockRule <;> cases updateRule <;> rfl

theorem ofU8_toU8 (space : OpRegionSpace) : OpRegionSpace.ofU8 space.toU8 = some space := by
  cases space <;> rfl

theorem reads_fieldLength {length : Nat} (h : length < 2 ^ 28) (rest : List UInt8) :
    Reads pkgLength (createPkgLength length false) length rest := by
  have hvalue : pkgValue length false < 2 ^ 28 := h
  exact reads_pkgLength hvalue rest

theorem reads_fieldEntry {e : FieldEntry} (he : e.Valid) (rest : List UInt8) : Reads fieldEntry e.bytes e rest := by
  cases e with
  | reserved length =>
    exact next_bind ((reads_fieldLength he rest).map FieldEntry.reserved)
  | named name length =>
    refine next_bind ?_
    simp only [if_neg he.1]
    exact ((reads_fourBytesFrom name _).map FieldEntry.named).seq (reads_fieldLength he.2 rest)

/-! ## Terms -/

/-- `sub` reads back every valid object whose encoding is shorter than `n`, and nothing out of nothing. -/
structure ReadsBelow (sub : Parser UInt8 Aml) (n : Nat) : Prop where
  nil : sub.run [] = none
  reads : ∀ {t : Aml} {bs : List UInt8}, t.Valid → t.toAmlBytes = .ok bs → bs.length < n →
    ∀ rest, Reads sub bs t.norm rest

theorem ReadsBelow.reads_many (hsub : ReadsBelow sub n) {cs : List Aml} (hv : ∀ c ∈ cs, c.Valid)
    (hbs : childrenBytes cs = .ok bs) (hlen : bs.length < n) : Reads (many sub) bs (normAll cs) [] := by
  induction cs generalizing bs with
  | nil =>
    cases hbs
    exact many_nil
  | cons c cs ih =>
    simp only [childrenBytes, bind_eq_ok, pure_eq, ok.injEq] at hbs
    obtain ⟨bytes, hbytes, tail, htail, rfl⟩ := hbs
    rw [length_append] at hlen
    have hc := hsub.reads (hv c (by simp)) hbytes (by omega)
    exact many_cons ((hc []).ne_nil hsub.nil) (hc _)
      (ih (fun d hd => hv d (by simp [hd])) htail (by omega))

/-- A short enough encoding of `t` is read back if the terms inside of it are. -/
def ReadsBack (sub : Parser UInt8 Aml) (n : Nat) (t : Aml) : Prop :=
  ∀ bs : List UInt8, t.toAmlBytes = .ok bs → bs.length ≤ n → bs.length < 2 ^ 28 - 5 →
    ∀ rest, Reads (production sub) bs t.norm rest

theorem ReadsBack.of_eq {enc : List UInt8} (henc : t.toAmlBytes = .ok enc)
    (h : ∀ rest, Reads (production sub) enc t.norm rest) : ReadsBack sub n t := by
  intro bs hbs _ _ rest
  obtain rfl : enc = bs := ok.inj (henc.symm.trans hbs)
  exact h rest

theorem length_lt_packaged (hop : op ≠ []) (h : (packaged op body).length ≤ n) : body.length < n := by
  have hpos := length_pos_of_ne_nil hop
  simp only [packaged, length_append] at h
  omega

/-- The opcode of a package whose contents `p` reads. -/
def Selects (sub : Parser UInt8 Aml) (op : List UInt8) (p : Parser UInt8 Aml) : Prop :=
  ∀ {xs : List UInt8} {t : Aml} {rest : List UInt8}, Reads (pkg p) xs t rest → Reads (production sub) (op ++ xs) t rest

variable {p : Parser UInt8 Aml}

theorem selects_lead (hlead : ofByte b = some lead) (hop : lead.operands sub = pkg p) : Selects sub [b] p :=
  fun h => reads_lead hlead (hop ▸ h)

theorem selects_extLead {lead : ExtLead} (hlead : ExtLead.ofByte b = some lead)
    (hop : lead.operands sub = pkg p) : Selects sub [EXTOPPREFIX, b] p :=
  fun h => reads_extLead hlead (hop ▸ h)

theorem reads_packaged (hop : Selects sub op p) (hne : op ≠ []) (h : Reads p body t [])
    (hmax : (packaged op body).length < 2 ^ 28 - 5) (rest : List UInt8) :
    Reads (production sub) (packaged op body) t rest := by
  have hbody := length_lt_packaged hne (Nat.le_of_lt hmax)
  have hread := hop (reads_pkg h (by omega) rest)
  rwa [← append_assoc] at hread

section Constructors

variable {n : Nat} {p : Path} {cs : List Aml}

/-! ### Leaves -/

theorem readsBack_string {text : List UInt8} (hw : 0 ∉ text) : ReadsBack sub n (.string text) := by
  refine .of_eq rfl fun rest => ?_
  have hnul : ∀ x ∈ text, (x == 0) = false := by
    intro x hx
    exact beq_false_of_ne (by rintro rfl; exact hw hx)
  exact reads_lead rfl ((reads_takeUntil rfl rest text hnul).map string)

theorem readsBack_path (hp : p.Valid) : ReadsBack sub n (.path p) := by
  intro bs hbs _ _ rest
  obtain ⟨first, tail, rfl, hstart, hread⟩ := reads_nameStringFrom hp hbs rest
  exact reads_lead (if_pos hstart) (hread.map path)

variable {i b : UInt8}

theorem ofByte_arg (hi : i ≤ 6) : ofByte (ARG0OP + i) = some (.arg i) := by
  have hle : i.toNat ≤ 6 := UInt8.le_iff_toNat_le.1 hi
  have hcases : i = 0 ∨ i = 1 ∨ i = 2 ∨ i = 3 ∨ i = 4 ∨ i = 5 ∨ i = 6 := by
    simp only [← UInt8.toNat_inj, UInt8.reduceToNat]
    omega
  rcases hcases with rfl | rfl | rfl | rfl | rfl | rfl | rfl <;> rfl

theorem ofByte_localObj (hi : i ≤ 7) : ofByte (LOCAL0OP + i) = some (.localObj i) := by
  have hle : i.toNat ≤ 7 := UInt8.le_iff_toNat_le.1 hi
  have hcases : i = 0 ∨ i = 1 ∨ i = 2 ∨ i = 3 ∨ i = 4 ∨ i = 5 ∨ i = 6 ∨ i = 7 := by
    simp only [← UInt8.toNat_inj, UInt8.reduceToNat]
    omega
  rcases hcases with rfl | rfl | rfl | rfl | rfl | rfl | rfl | rfl <;> rfl

theorem readsBack_arg (hi : i ≤ 6) : ReadsBack sub n (.arg i) :=
  .of_eq (if_pos hi) fun _ => reads_lead (ofByte_arg hi) rfl

theorem readsBack_localObj (hi : i ≤ 7) : ReadsBack sub n (.localObj i) :=
  .of_eq (if_pos hi) fun _ => reads_lead (ofByte_localObj hi) rfl

theorem readsBack_mutex (hp : p.Valid) (syncLevel : UInt8) : ReadsBack sub n (.mutex p syncLevel) := by
  intro bs hbs _ _ rest
  obtain ⟨path, hpath, rfl⟩ := bind_ok_eq_ok.1 hbs
  exact reads_extLead rfl (((reads_nameString hp hpath _).map mutex).seq (reads_next syncLevel rest))

theorem readsBack_acquire (hp : p.Valid) (timeout : UInt16) : ReadsBack sub n (.acquire p timeout) := by
  intro bs hbs _ _ rest
  obtain ⟨path, hpath, rfl⟩ := bind_ok_eq_ok.1 hbs
  have hread := ((reads_nameString hp hpath _).map
    fun path timeout => acquire path (UInt16.ofNat timeout)).seq (reads_le 2 _ timeout.toNat_lt rest)
  rw [UInt16.ofNat_toNat] at hread
  exact reads_extLead rfl hread

theorem readsBack_release (hp : p.Valid) : ReadsBack sub n (.release p) := by
  intro bs hbs _ _ rest
  obtain ⟨path, hpath, rfl⟩ := bind_ok_eq_ok.1 hbs
  exact reads_extLead rfl ((reads_nameString hp hpath rest).map release)

/-! ### Terms with a fixed number of terms inside -/

theorem readsBack_name (hsub : ReadsBelow sub n) {inner : Aml} (hv : (name p inner).Valid) :
    ReadsBack sub n (.name p inner) := by
  intro bs hbs hlen _ rest
  obtain ⟨path, hpath, hbs⟩ := bind_eq_ok.1 hbs
  obtain ⟨bytes, hbytes, rfl⟩ := bind_ok_eq_ok.1 hbs
  simp only [length_append, length_singleton] at hlen
  have hinner := hsub.reads (hv.child (by simp [children])) hbytes (by omega) rest
  exact reads_lead rfl (((reads_nameString hv.wellFormed hpath _).map name).seq hinner)

theorem readsBack_opRegion (hsub : ReadsBelow sub n) {space : OpRegionSpace} {offset length : Aml}
    (hv : (opRegion p space offset length).Valid) :
    ReadsBack sub n (.opRegion p space offset length) := by
  intro bs hbs hlen _ rest
  simp only [toAmlBytes, bind_eq_ok, pure_eq, ok.injEq] at hbs
  obtain ⟨path, hpath, offsetBytes, hoffset, lengthBytes, hlength, rfl⟩ := hbs
  simp only [length_append, length_cons, length_nil] at hlen
  have hspace := (reads_next space.toU8 (offsetBytes ++ (lengthBytes ++ rest))).filterMap (ofU8_toU8 space)
  have hoffset := hsub.reads (hv.child (by simp [children])) hoffset (by omega) (lengthBytes ++ rest)
  have hlength := hsub.reads (hv.child (by simp [children])) hlength (by omega) rest
  exact reads_extLead rfl
    (((((reads_nameString hv.wellFormed hpath _).map opRegion).seq hspace).seq hoffset).seq hlength)

variable {a t target value left right predicate : Aml}

theorem readsBack_objectOp (hsub : ReadsBelow sub n) {op : ObjectOp} (hv : (objectOp op a).Valid) :
    ReadsBack sub n (.objectOp op a) := by
  intro bs hbs hlen _ rest
  obtain ⟨bytes, hbytes, rfl⟩ := bind_ok_eq_ok.1 hbs
  simp only [length_append, length_singleton] at hlen
  have hlead : ofByte op.opcode = some (.objectOp op) := by cases op <;> rfl
  have ha := hsub.reads (hv.child (by simp [children])) hbytes (by omega) rest
  exact reads_lead hlead (ha.map (objectOp op))

theorem readsBack_two (hsub : ReadsBelow sub n) {x y : Aml} (hx : x.Valid) (hy : y.Valid)
    {f : Aml → Aml → Aml} (hlead : ofByte b = some lead) (hop : lead.operands sub = f <$> sub <*> sub)
    (hnorm : t.norm = f x.norm y.norm) (henc : t.toAmlBytes = do
      let xb ← x.toAmlBytes
      let yb ← y.toAmlBytes
      return [b] ++ xb ++ yb) : ReadsBack sub n t := by
  intro bs hbs hlen _ rest
  simp only [henc, bind_eq_ok, pure_eq, ok.injEq] at hbs
  obtain ⟨xb, hxb, yb, hyb, rfl⟩ := hbs
  simp only [length_append, length_singleton] at hlen
  have hread := ((hsub.reads hx hxb (by omega) (yb ++ rest)).map f).seq
    (hsub.reads hy hyb (by omega) rest)
  rw [hnorm]
  exact reads_lead hlead (hop ▸ hread)

theorem readsBack_binaryOp (hsub : ReadsBelow sub n) {op : BinaryOp} {b : Aml} (hv : (binaryOp op target a b).Valid) :
    ReadsBack sub n (.binaryOp op target a b) := by
  intro bs hbs hlen _ rest
  simp only [toAmlBytes, bind_eq_ok, pure_eq, ok.injEq] at hbs
  obtain ⟨ab, hab, bb, hbb, tb, htb, rfl⟩ := hbs
  simp only [length_append, length_singleton] at hlen
  have hlead : ofByte op.opcode = some (.binaryOp op) := by cases op <;> rfl
  have ha := hsub.reads (hv.child (by simp [children])) hab (by omega) (bb ++ (tb ++ rest))
  have hb := hsub.reads (hv.child (by simp [children])) hbb (by omega) (tb ++ rest)
  have ht := hsub.reads (hv.child (by simp [children])) htb (by omega) rest
  exact reads_lead hlead (((ha.map fun a b target => binaryOp op target a b).seq hb).seq ht)

theorem readsBack_convertOp (hsub : ReadsBelow sub n) {op : ConvertOp} (hv : (convertOp op target a).Valid) :
    ReadsBack sub n (.convertOp op target a) := by
  have hlead : ofByte op.opcode = some (.convertOp op) := by cases op <;> rfl
  exact readsBack_two hsub (hv.child (by simp [children])) (hv.child (by simp [children]))
    hlead rfl rfl rfl

theorem readsBack_store (hsub : ReadsBelow sub n) (hv : (store target value).Valid) :
    ReadsBack sub n (.store target value) :=
  readsBack_two hsub (hv.child (by simp [children]))
    (hv.child (by simp [children])) (b := STOREOP) rfl rfl rfl rfl

theorem readsBack_notify (hsub : ReadsBelow sub n) {object : Aml} (hv : (notify object value).Valid) :
    ReadsBack sub n (.notify object value) :=
  readsBack_two hsub (hv.child (by simp [children]))
    (hv.child (by simp [children])) rfl rfl rfl rfl

theorem readsBack_plain (hsub : ReadsBelow sub n) {op : CompareOp} (hop : op.invert = false)
    (hv : (compareOp op left right).Valid) : ReadsBack sub n (.compareOp op left right) := by
  have hlead : ofByte op.opcode = some (.compareOp op) := by
    cases op <;> first | rfl | cases hop
  refine readsBack_two hsub (x := left) (y := right) (hv.child (by simp [children]))
    (hv.child (by simp [children])) hlead rfl ?_ ?_
  · simp [Aml.norm, hop]
  · simp [toAmlBytes, hop]

theorem CompareOp.opcode_plain (op : CompareOp) : op.plain.opcode = op.opcode := by
  cases op <;> rfl

theorem CompareOp.invert_plain (op : CompareOp) : op.plain.invert = false := by
  cases op <;> rfl

theorem readsBack_inverted (hsub : ReadsBelow sub n) {op : CompareOp} (hop : op.invert = true)
    (hv : (compareOp op left right).Valid) : ReadsBack sub n (.compareOp op left right) := by
  intro bs hbs hlen _ rest
  simp only [toAmlBytes, hop, if_true, bind_eq_ok, pure_eq, ok.injEq] at hbs
  obtain ⟨leftBytes, hleft, rightBytes, hright, rfl⟩ := hbs
  rw [length_append, length_singleton] at hlen
  -- the plain comparison is not below this object, but its encoding is shorter, and `hsub` asks for no more
  have hplain : (compareOp op.plain left right).Valid := .of_children trivial fun c hc => hv.child hc
  have henc : (compareOp op.plain left right).toAmlBytes = .ok ([op.opcode] ++ leftBytes ++ rightBytes) := by
    simp [toAmlBytes, hleft, hright, op.opcode_plain, op.invert_plain]
  have hread := hsub.reads hplain henc (by omega) rest
  have hnorm : (compareOp op left right).norm = .objectOp .logicalNot (compareOp op.plain left right).norm := by
    simp [Aml.norm, hop, op.invert_plain]
  rw [hnorm]
  have hlead : ofByte LNOTOP = some (.objectOp .logicalNot) := rfl
  exact reads_lead hlead (hread.map (objectOp .logicalNot))

/-! ### Packages -/

theorem readsBack_package (hsub : ReadsBelow sub n) (hv : (package cs).Valid) : ReadsBack sub n (.package cs) := by
  intro bs hbs hlen hmax rest
  obtain ⟨bytes, hbytes, rfl⟩ := bind_ok_eq_ok.1 hbs
  have hbody := length_lt_packaged (by simp) hlen
  rw [length_append] at hbody
  have hcs := hsub.reads_many (fun c hc => hv.child hc) hbytes (by omega)
  have hcount : countedPackage (UInt8.ofNat cs.length) (normAll cs) = some (.package (normAll cs)) := by
    have hle : cs.length ≤ 255 := hv.wellFormed
    refine if_pos ?_
    rw [normAll_eq_map, length_map, UInt8.toNat_ofNat']
    omega
  exact reads_packaged (selects_lead rfl rfl) (by simp)
    ((((reads_next _ _).map Prod.mk).seq hcs).filterMap hcount) hmax rest

theorem readsBack_packageBuilder (hsub : ReadsBelow sub n) (hv : (packageBuilder cs).Valid) :
    ReadsBack sub n (.packageBuilder cs) := by
  have hpackage : (package cs).Valid := .of_children hv.wellFormed fun c hc => hv.child hc
  intro bs hbs
  rw [packageBuilder_toAmlBytes] at hbs
  exact readsBack_package hsub hpackage bs hbs

theorem readsBack_bufferData (hsub : ReadsBelow sub n) (data : List UInt8) : ReadsBack sub n (.bufferData data) := by
  intro bs hbs hlen hmax rest
  cases hbs
  have hbody := length_lt_packaged (by simp) hlen
  rw [length_append] at hbody
  have hsize : (usize (UInt64.ofNat data.length)).Valid := .of_children trivial (by simp [children])
  have hread := hsub.reads hsize rfl (by omega) (data ++ [])
  exact reads_packaged (selects_lead rfl rfl) (by simp)
    (((hread.map Prod.mk).seq (reads_remaining data)).filterMap (if_pos rfl)) hmax rest

theorem readsBack_named (hsub : ReadsBelow sub n) (hp : p.Valid) (hcs : ∀ c ∈ cs, c.Valid) {op : List UInt8}
    {f : Path → List Aml → Aml} (hop : Selects sub op (f <$> nameString <*> many sub)) (hne : op ≠ [])
    (hnorm : t.norm = f p (normAll cs)) (henc : t.toAmlBytes = do
      let path ← p.toAmlBytes
      let children ← childrenBytes cs
      return packaged op (path ++ children)) : ReadsBack sub n t := by
  intro bs hbs hlen hmax rest
  simp only [henc, bind_eq_ok, pure_eq, ok.injEq] at hbs
  obtain ⟨path, hpath, children, hchildren, rfl⟩ := hbs
  have hbody := length_lt_packaged hne hlen
  rw [length_append] at hbody
  have hread := ((reads_nameString hp hpath (children ++ [])).map f).seq
    (hsub.reads_many hcs hchildren (by omega))
  rw [hnorm]
  exact reads_packaged hop hne hread hmax rest

theorem readsBack_scope (hsub : ReadsBelow sub n) (hv : (scope p cs).Valid) : ReadsBack sub n (.scope p cs) :=
  readsBack_named hsub hv.wellFormed (fun c hc => hv.child hc) (selects_lead rfl rfl) (by simp) rfl rfl

theorem readsBack_device (hsub : ReadsBelow sub n) (hv : (device p cs).Valid) : ReadsBack sub n (.device p cs) :=
  readsBack_named hsub hv.wellFormed (fun c hc => hv.child hc) (selects_extLead rfl rfl) (by simp) rfl rfl

theorem method_flag_bits : ∀ (args : Fin 8) (serialized : Bool),
    Method.flags (UInt8.ofNat args) serialized &&& 0x7 = UInt8.ofNat args ∧
      (Method.flags (UInt8.ofNat args) serialized &&& 0x8 == 0x8) = serialized := by
  decide

theorem readsBack_method (hsub : ReadsBelow sub n) {args : UInt8} {serialized : Bool}
    (hv : (method p args serialized cs).Valid) : ReadsBack sub n (.method p args serialized cs) := by
  intro bs hbs hlen hmax rest
  obtain ⟨path, hpath, hbs⟩ := bind_eq_ok.1 hbs
  obtain ⟨children, hchildren, rfl⟩ := bind_ok_eq_ok.1 hbs
  have hbody := length_lt_packaged (by simp) hlen
  rw [length_append] at hbody
  have hcs := hsub.reads_many (fun c hc => hv.child hc) hchildren (by omega)
  obtain ⟨hp, hargs⟩ := hv.wellFormed
  have hle : args.toNat ≤ 7 := UInt8.le_iff_toNat_le.1 hargs
  have hbits := method_flag_bits ⟨args.toNat, by omega⟩ serialized
  simp only [UInt8.ofNat_toNat] at hbits
  have hread := (((reads_nameString hp hpath _).map
    fun path flags => method path (flags &&& 0x7) (flags &&& 0x8 == 0x8)).seq
    (reads_next (Method.flags args serialized) (children ++ []))).seq hcs
  rw [hbits.1, hbits.2] at hread
  exact reads_packaged (selects_lead rfl rfl) (by simp) hread hmax rest

theorem readsBack_field {accessType : FieldAccessType} {lockRule : FieldLockRule}
    {updateRule : FieldUpdateRule} {fields : List FieldEntry}
    (hv : (field p accessType lockRule updateRule fields).Valid) :
    ReadsBack sub n (.field p accessType lockRule updateRule fields) := by
  intro bs hbs hlen hmax rest
  obtain ⟨path, hpath, rfl⟩ := bind_ok_eq_ok.1 hbs
  obtain ⟨hp, hfields⟩ := hv.wellFormed
  have hflags := (reads_next (Field.flags accessType lockRule updateRule)
    (fields.flatMap FieldEntry.bytes ++ [])).filterMap (ofFlags_flags accessType lockRule updateRule)
  have hentries := reads_many rfl fields fun e he => reads_fieldEntry (hfields e he)
  have hread := (((reads_nameString hp hpath _).map fun path flags fields =>
    field path flags.1 flags.2.1 flags.2.2 fields).seq hflags).seq hentries
  exact reads_packaged (selects_extLead rfl rfl) (by simp) hread hmax rest

theorem readsBack_elseTerm (hsub : ReadsBelow sub n) (hv : (elseTerm cs).Valid) :
    ReadsBack sub n (.elseTerm cs) := by
  intro bs hbs hlen hmax rest
  obtain ⟨bytes, hbytes, rfl⟩ := bind_ok_eq_ok.1 hbs
  have hbody := length_lt_packaged (by simp) hlen
  have hcs := hsub.reads_many (fun c hc => hv.child hc) hbytes hbody
  exact reads_packaged (selects_lead rfl rfl) (by simp) (hcs.map elseTerm) hmax rest

theorem readsBack_guarded (hsub : ReadsBelow sub n) (hp : predicate.Valid) (hcs : ∀ c ∈ cs, c.Valid)
    {f : Aml → List Aml → Aml} (hlead : ofByte b = some lead)
    (hop : lead.operands sub = pkg (f <$> sub <*> many sub)) (hnorm : t.norm = f predicate.norm (normAll cs))
    (henc : t.toAmlBytes = do
      let pb ← predicate.toAmlBytes
      let cb ← childrenBytes cs
      return packaged [b] (pb ++ cb)) : ReadsBack sub n t := by
  intro bs hbs hlen hmax rest
  simp only [henc, bind_eq_ok, pure_eq, ok.injEq] at hbs
  obtain ⟨pb, hpb, cb, hcb, rfl⟩ := hbs
  have hbody := length_lt_packaged (by simp) hlen
  rw [length_append] at hbody
  have hread := ((hsub.reads hp hpb (by omega) (cb ++ [])).map f).seq
    (hsub.reads_many hcs hcb (by omega))
  rw [hnorm]
  exact reads_packaged (selects_lead hlead hop) (by simp) hread hmax rest

theorem readsBack_ifTerm (hsub : ReadsBelow sub n) (hv : (ifTerm predicate cs).Valid) :
    ReadsBack sub n (.ifTerm predicate cs) :=
  readsBack_guarded hsub (hv.child (by simp [children]))
    (fun c hc => hv.child (by simp [children, hc])) rfl rfl rfl rfl

theorem readsBack_whileTerm (hsub : ReadsBelow sub n) (hv : (whileTerm predicate cs).Valid) :
    ReadsBack sub n (.whileTerm predicate cs) :=
  readsBack_guarded hsub (hv.child (by simp [children]))
    (fun c hc => hv.child (by simp [children, hc])) rfl rfl rfl rfl

end Constructors

variable {t : Aml}

theorem readsBack_of_readsBelow (hsub : ReadsBelow sub n) (hv : t.Valid) : ReadsBack sub n t := by
  cases t with
  | zero | one | ones => exact .of_eq rfl fun _ => reads_lead rfl rfl
  | byte value => exact .of_eq rfl (reads_byte value)
  | word value => exact .of_eq rfl (reads_word value)
  | dword value => exact .of_eq rfl (reads_dword value)
  | qword value | usize value => exact .of_eq rfl (reads_qword value)
  | string text => exact readsBack_string hv.wellFormed
  | path p => exact readsBack_path hv.wellFormed
  | name p inner => exact readsBack_name hsub hv
  | package cs => exact readsBack_package hsub hv
  | packageBuilder elements => exact readsBack_packageBuilder hsub hv
  | bufferData data => exact readsBack_bufferData hsub data
  | device p cs => exact readsBack_device hsub hv
  | scope p cs => exact readsBack_scope hsub hv
  | method p args serialized cs => exact readsBack_method hsub hv
  | field p accessType lockRule updateRule fields => exact readsBack_field hv
  | opRegion p space offset length => exact readsBack_opRegion hsub hv
  | ifTerm predicate cs => exact readsBack_ifTerm hsub hv
  | elseTerm body => exact readsBack_elseTerm hsub hv
  | whileTerm predicate cs => exact readsBack_whileTerm hsub hv
  | compareOp op left right =>
    cases hop : op.invert with
    | false => exact readsBack_plain hsub hop hv
    | true => exact readsBack_inverted hsub hop hv
  | objectOp op a => exact readsBack_objectOp hsub hv
  | binaryOp op target a b => exact readsBack_binaryOp hsub hv
  | convertOp op target a => exact readsBack_convertOp hsub hv
  | arg n => exact readsBack_arg hv.wellFormed
  | localObj n => exact readsBack_localObj hv.wellFormed
  | store target value => exact readsBack_store hsub hv
  | mutex p syncLevel => exact readsBack_mutex hv.wellFormed syncLevel
  | acquire p timeout => exact readsBack_acquire hv.wellFormed timeout
  | release p => exact readsBack_release hv.wellFormed
  | notify object value => exact readsBack_notify hsub hv

/-! ## Whole objects -/

theorem term_readsBelow (fuel : Nat) : ReadsBelow (term fuel) (min fuel (2 ^ 28 - 5)) := by
  induction fuel with
  | zero => exact ⟨rfl, fun _ _ hlen => absurd hlen (by simp)⟩
  | succ fuel ih =>
    refine ⟨rfl, fun hv hbs hlen rest => ?_⟩
    exact readsBack_of_readsBelow ih hv _ hbs (by omega) (by omega) rest

theorem parse_toAmlBytes (hv : t.Valid) (hbs : t.toAmlBytes = .ok bs) (hlen : bs.length < 2 ^ 28 - 5)
    (rest : List UInt8) : parse (bs ++ rest) = some (t.norm, rest) := by
  refine (term_readsBelow _).reads hv hbs ?_ rest
  rw [length_append]
  omega

/-! ## The package lengths of an object -/

namespace Aml

def pkgOpcode : Aml → Option (List UInt8)
  | .package _ | .packageBuilder _ => some [PACKAGEOP]
  | .bufferData _ => some [BUFFEROP]
  | .device _ _ => some [EXTOPPREFIX, DEVICEOP]
  | .scope _ _ => some [SCOPEOP]
  | .method _ _ _ _ => some [METHODOP]
  | .field _ _ _ _ _ => some [EXTOPPREFIX, FIELDOP]
  | .ifTerm _ _ => some [IFOP]
  | .elseTerm _ => some [ELSEOP]
  | .whileTerm _ _ => some [WHILEOP]
  | _ => none

variable {op bs : List UInt8}

theorem packaged_of_pkgOpcode (hop : t.pkgOpcode = some op) (hbs : t.toAmlBytes = .ok bs) :
    ∃ body, bs = packaged op body := by
  cases t with
  | package | elseTerm | field =>
    obtain ⟨_, -, rfl⟩ := bind_ok_eq_ok.1 hbs
    cases hop
    exact ⟨_, rfl⟩
  | device | scope | method | ifTerm | whileTerm =>
    obtain ⟨_, -, hbs⟩ := bind_eq_ok.1 hbs
    obtain ⟨_, -, rfl⟩ := bind_ok_eq_ok.1 hbs
    cases hop
    exact ⟨_, rfl⟩
  | packageBuilder elements =>
    simp only [toAmlBytes, PackageBuilder.toAmlBytes_eq_packaged, bind_eq_ok, pure_eq, ok.injEq] at hbs
    obtain ⟨_, -, rfl⟩ := hbs
    cases hop
    exact ⟨_, rfl⟩
  | bufferData =>
    cases hbs
    cases hop
    exact ⟨_, rfl⟩
  | _ => cases hop

theorem childrenBytes_infix {c : Aml} : ∀ {cs : List Aml} {bs : List UInt8}, c ∈ cs →
    childrenBytes cs = .ok bs → ∃ cb, c.toAmlBytes = .ok cb ∧ cb <:+: bs
  | d :: ds, bs, hc, hbs => by
    simp only [childrenBytes, bind_eq_ok, pure_eq, ok.injEq] at hbs
    obtain ⟨bytes, hbytes, tail, htail, rfl⟩ := hbs
    rcases mem_cons.1 hc with rfl | hmem
    · exact ⟨bytes, hbytes, infix_append' [] bytes tail⟩
    · obtain ⟨cb, hcb, hin⟩ := childrenBytes_infix hmem htail
      exact ⟨cb, hcb, hin.trans (suffix_append bytes tail).isInfix⟩

theorem infix_packaged (op pre body : List UInt8) : body <:+: packaged op (pre ++ body) :=
  ⟨op ++ createPkgLength (pre ++ body).length true ++ pre, [], by simp [packaged]⟩

theorem children_infix (hbs : t.toAmlBytes = .ok bs) :
    ∃ cb, childrenBytes t.children = .ok cb ∧ cb <:+: bs := by
  cases t with
  | package | packageBuilder =>
    simp only [toAmlBytes, PackageBuilder.toAmlBytes_eq_packaged, bind_eq_ok, pure_eq, ok.injEq] at hbs
    obtain ⟨bytes, hbytes, rfl⟩ := hbs
    exact ⟨bytes, hbytes, infix_packaged _ _ bytes⟩
  | elseTerm =>
    obtain ⟨bytes, hbytes, rfl⟩ := bind_ok_eq_ok.1 hbs
    exact ⟨bytes, hbytes, infix_packaged _ [] bytes⟩
  | device | scope | method =>
    obtain ⟨path, -, hbs⟩ := bind_eq_ok.1 hbs
    obtain ⟨bytes, hbytes, rfl⟩ := bind_ok_eq_ok.1 hbs
    exact ⟨bytes, hbytes, infix_packaged _ _ bytes⟩
  | ifTerm | whileTerm =>
    obtain ⟨pb, hpb, hbs⟩ := bind_eq_ok.1 hbs
    obtain ⟨bytes, hbytes, rfl⟩ := bind_ok_eq_ok.1 hbs
    exact ⟨pb ++ bytes, by simp [children, childrenBytes, hpb, hbytes], infix_packaged _ [] _⟩
  | name =>
    obtain ⟨path, -, hbs⟩ := bind_eq_ok.1 hbs
    obtain ⟨bytes, hbytes, rfl⟩ := bind_ok_eq_ok.1 hbs
    exact ⟨bytes, by simp [children, childrenBytes, hbytes], (suffix_append _ _).isInfix⟩
  | objectOp =>
    obtain ⟨bytes, hbytes, rfl⟩ := bind_ok_eq_ok.1 hbs
    exact ⟨bytes, by simp [children, childrenBytes, hbytes], (suffix_append _ _).isInfix⟩
  | opRegion p space offset length =>
    simp only [toAmlBytes, bind_eq_ok, pure_eq, ok.injEq] at hbs
    obtain ⟨path, -, ob, hob, lb, hlb, rfl⟩ := hbs
    exact ⟨ob ++ lb, by simp [children, childrenBytes, hob, hlb],
      [EXTOPPREFIX, OPREGIONOP] ++ path ++ [space.toU8], [], by simp⟩
  | compareOp op left right =>
    obtain ⟨lb, hlb, hbs⟩ := bind_eq_ok.1 hbs
    obtain ⟨rb, hrb, rfl⟩ := bind_ok_eq_ok.1 hbs
    exact ⟨lb ++ rb, by simp [children, childrenBytes, hlb, hrb],
      (if op.invert then [LNOTOP] else []) ++ [op.opcode], [], by simp⟩
  | binaryOp op target a b =>
    simp only [toAmlBytes, bind_eq_ok, pure_eq, ok.injEq] at hbs
    obtain ⟨ab, hab, bb, hbb, tb, htb, rfl⟩ := hbs
    exact ⟨ab ++ (bb ++ tb), by simp [children, childrenBytes, hab, hbb, htb], [op.opcode], [], by simp⟩
  | convertOp | store | notify =>
    obtain ⟨xb, hxb, hbs⟩ := bind_eq_ok.1 hbs
    obtain ⟨yb, hyb, rfl⟩ := bind_ok_eq_ok.1 hbs
    rw [append_assoc]
    exact ⟨xb ++ yb, by simp [children, childrenBytes, hxb, hyb], (suffix_append _ _).isInfix⟩
  | _ => exact ⟨[], rfl, nil_infix⟩

theorem subterm_infix {s t : Aml} (hs : s ∈ t.subterms) (hbs : t.toAmlBytes = .ok bs) :
    ∃ sb, s.toAmlBytes = .ok sb ∧ sb <:+: bs := by
  induction t using children_induction generalizing bs with
  | h t ih =>
    rcases mem_subterms.1 hs with rfl | ⟨c, hc, hmem⟩
    · exact ⟨bs, hbs, infix_rfl⟩
    · obtain ⟨all, hall, hin⟩ := children_infix hbs
      obtain ⟨cb, hcb, hchild⟩ := childrenBytes_infix hc hall
      obtain ⟨sb, hsb, hsub⟩ := ih c hc hmem hcb
      exact ⟨sb, hsb, hsub.trans (hchild.trans hin)⟩

theorem pkgLength_packaged {body : List UInt8} (hmax : (packaged op body).length < 2 ^ 28 - 5) (hop : op ≠ []) :
    ∃ tail, packaged op body = op ++ tail ∧
      ∀ rest, pkgLength.run (tail ++ rest) = some (tail.length, body ++ rest) := by
  have hbody := length_lt_packaged hop (Nat.le_of_lt hmax)
  refine ⟨createPkgLength body.length true ++ body, by simp [packaged], fun rest => ?_⟩
  have hlen : body.length + 4 < 2 ^ 28 := by omega
  rw [append_assoc, reads_pkgLength_self hlen (body ++ rest), length_append, length_createPkgLength, Nat.add_comm]

/-! ## What the bytes cannot tell -/

theorem childrenBytes_normAll (cs : List Aml) (h : ∀ c ∈ cs, c.norm.toAmlBytes = c.toAmlBytes) :
    childrenBytes (normAll cs) = childrenBytes cs := by
  induction cs with
  | nil => rfl
  | cons c cs ih =>
    rw [normAll, childrenBytes, childrenBytes, h c (by simp), ih fun d hd => h d (by simp [hd])]

theorem dword_eq_qword (v : UInt32) : QWord.toAmlBytes v.toUInt64 = DWord.toAmlBytes v := by
  have hlt := v.toNat_lt
  have hd : v.toUInt64 ≤ 0xffffffff := UInt64.le_iff_toNat_le.2 (by simp; omega)
  simp [QWord.toAmlBytes, hd]

theorem word_eq_qword : QWord.toAmlBytes v.toUInt64 = Word.toAmlBytes v := by
  have hlt := v.toNat_lt
  have hw : v.toUInt32 ≤ 0xffff := UInt32.le_iff_toNat_le.2 (by simp; omega)
  simpa [DWord.toAmlBytes, hw] using dword_eq_qword v.toUInt32

theorem byte_eq_qword (v : UInt8) : QWord.toAmlBytes v.toUInt64 = Byte.toAmlBytes v := by
  have hlt := v.toNat_lt
  have hb : v.toUInt16 ≤ 0xff := UInt16.le_iff_toNat_le.2 (by simp; omega)
  simpa [Word.toAmlBytes, hb] using word_eq_qword v.toUInt16

theorem compareOp_norm (op : CompareOp) (left right : Aml) (hl : left.norm.toAmlBytes = left.toAmlBytes)
    (hr : right.norm.toAmlBytes = right.toAmlBytes) :
    (compareOp op left right).norm.toAmlBytes = (compareOp op left right).toAmlBytes := by
  cases hop : op.invert <;>
    simp [norm, toAmlBytes, hop, hl, hr, op.invert_plain, op.opcode_plain, ObjectOp.opcode, bind_assoc]

theorem toAmlBytes_norm (t : Aml) : t.norm.toAmlBytes = t.toAmlBytes := by
  induction t using children_induction with
  | h t ih =>
    cases t with
    | byte value => simp only [norm, toAmlBytes, byte_eq_qword]
    | word value => simp only [norm, toAmlBytes, word_eq_qword]
    | dword value => simp only [norm, toAmlBytes, dword_eq_qword]
    | name p inner => simp only [norm, toAmlBytes, ih inner (by simp [children])]
    | package cs => simp only [norm, toAmlBytes, childrenBytes_normAll cs ih, length_normAll]
    | packageBuilder cs =>
      rw [packageBuilder_toAmlBytes]
      simp only [norm, toAmlBytes, childrenBytes_normAll cs ih, length_normAll]
    | device p cs | scope p cs | method p _ _ cs | elseTerm cs =>
      simp only [norm, toAmlBytes, childrenBytes_normAll cs ih]
    | ifTerm predicate cs | whileTerm predicate cs =>
      simp only [norm, toAmlBytes, ih predicate (by simp [children]),
        childrenBytes_normAll cs fun c hc => ih c (by simp [children, hc])]
    | compareOp op left right =>
      exact compareOp_norm op left right (ih left (by simp [children])) (ih right (by simp [children]))
    | objectOp op a => simp only [norm, toAmlBytes, ih a (by simp [children])]
    | binaryOp op target a b =>
      simp only [norm, toAmlBytes, ih target (by simp [children]), ih a (by simp [children]), ih b (by simp [children])]
    | opRegion _ _ x y | convertOp _ x y | store x y | notify x y =>
      simp only [norm, toAmlBytes, ih x (by simp [children]), ih y (by simp [children])]
    | _ => rfl

end Aml

/-! ## The round trip -/

theorem aml_roundTrip (t : Aml) (hv : t.Valid) : ∃ bytes, t.toAmlBytes = .ok bytes ∧
    (bytes.length < 2 ^ 28 - 5 → (∀ rest, parse (bytes ++ rest) = some (t.norm, rest)) ∧
      (∀ u : Aml, u.Valid → (u.toAmlBytes = .ok bytes ↔ u.norm = t.norm)) ∧
      ∀ s ∈ t.subterms, ∀ op, s.pkgOpcode = some op → ∃ pre tail post body,
        bytes = pre ++ (op ++ tail) ++ post ∧ s.toAmlBytes = .ok (op ++ tail) ∧
          ∀ rest, pkgLength.run (tail ++ rest) = some (tail.length, body ++ rest)) := by
  obtain ⟨bytes, hbytes⟩ := toAmlBytes_ok hv
  refine ⟨bytes, hbytes, fun hlen => ⟨parse_toAmlBytes hv hbytes hlen, fun u hu => ⟨fun h => ?_, fun h => ?_⟩,
    fun s hs op hop => ?_⟩⟩
  · have hparse := (parse_toAmlBytes hu h hlen []).symm.trans (parse_toAmlBytes hv hbytes hlen [])
    simpa using hparse
  · rw [← toAmlBytes_norm, h, toAmlBytes_norm, hbytes]
  · obtain ⟨sb, hsb, pre, post, hin⟩ := subterm_infix hs hbytes
    obtain ⟨body, rfl⟩ := packaged_of_pkgOpcode hop hsb
    have hle : (packaged op body).length ≤ bytes.length := by
      rw [← hin, length_append, length_append]
      omega
    have hne : op ≠ [] := by
      rintro rfl
      cases s <;> simp [pkgOpcode] at hop
    obtain ⟨tail, htail, hread⟩ := pkgLength_packaged (Nat.lt_of_le_of_lt hle hlen) hne
    exact ⟨pre, tail, post, body, by rw [← htail, hin], by rw [hsb, htail], hread⟩

theorem aml_roundTrip_com1 :
    let com1 : Aml := .device ⟨false, false, [⟨0x43, 0x4f, 0x4d, 0x31⟩], by simp⟩
      [.name ⟨false, false, [⟨0x5f, 0x55, 0x49, 0x44⟩], by simp⟩ .one,
        .method ⟨false, false, [⟨0x5f, 0x53, 0x54, 0x41⟩], by simp⟩ 0 false
          [.ifTerm (.compareOp .notEqual (.localObj 0) (.dword 0x1234)) [.objectOp .returnTerm (.byte 0xf)]]]
    com1.Valid ∧ parse [0x5b, 0x82, 0x1d, 0x43, 0x4f, 0x4d, 0x31, 0x08, 0x5f, 0x55, 0x49, 0x44, 0x01,
      0x14, 0x11, 0x5f, 0x53, 0x54, 0x41, 0x00, 0xa0, 0x0a, 0x92, 0x93, 0x60, 0x0b, 0x34, 0x12, 0xa4,
      0x0a, 0x0f, 0x79] = some (com1.norm, [0x79]) := by
  intro com1
  have hv : com1.Valid := by decide +kernel
  obtain ⟨bytes, hbytes, h⟩ := aml_roundTrip com1 hv
  cases hbytes
  exact ⟨hv, (h (by decide)).1 [0x79]⟩

end RustVmm.AcpiTables
