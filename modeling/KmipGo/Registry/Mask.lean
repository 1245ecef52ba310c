import KmipGo.Registry.Consistent

/-! # Mask texts

`FormatInt` peels the registered values off a mask in ascending order, and
writes what is left in hex; `ParseInt` reads a number, a single name or hex
value, or a list of them, and takes the union of the bits.

* `formatFlags_spec` — the loop of `FormatInt` writes a list of flags whose
  bits, with the rest, make up the mask.
* `parseMask_joinFlags` — `ParseInt` reads such a list as the union of its flags.
* `parseMask_pipesToSpaces` — to `ParseInt` the separators are the same.
-/

namespace KmipGo.Reg

open KmipGo.Lib KmipGo.Ttlv

/-! ## Without a table -/

theorem hexInt_of_nonneg {v : BitVec 32} (hv : 0 ≤ v.toInt) : hexInt v = lit "0x" ++ hexPad 8 v.toNat := by
  rw [hexInt, if_neg (by omega)]

theorem hexInt_of_neg {v : BitVec 32} (hv : v.toInt < 0) :
    hexInt v = lit "-0x" ++ hexPad 7 v.toInt.natAbs := by
  rw [hexInt, if_pos hv]

theorem mem_hexInt {v : BitVec 32} {b : UInt8} (hb : b ∈ hexInt v) : WordByte b ∨ b = 45 := by
  have hneg : ∀ b ∈ lit "-0x", WordByte b ∨ b = 45 := forall_mem_of_all (by decide)
  have hpos : ∀ b ∈ lit "0x", WordByte b ∨ b = 45 := forall_mem_of_all (by decide)
  rw [hexInt] at hb
  split at hb
  · rw [List.mem_append] at hb
    exact hb.elim (hneg b) fun hb => Or.inl (wordByte_of_mem_hexPad hb)
  · rw [List.mem_append] at hb
    exact hb.elim (hpos b) fun hb => Or.inl (wordByte_of_mem_hexPad hb)

/-- A hex form is neither a decimal number nor a list of names. -/
theorem parseMask_hexInt (v : BitVec 32) (enumMap : Option Enum) :
    parseMask (hexInt v) enumMap = parseHexOrName (hexInt v) 4 enumMap := by
  have hx : ¬ IsDigit 120 := by decide
  have hdec : parseInt 32 (hexInt v) = none := by
    have hneg : lit "-0x" = [45, 48, 120] := by decide
    have hpos : lit "0x" = [48, 120] := by decide
    rw [hexInt, hneg, hpos]
    split
    · exact parseInt_eq_none (b := 120) (by simp) hx
    · exact parseInt_eq_none (b := 120) (by simp) hx
  have hsingle : (hexInt v).all (fun b => b != 124 && b != 32) = true := by
    rw [List.all_eq_true]
    intro b hb
    have hbyte := mem_hexInt hb
    rw [Bool.and_eq_true, bne_iff_ne, bne_iff_ne]
    constructor
    · rintro rfl
      exact absurd hbyte (by decide)
    · rintro rfl
      exact absurd hbyte (by decide)
  simp only [parseMask, hdec, hsingle, if_true]

/-- A nonnegative number is read back from its hex form. -/
theorem parseMask_hexInt_of_nonneg {v : BitVec 32} (hv : 0 ≤ v.toInt) (enumMap : Option Enum) :
    parseMask (hexInt v) enumMap = .ok v := by
  have hlt := v.isLt
  have hread := parseHexOrName_hex (w := 4) (n := v.toNat) (by omega) (Nat.le_refl 4) (Nat.le_refl 4)
    enumMap
  rw [parseMask_hexInt, hexInt_of_nonneg hv, show 8 = 2 * 4 from rfl, hread, BitVec.ofNat_toNat]
  simp

/-- A negative one is not. -/
theorem parseMask_hexInt_of_neg {v : BitVec 32} (hv : v.toInt < 0) {enumMap : Option Enum}
    (hnone : (enumMap.bind fun e => e.value (hexInt v)) = none) :
    parseMask (hexInt v) enumMap = .error (.unregisteredEnumName (hexInt v)) := by
  have hhex : parseHexValue (hexInt v) 4 = .ok none := by
    have hprefix : hasPrefix (hexInt v) (lit "0x") = false := by
      rw [hexInt_of_neg hv]
      rfl
    rw [parseHexValue, hprefix]
    rfl
  rw [parseMask_hexInt, parseHexOrName, hhex]
  simp only [hnone]

/-! ## Separators -/

/-- `strings.ReplaceAll(s, "|", " ")`. -/
def pipesToSpaces (s : GoString) : GoString := s.map fun b => if b = 124 then 32 else b

/-- `strings.ReplaceAll(s, " ", "|")`. -/
def spacesToPipes (s : GoString) : GoString := s.map fun b => if b = 32 then 124 else b

theorem pipesToSpaces_idem (s : GoString) : pipesToSpaces (pipesToSpaces s) = pipesToSpaces s := by
  rw [pipesToSpaces, pipesToSpaces, List.map_map]
  apply List.map_congr_left
  intro b _
  by_cases hb : b = 124 <;> simp [hb]

theorem pipesToSpaces_spacesToPipes (s : GoString) :
    pipesToSpaces (spacesToPipes s) = pipesToSpaces s := by
  rw [pipesToSpaces, spacesToPipes, pipesToSpaces, List.map_map]
  apply List.map_congr_left
  intro b _
  by_cases hb : b = 32 <;> simp [hb]

/-- A text without separators is a name, a number or a hex value. -/
def Single (s : GoString) : Prop := ∀ b ∈ s, b ≠ 124 ∧ b ≠ 32

theorem single_iff (s : GoString) : (s.all fun b => b != 124 && b != 32) = true ↔ Single s := by
  simp [Single]

theorem parseMask_of_single {s : GoString} (h : Single s) (hnum : parseInt 32 s = none)
    (enumMap : Option Enum) : parseMask s enumMap = parseHexOrName s 4 enumMap := by
  simp only [parseMask, hnum, (single_iff s).mpr h, if_true]

theorem parseMask_of_not_single {s : GoString} (h : ¬ Single s) (enumMap : Option Enum) :
    parseMask s enumMap = parseFlags enumMap (splitAt 32 (pipesToSpaces s)) 0 := by
  have hall : ¬ (s.all fun b => b != 124 && b != 32) = true := fun hall => h ((single_iff s).mp hall)
  have hnum : parseInt 32 s = none := by
    simp only [Single] at h
    push Not at h
    obtain ⟨b, hb, hsep⟩ := h
    by_cases hpipe : b = 124
    · exact parseInt_eq_none_of_mem hb (by rw [hpipe]; decide) (by rw [hpipe]; decide)
        (by rw [hpipe]; decide)
    · have hspace := hsep hpipe
      exact parseInt_eq_none_of_mem hb (by rw [hspace]; decide) (by rw [hspace]; decide)
        (by rw [hspace]; decide)
  simp only [parseMask, hnum, if_neg hall]
  rfl

theorem Single.pipesToSpaces {s : GoString} (h : Single s) : pipesToSpaces s = s := by
  rw [Reg.pipesToSpaces]
  conv_rhs => rw [← List.map_id s]
  apply List.map_congr_left
  intro b hb
  rw [if_neg (h b hb).1]
  rfl

theorem single_pipesToSpaces_iff (s : GoString) : Single (pipesToSpaces s) ↔ Single s := by
  constructor
  · intro h b hb
    have hmap := h _ (List.mem_map_of_mem hb)
    by_cases hpipe : b = 124
    · rw [if_pos hpipe] at hmap
      exact absurd rfl hmap.2
    · rw [if_neg hpipe] at hmap
      exact hmap
  · intro h
    rwa [h.pipesToSpaces]

/-- `ParseInt` does not distinguish the separators. -/
theorem parseMask_pipesToSpaces (s : GoString) (enumMap : Option Enum) :
    parseMask (pipesToSpaces s) enumMap = parseMask s enumMap := by
  by_cases h : Single s
  · rw [h.pipesToSpaces]
  · rw [parseMask_of_not_single h, parseMask_of_not_single (mt (single_pipesToSpaces_iff s).mp h),
      pipesToSpaces_idem]

theorem parseMask_spacesToPipes (s : GoString) (enumMap : Option Enum) :
    parseMask (spacesToPipes s) enumMap = parseMask s enumMap := by
  rw [← parseMask_pipesToSpaces, pipesToSpaces_spacesToPipes, parseMask_pipesToSpaces]

/-! ## Lists of flags -/

/-- A text that `ParseInt` reads as the bits of `p.1`, in a list and alone. -/
structure Flag (enumMap : Option Enum) (p : BitVec 32 × GoString) : Prop where
  ne_nil : p.2 ≠ []
  single : Single p.2
  not_number : parseInt 32 p.2 = none
  reads : parseHexOrName p.2 4 enumMap = .ok p.1

/-- The text `FormatInt` makes of a list of flags. -/
def joinFlags (parts : List (BitVec 32 × GoString)) : GoString :=
  (parts.map Prod.snd).foldl appendName []

/-- The union of the bits of `v` and of the flags. -/
def unionFlags (v : BitVec 32) (parts : List (BitVec 32 × GoString)) : BitVec 32 :=
  parts.foldl (fun v p => v ||| p.1) v

theorem joinFlags_snoc (parts : List (BitVec 32 × GoString)) (p : BitVec 32 × GoString) :
    joinFlags (parts ++ [p]) = appendName (joinFlags parts) p.2 := by
  rw [joinFlags, List.map_append, List.foldl_append]
  rfl

section

variable {enumMap : Option Enum}

theorem parseFlags_of_flags {parts : List (BitVec 32 × GoString)}
    (h : ∀ p ∈ parts, Flag enumMap p) (v : BitVec 32) :
    parseFlags enumMap (parts.map Prod.snd) v = .ok (unionFlags v parts) := by
  induction parts generalizing v with
  | nil => rfl
  | cons p parts ih =>
    have hp := h p (List.mem_cons_self ..)
    have hne : p.2.length ≠ 0 := fun h0 => hp.ne_nil (List.length_eq_zero_iff.mp h0)
    rw [List.map_cons, parseFlags, if_neg hne, hp.reads]
    exact ih (fun q hq => h q (List.mem_cons_of_mem _ hq)) (v ||| p.1)

/-- The parts that the text of a list of flags splits into. -/
theorem splitAt_joinFlags {parts : List (BitVec 32 × GoString)} (h : ∀ p ∈ parts, Flag enumMap p)
    (hne : parts ≠ []) :
    joinFlags parts ≠ [] ∧ splitAt 32 (pipesToSpaces (joinFlags parts)) = parts.map Prod.snd := by
  induction parts using List.reverseRecOn with
  | nil => exact absurd rfl hne
  | append_singleton parts p ih =>
    have hp := h p (by simp)
    have hlast : splitAt 32 (pipesToSpaces p.2) = [p.2] := by
      rw [hp.single.pipesToSpaces]
      exact splitAt_of_notMem fun hb => (hp.single 32 hb).2 rfl
    rw [joinFlags_snoc, appendName]
    by_cases hempty : parts = []
    · subst hempty
      refine ⟨?_, ?_⟩
      · exact hp.ne_nil
      · exact hlast
    · obtain ⟨hjoin, hsplit⟩ := ih (fun q hq => h q (by simp [hq])) hempty
      rw [if_pos (List.length_pos_iff.mpr hjoin)]
      refine ⟨by simp [hjoin], ?_⟩
      have hmap : pipesToSpaces (joinFlags parts ++ lit "|" ++ p.2) =
          pipesToSpaces (joinFlags parts) ++ 32 :: pipesToSpaces p.2 := by
        have hpipe : lit "|" = [124] := by decide
        simp [pipesToSpaces, hpipe]
      rw [hmap, splitAt_append_sep, hsplit, hlast, List.map_append]
      rfl

/-- A list of flags is read as the union of their bits. -/
theorem parseMask_joinFlags {parts : List (BitVec 32 × GoString)} (h : ∀ p ∈ parts, Flag enumMap p)
    (hne : parts ≠ []) : parseMask (joinFlags parts) enumMap = .ok (unionFlags 0 parts) := by
  obtain ⟨hjoin, hsplit⟩ := splitAt_joinFlags h hne
  by_cases hsingle : Single (joinFlags parts)
  · -- without a separator there is one flag, and it may be read as a number first
    have hone := hsplit
    rw [hsingle.pipesToSpaces, splitAt_of_notMem fun hb => (hsingle 32 hb).2 rfl] at hone
    have hlength : parts.length = 1 := by
      simpa using (congrArg List.length hone).symm
    obtain ⟨p, rfl⟩ := List.length_eq_one_iff.mp hlength
    have hp := h p (List.mem_singleton_self p)
    have htext : joinFlags [p] = p.2 := by simpa using hone
    rw [htext, parseMask_of_single hp.single hp.not_number, hp.reads]
    simp [unionFlags]
  · rw [parseMask_of_not_single hsingle, hsplit, parseFlags_of_flags h]

end

/-! ## The loop of `FormatInt` -/

theorem unionFlags_or (v w : BitVec 32) (parts : List (BitVec 32 × GoString)) :
    unionFlags (v ||| w) parts = unionFlags v parts ||| w := by
  induction parts generalizing v with
  | nil => rfl
  | cons p parts ih =>
    have hswap : v ||| w ||| p.1 = v ||| p.1 ||| w := by
      rw [BitVec.or_assoc, BitVec.or_comm w, ← BitVec.or_assoc]
    show unionFlags (v ||| w ||| p.1) parts = unionFlags (v ||| p.1) parts ||| w
    rw [hswap, ih]

/-- Bits that are peeled off and put back. -/
theorem xor_or_of_and_eq {v w : BitVec 32} (h : w &&& v = w) : (v ^^^ w) ||| w = v := by
  apply BitVec.eq_of_getLsbD_eq
  intro i _
  have hbit := congrArg (fun b : BitVec 32 => b.getLsbD i) h
  simp only [BitVec.getLsbD_and] at hbit
  rw [BitVec.getLsbD_or, BitVec.getLsbD_xor]
  cases hv : v.getLsbD i with
  | true => cases w.getLsbD i <;> rfl
  | false =>
    rw [hv, Bool.and_false] at hbit
    rw [← hbit]
    rfl

/-- The loop names flags of the mask, and what it leaves are the other bits. -/
theorem formatFlags_spec (e : Enum) (vs : List (BitVec 32)) (sb : GoString) (v : BitVec 32) :
    ∃ parts : List (BitVec 32 × GoString), (∀ p ∈ parts, e.name p.1 = some p.2) ∧
      (formatFlags e vs sb v).1 = (parts.map Prod.snd).foldl appendName sb ∧
      unionFlags (formatFlags e vs sb v).2 parts = v := by
  induction vs generalizing sb v with
  | nil => exact ⟨[], by simp, rfl, rfl⟩
  | cons v1 vs ih =>
    cases hflag : (if v1 &&& v = v1 then e.name v1 else none) with
    | none =>
      by_cases hv : v = 0
      · simp only [formatFlags, hflag, if_pos hv]
        exact ⟨[], by simp, rfl, rfl⟩
      · simp only [formatFlags, hflag, if_neg hv]
        exact ih sb v
    | some name =>
      have hsub : v1 &&& v = v1 := by
        by_contra hnot
        rw [if_neg hnot] at hflag
        cases hflag
      rw [if_pos hsub] at hflag
      by_cases hv : v ^^^ v1 = 0
      · simp only [formatFlags, if_pos hsub, hflag, if_pos hv]
        exact ⟨[(v1, name)], by simpa using hflag, rfl, xor_or_of_and_eq hsub⟩
      · simp only [formatFlags, if_pos hsub, hflag, if_neg hv]
        obtain ⟨parts, hnames, htext, hunion⟩ := ih (appendName sb name) (v ^^^ v1)
        refine ⟨(v1, name) :: parts, ?_, htext, ?_⟩
        · intro p hp
          rcases List.mem_cons.mp hp with rfl | hp
          · exact hflag
          · exact hnames p hp
        · show unionFlags (_ ||| v1) parts = v
          rw [unionFlags_or, hunion, xor_or_of_and_eq hsub]

/-! ## Reading the mask back -/

section

variable {title : Bytes → Bytes}

theorem single_of_wordBytes {s : GoString} (h : ∀ b ∈ s, WordByte b) : Single s := by
  intro b hb
  have hword := h b hb
  constructor
  · rintro rfl
    exact absurd hword (by decide)
  · rintro rfl
    exact absurd hword (by decide)

/-- A registered name is a flag. -/
theorem flag_of_name (htitle : KeepsWords title) {e : Enum} (he : e.Consistent title)
    {p : BitVec 32 × GoString} (hp : e.name p.1 = some p.2) : Flag (some e) p := by
  obtain ⟨-, hread, name, hname⟩ := he.value_of_name title hp
  have hword : ∀ b ∈ p.2, WordByte b := by
    intro b hb
    rw [hname] at hb
    exact wordByte_of_mem_normalizeName title htitle hb
  refine ⟨hread.ne_nil, single_of_wordBytes hword, ?_, parseHexOrName_name he hp 4⟩
  have hother := hread.not_decimal
  push Not at hother
  obtain ⟨b, hb, hdigit⟩ := hother
  apply parseInt_eq_none_of_mem hb hdigit
  · rintro rfl
    exact absurd (hword _ hb) (by decide)
  · rintro rfl
    exact absurd (hword _ hb) (by decide)

/-- So are the bits that are left, in hex. -/
theorem flag_of_hex (enumMap : Option Enum) (v : BitVec 32) :
    Flag enumMap (v, lit "0x" ++ hexPad 8 v.toNat) := by
  have hlt := v.isLt
  have hlit : ∀ b ∈ lit "0x", WordByte b := forall_mem_of_all (by decide)
  refine ⟨by simp [lit], single_of_wordBytes ?_, ?_, ?_⟩
  · intro b hb
    rcases List.mem_append.mp hb with hb | hb
    · exact hlit b hb
    · exact wordByte_of_mem_hexPad hb
  · apply parseInt_eq_none_of_mem (b := 120)
    · exact List.mem_append_left _ (by decide)
    · decide
    · decide
    · decide
  · have hread := parseHexOrName_hex (w := 4) (n := v.toNat) (by omega) (Nat.le_refl 4)
      (Nat.le_refl 4) enumMap
    rw [show 8 = 2 * 4 from rfl, hread, BitVec.ofNat_toNat, BitVec.setWidth_eq]

/-- Every text of `FormatInt` over a table with values is the text of a list of flags. -/
theorem formatInt_flags (htitle : KeepsWords title) {e : Enum} (he : e.Consistent title)
    (hvalues : e.values.length ≠ 0) (i : BitVec 32) :
    ∃ parts, (∀ p ∈ parts, Flag (some e) p) ∧ formatInt i (some e) = joinFlags parts ∧
      unionFlags 0 parts = i := by
  obtain ⟨parts, hnames, htext, hunion⟩ := formatFlags_spec e e.values [] i
  have hflags : ∀ p ∈ parts, Flag (some e) p := fun p hp => flag_of_name htitle he (hnames p hp)
  cases hloop : formatFlags e e.values [] i with
  | mk sb v =>
    rw [hloop] at htext hunion
    by_cases hv : v = 0
    · refine ⟨parts, hflags, ?_, ?_⟩
      · simp only [formatInt, if_neg hvalues, hloop, hv, ne_eq, not_true_eq_false, if_false]
        exact htext
      · rw [← hunion, hv]
    · refine ⟨parts ++ [(v, lit "0x" ++ hexPad 8 v.toNat)], ?_, ?_, ?_⟩
      · intro p hp
        rw [List.mem_append, List.mem_singleton] at hp
        rcases hp with hp | rfl
        · exact hflags p hp
        · exact flag_of_hex (some e) v
      · simp only [formatInt, if_neg hvalues, hloop, ne_eq, hv, not_false_eq_true, if_true]
        rw [joinFlags_snoc]
        exact congrArg (appendName · _) htext
      · rw [← hunion, unionFlags, List.foldl_append]
        show unionFlags 0 parts ||| v = unionFlags v parts
        have hzero : (0 : BitVec 32) ||| v = v := BitVec.zero_or
        rw [← unionFlags_or, hzero]

/-! ## The two texts that cannot be read -/

/-- A registered zero is the first of the values. -/
theorem values_eq_zero_cons {e : Enum} {name : GoString} (h : e.name 0 = some name) :
    ∃ rest, e.values = 0 :: rest := by
  have hmem := Enum.mem_values.mpr ⟨name, h⟩
  have hsorted := List.pairwise_insertionSort (fun a b : BitVec 32 => a.toNat ≤ b.toNat)
    e.valuesToName.keys
  rw [Enum.values] at hmem ⊢
  cases hvalues : e.valuesToName.keys.insertionSort fun a b => a.toNat ≤ b.toNat with
  | nil =>
    rw [hvalues] at hmem
    cases hmem
  | cons v vs =>
    rw [hvalues] at hmem hsorted
    rcases List.mem_cons.mp hmem with rfl | hlater
    · exact ⟨vs, rfl⟩
    · have hle := List.rel_of_pairwise_cons hsorted hlater
      have hv : v = 0 := BitVec.eq_of_toNat_eq (Nat.le_zero.mp hle)
      exact ⟨vs, by rw [hv]⟩

/-- A table without values denotes nothing. -/
theorem value_of_no_values {e : Enum} (he : e.Consistent title) (hvalues : e.values.length = 0)
    (s : GoString) : e.value s = none := by
  cases hv : e.value s with
  | none => rfl
  | some v =>
    obtain ⟨name, hname⟩ := he.name_of_value title hv
    have hmem := Enum.mem_values.mpr ⟨name, hname⟩
    rw [List.length_eq_zero_iff.mp hvalues] at hmem
    cases hmem

theorem formatFlags_zero {e : Enum} {vs : List (BitVec 32)} (h : ∀ v ∈ vs, v ≠ 0) :
    formatFlags e vs [] 0 = ([], 0) := by
  cases vs with
  | nil => rfl
  | cons v vs =>
    have hv := h v (List.mem_cons_self ..)
    have hsub : ¬ v &&& 0 = v := by
      rw [show v &&& 0 = 0 from BitVec.and_zero]
      exact Ne.symm hv
    simp only [formatFlags, if_neg hsub, if_true]

/-- The masks whose text is read back: without values in the table the text is a signed hex number,
    which has no sign to the reader; with values, the mask 0 has no text unless 0 is one of them. -/
def MaskReadable (i : BitVec 32) : Option Enum → Prop
  | none => 0 ≤ i.toInt
  | some e => if e.values.length = 0 then 0 ≤ i.toInt else i = 0 → (e.name 0).isSome

instance (i : BitVec 32) (enumMap : Option Enum) : Decidable (MaskReadable i enumMap) :=
  match enumMap with
  | none => inferInstanceAs (Decidable (0 ≤ i.toInt))
  | some e => inferInstanceAs (Decidable (if e.values.length = 0 then _ else _))

theorem parseMask_hexInt_iff (i : BitVec 32) {enumMap : Option Enum}
    (hnone : (enumMap.bind fun e => e.value (hexInt i)) = none) :
    parseMask (hexInt i) enumMap = .ok i ↔ 0 ≤ i.toInt := by
  by_cases hi : 0 ≤ i.toInt
  · exact iff_of_true (parseMask_hexInt_of_nonneg hi enumMap) hi
  · rw [parseMask_hexInt_of_neg (by omega) hnone]
    exact iff_of_false (fun h => by cases h) hi

/-- The mask 0 over a table with values is written as the name of 0, or as nothing. -/
theorem parseMask_formatInt_zero (htitle : KeepsWords title) {e : Enum} (he : e.Consistent title)
    (hvalues : e.values.length ≠ 0) :
    parseMask (formatInt 0 (some e)) (some e) = .ok 0 ↔ (e.name 0).isSome := by
  cases hzero : e.name 0 with
  | none =>
    have hnonzero : ∀ v ∈ e.values, v ≠ 0 := by
      rintro v hv rfl
      rw [Enum.values, List.mem_insertionSort] at hv
      have hsome := AList.lookup_isSome.mpr hv
      rw [Enum.name] at hzero
      rw [hzero] at hsome
      cases hsome
    have htext : formatInt 0 (some e) = [] := by
      simp only [formatInt, if_neg hvalues, formatFlags_zero hnonzero, ne_eq, not_true_eq_false, if_false]
    refine iff_of_false ?_ Bool.false_ne_true
    intro hparse
    have hname : parseHexOrName [] 4 (some e) = .ok 0 := by
      rw [htext, parseMask_of_single (by intro b hb; cases hb) rfl] at hparse
      exact hparse
    have hlookup : parseHexOrName [] 4 (some e) =
        (e.value []).elim (.error (.unregisteredEnumName [])) .ok := parseHexOrName_of_not_hex rfl 4 (some e)
    rw [hlookup] at hname
    cases hvalue : e.value [] with
    | none =>
      rw [hvalue] at hname
      cases hname
    | some v =>
      rw [hvalue] at hname
      cases hname
      obtain ⟨name, hregistered⟩ := he.name_of_value title hvalue
      rw [hzero] at hregistered
      cases hregistered
  | some name =>
    refine iff_of_true ?_ rfl
    obtain ⟨parts, hflags, htext, hunion⟩ := formatInt_flags htitle he hvalues 0
    have hparts : parts ≠ [] := by
      rintro rfl
      obtain ⟨rest, hrest⟩ := values_eq_zero_cons hzero
      have hname : formatInt 0 (some e) = name := by
        simp only [formatInt, hrest, formatFlags, show (0 : BitVec 32) &&& 0 = 0 from rfl,
          show (0 : BitVec 32) ^^^ 0 = 0 from rfl, if_true, hzero, ne_eq, not_true_eq_false, if_false]
        rfl
      rw [hname] at htext
      exact (he.value_of_name title hzero).2.1.ne_nil htext
    rw [htext, parseMask_joinFlags hflags hparts, hunion]

/-- Mask texts are read back except for these two cases; and so is what XML makes of them. -/
theorem parseMask_formatInt_iff (htitle : KeepsWords title) (i : BitVec 32) {enumMap : Option Enum}
    (h : ∀ e, enumMap = some e → e.Consistent title) :
    (parseMask (formatInt i enumMap) enumMap = .ok i ↔ MaskReadable i enumMap) ∧
    (parseMask (pipesToSpaces (formatInt i enumMap)) enumMap = .ok i ↔ MaskReadable i enumMap) ∧
    (parseMask (spacesToPipes (pipesToSpaces (formatInt i enumMap))) enumMap = .ok i ↔
      MaskReadable i enumMap) := by
  have hplain : parseMask (formatInt i enumMap) enumMap = .ok i ↔ MaskReadable i enumMap := by
    cases enumMap with
    | none => exact parseMask_hexInt_iff i rfl
    | some e =>
      have he := h e rfl
      rw [MaskReadable]
      by_cases hvalues : e.values.length = 0
      · rw [if_pos hvalues, formatInt]
        simp only [if_pos hvalues]
        apply parseMask_hexInt_iff
        rw [Option.bind_some, value_of_no_values he hvalues]
      · rw [if_neg hvalues]
        by_cases hi : i = 0
        · subst hi
          rw [parseMask_formatInt_zero htitle he hvalues]
          simp
        · obtain ⟨parts, hflags, htext, hunion⟩ := formatInt_flags htitle he hvalues i
          have hparts : parts ≠ [] := by
            rintro rfl
            exact hi hunion.symm
          rw [htext, parseMask_joinFlags hflags hparts, hunion]
          exact iff_of_true rfl fun hzero => absurd hzero hi
  rw [parseMask_spacesToPipes, parseMask_pipesToSpaces]
  exact ⟨hplain, hplain, hplain⟩

/-- Values that overlap. -/
def usageHistory : History := [(1, lit "Sign"), (2, lit "Verify"), (3, lit "Both")]

def usageMask : Enum := newBitmask.register id usageHistory

theorem consistent_usageMask : usageMask.Consistent id :=
  ⟨usageHistory, by decide +kernel, Or.inr rfl⟩

theorem parseMask_formatInt_usageMask :
    formatInt 7 (some usageMask) = lit "Sign|Verify|0x00000004" ∧
      parseMask (formatInt 7 (some usageMask)) (some usageMask) = .ok 7 := by
  have hreadable : MaskReadable 7 (some usageMask) := by decide +kernel
  have hconsistent : ∀ e, some usageMask = some e → e.Consistent id := by
    intro e he
    cases he
    exact consistent_usageMask
  exact ⟨by decide +kernel, ((parseMask_formatInt_iff keepsWords_id 7 hconsistent).1).mpr hreadable⟩

/-- The mask 0 has no text over that table, and -1 has a sign without a table. -/
theorem masks_unreadable :
    usageMask.Consistent id ∧
    (formatInt 0 (some usageMask) = [] ∧
      (parseMask (formatInt 0 (some usageMask)) (some usageMask)).toOption = none) ∧
    (formatInt (-1) none = lit "-0x0000001" ∧
      (parseMask (formatInt (-1) none) none).toOption = none) :=
  ⟨consistent_usageMask, by decide +kernel⟩

end

end KmipGo.Reg
