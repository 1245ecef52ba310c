import KmipGo.Registry.Mask

/-! # Hex texts and the numbers they denote

`ParseHexValue` measures a hex value without its leading zeros but returns all
of its bytes; `DecodeUint32`, `DecodeUint64` and `ParseType` then look at the
first four, eight or one of them.  The window shows the number as long as the
bytes are no more than that.

* `parseHexValue_cases` — what `ParseHexValue` makes of a string of hex digits.
* `denotesHex_iff` — a reader with such a window is right about exactly the
  texts that the window shows.
-/

namespace KmipGo.Reg

open KmipGo.Lib KmipGo.Ttlv

/-- `ErrInvalidHexString`. -/
def ParseErr.IsInvalidHex : ParseErr → Prop
  | .invalidHex _ | .hexTooLong _ => True
  | .unregisteredEnumName _ => False

/-- `ParseHexValue` on a string of hex digits. -/
theorem parseHexValue_cases {ds : Bytes} (h : ∀ d ∈ ds, IsHex d) {maxLen : Nat} (hmax : 0 < maxLen) :
    (ds.length % 2 = 1 ∧ parseHexValue (lit "0x" ++ ds) maxLen = .error (.invalidHex ds)) ∨
    (256 ^ maxLen ≤ hexNat ds ∧ parseHexValue (lit "0x" ++ ds) maxLen = .error (.hexTooLong maxLen)) ∨
    (hexNat ds < 256 ^ maxLen ∧ ∃ bs, parseHexValue (lit "0x" ++ ds) maxLen = .ok (some bs) ∧
      2 * bs.length = ds.length ∧ beNat bs = hexNat ds) := by
  rw [parseHexValue, if_pos (hasPrefix_append _ _), List.drop_left' (by decide)]
  by_cases hodd : ds.length % 2 = 1
  · rw [hexDecode_of_odd hodd]
    exact Or.inl ⟨hodd, rfl⟩
  · obtain ⟨bs, hdecode, hlen, hval⟩ := hexDecode_of_even h (by omega)
    have hsize := length_dropWhile_zero_le_iff bs maxLen
    rw [hval] at hsize
    simp only [hdecode]
    by_cases hbig : hexNat ds < 256 ^ maxLen
    · have hfits := hsize.mpr hbig
      rw [if_neg (by omega)]
      exact Or.inr (Or.inr ⟨hbig, bs, rfl, hlen, hval⟩)
    · have htoo : ¬ (bs.dropWhile (· == 0)).length ≤ maxLen := fun hle => hbig (hsize.mp hle)
      rw [if_pos ⟨hmax, by omega⟩]
      exact Or.inr (Or.inl ⟨by omega, rfl⟩)

/-! ## The window -/

/-- The number in the first `w` bytes, after padding. -/
def window (w : Nat) (b : Bytes) : Nat := beNat ((pad b w).take w)

theorem window_eq (w : Nat) (b : Bytes) : window w b = beNat b / 256 ^ (b.length - w) := by
  have hpad : beNat (pad b w) = beNat b := by
    rw [pad, beNat_append, beNat_replicate_zero, Nat.zero_mul, Nat.zero_add]
  have hlen : (pad b w).length - w = b.length - w := by
    rw [pad, List.length_append, List.length_replicate]
    omega
  rw [window, beNat_take, hpad, hlen]

theorem window_eq_iff (w : Nat) (b : Bytes) :
    window w b = beNat b ↔ b.length ≤ w ∨ beNat b = 0 := by
  rw [window_eq]
  by_cases hlen : b.length ≤ w
  · rw [Nat.sub_eq_zero_of_le hlen, pow_zero, Nat.div_one]
    exact iff_of_true rfl (Or.inl hlen)
  · have hpow : 1 < 256 ^ (b.length - w) := Nat.one_lt_pow (by omega) (by omega)
    constructor
    · intro heq
      right
      by_contra hne
      have hlt := Nat.div_lt_self (Nat.pos_of_ne_zero hne) hpow
      omega
    · rintro (hle | hzero)
      · exact absurd hle hlen
      · rw [hzero, Nat.zero_div]

theorem toNat_decodeUint32 (b : Bytes) : (decodeUint32 b).toNat = window 4 b := by
  have hlt := beNat_lt ((pad b 4).take 4)
  have hlen : ((pad b 4).take 4).length = 4 := by
    rw [List.length_take, pad, List.length_append, List.length_replicate]
    omega
  rw [hlen] at hlt
  rw [decodeUint32, BitVec.toNat_ofNat, window, Nat.mod_eq_of_lt (by omega)]

theorem toNat_decodeUint64 (b : Bytes) : (decodeUint64 b).toNat = window 8 b := by
  have hlt := beNat_lt ((pad b 8).take 8)
  have hlen : ((pad b 8).take 8).length = 8 := by
    rw [List.length_take, pad, List.length_append, List.length_replicate]
    omega
  rw [hlen] at hlt
  rw [decodeUint64, BitVec.toNat_ofNat, window, Nat.mod_eq_of_lt (by omega)]

/-! ## Readers of hex numbers -/

/-- What a reader of numbers of at most `maxLen` bytes owes to the digits `ds`: what it accepts is
    the number they denote, and no digits or too large a number is an invalid hex string. -/
structure DenotesHex {ε α : Type} (ds : Bytes) (maxLen : Nat) (r : Except ε α) (num : α → Nat)
    (invalid : ε → Prop) : Prop where
  accepted : ∀ a, r = .ok a → num a = hexNat ds
  refused : ds = [] ∨ 256 ^ maxLen ≤ hexNat ds → ∃ e, r = .error e ∧ invalid e

/-- There are digits, and a window of `w` bytes shows their number if it is not refused. -/
def WindowShows (w maxLen : Nat) (ds : Bytes) : Prop :=
  ds ≠ [] ∧ (ds.length % 2 = 1 ∨ ds.length ≤ 2 * w ∨ hexNat ds = 0 ∨ 256 ^ maxLen ≤ hexNat ds)

instance (w maxLen : Nat) (ds : Bytes) : Decidable (WindowShows w maxLen ds) :=
  inferInstanceAs (Decidable (_ ∧ _))

/-- A reader that passes the errors of `ParseHexValue` on, and the window of its bytes. -/
theorem denotesHex_iff {ε α : Type} {r : Except ε α} {num : α → Nat} {invalid : ε → Prop} {ds : Bytes}
    (h : ∀ d ∈ ds, IsHex d) (w : Nat) {maxLen : Nat} (hmax : 0 < maxLen)
    (hok : ∀ b, parseHexValue (lit "0x" ++ ds) maxLen = .ok (some b) → ∃ a, r = .ok a ∧ num a = window w b)
    (herr : ∀ e, e.IsInvalidHex → parseHexValue (lit "0x" ++ ds) maxLen = .error e →
      ∃ e', r = .error e' ∧ invalid e') :
    DenotesHex ds maxLen r num invalid ↔ WindowShows w maxLen ds := by
  have hrefuses : ∀ e, e.IsInvalidHex → parseHexValue (lit "0x" ++ ds) maxLen = .error e →
      DenotesHex ds maxLen r num invalid := by
    intro e he hparse
    obtain ⟨e', hr, hinv⟩ := herr e he hparse
    refine ⟨fun a ha => ?_, fun _ => ⟨e', hr, hinv⟩⟩
    rw [hr] at ha
    cases ha
  rcases parseHexValue_cases h hmax with ⟨hodd, hparse⟩ | ⟨hbig, hparse⟩ | ⟨hsmall, bs, hparse, hlen, hval⟩
  · refine iff_of_true (hrefuses (.invalidHex ds) trivial hparse) ⟨?_, Or.inl hodd⟩
    rintro rfl
    cases hodd
  · refine iff_of_true (hrefuses (.hexTooLong maxLen) trivial hparse) ⟨?_, Or.inr (Or.inr (Or.inr hbig))⟩
    rintro rfl
    have hpos : 0 < 256 ^ maxLen := Nat.pos_of_neZero _
    exact absurd hbig (Nat.not_le.mpr hpos)
  · obtain ⟨a, hr, hnum⟩ := hok bs hparse
    have hshows := window_eq_iff w bs
    rw [← hnum, hval] at hshows
    constructor
    · intro hden
      refine ⟨?_, ?_⟩
      · intro hnil
        obtain ⟨e, he, -⟩ := hden.refused (Or.inl hnil)
        rw [hr] at he
        cases he
      · rcases hshows.mp (hden.accepted a hr) with hle | hzero
        · exact Or.inr (Or.inl (by omega))
        · exact Or.inr (Or.inr (Or.inl hzero))
    · rintro ⟨hne, hcases⟩
      refine ⟨fun a' ha => ?_, fun hcase => ?_⟩
      · rw [hr] at ha
        cases ha
        apply hshows.mpr
        rcases hcases with hodd | hle | hzero | hbig
        · omega
        · exact Or.inl (by omega)
        · exact Or.inr hzero
        · omega
      · rcases hcase with hnil | hbig
        · exact absurd hnil hne
        · omega

/-! ## The parsers of the registry -/

section

variable {ds : Bytes} (h : ∀ d ∈ ds, IsHex d) (enumMap : Option Enum)

include h

theorem parseHexOrName_denotes_iff {maxLen : Nat} (hmax : 0 < maxLen) :
    DenotesHex ds maxLen (parseHexOrName (lit "0x" ++ ds) maxLen enumMap) BitVec.toNat
      ParseErr.IsInvalidHex ↔ WindowShows 4 maxLen ds := by
  apply denotesHex_iff h 4 hmax
  · intro b hb
    refine ⟨decodeUint32 b, ?_, toNat_decodeUint32 b⟩
    simp only [parseHexOrName, hb]
  · intro e he hparse
    refine ⟨e, ?_, he⟩
    simp only [parseHexOrName, hparse]

theorem parseEnum_denotes_iff :
    DenotesHex ds 4 (parseEnum (lit "0x" ++ ds) enumMap) BitVec.toNat ParseErr.IsInvalidHex ↔
      WindowShows 4 4 ds := by
  rw [parseEnum, parseUint_hex]
  exact parseHexOrName_denotes_iff h enumMap (by omega)

omit h in
theorem wordByte_of_isHex {d : UInt8} (hd : IsHex d) : WordByte d := by
  rw [WordByte, isWordRune_iff]
  rw [IsHex, hexVal] at hd
  split at hd
  · omega
  · split at hd
    · omega
    · split at hd
      · omega
      · cases hd

theorem parseMask_denotes_iff :
    DenotesHex ds 4 (parseMask (lit "0x" ++ ds) enumMap) BitVec.toNat ParseErr.IsInvalidHex ↔
      WindowShows 4 4 ds := by
  have hlit : ∀ b ∈ lit "0x", WordByte b := forall_mem_of_all (by decide)
  have hsingle : Single (lit "0x" ++ ds) := by
    apply single_of_wordBytes
    intro b hb
    rcases List.mem_append.mp hb with hb | hb
    · exact hlit b hb
    · exact wordByte_of_isHex (h b hb)
  have hnum : parseInt 32 (lit "0x" ++ ds) = none := by
    apply parseInt_eq_none_of_mem (b := 120)
    · exact List.mem_append_left _ (by decide)
    · decide
    · decide
    · decide
  rw [parseMask_of_single hsingle hnum]
  exact parseHexOrName_denotes_iff h enumMap (by omega)

theorem parseTag_denotes_iff :
    DenotesHex ds 3 (parseTag (lit "0x" ++ ds) enumMap) BitVec.toNat ParseErr.IsInvalidHex ↔
      WindowShows 4 3 ds :=
  parseHexOrName_denotes_iff h enumMap (by omega)

end

/-! ## Types -/

/-- What a reader of types owes to a text: it does not index outside its bytes; the type it makes of
    hex digits is the number they denote, and no digits or a number above one byte is refused. -/
structure TypeExact {ε : Type} (s : GoString) (r : Res ε UInt8) : Prop where
  no_panic : r ≠ .panic
  accepted : ∀ ds, s = lit "0x" ++ ds → (∀ d ∈ ds, IsHex d) → ∀ t, r = .ok t → t.toNat = hexNat ds
  refused : ∀ ds, s = lit "0x" ++ ds → (∀ d ∈ ds, IsHex d) → ds = [] ∨ 256 ≤ hexNat ds →
    ∃ e, r = .err e

/-- If the text is a string of hex digits, a window of one byte shows their number. -/
def TypeText (s : GoString) : Prop :=
  ∀ ds, s = lit "0x" ++ ds → (∀ d ∈ ds, IsHex d) → WindowShows 1 1 ds

/-- `ParseType` on a string of hex digits. -/
theorem parseType_hex {ds : Bytes} (h : ∀ d ∈ ds, IsHex d) (enumMap : Option Enum) :
    ((ds.length % 2 = 1 ∨ 256 ≤ hexNat ds) ∧ ∃ e, parseType (lit "0x" ++ ds) enumMap = .err e) ∨
    (ds = [] ∧ parseType (lit "0x" ++ ds) enumMap = .panic) ∨
    (ds ≠ [] ∧ ds.length % 2 = 0 ∧ hexNat ds < 256 ∧
      ∃ t, parseType (lit "0x" ++ ds) enumMap = .ok t ∧
        (t.toNat = hexNat ds ↔ ds.length ≤ 2 ∨ hexNat ds = 0)) := by
  rcases parseHexValue_cases h Nat.one_pos with
    ⟨hodd, hparse⟩ | ⟨hbig, hparse⟩ | ⟨hsmall, bs, hparse, hlen, hval⟩
  · refine Or.inl ⟨Or.inl hodd, .invalidHex ds, ?_⟩
    simp only [parseType, hparse]
  · refine Or.inl ⟨Or.inr (by omega), .hexTooLong 1, ?_⟩
    simp only [parseType, hparse]
  · cases bs with
    | nil =>
      have hnil : ds = [] := List.length_eq_zero_iff.mp (by simpa using hlen.symm)
      refine Or.inr (Or.inl ⟨hnil, ?_⟩)
      simp only [parseType, hparse]
      rfl
    | cons b bs =>
      have hshows := window_eq_iff 1 (b :: bs)
      have hwindow : window 1 (b :: bs) = b.toNat := by simp [window, pad, beNat]
      rw [hwindow, hval] at hshows
      rw [List.length_cons] at hlen hshows
      refine Or.inr (Or.inr ⟨?_, by omega, by omega, b, ?_, ?_⟩)
      · rintro rfl
        rw [List.length_nil] at hlen
        omega
      · simp only [parseType, hparse]
        rfl
      · rw [hshows]
        exact or_congr (by omega) Iff.rfl

theorem hexDecode_eq_nil {ds : Bytes} (h : hexDecode ds = some []) : ds = [] := by
  fun_cases hexDecode ds with
  | case1 => rfl
  | case2 b =>
    rw [hexDecode] at h
    cases h
  | case3 a b rest x y bs hbs hy hx =>
    simp only [hexDecode, hx, hy, hbs] at h
    cases h
  | case4 a b rest hnone =>
    rw [hexDecode] at h
    split at h
    · cases h
    · cases h

/-- `ParseType` indexes outside its bytes on one text only. -/
theorem eq_of_parseType_panic {s : GoString} {enumMap : Option Enum} (h : parseType s enumMap = .panic) :
    s = lit "0x" := by
  cases hparse : parseHexValue s 1 with
  | error e =>
    simp only [parseType, hparse] at h
    cases h
  | ok o =>
    cases o with
    | none =>
      simp only [parseType, hparse] at h
      split at h <;> cases h
    | some b =>
      cases b with
      | cons x xs =>
        simp only [parseType, hparse] at h
        cases h
      | nil =>
        rw [parseHexValue] at hparse
        split at hparse
        · rename_i hprefix
          obtain ⟨ds, rfl⟩ := List.isPrefixOf_iff_prefix.mp hprefix
          rw [List.drop_left' (by decide)] at hparse
          cases hdecode : hexDecode ds with
          | none =>
            rw [hdecode] at hparse
            cases hparse
          | some bs =>
            simp only [hdecode] at hparse
            split at hparse
            · cases hparse
            · cases hparse
              rw [hexDecode_eq_nil hdecode, List.append_nil]
        · cases hparse

/-- `ParseType` is right about a text iff its window of one byte shows the number. -/
theorem parseType_exact_iff (s : GoString) (enumMap : Option Enum) :
    TypeExact s (parseType s enumMap) ↔ TypeText s := by
  constructor
  · intro hexact ds hs hds
    have hread := parseType_hex hds enumMap
    rw [← hs] at hread
    rcases hread with ⟨hcase, -⟩ | ⟨-, hpanic⟩ | ⟨hne, heven, -, t, hok, hiff⟩
    · refine ⟨?_, ?_⟩
      · rintro rfl
        rcases hcase with hodd | hbig
        · cases hodd
        · exact absurd hbig (by decide)
      · exact hcase.elim Or.inl fun hbig => Or.inr (Or.inr (Or.inr hbig))
    · exact absurd hpanic hexact.no_panic
    · refine ⟨hne, Or.inr ?_⟩
      exact (hiff.mp (hexact.accepted ds hs hds t hok)).imp id Or.inl
  · intro htext
    refine ⟨?_, ?_, ?_⟩
    · intro hpanic
      have hs := eq_of_parseType_panic hpanic
      exact (htext [] (by rw [hs, List.append_nil]) (by simp)).1 rfl
    · rintro ds rfl hds t hok
      obtain ⟨hne, hshows⟩ := htext ds rfl hds
      rcases parseType_hex hds enumMap with ⟨-, e, herr⟩ | ⟨-, hpanic⟩ | ⟨-, heven, hsmall, t', hok', hiff⟩
      · rw [herr] at hok
        cases hok
      · rw [hpanic] at hok
        cases hok
      · rw [hok'] at hok
        cases hok
        apply hiff.mpr
        rcases hshows with hodd | hle | hzero | hbig
        · omega
        · exact Or.inl hle
        · exact Or.inr hzero
        · omega
    · rintro ds rfl hds hcase
      obtain ⟨hne, -⟩ := htext ds rfl hds
      rcases parseType_hex hds enumMap with ⟨-, herr⟩ | ⟨hnil, -⟩ | ⟨-, -, hsmall, -⟩
      · exact herr
      · exact absurd hnil hne
      · rcases hcase with hnil | hbig
        · exact absurd hnil hne
        · omega

/-! ## Types as they are written -/

/-- Different values never share a name, and no name starts as a hex value does. -/
structure History.TypeNames (title : Bytes → Bytes) (hist : History) : Prop where
  distinct : ∀ r ∈ hist, ∀ s ∈ hist, normalizeName title r.2 = normalizeName title s.2 → r.1 = s.1
  not_hex : ∀ r ∈ hist, hasPrefix (normalizeName title r.2) (lit "0x") = false

/-- A type table: none, or one built by registering names. -/
def IsTypeTable (title : Bytes → Bytes) (enumMap : Option Enum) : Prop :=
  ∀ e, enumMap = some e → ∃ hist : History, hist.TypeNames title ∧
    (e = newEnum.register title hist ∨ e = newBitmask.register title hist)

theorem parseType_formatType {title : Bytes → Bytes} {enumMap : Option Enum}
    (h : IsTypeTable title enumMap) (t : UInt8) : parseType (formatType t enumMap) enumMap = .ok t := by
  have ht := t.toNat_lt
  rw [formatType, formatOr]
  cases hname : enumMap.bind fun e => e.name (BitVec.ofNat 32 t.toNat) with
  | none =>
    have hread : parseHexValue (lit "0x" ++ hexPad (2 * 1) t.toNat) 1 = .ok (some (beBytes 1 t.toNat)) :=
      parseHexValue_hex (by omega) (Nat.le_refl 1)
    have htoNat : (BitVec.ofNat 32 t.toNat).toNat = t.toNat := by
      rw [BitVec.toNat_ofNat]
      omega
    simp only [htoNat]
    rw [show (2 : Nat) = 2 * 1 from rfl, parseType, hread]
    simp [beBytes, Res.ofOption]
  | some s =>
    rw [Option.bind_eq_some_iff] at hname
    obtain ⟨e, rfl, hname⟩ := hname
    obtain ⟨hist, hnames, he⟩ := h e rfl
    obtain ⟨e₀, rfl, hempty, -⟩ := exists_empty_table title he
    obtain ⟨r, hr, hval, hs⟩ := name_register title hempty hname
    have hvalue := nameToValue_register title e₀ hnames.distinct r hr
    have hhex : parseHexValue s 1 = .ok none := by
      rw [parseHexValue, ← hs, hnames.not_hex r hr]
      rfl
    rw [hs, hval] at hvalue
    have htoNat : (BitVec.ofNat 32 t.toNat).toNat = t.toNat := by
      rw [BitVec.toNat_ofNat]
      omega
    simp only [parseType, hhex, Option.bind_some, Enum.value, hvalue, htoNat, UInt8.ofNat_toNat]

end KmipGo.Reg
