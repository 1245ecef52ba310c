import KmipGo.Json.Decode
import KmipGo.Registry.Hex
import KmipGo.Ttlv.Instant
import KmipGo.Xml.Decode

/-! # Numbers in text

Numbers reach the package as hex text from several sides: the parsers of tags,
types, enumerations and masks, the branches of `unmarshalJSON`, the hex numerals
of BigIntegers in JSON and XML, and the specification files of `kmipgen`.

* `hex_denotes_iff` — which hex texts the readers of numbers are right about.
* `type_text_iff` — which texts the readers of types are right about.
* `bigInteger_exact` — BigIntegers are coded in exact two's complement.
-/

namespace KmipGo.Text

open KmipGo.Lib KmipGo.Ttlv KmipGo.Reg

/-! ## The numbers of `kmipgen` -/

inductive GenErr where
  | hex (e : ParseErr)
  /-- an error of `strconv.ParseUint`, "invalid integer value" -/
  | invalidInteger (text : GoString)
  | message (text : GoString)

/-- `parseUint32` of `cmd/kmipgen/main.go`, on a value of the specification file. -/
def parseUint32 : Json → Except GenErr (BitVec 32)
  | .string n =>
    match parseHexValue n 4 with
    | .error e => .error (.hex e)
    | .ok (some b) => .ok (decodeUint32 b)
    | .ok none =>
      match parseUint 32 n with
      | some i => .ok (BitVec.ofNat 32 i)
      | none => .error (.invalidInteger n)
  | .number q => .ok (JsonForm.floatToUint32 q)
  | _ => .error (.message (lit "value must be a number, or a hex string, like 0x42015E"))

/-! ## Hex numbers -/

def GenErr.IsInvalidHex : GenErr → Prop
  | .hex e => e.IsInvalidHex
  | _ => False

def JsonIsInvalidHex : JsonForm.JsonErr → Prop
  | .parse e => e.IsInvalidHex
  | _ => False

/-- The number in the value bytes of an item. -/
def itemNumber (p : Prim) : Nat :=
  match p.content with
  | some (_, value) => beNat value
  | none => 0

/-- The eight bytes of a number that was read from `b`. -/
theorem beNat_decodeUint64 (b : Bytes) : beNat (beBytes 8 (decodeUint64 b).toNat) = window 8 b := by
  have hlt := (decodeUint64 b).isLt
  rw [beNat_beBytes_of_lt (by omega), toNat_decodeUint64]

section

variable {ds : Bytes} (h : ∀ d ∈ ds, IsHex d) (reg : Registry) (T : TimeCodec) (tag attrTag : Tag)

include h

theorem parseUint32_denotes_iff :
    DenotesHex ds 4 (parseUint32 (.string (lit "0x" ++ ds))) BitVec.toNat GenErr.IsInvalidHex ↔
      WindowShows 4 4 ds := by
  apply denotesHex_iff h 4 (by omega)
  · intro b hb
    refine ⟨decodeUint32 b, ?_, toNat_decodeUint32 b⟩
    simp only [parseUint32, hb]
  · intro e he hparse
    refine ⟨.hex e, ?_, he⟩
    simp only [parseUint32, hparse]

theorem interval_denotes_iff :
    DenotesHex ds 4 (JsonForm.decodeLeaf reg T tag attrTag .Interval (.string (lit "0x" ++ ds)))
      itemNumber JsonIsInvalidHex ↔ WindowShows 4 4 ds := by
  apply denotesHex_iff h 4 (by omega)
  · intro b hb
    refine ⟨.interval ((decodeUint32 b).setWidth 64 * 1000000000), ?_, ?_⟩
    · simp only [JsonForm.decodeLeaf, JsonForm.hexValue, hb]
      rfl
    · have hlt := (decodeUint32 b).isLt
      show beNat (beBytes 4 (intervalSeconds _).toNat) = _
      rw [intervalSeconds_of_seconds, beNat_beBytes_of_lt (by omega), toNat_decodeUint32]
  · intro e he hparse
    refine ⟨.parse e, ?_, he⟩
    simp only [JsonForm.decodeLeaf, JsonForm.hexValue, hparse]
    rfl

theorem longInteger_denotes_iff :
    DenotesHex ds 8 (JsonForm.decodeLeaf reg T tag attrTag .LongInteger (.string (lit "0x" ++ ds)))
      itemNumber JsonIsInvalidHex ↔ WindowShows 8 8 ds := by
  apply denotesHex_iff h 8 (by omega)
  · intro b hb
    refine ⟨.longInteger (decodeUint64 b), ?_, ?_⟩
    · simp only [JsonForm.decodeLeaf, JsonForm.hexValue, hb]
      rfl
    · exact beNat_decodeUint64 b
  · intro e he hparse
    refine ⟨.parse e, ?_, he⟩
    simp only [JsonForm.decodeLeaf, JsonForm.hexValue, hparse]
    rfl

theorem dateTime_denotes_iff :
    DenotesHex ds 8 (JsonForm.decodeLeaf reg T tag attrTag .DateTime (.string (lit "0x" ++ ds)))
      itemNumber JsonIsInvalidHex ↔ WindowShows 8 8 ds := by
  apply denotesHex_iff h 8 (by omega)
  · intro b hb
    refine ⟨.dateTime (Time.ofUnix (decodeUint64 b)), ?_, ?_⟩
    · simp only [JsonForm.decodeLeaf, JsonForm.decodeTime, hb]
      rfl
    · exact beNat_decodeUint64 b
  · intro e he hparse
    refine ⟨.parse e, ?_, he⟩
    simp only [JsonForm.decodeLeaf, JsonForm.decodeTime, hparse]
    rfl

end

/-- The count of a DateTimeExtended is added to January 1, year 1, and not to the epoch. -/
theorem micros_addDuration_ne (u : BitVec 64) :
    (JsonForm.addDuration JsonForm.zeroTime (u * 1000)).micros ≠ u := by
  obtain ⟨k, hk⟩ := toInt_mul_thousand u
  have hlt := (u * 1000).toInt_lt
  have hle := (u * 1000).le_toInt
  generalize hx : (u * 1000).toInt = x at hk hlt hle
  have hsec : (JsonForm.zeroTime.unix + BitVec.ofInt 64 (x / 1000000000)).toInt =
      -62135596800 + x / 1000000000 := by
    rw [JsonForm.zeroTime, ← BitVec.ofInt_add]
    exact toInt_ofInt_of_range (by omega) (by omega)
  have hnanos : (JsonForm.addDuration JsonForm.zeroTime (u * 1000)).nanos =
      -62135596800 * 1000000000 + x := by
    have hzero : ((JsonForm.zeroTime.nanosecond.val : Nat) : Int) = 0 := rfl
    simp only [Time.nanos, JsonForm.addDuration, hx, hzero, zero_add, hsec, Time.val_ofNat_emod]
    omega
  intro hsame
  have hcount := congrArg BitVec.toInt hsame
  rw [Time.micros_eq, toInt_ofInt_of_range, Time.wholeMicros, hnanos] at hcount
  · omega
  · rw [Time.wholeMicros, hnanos]
    omega
  · rw [Time.wholeMicros, hnanos]
    omega

/-- The reader of a DateTimeExtended is wrong about every number its window shows. -/
theorem dateTimeExtended_not_denotes {ds : Bytes} (h : ∀ d ∈ ds, IsHex d) (reg : Registry)
    (T : TimeCodec) (tag attrTag : Tag) (heven : ds.length % 2 = 0) (hsmall : hexNat ds < 256 ^ 8)
    (hshows : WindowShows 8 8 ds) :
    ¬ DenotesHex ds 8 (JsonForm.decodeLeaf reg T tag attrTag .DateTimeExtended (.string (lit "0x" ++ ds)))
      itemNumber JsonIsInvalidHex := by
  rcases parseHexValue_cases h (show 0 < 8 by omega) with ⟨hodd, -⟩ | ⟨hbig, -⟩ | ⟨-, bs, hparse, hlen, hval⟩
  · omega
  · omega
  · intro hden
    have hleaf : JsonForm.decodeLeaf reg T tag attrTag .DateTimeExtended (.string (lit "0x" ++ ds)) =
        .ok (.dateTimeExtended (JsonForm.addDuration JsonForm.zeroTime (decodeUint64 bs * 1000))) := by
      simp only [JsonForm.decodeLeaf, JsonForm.decodeTime, hparse]
      rfl
    have hwindow : (decodeUint64 bs).toNat = hexNat ds := by
      rw [toNat_decodeUint64, ← hval]
      apply (window_eq_iff 8 bs).mpr
      rcases hshows.2 with hodd | hle | hzero | hbig
      · omega
      · exact Or.inl (by omega)
      · exact Or.inr (hval.trans hzero)
      · omega
    have hnumber := hden.accepted _ hleaf
    apply micros_addDuration_ne (decodeUint64 bs)
    apply BitVec.eq_of_toNat_eq
    generalize JsonForm.addDuration JsonForm.zeroTime (decodeUint64 bs * 1000) = t at hnumber
    have hlt := t.micros.isLt
    have hitem : itemNumber (.dateTimeExtended t) = t.micros.toNat :=
      beNat_beBytes_of_lt (by omega)
    rw [hwindow, ← hnumber, hitem]

/-- Each reader of a hex text is right about the digits iff there are some and its window of bytes shows
    their number; what is added to year 1 is never the number. -/
theorem hex_denotes_iff {ds : Bytes} (h : ∀ d ∈ ds, IsHex d) (enumMap : Option Enum) (reg : Registry)
    (T : TimeCodec) (tag attrTag : Tag) :
    (DenotesHex ds 4 (parseEnum (lit "0x" ++ ds) enumMap) BitVec.toNat ParseErr.IsInvalidHex ↔
      WindowShows 4 4 ds) ∧
    (DenotesHex ds 4 (parseMask (lit "0x" ++ ds) enumMap) BitVec.toNat ParseErr.IsInvalidHex ↔
      WindowShows 4 4 ds) ∧
    (DenotesHex ds 3 (parseTag (lit "0x" ++ ds) enumMap) BitVec.toNat ParseErr.IsInvalidHex ↔
      WindowShows 4 3 ds) ∧
    (DenotesHex ds 4 (parseUint32 (.string (lit "0x" ++ ds))) BitVec.toNat GenErr.IsInvalidHex ↔
      WindowShows 4 4 ds) ∧
    (DenotesHex ds 4 (JsonForm.decodeLeaf reg T tag attrTag .Interval (.string (lit "0x" ++ ds)))
      itemNumber JsonIsInvalidHex ↔ WindowShows 4 4 ds) ∧
    (DenotesHex ds 8 (JsonForm.decodeLeaf reg T tag attrTag .LongInteger (.string (lit "0x" ++ ds)))
      itemNumber JsonIsInvalidHex ↔ WindowShows 8 8 ds) ∧
    (DenotesHex ds 8 (JsonForm.decodeLeaf reg T tag attrTag .DateTime (.string (lit "0x" ++ ds)))
      itemNumber JsonIsInvalidHex ↔ WindowShows 8 8 ds) ∧
    (ds.length % 2 = 0 → hexNat ds < 256 ^ 8 → WindowShows 8 8 ds →
      ¬ DenotesHex ds 8
        (JsonForm.decodeLeaf reg T tag attrTag .DateTimeExtended (.string (lit "0x" ++ ds)))
        itemNumber JsonIsInvalidHex) := by
  refine ⟨parseEnum_denotes_iff h enumMap, parseMask_denotes_iff h enumMap, parseTag_denotes_iff h enumMap,
    parseUint32_denotes_iff h, interval_denotes_iff h reg T tag attrTag,
    longInteger_denotes_iff h reg T tag attrTag, dateTime_denotes_iff h reg T tag attrTag, ?_⟩
  intro heven hsmall hshows
  exact dateTimeExtended_not_denotes h reg T tag attrTag heven hsmall hshows

/-- A library that formats no instant; hex values do not use it. -/
def noTimes : TimeCodec := ⟨fun _ => [], fun _ => none⟩

theorem hex_denotes_objectType :
    WindowShows 4 4 (lit "0000001f") ∧
      DenotesHex (lit "0000001f") 4 (parseEnum (lit "0x" ++ lit "0000001f") none) BitVec.toNat
        ParseErr.IsInvalidHex := by
  have hshows : WindowShows 4 4 (lit "0000001f") := by decide +kernel
  exact ⟨hshows, ((hex_denotes_iff (forall_mem_of_all (by decide +kernel)) none Registry.empty noTimes 0 0).1).mpr
    hshows⟩

/-- The number 1 with more zeros in front than the window has room for, and no digits at all. -/
theorem hex_misread :
    (hexNat (lit "000000000001") = 1 ∧
      (parseEnum (lit "0x000000000001") none).toOption = some 0 ∧
      (parseMask (lit "0x000000000001") none).toOption = some 0 ∧
      (parseTag (lit "0x000000000001") none).toOption = some 0 ∧
      (parseUint32 (.string (lit "0x000000000001"))).toOption = some 0) ∧
    (parseEnum (lit "0x") none).toOption = some 0 ∧
    (parseTag (lit "0x") none).toOption = some 0 ∧
    (parseUint32 (.string (lit "0x"))).toOption = some 0 := by
  decide +kernel

/-! ## Types -/

/-- The second reader passes on what the first one returns, with errors of its own. -/
inductive Passes {ε ε' : Type} : Res ε UInt8 → Res ε' UInt8 → Prop
  | ok (t : UInt8) : Passes (.ok t) (.ok t)
  | err (e : ε) (e' : ε') : Passes (.err e) (.err e')
  | panic : Passes .panic .panic

theorem Passes.typeExact {ε ε' : Type} {r : Res ε UInt8} {r' : Res ε' UInt8} {s : GoString}
    (h : Passes r r') (hexact : TypeExact s r) : TypeExact s r' := by
  cases h with
  | ok t =>
    refine ⟨nofun, ?_, ?_⟩
    · intro ds hs hds u hu
      cases hu
      exact hexact.accepted ds hs hds t rfl
    · intro ds hs hds hcase
      obtain ⟨e, he⟩ := hexact.refused ds hs hds hcase
      cases he
  | err e e' => exact ⟨nofun, nofun, fun _ _ _ _ => ⟨e', rfl⟩⟩
  | panic => exact absurd rfl hexact.no_panic

theorem Passes.symm {ε ε' : Type} {r : Res ε UInt8} {r' : Res ε' UInt8} (h : Passes r r') :
    Passes r' r := by
  cases h with
  | ok t => exact .ok t
  | err e e' => exact .err e' e
  | panic => exact .panic

theorem typeExact_absent {ε : Type} (t : UInt8) : TypeExact [] (.ok t : Res ε UInt8) :=
  ⟨nofun, nofun, nofun⟩

theorem typeText_nil : TypeText [] := nofun

section

variable (reg : Registry)

/-- A decoder takes Structure where the text is absent, and asks `ParseType` otherwise. -/
theorem typeExact_iff_of_passes {ε : Type} {s : GoString} {r : Res ε UInt8} {t : UInt8}
    (habsent : s = [] → r = .ok t) (hpass : s ≠ [] → Passes (reg.parseType s) r) :
    TypeExact s r ↔ TypeText s := by
  by_cases hs : s = []
  · rw [habsent hs, hs]
    exact iff_of_true (typeExact_absent t) typeText_nil
  · rw [← parseType_exact_iff s (some reg.types)]
    exact ⟨(hpass hs).symm.typeExact, (hpass hs).typeExact⟩

theorem decodeType_exact_iff (s : GoString) : TypeExact s (JsonForm.decodeType reg s) ↔ TypeText s := by
  refine typeExact_iff_of_passes reg (fun hs => if_pos hs) fun hs => ?_
  rw [JsonForm.decodeType, if_neg hs]
  cases reg.parseType s with
  | ok t => exact .ok t
  | err e => exact .err e _
  | panic => exact .panic

theorem elementType_exact_iff (s : GoString) : TypeExact s (XmlForm.elementType reg s) ↔ TypeText s := by
  refine typeExact_iff_of_passes reg (fun hs => if_pos hs) fun hs => ?_
  rw [XmlForm.elementType, if_neg hs]
  cases reg.parseType s with
  | ok t => exact .ok t
  | err e => exact .err e _
  | panic => exact .panic

/-- `ParseType`, and the decoders that call it with an attribute, are total and exact on the texts whose
    window of one byte shows the number, and on no others; what `FormatType` writes is read back. -/
theorem type_text_iff (title : Bytes → Bytes) :
    (∀ s enumMap, TypeExact s (parseType s enumMap) ↔ TypeText s) ∧
    (∀ s, TypeExact s (JsonForm.decodeType reg s) ↔ TypeText s) ∧
    (∀ s, TypeExact s (XmlForm.elementType reg s) ↔ TypeText s) ∧
    (∀ enumMap, IsTypeTable title enumMap → ∀ t, parseType (formatType t enumMap) enumMap = .ok t) :=
  ⟨parseType_exact_iff, decodeType_exact_iff reg, elementType_exact_iff reg,
    fun _ h t => parseType_formatType h t⟩

theorem type_text_standard :
    IsTypeTable id (some (newEnum.register id typeHistory)) ∧
      parseType (formatType 7 (some (newEnum.register id typeHistory)))
        (some (newEnum.register id typeHistory)) = .ok 7 := by
  have htable : IsTypeTable id (some (newEnum.register id typeHistory)) := by
    intro e he
    cases he
    exact ⟨typeHistory, ⟨by decide +kernel, by decide +kernel⟩, Or.inl rfl⟩
  exact ⟨htable, (type_text_iff Registry.empty id).2.2.2 _ htable 7⟩

/-- A document whose type indexes outside its bytes. -/
theorem decodeJSON_panics (title : Bytes → Bytes) (T : TimeCodec) (attrTag : Tag) {j : Json}
    {tv : JsonForm.Tval} (htv : JsonForm.decodeTval j = some tv) {tag : Tag}
    (htag : reg.parseTag tv.tag = .ok tag) (htype : JsonForm.decodeType reg tv.type = .panic) :
    JsonForm.decodeJSON reg title T attrTag j = .panic := by
  rw [JsonForm.decodeJSON]
  split
  · rename_i hnone
    rw [htv] at hnone
    cases hnone
  · rename_i tv' hsome
    rw [htv] at hsome
    cases hsome
    simp only [htag, htype]

/-- The text without digits: both decoders stop with a panic, and two zeros hide a type. -/
theorem type_text_panics :
    parseType (lit "0x") none = .panic ∧ parseType (lit "0x0007") none = .ok 0 ∧
      JsonForm.decodeJSON Registry.empty id noTimes tagNone
        (.object [(lit "tag", .string (lit "0x420001")), (lit "type", .string (lit "0x")),
          (lit "value", .string (lit "a"))]) = .panic ∧
      XmlForm.unmarshalXMLTval Registry.empty id noTimes [] tagNone
        (.element (lit "TTLV") [(lit "tag", lit "0x420001"), (lit "type", lit "0x"), (lit "value", lit "a")]
          []) = .panic := by
  refine ⟨by decide +kernel, by decide +kernel, ?_, ?_⟩
  · have htv : JsonForm.decodeTval (.object [(lit "tag", .string (lit "0x420001")),
        (lit "type", .string (lit "0x")), (lit "value", .string (lit "a"))]) =
        some ⟨lit "0x420001", lit "0x", some (.string (lit "a"))⟩ := by rfl
    have htag : Registry.empty.parseTag (lit "0x420001") = .ok 0x420001 :=
      eq_ok_of_toOption (by decide +kernel)
    exact decodeJSON_panics Registry.empty id noTimes tagNone htv htag (by decide +kernel)
  · decide +kernel

end

/-! ## BigIntegers -/

theorem fitsTwos_zero (w : Nat) : FitsTwos w 0 := by
  have hpos : (0 : Int) < 256 ^ w := by positivity
  constructor <;> omega

/-- A BigInteger item is read back iff the length field has room for its length. -/
theorem valueBigInteger_encodeBigInt_iff (tag : Tag) (n : Int) :
    TTLV.valueBigInteger (EncBuf.encodeBigInt [] tag (some n)) = n ↔ (bigIntValue n).length < 2 ^ 32 := by
  have hshort := shortest8_bigIntValue n
  have hvalue := twosValue_bigIntValue n
  have hread : TTLV.valueBigInteger (EncBuf.encodeBigInt [] tag (some n)) =
      twosValue ((bigIntValue n).take ((bigIntValue n).length % 2 ^ 32)) := by
    rw [EncBuf.encodeBigInt, EncBuf.write_eq, List.nil_append, TTLV.valueBigInteger, raw_item_mod,
      valueBigInteger_eq]
  rw [hread]
  generalize bigIntValue n = d at hshort hvalue
  by_cases hlen : d.length < 2 ^ 32
  · rw [Nat.mod_eq_of_lt hlen, List.take_length, hvalue]
    exact iff_of_true rfl hlen
  · refine iff_of_false ?_ hlen
    intro hsame
    -- the bytes that are read would be a form of the number that is far too short
    have hfits : FitsTwos (d.length - 8) (twosValue d) := by
      rw [hvalue, ← hsame]
      by_cases hnil : d.take (d.length % 2 ^ 32) = []
      · rw [hnil]
        exact fitsTwos_zero _
      · apply (fitsTwos_twosValue hnil).mono
        rw [List.length_take]
        omega
    exact hshort.least (by omega) hfits

theorem not_hasPrefix_of_hexDecode {s : GoString} {d : Bytes} (h : hexDecode s = some d) :
    hasPrefix s (lit "0x") = false := by
  cases hprefix : hasPrefix s (lit "0x") with
  | false => rfl
  | true =>
    obtain ⟨rest, rfl⟩ := List.isPrefixOf_iff_prefix.mp hprefix
    have hlit : lit "0x" = [48, 120] := by decide
    have hx : hexVal 120 = none := by decide
    rw [hlit, List.cons_append, List.cons_append, hexDecode, hx] at h
    split at h <;> simp_all

/-- The written value is the shortest of a positive multiple of eight bytes; it is read back where the
    length field can hold its length.  A numeral of groups of eight bytes is read as the number it
    denotes, in binary, JSON and XML, and written again without its redundant groups. -/
theorem bigInteger_exact (reg : Registry) (T : TimeCodec) (tag attrTag : Tag) :
    (∀ (h : EncBuf) (n : Int),
      EncBuf.encodeBigInt h tag (some n) = h ++ item tag .BigInteger (bigIntValue n) ∧
      8 ∣ (bigIntValue n).length ∧ 0 < (bigIntValue n).length ∧
      FitsTwos (bigIntValue n).length n ∧
      (∀ w, 8 ∣ w → 0 < w → FitsTwos w n → (bigIntValue n).length ≤ w) ∧
      (TTLV.valueBigInteger (EncBuf.encodeBigInt [] tag (some n)) = n ↔
        (bigIntValue n).length < 2 ^ 32)) ∧
    ∀ d : Bytes, 8 ∣ d.length →
      unmarshalBigInt d = unmarshalBigInt (unpadBigInt d) ∧
      unmarshalBigInt d = twosValue d ∧ (d = [] → unmarshalBigInt d = 0) ∧
      bigIntValue (unmarshalBigInt d) = (if d = [] then List.replicate 8 0 else stripSignGroups d) ∧
      (∀ t : TTLV, t.raw = d → t.valueBigInteger = unmarshalBigInt d) ∧
      ∀ s, hexDecode s = some d →
        XmlForm.parseValue reg T tag attrTag s .BigInteger = .ok (.bigInteger (some (unmarshalBigInt d))) ∧
        JsonForm.decodeLeaf reg T tag attrTag .BigInteger (.string (lit "0x" ++ s)) =
          .ok (.bigInteger (some (unmarshalBigInt d))) := by
  constructor
  · intro h n
    have hshort := shortest8_bigIntValue n
    have hfits := fitsTwos_twosValue (List.length_pos_iff.mp hshort.pos)
    rw [twosValue_bigIntValue] at hfits
    exact ⟨EncBuf.write_eq h tag .BigInteger (bigIntValue n), hshort.dvd, hshort.pos, hfits,
      fun w hdvd hw hw' => length_bigIntValue_le hdvd hw hw', valueBigInteger_encodeBigInt_iff tag n⟩
  · intro d hdvd
    have hunpad : unmarshalBigInt (unpadBigInt d) = unmarshalBigInt d := by
      rw [valueBigInteger_eq, unmarshalBigInt_eq]
    have hlen : ¬ d.length % 8 ≠ 0 := by
      obtain ⟨k, hk⟩ := hdvd
      omega
    refine ⟨hunpad.symm, unmarshalBigInt_eq d, ?_, bigIntValue_unmarshalBigInt hdvd, ?_, ?_⟩
    · rintro rfl
      rfl
    · rintro t rfl
      exact hunpad
    · intro s hs
      have hplain := not_hasPrefix_of_hexDecode hs
      constructor
      · simp only [XmlForm.parseValue, hplain, hs, if_neg hlen, Bool.false_eq_true, if_false]
      · simp only [JsonForm.decodeLeaf, hasPrefix_append, List.drop_left' (show (lit "0x").length = 2 by decide),
          hs, if_neg hlen, hunpad, Bool.not_true, Bool.false_eq_true, if_false]

theorem bigInteger_exact_minusOne :
    TTLV.valueBigInteger (EncBuf.encodeBigInt [] 0x420001 (some (-1))) = -1 ∧
      bigIntValue (unmarshalBigInt (List.replicate 16 0xff)) = stripSignGroups (List.replicate 16 0xff) := by
  obtain ⟨hwrite, hread⟩ := bigInteger_exact Registry.empty noTimes 0x420001 tagNone
  have hlen : (bigIntValue (-1)).length < 2 ^ 32 := by decide +kernel
  obtain ⟨-, -, -, hagain, -⟩ := hread (List.replicate 16 0xff) (by decide)
  exact ⟨(hwrite [] (-1)).2.2.2.2.2.mpr hlen, hagain⟩

/-- There is no room for the sign of `256 ^ w`. -/
theorem not_fitsTwos (w : Nat) : ¬ FitsTwos w (256 ^ w) := by
  intro hfits
  have hpos : (0 : Int) < 256 ^ w := by positivity
  have hlt := hfits.2
  omega

theorem bigInteger_wraps {n : Int} (hn : ¬ FitsTwos (2 ^ 32) n) :
    TTLV.valueBigInteger (EncBuf.encodeBigInt [] 0x420001 (some n)) ≠ n := by
  intro hsame
  have hlen := (valueBigInteger_encodeBigInt_iff 0x420001 n).mp hsame
  have hfits := fitsTwos_twosValue (List.length_pos_iff.mp (shortest8_bigIntValue n).pos)
  rw [twosValue_bigIntValue] at hfits
  exact hn (hfits.mono (Nat.le_of_lt hlen))

/-- Numbers of `2 ^ 32` bytes and more do not survive: the length field wraps. -/
theorem bigInteger_unreadable :
    TTLV.valueBigInteger (EncBuf.encodeBigInt [] 0x420001 (some (256 ^ 2 ^ 32))) ≠ 256 ^ 2 ^ 32 :=
  bigInteger_wraps (not_fitsTwos (2 ^ 32))

end KmipGo.Text
