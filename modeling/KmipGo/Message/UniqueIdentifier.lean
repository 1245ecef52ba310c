import KmipGo.Text.Print
import KmipGo.Text.Leaf

/-! # UniqueIdentifierValue

The union of `kmip20/unique_identifier.go`: a text, an enumeration value or an
index.  `MarshalTTLV` writes the first of the three that is set.  `UnmarshalTTLV`
goes by the type on the wire, and takes a text from `TTLV.String`, which is the
line that `Print` writes for the item and not its value.

* `uniqueIdentifier_roundTrip_iff` — which values come back.
-/

namespace KmipGo.Message

open KmipGo.Lib KmipGo.Ttlv KmipGo.Reg KmipGo.Text

structure UniqueIdentifierValue where
  text : GoString
  enum : BitVec 32
  index : BitVec 32
deriving DecidableEq

namespace UniqueIdentifierValue

def zero : UniqueIdentifierValue := ⟨[], 0, 0⟩

def marshalTTLV (u : UniqueIdentifierValue) (e : EncBuf) (tag : Tag) : EncBuf :=
  if u.text ≠ [] then e.encodeTextString tag u.text
  else if u.enum ≠ 0 then e.encodeEnum tag u.enum
  else if u.index ≠ 0 then e.encodeInt tag u.index
  else e

/-- "invalid type for UniqueIdentifier", with the type. -/
structure InvalidType where
  type : GoString
deriving DecidableEq

section

variable (reg : Registry) (S : ValueStrings)

def unmarshalTTLV (u : UniqueIdentifierValue) (v : TTLV) : Res InvalidType UniqueIdentifierValue :=
  if v.length = 0 then .ok u
  else match v.typ with
    | some .TextString => .ok { u with text := string reg S v }
    | some .Enumeration => do
      let i ← Res.ofOption v.valueEnumeration
      return { u with enum := i }
    | some .Integer => do
      let i ← Res.ofOption v.valueInteger
      return { u with index := i }
    | _ => .err ⟨reg.formatType v.typeByte⟩

/-! ## The printed text -/

/-- An item of text under a valid tag is a valid block, also if its length does not fit. -/
theorem isValid_textItem {tag : Tag} (htag : tag.Valid) (text : Bytes) :
    TTLV.IsValid (item tag .TextString text) := by
  have hty := typ_item tag .TextString text
  have hlen : TTLV.len (item tag .TextString text) = text.length % 2 ^ 32 := len_header_append_mod _ _ _ _
  have hhdr : TTLV.validHeader (item tag .TextString text) = none := by
    have hlong : ¬ (item tag .TextString text).length < lenHeader := by
      rw [length_item, lenHeader]
      omega
    have hfirst : TTLV.validTag (item tag .TextString text) = true := validTag_header_append ⟨tag, htag⟩ _ _ _
    rw [TTLV.validHeader, if_neg hlong, hfirst, hty]
    rfl
  obtain ⟨ty, hty', -, hfull⟩ := fullLen_of_validHeader hhdr
  rw [hty, Option.some.injEq] at hty'
  have hroom : ¬ (item tag .TextString text).length < Typ.TextString.blockLen (text.length % 2 ^ 32) := by
    rw [length_item, blockLen_textString, padTo8, padTo8]
    omega
  rw [hlen, ← hty'] at hfull
  rw [TTLV.IsValid, valid_of_validHeader hhdr hfull, if_neg hroom, hty, if_neg (by decide)]

/-- What `TTLV.String` returns for an item of text. -/
theorem string_textItem {tag : Tag} (htag : tag.Valid) (text : Bytes) :
    string reg S (item tag .TextString text) =
      printHeader reg [] (item tag .TextString text) ++ (lit " " ++ text.take (text.length % 2 ^ 32)) := by
  have hty := typ_item tag .TextString text
  rw [string, print_of_isValid reg S _ (isValid_textItem htag text), hty, if_neg (by decide), Printed.write_andThen,
    printLeaf, hty]
  simp only [valueString, hty, TTLV.valueTextString, raw_item_mod, printValue_some, Printed.text_write]

/-- The printed line is longer than the text that is in it. -/
theorem string_textItem_ne {tag : Tag} (htag : tag.Valid) {text : Bytes} (h : text.length < 2 ^ 32) :
    string reg S (item tag .TextString text) ≠ text := by
  intro heq
  have hlen := congrArg List.length heq
  rw [string_textItem reg S htag, Nat.mod_eq_of_lt h, List.take_length, List.length_append,
    List.length_append] at hlen
  have hblank : (lit " ").length = 1 := by decide
  omega

/-! ## The round trip -/

/-- Exactly one of the three is set. -/
def OneSet (u : UniqueIdentifierValue) : Prop :=
  (u.text ≠ [] ∧ u.enum = 0 ∧ u.index = 0) ∨ (u.text = [] ∧ u.enum ≠ 0 ∧ u.index = 0) ∨
    (u.text = [] ∧ u.enum = 0 ∧ u.index ≠ 0)

/-- The value comes back, and is written again as it was. -/
def RoundTrips (u : UniqueIdentifierValue) (tag : Tag) : Prop :=
  ∃ u', unmarshalTTLV reg S zero (u.marshalTTLV [] tag) = .ok u' ∧ u' = u ∧
    u'.marshalTTLV [] tag = u.marshalTTLV [] tag

theorem roundTrips_iff (u : UniqueIdentifierValue) (tag : Tag) :
    RoundTrips reg S u tag ↔ unmarshalTTLV reg S zero (u.marshalTTLV [] tag) = .ok u := by
  constructor
  · rintro ⟨u', hread, rfl, -⟩
    exact hread
  · intro hread
    exact ⟨u, hread, rfl, rfl⟩

theorem unmarshalTTLV_enum (tag : Tag) {i : BitVec 32} (h : i ≠ 0) :
    unmarshalTTLV reg S zero (marshalTTLV ⟨[], i, 0⟩ [] tag) = .ok ⟨[], i, 0⟩ := by
  have hitem : marshalTTLV ⟨[], i, 0⟩ [] tag = item tag .Enumeration (beBytes 4 i.toNat) := by
    rw [marshalTTLV, if_neg (not_not.mpr rfl), if_pos h, EncBuf.encodeEnum, EncBuf.writeIntVal_eq, List.nil_append]
  rw [hitem, unmarshalTTLV, if_neg (mt List.length_eq_zero_iff.mp (item_ne_nil tag _ _)), typ_item, TTLV.valueEnumeration,
    raw_item tag _ (by rw [length_beBytes]; norm_num), uint32BE_beBytes]
  rfl

theorem unmarshalTTLV_index (tag : Tag) {i : BitVec 32} (h : i ≠ 0) :
    unmarshalTTLV reg S zero (marshalTTLV ⟨[], 0, i⟩ [] tag) = .ok ⟨[], 0, i⟩ := by
  have hitem : marshalTTLV ⟨[], 0, i⟩ [] tag = item tag .Integer (beBytes 4 i.toNat) := by
    rw [marshalTTLV, if_neg (not_not.mpr rfl), if_neg (not_not.mpr rfl), if_pos h, EncBuf.encodeInt,
      EncBuf.writeIntVal_eq, List.nil_append]
  rw [hitem, unmarshalTTLV, if_neg (mt List.length_eq_zero_iff.mp (item_ne_nil tag _ _)), typ_item, TTLV.valueInteger,
    raw_item tag _ (by rw [length_beBytes]; norm_num), uint32BE_beBytes]
  rfl

theorem marshalTTLV_text {text : GoString} (h : text ≠ []) (enum index : BitVec 32) (tag : Tag) :
    marshalTTLV ⟨text, enum, index⟩ [] tag = item tag .TextString text := by
  rw [marshalTTLV, if_pos h, EncBuf.encodeTextString, EncBuf.write_eq, List.nil_append]

theorem unmarshalTTLV_text (tag : Tag) (text : GoString) :
    unmarshalTTLV reg S zero (item tag .TextString text) =
      .ok ⟨string reg S (item tag .TextString text), 0, 0⟩ := by
  rw [unmarshalTTLV, if_neg (mt List.length_eq_zero_iff.mp (item_ne_nil tag _ _)), typ_item]
  rfl

/-- A UniqueIdentifierValue comes back iff it is not a text, up to texts of 4 GiB that are the line
    printed for them; and there is none of these under a tag and a type with shorter names. -/
theorem uniqueIdentifier_roundTrip_iff {u : UniqueIdentifierValue} (hone : OneSet u) {tag : Tag}
    (htag : tag.Valid) :
    (RoundTrips reg S u tag ↔
      u.text = [] ∨ (2 ^ 32 ≤ u.text.length ∧ string reg S (u.marshalTTLV [] tag) = u.text)) ∧
    ((printHeader reg [] (u.marshalTTLV [] tag)).length + 1 < 2 ^ 32 →
      (RoundTrips reg S u tag ↔ u.text = [])) := by
  obtain ⟨text, enum, index⟩ := u
  rw [roundTrips_iff]
  rcases hone with ⟨htext, henum, hindex⟩ | ⟨htext, henum, hindex⟩ | ⟨htext, henum, hindex⟩
  · -- a text: what comes back is the printed line, so the question is whether the text is its own line
    simp only at htext henum hindex
    subst henum hindex
    have hread : unmarshalTTLV reg S zero (marshalTTLV ⟨text, 0, 0⟩ [] tag) = .ok ⟨text, 0, 0⟩ ↔
        string reg S (item tag .TextString text) = text := by
      rw [marshalTTLV_text htext, unmarshalTTLV_text]
      simp
    have hlong : string reg S (item tag .TextString text) = text → 2 ^ 32 ≤ text.length := by
      intro heq
      by_contra hlt
      exact string_textItem_ne reg S htag (Nat.lt_of_not_le hlt) heq
    rw [hread, marshalTTLV_text htext, or_iff_right htext]
    refine ⟨⟨fun heq => ⟨hlong heq, heq⟩, And.right⟩, fun hshort => iff_of_false ?_ htext⟩
    -- a text of that length is longer by a multiple of 4 GiB than what is read of it
    intro heq
    have hlen := congrArg List.length heq
    rw [string_textItem reg S htag, List.length_append, List.length_append, List.length_take] at hlen
    have hblank : (lit " ").length = 1 := by decide
    have hsize := hlong heq
    omega
  · simp only at htext henum hindex
    subst htext hindex
    have hread := unmarshalTTLV_enum reg S tag henum
    exact ⟨iff_of_true hread (Or.inl rfl), fun _ => iff_of_true hread rfl⟩
  · simp only at htext henum hindex
    subst htext henum
    have hread := unmarshalTTLV_index reg S tag hindex
    exact ⟨iff_of_true hread (Or.inl rfl), fun _ => iff_of_true hread rfl⟩

end

/-- The placeholder of the first identifier of a request. -/
theorem uniqueIdentifier_roundTrip_enum :
    OneSet ⟨[], 1, 0⟩ ∧ RoundTrips attributeRegistry noStrings ⟨[], 1, 0⟩ 0x420094 := by
  have hone : OneSet ⟨[], 1, 0⟩ := Or.inr (Or.inl (by decide))
  exact ⟨hone, (uniqueIdentifier_roundTrip_iff attributeRegistry noStrings hone (by decide)).1.mpr (Or.inl rfl)⟩

/-- The text that comes back is the printed line. -/
theorem uniqueIdentifier_printed :
    OneSet ⟨lit "a", 0, 0⟩ ∧
      unmarshalTTLV attributeRegistry noStrings zero (marshalTTLV ⟨lit "a", 0, 0⟩ [] 0x420094) =
        .ok ⟨lit "0x420094 (TextString/1): a", 0, 0⟩ ∧
      ¬ RoundTrips attributeRegistry noStrings ⟨lit "a", 0, 0⟩ 0x420094 := by
  have hread : unmarshalTTLV attributeRegistry noStrings zero (marshalTTLV ⟨lit "a", 0, 0⟩ [] 0x420094) =
      .ok ⟨lit "0x420094 (TextString/1): a", 0, 0⟩ := by decide +kernel
  refine ⟨Or.inl (by decide), hread, ?_⟩
  rw [roundTrips_iff, hread]
  decide +kernel

end UniqueIdentifierValue

end KmipGo.Message
