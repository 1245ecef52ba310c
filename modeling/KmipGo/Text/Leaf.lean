import KmipGo.Lib.Json
import KmipGo.Text.Form

/-! # Leaves in text

What the text forms share about leaves: the text of an instant, and the leaves
that have a text at all.

The RFC 3339 format is a library call.  Its laws are what a caller may rely on: it
reads back the instants of the years 0 to 9999 it wrote, in printable ASCII, and
the text, which starts with a year, is not taken for a hex value.
-/

namespace KmipGo.Text

open KmipGo.Lib KmipGo.Ttlv KmipGo.Reg

/-- `t.Format(time.RFC3339Nano)` of an instant in UTC, and `time.Parse(time.RFC3339Nano, s)`. -/
structure TimeCodec where
  format : Time → GoString
  parse : GoString → Option Time

/-- From the first second of year 0 to the last of year 9999. -/
def InYears (t : Time) : Prop := -62167219200 ≤ t.unix.toInt ∧ t.unix.toInt ≤ 253402300799

instance (t : Time) : Decidable (InYears t) := inferInstanceAs (Decidable (_ ∧ _))

structure TimeCodec.Lawful (T : TimeCodec) : Prop where
  parse_format : ∀ t, InYears t → T.parse (T.format t) = some t
  format_plain : ∀ t, InYears t → ∀ b ∈ T.format t, PlainByte b
  format_not_hex : ∀ t, InYears t → hasPrefix (T.format t) (lit "0x") = false

section

variable (reg : Registry) (textOk : Bytes → Prop)

/-- A canonical leaf whose text or instant has a text form. -/
def LeafText (l : Leaf) : Prop :=
  l.Canonical ∧
    match l.ty with
    | .TextString => textOk l.value
    | .DateTime | .DateTimeExtended => InYears l.time
    | _ => True

/-- The leaf is not an Integer that is written as a mask because of its own tag. -/
def LeafPlain (tag : ValidTag) (l : Leaf) : Prop :=
  LeafText textOk l ∧ (l.ty = .Integer → reg.enumForTag tag.1 = none)

/-- Nor is it written as a mask because of its attribute. -/
def Unmasked (attr : Tag) (l : Leaf) : Prop := l.ty = .Integer → reg.enumForTag attr = none

/-- The blocks of the round trips: canonical, and without masks. -/
def TextBlock (title : Bytes → Bytes) : Block → Prop :=
  Canonical reg title (LeafPlain reg textOk) (Unmasked reg)

end

/-! ## Plain texts -/

theorem plainByte_of_wordByte {b : UInt8} (h : WordByte b) : PlainByte b := by
  have hne : ∀ c : UInt8, ¬ WordByte c → b ≠ c := by
    rintro c hc rfl
    exact hc h
  rw [WordByte, isWordRune_iff] at h
  exact ⟨by omega, by omega, hne 34 (by decide), hne 92 (by decide), hne 60 (by decide),
    hne 62 (by decide), hne 38 (by decide)⟩

theorem normalizeName_id_typeName (ty : Typ) : normalizeName id (typeName ty) = typeName ty := by
  cases ty <;> decide +kernel

theorem plain_typeName (ty : Typ) : ∀ b ∈ typeName ty, PlainByte b := by
  intro b hb
  rw [← normalizeName_id_typeName ty] at hb
  exact plainByte_of_wordByte (wordByte_of_mem_normalizeName id keepsWords_id hb)

theorem plainByte_of_mem_hexEncode {bs : Bytes} {b : UInt8} (h : b ∈ hexEncode bs) : PlainByte b :=
  mem_hexEncode (by decide) h

theorem hasPrefix_hexEncode (b : Bytes) : hasPrefix (hexEncode b) (lit "0x") = false := by
  have hdigit : ∀ d : Fin 16, hexDigit d.val ≠ 120 := by decide
  cases b with
  | nil => rfl
  | cons c b =>
    have hx := hdigit ⟨c.toNat % 16, Nat.mod_lt _ (by decide)⟩
    have hlit : lit "0x" = [48, 120] := by decide
    rw [hexEncode, hasPrefix, hlit]
    simp only [List.isPrefixOf, Bool.and_eq_false_imp, beq_iff_eq]
    intro _
    simpa [List.isPrefixOf] using fun h => hx h.symm

/-! ## An instance -/

namespace PlainTime

/-- The letter T, then the twelve bytes of the instant in hex. -/
def format (t : Time) : GoString :=
  84 :: hexEncode (beBytes 8 t.unix.toNat ++ beBytes 4 t.nanosecond.val)

def parse (s : GoString) : Option Time :=
  (hexDecode (s.drop 1)).map fun b =>
    ⟨BitVec.ofNat 64 (beNat (b.take 8)), Fin.ofNat _ (beNat (b.drop 8))⟩

theorem parse_format (t : Time) : parse (format t) = some t := by
  have hnano := t.nanosecond.isLt
  have hunix := t.unix.isLt
  rw [parse, format, List.drop_one, List.tail_cons, hexDecode_hexEncode, Option.map_some,
    List.take_left' (length_beBytes 8 _), List.drop_left' (length_beBytes 8 _),
    beNat_beBytes_of_lt (by omega), beNat_beBytes_of_lt (by omega)]
  cases t
  simp

end PlainTime

def plainTime : TimeCodec := ⟨PlainTime.format, PlainTime.parse⟩

theorem plainTime_lawful : plainTime.Lawful where
  parse_format t _ := by
    simp only [plainTime]
    exact PlainTime.parse_format t
  format_plain t _ b hb := by
    rw [show plainTime.format t = PlainTime.format t from rfl, PlainTime.format, List.mem_cons] at hb
    rcases hb with rfl | hb
    · decide
    · exact plainByte_of_mem_hexEncode hb
  format_not_hex _ _ := rfl

/-! ## Registries -/

/-- The default registry of a program that imports package ttlv alone. -/
def typesRegistry : Registry := registerTypes id Registry.empty

/-- With the tags of attributes and of one enumeration. -/
def attributeRegistry : Registry :=
  registerTypes id
    ⟨(∅ : AList fun _ : Tag => Enum).insert 0x420057
        (newEnum.register id [(1, lit "Certificate"), (2, lit "Symmetric Key")]),
      newEnum.register id [(0x420008, lit "Attribute"), (0x42000a, lit "Attribute Name"),
        (0x42000b, lit "Attribute Value"), (0x420057, lit "Object Type")], newEnum⟩

theorem attributeRegistry_standard : attributeRegistry.Standard id := by
  refine standard_registerTypes keepsWords_id normalizeName_id_typeName rfl ?_ ?_ ?_
  · exact ⟨_, by decide +kernel, Or.inl rfl⟩
  · intro t e he
    by_cases ht : t = 0x420057
    · rw [ht, Registry.enumForTag, AList.lookup_insert] at he
      cases he
      exact ⟨_, by decide +kernel, Or.inl rfl⟩
    · rw [Registry.enumForTag, AList.lookup_insert_ne ht] at he
      cases he
  · rw [Registry.enumForTag, AList.lookup_insert_ne (by decide)]
    rfl

/-- An attribute: its name, which stands for a tag, and a value of that tag's enumeration. -/
def objectTypeAttribute : Block :=
  .struct ⟨0x420008, by decide⟩
    [.leaf ⟨0x42000a, by decide⟩ ⟨.TextString, lit "Object Type", [0, 0, 0, 0, 0], by decide, by decide⟩,
      .leaf ⟨0x42000b, by decide⟩ ⟨.Enumeration, [0, 0, 0, 2], [0, 0, 0, 0], rfl, rfl⟩]

theorem objectTypeAttribute_sized : objectTypeAttribute.Sized := by
  change (blocksBytes _).length < 2 ^ 32
  decide

/-- It is a block of the round trips, whatever is registered. -/
theorem textBlock_objectTypeAttribute (reg : Registry) {textOk : Bytes → Prop}
    (htext : textOk (lit "Object Type")) : TextBlock reg textOk id objectTypeAttribute := by
  refine ⟨⟨⟨⟨rfl, trivial⟩, htext⟩, ?_⟩, ?_, ⟨⟨⟨rfl, trivial⟩, trivial⟩, ?_⟩, ?_, trivial⟩
  · intro hty
    cases hty
  · intro l hl
    cases hl
  · intro hty
    cases hty
  · intro l hl hty
    cases hl
    cases hty

end KmipGo.Text
