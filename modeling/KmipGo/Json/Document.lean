import KmipGo.Json.Encode

/-! # The JSON document of a block

`jsonForm` is the tree of the document that `MarshalJSON` writes for a block.
`marshalJSON_block` says that the text is the compact text of that tree, and
`writable_encode` that the tree is one that a JSON library reads back.
-/

namespace KmipGo.JsonForm

open KmipGo.Lib KmipGo.Ttlv KmipGo.Reg KmipGo.Text

section

variable (reg : Registry) (T : TimeCodec)

/-- The value of a leaf that is not written as a mask. -/
def leafJson (tag : Tag) (l : Leaf) : Json :=
  match l.ty with
  | .Boolean => .bool l.boolean
  | .Enumeration => .string (reg.formatEnum tag l.uint32)
  | .Integer => .ofInt l.uint32.toInt
  | .LongInteger =>
    if l.uint64.toInt ≤ -maxJSONInt ∨ l.uint64.toInt ≥ maxJSONInt then
      .string (lit "0x" ++ hexEncode l.value)
    else .ofInt l.uint64.toInt
  | .BigInteger =>
    if (-2 ^ 63 ≤ twosValue l.value ∧ twosValue l.value < 2 ^ 63) ∧
        ((twosValue l.value).natAbs : Int) < maxJSONInt then .ofInt (twosValue l.value)
    else .string (lit "0x" ++ hexEncode l.value)
  | .TextString => .string l.value
  | .ByteString => .string (hexEncode l.value)
  | .DateTime | .DateTimeExtended => .string (T.format l.time)
  | .Interval => .ofInt l.uint32.toNat
  | .Structure => .null

def attributeJson (attr : Tag) (l : Leaf) : Json :=
  if l.ty = .Enumeration then .string (reg.formatEnum attr l.uint32) else .ofInt l.uint32.toInt

def jsonForm : Form Json where
  leaf tag l := .object [(lit "tag", .string (reg.formatTag tag.1)),
    (lit "type", .string (typeName l.ty)), (lit "value", leafJson reg T tag.1 l)]
  attributeValue attr l := .object [(lit "tag", .string (lit "AttributeValue")),
    (lit "type", .string (typeName l.ty)), (lit "value", attributeJson reg attr l)]
  struct tag children := .object [(lit "tag", .string (reg.formatTag tag.1)),
    (lit "value", .array children)]

end

section

variable {reg : Registry} {title : Bytes → Bytes} {C : JsonCodec} {T : TimeCodec}

/-! ## Texts of objects -/

theorem validUTF8_of_plain {s : Bytes} (h : ∀ b ∈ s, PlainByte b) : validUTF8 s = true := by
  apply validUTF8_of_ascii
  intro b hb
  have hlt := (h b hb).2.1
  omega

/-- The text of a string that needs no escape. -/
theorem render_string (hC : C.QuotesPlain) {s : Bytes} (h : ∀ b ∈ s, PlainByte b) :
    (Json.string s).render C.quote = lit "\"" ++ s ++ lit "\"" := by
  have hquote : lit "\"" = [34] := by decide
  rw [Json.render, hC s h, hquote]
  rfl

/-- The keys of the objects. -/
theorem plain_keys : ∀ k ∈ [lit "tag", lit "type", lit "value"], ∀ b ∈ k, PlainByte b := by
  have hkey : ∀ k ∈ [lit "tag", lit "type", lit "value"], (k.all fun b => decide (PlainByte b)) = true := by
    decide
  exact fun k hk => forall_mem_of_all (hkey k hk)

theorem render_leaf (hC : C.QuotesPlain) {tag type : Bytes} (htag : ∀ b ∈ tag, PlainByte b)
    (htype : ∀ b ∈ type, PlainByte b) (v : Json) :
    (Json.object [(lit "tag", .string tag), (lit "type", .string type), (lit "value", v)]).render
        C.quote =
      lit "\x7b\"tag\":\"" ++ tag ++ lit "\",\"type\":\"" ++ type ++ lit "\",\"value\":" ++
        v.render C.quote ++ lit "\x7d" := by
  have hkey := plain_keys
  simp only [Json.render, Json.renderMembers, Json.renderMoreMembers, Json.renderMember,
    hC _ htag, hC _ htype, hC _ (hkey (lit "tag") (by simp)),
    hC _ (hkey (lit "type") (by simp)), hC _ (hkey (lit "value") (by simp))]
  have hopen : lit "\x7b\"tag\":\"" = 123 :: 34 :: (lit "tag" ++ [34, 58, 34]) := by decide
  have hmid : lit "\",\"type\":\"" = 34 :: 44 :: 34 :: (lit "type" ++ [34, 58, 34]) := by decide
  have hval : lit "\",\"value\":" = 34 :: 44 :: 34 :: (lit "value" ++ [34, 58]) := by decide
  have hclose : lit "\x7d" = [125] := by decide
  rw [hopen, hmid, hval, hclose]
  simp only [List.append_assoc, List.cons_append, List.nil_append, List.append_nil]

theorem render_struct (hC : C.QuotesPlain) {tag : Bytes} (htag : ∀ b ∈ tag, PlainByte b)
    (items : List Json) :
    (Json.object [(lit "tag", .string tag), (lit "value", .array items)]).render C.quote =
      lit "\x7b\"tag\":\"" ++ tag ++ lit "\",\"value\":[" ++ Json.renderItems C.quote items ++
        lit "]\x7d" := by
  have hkey := plain_keys
  simp only [Json.render, Json.renderMembers, Json.renderMoreMembers, Json.renderMember,
    hC _ htag, hC _ (hkey (lit "tag") (by simp)),
    hC _ (hkey (lit "value") (by simp))]
  have hopen : lit "\x7b\"tag\":\"" = 123 :: 34 :: (lit "tag" ++ [34, 58, 34]) := by decide
  have hval : lit "\",\"value\":[" = 34 :: 44 :: 34 :: (lit "value" ++ [34, 58, 91]) := by decide
  have hclose : lit "]\x7d" = [93, 125] := by decide
  rw [hopen, hval, hclose]
  simp only [List.append_assoc, List.cons_append, List.nil_append, List.append_nil]

/-! ## Values of leaves -/

theorem render_ofInt (i : Int) (quote : Bytes → Bytes) : (Json.ofInt i).render quote = intDec i := by
  rw [Json.ofInt, Json.render, Rat.num_intCast]

theorem plain_hex (b : Bytes) : ∀ c ∈ lit "0x" ++ hexEncode b, PlainByte c := by
  intro c hc
  rw [List.mem_append] at hc
  rcases hc with hc | hc
  · have hlit : ∀ c ∈ lit "0x", PlainByte c := forall_mem_of_all (by decide)
    exact hlit c hc
  · exact plainByte_of_mem_hexEncode hc

/-- The text of the value is the text of its tree. -/
theorem valueText_leaf (h : reg.Standard title) (hC : C.QuotesPlain) (hT : T.Lawful)
    {textOk : Bytes → Prop} {tag : ValidTag} {l : Leaf} (hcanon : LeafPlain reg textOk tag l)
    (rest : Bytes) :
    valueText reg C T ((Block.leaf tag l).bytes ++ rest) l.ty =
      .ok ((leafJson reg T tag.1 l).render C.quote) := by
  obtain ⟨⟨-, htext⟩, hmask⟩ := hcanon
  have hquoted : ∀ s : Bytes, lit "\"0x" ++ s ++ lit "\"" = lit "\"" ++ (lit "0x" ++ s) ++ lit "\"" := by
    intro s
    rfl
  have htag : TTLV.tag ((Block.leaf tag l).bytes ++ rest) = tag.1 := tag_bytes_append _ _
  rw [leafJson]
  cases hty : l.ty with
  | Structure => exact absurd hty (leaf_ty_ne l)
  | Boolean =>
    simp only [valueText, valueBoolean_leaf rest hty]
    cases l.boolean <;> rfl
  | Enumeration =>
    simp only [valueText, valueEnumeration_leaf rest hty, htag]
    rw [render_string hC fun b hb => plainByte_of_wordByte (h.wordByte_of_mem_formatEnum hb)]
    rfl
  | Integer =>
    simp only [valueText, valueInteger_leaf rest (Or.inl hty), htag, render_ofInt, integerText, hmask hty]
    rfl
  | LongInteger =>
    simp only [valueText, valueLongInteger_leaf rest (Or.inl hty), raw_leaf_append, hquoted,
      Res.ofOption, Res.ok_bind]
    split
    · rw [render_string hC (plain_hex l.value)]
      rfl
    · rw [render_ofInt]
      rfl
  | BigInteger =>
    simp only [valueText, valueBigInteger_leaf, raw_leaf_append, hquoted]
    split
    · rw [render_ofInt]
      rfl
    · rw [render_string hC (plain_hex l.value)]
      rfl
  | TextString =>
    simp only [valueText, TTLV.valueTextString, raw_leaf_append]
    rfl
  | ByteString =>
    simp only [valueText, raw_leaf_append]
    rw [render_string hC fun b hb => plainByte_of_mem_hexEncode hb]
    rfl
  | DateTime =>
    rw [hty] at htext
    simp only [valueText, valueDateTime_leaf rest (Or.inl hty), Res.ofOption, Res.ok_bind, if_pos htext]
    rw [render_string hC (hT.format_plain l.time htext)]
    rfl
  | DateTimeExtended =>
    rw [hty] at htext
    simp only [valueText, valueDateTime_leaf rest (Or.inr hty), Res.ofOption, Res.ok_bind, if_pos htext]
    rw [render_string hC (hT.format_plain l.time htext)]
    rfl
  | Interval =>
    simp only [valueText, uint32BE_raw_leaf rest hty, render_ofInt]
    rfl

/-! ## Structures -/

/-- The text of an attribute value. -/
theorem attributeText (h : reg.Standard title) (hC : C.QuotesPlain) {attr : Tag} {l : Leaf}
    (hgov : Unmasked reg attr l) (hty : l.ty = .Enumeration ∨ l.ty = .Integer) :
    ((jsonForm reg T).attributeValue attr l).render C.quote =
      if l.ty = .Enumeration then
        lit "\x7b\"tag\":\"AttributeValue\",\"type\":\"Enumeration\",\"value\":\"" ++
          reg.formatEnum attr l.uint32 ++ lit "\"\x7d"
      else
        lit "\x7b\"tag\":\"AttributeValue\",\"type\":\"Integer\",\"value\":" ++
          integerText reg attr l.uint32 ++ lit "\x7d" := by
  have hname : ∀ b ∈ lit "AttributeValue", PlainByte b := forall_mem_of_all (by decide)
  rw [jsonForm, render_leaf hC hname (plain_typeName l.ty), attributeJson]
  rcases hty with hty | hty
  · rw [if_pos hty, if_pos hty, hty,
      render_string hC fun b hb => plainByte_of_wordByte (h.wordByte_of_mem_formatEnum hb)]
    simp only [List.append_assoc]
    rfl
  · have hne : ¬ l.ty = .Enumeration := by
      rw [hty]
      decide
    rw [if_neg hne, if_neg hne, hty, render_ofInt, integerText, hgov hty]
    rfl

theorem renderMore_eq (quote : Bytes → Bytes) (j : Json) (js : List Json) :
    Json.renderMore quote (j :: js) = lit "," ++ Json.renderItems quote (j :: js) := by
  rfl

theorem childText_attributeValue (h : reg.Standard title) (hC : C.QuotesPlain) {attr : Tag}
    {tag : ValidTag} {l : Leaf} (htag : tag.1 = tagAttributeValue)
    (hty : l.ty = .Enumeration ∨ l.ty = .Integer) (hgov : Unmasked reg attr l) (rest : Bytes)
    (other : Res MarshalErr Bytes) :
    childText reg attr ((Block.leaf tag l).bytes ++ rest) other =
      .ok (((jsonForm reg T).attributeValue attr l).render C.quote) := by
  have hbtag : TTLV.tag ((Block.leaf tag l).bytes ++ rest) = tagAttributeValue :=
    (tag_bytes_append _ _).trans htag
  rw [attributeText h hC hgov hty, childText, typ_leaf_append]
  rcases hty with hty | hty
  · rw [if_pos ⟨hbtag, congrArg some hty⟩, if_pos hty, valueEnumeration_leaf rest hty]
    rfl
  · have hne : ¬ l.ty = .Enumeration := by
      rw [hty]
      decide
    rw [if_neg (fun hc => hne (Option.some.inj hc.2)), if_pos ⟨hbtag, congrArg some hty⟩, if_neg hne,
      valueInteger_leaf rest (Or.inl hty)]
    rfl

theorem childText_other {c : Block} (h : Block.attributeScalar c = none) (attr : Tag) (rest : Bytes)
    (other : Res MarshalErr Bytes) : childText reg attr (c.bytes ++ rest) other = other := by
  rw [attributeScalar_eq_none_iff c rest] at h
  rw [childText, if_neg (fun hc => h ⟨hc.1, Or.inl hc.2⟩), if_neg (fun hc => h ⟨hc.1, Or.inr hc.2⟩)]

mutual
/-- `MarshalJSON` writes the document of the block. -/
theorem marshalJSON_block (h : reg.Standard title) (hC : C.QuotesPlain) (hT : T.Lawful)
    {textOk : Bytes → Prop} : ∀ (b : Block) (rest : Bytes), b.Sized → TextBlock reg textOk title b →
    marshalJSON reg title C T (b.bytes ++ rest) =
      .ok (((jsonForm reg T).encode reg title b).render C.quote)
  | .leaf tag l, rest, hsize, hcanon => by
    have hplain : ∀ b ∈ reg.formatTag tag.1, PlainByte b :=
      fun b hb => plainByte_of_wordByte (h.wordByte_of_mem_formatTag hb)
    have hstruct : ¬ some l.ty = some Typ.Structure := fun hty => leaf_ty_ne l (Option.some.inj hty)
    have hcode : TTLV.typeByte ((Block.leaf tag l).bytes ++ rest) = l.ty.code := by
      rw [Block.bytes, List.append_assoc, typeByte_header_append]
    rw [marshalJSON, dif_neg (bytes_append_length_ne_zero _ _), valid_bytes_append _ _ hsize]
    simp only [typ_leaf_append, if_neg hstruct, valueText_leaf h hC hT hcanon, Res.ok_bind,
      tag_bytes_append, hcode, h.formatType_code]
    rw [Form.encode, jsonForm, render_leaf hC hplain (plain_typeName l.ty)]
    rfl
  | .struct tag cs, rest, hsize, hcanon => by
    have hplain : ∀ b ∈ reg.formatTag tag.1, PlainByte b :=
      fun b hb => plainByte_of_wordByte (h.wordByte_of_mem_formatTag hb)
    have hchildren := marshalChildren_blocks h hC hT cs tagNone (fun c hc => Sized.of_mem hc hsize) hcanon
    rw [marshalJSON, dif_neg (bytes_append_length_ne_zero _ _), valid_bytes_append _ _ hsize]
    simp only [typ_struct_append, if_true, raw_struct_append tag cs rest hsize, hchildren, Res.ok_bind,
      tag_bytes_append]
    rw [Form.encode, jsonForm, render_struct hC hplain]
    rfl

theorem marshalChildren_blocks (h : reg.Standard title) (hC : C.QuotesPlain) (hT : T.Lawful)
    {textOk : Bytes → Prop} : ∀ (cs : List Block) (attr : Tag), (∀ c ∈ cs, c.Sized) →
    ChildrenCanonical reg title (LeafPlain reg textOk) (Unmasked reg) attr cs →
    marshalChildren reg title C T attr (blocksBytes cs) =
      .ok (Json.renderItems C.quote ((jsonForm reg T).encodeChildren reg title attr cs))
  | [], attr, _, _ => by
    rw [blocksBytes, marshalChildren, if_pos (List.length_nil)]
    rfl
  | c :: cs, attr, hsize, hcanon => by
    obtain ⟨hc, hgov, hcs⟩ := hcanon
    have hcsize : c.Sized := hsize c (List.mem_cons_self ..)
    have hrest := marshalChildren_blocks h hC hT cs (nextAttr reg title attr c.bytes)
      (fun d hd => hsize d (List.mem_cons_of_mem _ hd)) hcs
    have hchild : childText reg (nextAttr reg title attr c.bytes) (c.bytes ++ blocksBytes cs)
        (marshalJSON reg title C T (c.bytes ++ blocksBytes cs)) =
        .ok ((match Block.attributeScalar c with
          | some l => (jsonForm reg T).attributeValue (nextAttr reg title attr c.bytes) l
          | none => (jsonForm reg T).encode reg title c).render C.quote) := by
      cases hscalar : Block.attributeScalar c with
      | none =>
        rw [childText_other hscalar]
        exact marshalJSON_block h hC hT c _ hcsize hc
      | some l =>
        have hallowed := hgov l hscalar
        obtain ⟨tag, rfl, htag, hty⟩ := attributeScalar_eq_some hscalar
        exact childText_attributeValue h hC htag hty hallowed _ _
    rw [blocksBytes, marshalChildren, if_neg (bytes_append_length_ne_zero _ _)]
    simp only [nextAttr_bytes_append reg title hcsize, hchild, Res.ok_bind]
    rw [Form.encodeChildren, Json.renderItems]
    split
    · rename_i hnext
      rw [next_bytes_append c _ hcsize] at hnext
      cases cs with
      | nil => exact congrArg Res.ok (List.append_nil _).symm
      | cons d ds =>
        rw [blocksBytes, if_neg (bytes_append_length_ne_zero d _)] at hnext
        cases hnext
    · rename_i n hnext
      rw [next_bytes_append c _ hcsize] at hnext
      cases cs with
      | nil => cases hnext
      | cons d ds =>
        have hpos : (blocksBytes (d :: ds)).length > 0 :=
          Nat.pos_of_ne_zero (bytes_append_length_ne_zero d _)
        rw [if_neg (Nat.ne_of_gt hpos)] at hnext
        cases hnext
        rw [hrest, if_pos hpos, Form.encodeChildren, renderMore_eq, ← List.append_assoc]
        rfl
end

/-! ## Documents that are read back -/

theorem writable_leafJson (h : reg.Standard title) (hT : T.Lawful) {tag : ValidTag} {l : Leaf}
    (hcanon : LeafPlain reg (fun s => validUTF8 s = true) tag l) :
    (leafJson reg T tag.1 l).Writable := by
  obtain ⟨⟨-, htext⟩, -⟩ := hcanon
  have h32lo := BitVec.le_toInt l.uint32
  have h32hi := BitVec.toInt_lt (x := l.uint32)
  have h32 := l.uint32.isLt
  rw [leafJson]
  cases hty : l.ty with
  | Structure => exact absurd hty (leaf_ty_ne l)
  | Boolean => trivial
  | Enumeration =>
    exact validUTF8_of_plain fun b hb => plainByte_of_wordByte (h.wordByte_of_mem_formatEnum hb)
  | Integer => exact Json.writable_ofInt (by omega)
  | LongInteger =>
    simp only
    split
    · exact validUTF8_of_plain (plain_hex l.value)
    · rename_i hsmall
      rw [maxJSONInt] at hsmall
      exact Json.writable_ofInt (by omega)
  | BigInteger =>
    simp only
    split
    · rename_i hsmall
      rw [maxJSONInt] at hsmall
      exact Json.writable_ofInt (by omega)
    · exact validUTF8_of_plain (plain_hex l.value)
  | TextString =>
    rw [hty] at htext
    exact htext
  | ByteString => exact validUTF8_of_plain fun b hb => plainByte_of_mem_hexEncode hb
  | DateTime =>
    rw [hty] at htext
    exact validUTF8_of_plain (hT.format_plain l.time htext)
  | DateTimeExtended =>
    rw [hty] at htext
    exact validUTF8_of_plain (hT.format_plain l.time htext)
  | Interval => exact Json.writable_ofInt (by omega)

theorem writable_attributeJson (h : reg.Standard title) (attr : Tag) (l : Leaf) :
    (attributeJson reg attr l).Writable := by
  have h32lo := BitVec.le_toInt l.uint32
  have h32hi := BitVec.toInt_lt (x := l.uint32)
  rw [attributeJson]
  split
  · exact validUTF8_of_plain fun b hb => plainByte_of_wordByte (h.wordByte_of_mem_formatEnum hb)
  · exact Json.writable_ofInt (by omega)

/-- An object is writable when its texts are plain and its value is writable. -/
theorem writable_leaf {tag type : Bytes} (htag : ∀ b ∈ tag, PlainByte b)
    (htype : ∀ b ∈ type, PlainByte b) {v : Json} (hv : v.Writable) :
    (Json.object [(lit "tag", .string tag), (lit "type", .string type), (lit "value", v)]).Writable :=
  ⟨⟨validUTF8_of_plain (forall_mem_of_all (by decide)), validUTF8_of_plain htag⟩,
    ⟨validUTF8_of_plain (forall_mem_of_all (by decide)), validUTF8_of_plain htype⟩, ⟨validUTF8_of_plain (forall_mem_of_all (by decide)), hv⟩,
    trivial⟩

mutual
theorem writable_encode (h : reg.Standard title) (hT : T.Lawful) : ∀ b : Block,
    TextBlock reg (fun s => validUTF8 s = true) title b →
    ((jsonForm reg T).encode reg title b).Writable
  | .leaf tag l, hcanon =>
    writable_leaf (fun b hb => plainByte_of_wordByte (h.wordByte_of_mem_formatTag hb))
      (plain_typeName l.ty) (writable_leafJson h hT hcanon)
  | .struct tag cs, hcanon =>
    ⟨⟨validUTF8_of_plain (forall_mem_of_all (by decide)),
        validUTF8_of_plain fun b hb => plainByte_of_wordByte (h.wordByte_of_mem_formatTag hb)⟩,
      ⟨validUTF8_of_plain (forall_mem_of_all (by decide)), writable_encodeChildren h hT cs tagNone hcanon⟩, trivial⟩

theorem writable_encodeChildren (h : reg.Standard title) (hT : T.Lawful) :
    ∀ (cs : List Block) (attr : Tag),
    ChildrenCanonical reg title (LeafPlain reg fun s => validUTF8 s = true) (Unmasked reg) attr cs →
    Json.ItemsWritable ((jsonForm reg T).encodeChildren reg title attr cs)
  | [], _, _ => trivial
  | c :: cs, attr, hcanon => by
    refine ⟨?_, writable_encodeChildren h hT cs _ hcanon.2.2⟩
    cases Block.attributeScalar c with
    | none => exact writable_encode h hT c hcanon.1
    | some l =>
      exact writable_leaf (forall_mem_of_all (by decide)) (plain_typeName l.ty) (writable_attributeJson h _ l)
end

end

end KmipGo.JsonForm
