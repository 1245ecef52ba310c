import KmipGo.Json.Decode
import KmipGo.Json.Document

/-! # JSON round trip

`jsonForm` is the tree of the document that `MarshalJSON` writes for a block;
`marshalJSON_block` says that the text is the compact text of that tree.
`jsonForm_reads` is what the decoder does with it: only the enumeration and
integer values of attributes can go wrong, since they are written under the
literal name AttributeValue, whatever the registry calls the tag.
-/

namespace KmipGo.JsonForm

open KmipGo.Lib KmipGo.Ttlv KmipGo.Reg KmipGo.Text

/-! ## Reading members -/

theorem decodeTval_three (tag type : GoString) (v : Json) :
    decodeTval (.object [(lit "tag", .string tag), (lit "type", .string type), (lit "value", v)]) =
      some ⟨tag, type, some v⟩ := by
  rfl

theorem decodeTval_two (tag : GoString) (v : Json) :
    decodeTval (.object [(lit "tag", .string tag), (lit "value", v)]) = some ⟨tag, [], some v⟩ := by
  rfl

section

variable {reg : Registry} {title : Bytes → Bytes} {T : TimeCodec}

theorem decodeType_typeName (h : reg.Standard title) (ty : Typ) :
    decodeType reg (typeName ty) = .ok ty.code := by
  have hne : typeName ty ≠ [] := by
    cases ty <;> decide
  rw [decodeType, if_neg hne, h.parseType_typeName]

/-- An object that is read as a leaf with this value. -/
inductive LeafObject (reg : Registry) (j : Json) (tag : Tag) (ty : Typ) (v : Json) : Prop
  | mk {tv : Tval} (htv : decodeTval j = some tv) (htag : reg.parseTag tv.tag = .ok tag)
      (htype : decodeType reg tv.type = .ok ty.code) (hvalue : tv.value = some v) :
      LeafObject reg j tag ty v

/-- What is returned for a leaf: its item, or the error with its tag and type. -/
def leafResult (tag : Tag) (ty : Typ) : Except JsonErr Prim → Res JsonErr Bytes
  | .ok p => .ok (encodePrim [] tag p)
  | .error e => .err (.syntaxError tag ty.code e)

theorem leafResult_ok (tag : Tag) (ty : Typ) (p : Prim) : leafResult tag ty (.ok p) = .ok (p.item tag) :=
  congrArg Res.ok (encodePrim_eq [] tag p)

/-- The decoder on the object of a leaf. -/
theorem LeafObject.decodeJSON_eq {j : Json} {tag : Tag} {ty : Typ} {v : Json}
    (h : LeafObject reg j tag ty v) (hty : ty ≠ .Structure) (attr : Tag) :
    decodeJSON reg title T attr j = leafResult tag ty (decodeLeaf reg T tag attr ty v) := by
  obtain ⟨htv, htag, htype, hvalue⟩ := h
  rw [decodeJSON]
  split
  · rename_i hnone
    rw [htv] at hnone
    cases hnone
  · rename_i tv hsome
    rw [htv] at hsome
    cases hsome
    simp only [htag, htype]
    split
    · rename_i hnone
      rw [hvalue] at hnone
      cases hnone
    · rename_i v' hsome
      rw [hvalue] at hsome
      cases hsome
      rw [Typ.ofCode_code]
      cases ty with
      | Structure => exact absurd rfl hty
      | _ => rfl

/-- The object that is written for a leaf. -/
theorem leafObject_object (h : reg.Standard title) {text : GoString} {tag : Tag}
    (htag : reg.parseTag text = .ok tag) (ty : Typ) (v : Json) :
    LeafObject reg (.object [(lit "tag", .string text), (lit "type", .string (typeName ty)), (lit "value", v)])
      tag ty v :=
  .mk (decodeTval_three _ _ _) htag (decodeType_typeName h ty) rfl

theorem decodeJSON_leaf (h : reg.Standard title) (attr : Tag) {text : GoString} {tag : Tag}
    (htag : reg.parseTag text = .ok tag) {ty : Typ} (hty : ty ≠ .Structure) (v : Json) :
    (decodeJSON reg title T attr (.object [(lit "tag", .string text),
        (lit "type", .string (typeName ty)), (lit "value", v)])).toOption =
      (decodeLeaf reg T tag attr ty v).toOption.map fun p => p.item tag := by
  rw [(leafObject_object h htag ty v).decodeJSON_eq hty]
  cases decodeLeaf reg T tag attr ty v with
  | error e => rfl
  | ok p =>
    rw [leafResult_ok]
    rfl

/-- An object whose tag cannot be read. -/
theorem decodeJSON_invalidTag (attr : Tag) {text : GoString} {e : ParseErr}
    (htag : reg.parseTag text = .error e) (type : GoString) (v : Json) :
    (decodeJSON reg title T attr (.object [(lit "tag", .string text),
        (lit "type", .string type), (lit "value", v)])).toOption = none := by
  rw [decodeJSON]
  split
  · rfl
  · rename_i tv htv
    rw [decodeTval_three] at htv
    cases htv
    simp only [htag]
    rfl

theorem decodeItems_toOption (attr : Tag) (js : List Json) :
    (decodeItems reg title T attr js).toOption =
      decodeChildren reg title (fun attr j => (decodeJSON reg title T attr j).toOption) attr js := by
  induction js generalizing attr with
  | nil =>
    rw [decodeItems, decodeChildren]
    rfl
  | cons j js ih =>
    rw [decodeItems, decodeChildren]
    cases decodeJSON reg title T attr j with
    | err e => rfl
    | panic => rfl
    | ok scratch =>
      simp only [Res.ok_bind, Res.toOption_ok, Option.bind_some]
      rw [← ih]
      cases decodeItems reg title T (nextAttr reg title attr scratch) js with
      | err e => rfl
      | panic => rfl
      | ok rest => rfl

theorem decodeJSON_struct (attr : Tag) {text : GoString} {tag : Tag}
    (htag : reg.parseTag text = .ok tag) (items : List Json) :
    (decodeJSON reg title T attr (.object [(lit "tag", .string text),
        (lit "value", .array items)])).toOption =
      (decodeChildren reg title (fun attr j => (decodeJSON reg title T attr j).toOption) tagNone
        items).map fun body => item tag .Structure body := by
  rw [decodeJSON]
  split
  · rename_i hnone
    cases hnone
  · rename_i tv htv
    rw [decodeTval_two] at htv
    cases htv
    simp only [htag, decodeType, if_true, Typ.ofCode_code]
    rw [← decodeItems_toOption]
    cases decodeItems reg title T tagNone items with
    | err e => rfl
    | panic => rfl
    | ok body =>
      have henc : EncBuf.write [] tag .Structure body = item tag .Structure body :=
        EncBuf.write_eq [] tag .Structure body
      simp only [henc]
      rfl

/-! ## Numbers -/

theorem trunc_intCast (i : Int) : (i : Rat).num.tdiv ((i : Rat).den : Int) = i := by
  rw [Rat.num_intCast, Rat.den_intCast]
  exact Int.tdiv_one i

theorem floatToInt64_intCast {i : Int} (hlo : -2 ^ 63 ≤ i) (hhi : i < 2 ^ 63) :
    floatToInt64 (i : Rat) = BitVec.ofInt 64 i := by
  rw [floatToInt64, trunc_intCast, if_pos ⟨hlo, hhi⟩]

theorem floatToInt32_toInt (v : BitVec 32) : floatToInt32 (v.toInt : Rat) = v := by
  have hlo := BitVec.le_toInt v
  have hhi := BitVec.toInt_lt (x := v)
  rw [floatToInt32, trunc_intCast, if_pos ⟨by omega, by omega⟩, BitVec.ofInt_toInt]

theorem decodeUint64_of_length {b : Bytes} (h : b.length = 8) :
    decodeUint64 b = BitVec.ofNat 64 (beNat b) := by
  rw [decodeUint64, pad, h, Nat.sub_self, List.replicate_zero, List.nil_append,
    List.take_of_length_le (by omega)]

theorem hexValue_hexEncode {b : Bytes} {maxLen : Nat} (h : b.length ≤ maxLen) :
    hexValue (lit "0x" ++ hexEncode b) maxLen = .ok b := by
  have hshort : ¬ (maxLen > 0 ∧ (b.dropWhile (· == 0)).length > maxLen) := by
    have hle := (List.dropWhile_suffix (l := b) (· == 0)).length_le
    omega
  rw [hexValue, parseHexValue, if_pos (hasPrefix_append _ _), List.drop_left' (by decide),
    hexDecode_hexEncode]
  simp only [if_neg hshort]

/-! ## Leaves -/

theorem decodeTime_format (hT : T.Lawful) {t : Time} (ht : InYears t) (extended : Bool) :
    decodeTime T extended (T.format t) = .ok t := by
  have hhex : parseHexValue (T.format t) 8 = .ok none := by
    rw [parseHexValue, hT.format_not_hex t ht]
    rfl
  rw [decodeTime, hhex]
  simp only [hT.parse_format t ht]

/-- The decoder reads back the value of a leaf. -/
theorem decodeLeaf_leafJson (h : reg.Standard title) (hT : T.Lawful) {textOk : Bytes → Prop}
    {tag : ValidTag} {l : Leaf} {attr : Tag} (hcanon : LeafPlain reg textOk tag l)
    (hplain : Block.attributeScalar (.leaf tag l) = none ∨ attr = tagNone) :
    decodeLeaf reg T tag.1 attr l.ty (leafJson reg T tag.1 l) = .ok l.prim := by
  obtain ⟨⟨-, htext⟩, -⟩ := hcanon
  have hrule := l.rule
  have h64lo := BitVec.le_toInt l.uint64
  have h64hi := BitVec.toInt_lt (x := l.uint64)
  rw [leafJson, Leaf.prim]
  cases hty : l.ty with
  | Structure => exact absurd hty (leaf_ty_ne l)
  | Boolean => rfl
  | TextString => rfl
  | Enumeration =>
    simp only [decodeLeaf, enumTag_of_plain hty hplain, h.parseEnum_formatEnum]
  | Integer =>
    simp only [Json.ofInt, decodeLeaf, floatToInt32_toInt]
  | LongInteger =>
    rw [hty] at hrule
    simp only
    split
    · simp only [decodeLeaf, hexValue_hexEncode (Nat.le_of_eq hrule.1)]
      exact congrArg (fun v => Except.ok (Prim.longInteger v)) (decodeUint64_of_length hrule.1)
    · simp only [Json.ofInt, decodeLeaf, floatToInt64_intCast (show -2 ^ 63 ≤ l.uint64.toInt by omega)
        (show l.uint64.toInt < 2 ^ 63 by omega), BitVec.ofInt_toInt]
  | BigInteger =>
    rw [hty] at hrule
    simp only
    split
    · rename_i hsmall
      simp only [Json.ofInt, decodeLeaf, floatToInt64_intCast hsmall.1.1 hsmall.1.2,
        toInt_ofInt_of_range hsmall.1.1 hsmall.1.2]
    · have hprefix : (!hasPrefix (lit "0x" ++ hexEncode l.value) (lit "0x")) = false := by
        rw [hasPrefix_append]
        rfl
      have hdrop : (lit "0x" ++ hexEncode l.value).drop 2 = hexEncode l.value :=
        List.drop_left' (by decide)
      simp only [decodeLeaf, hprefix, hdrop, hexDecode_hexEncode, hrule.1, valueBigInteger_eq]
      rfl
  | ByteString =>
    simp only [decodeLeaf, hasPrefix_hexEncode, hexDecode_hexEncode]
    rfl
  | DateTime =>
    rw [hty] at htext
    simp only [decodeLeaf, decodeTime_format hT htext]
    rw [Leaf.time, hty]
    rfl
  | DateTimeExtended =>
    rw [hty] at htext
    simp only [decodeLeaf, decodeTime_format hT htext]
    rw [Leaf.time, hty]
    rfl
  | Interval =>
    have hnat : floatToInt64 ((l.uint32.toNat : Int) : Rat) = l.uint32.setWidth 64 := by
      have hlt := l.uint32.isLt
      rw [floatToInt64_intCast (by omega) (by omega), BitVec.ofInt_natCast, BitVec.ofNat_toNat]
    simp only [Json.ofInt, decodeLeaf, hnat]

/-! ## Values of attributes -/

/-- The literal name AttributeValue reads as the tag of attribute values; or as another number with
    the same low three bytes, under which the value has the name it has under its attribute. -/
def ValueRead (reg : Registry) (attr : Tag) (l : Leaf) : Prop :=
  ∃ t, reg.tags.value (lit "AttributeValue") = some t ∧
    (t = tagAttributeValue ∨ t.toNat % 2 ^ 24 = tagAttributeValue.toNat ∧
      (l.ty = .Enumeration → reg.SharesName attr t l.uint32))

theorem parseTag_attributeValue (reg : Registry) :
    reg.parseTag (lit "AttributeValue") =
      match reg.tags.value (lit "AttributeValue") with
      | some t => .ok t
      | none => .error (.unregisteredEnumName (lit "AttributeValue")) := by
  rfl

theorem decodeLeaf_integer (attr attr' t : Tag) (l : Leaf) (hty : l.ty = .Integer) :
    decodeLeaf reg T t attr l.ty (attributeJson reg attr' l) = .ok (.integer l.uint32) := by
  rw [attributeJson, hty, if_neg (by decide)]
  simp only [Json.ofInt, decodeLeaf, floatToInt32_toInt]

theorem decodeLeaf_enumeration (attr attr' t : Tag) (l : Leaf) (hty : l.ty = .Enumeration) :
    (decodeLeaf reg T t attr l.ty (attributeJson reg attr' l)).toOption =
      (reg.parseEnum (enumTag t attr) (reg.formatEnum attr' l.uint32)).toOption.map Prim.enumeration := by
  rw [attributeJson, hty, if_pos rfl]
  simp only [decodeLeaf]
  cases reg.parseEnum (enumTag t attr) (reg.formatEnum attr' l.uint32) with
  | ok v => rfl
  | error e => rfl

/-- The decoder on an attribute value whose tag reads as `t`. -/
theorem decodeJSON_attributeValue (h : reg.Standard title) (attr attr' : Tag) {t : Tag} {l : Leaf}
    (ht : reg.tags.value (lit "AttributeValue") = some t) :
    (decodeJSON reg title T attr ((jsonForm reg T).attributeValue attr' l)).toOption =
      (decodeLeaf reg T t attr l.ty (attributeJson reg attr' l)).toOption.map fun p => p.item t := by
  have hread : reg.parseTag (lit "AttributeValue") = .ok t := by
    rw [parseTag_attributeValue, ht]
  have hne : l.ty ≠ .Structure := leaf_ty_ne l
  exact decodeJSON_leaf h attr hread hne _

theorem decodeJSON_attributeValue_none (attr attr' : Tag) (l : Leaf)
    (hnone : reg.tags.value (lit "AttributeValue") = none) :
    (decodeJSON reg title T attr ((jsonForm reg T).attributeValue attr' l)).toOption = none := by
  have hread : reg.parseTag (lit "AttributeValue") =
      .error (.unregisteredEnumName (lit "AttributeValue")) := by
    rw [parseTag_attributeValue, hnone]
  exact decodeJSON_invalidTag attr hread _ _

/-- An attribute value is read back iff the literal name reads as its tag. -/
theorem decodeJSON_attributeValue_iff (h : reg.Standard title) {tag : ValidTag} {l : Leaf}
    (hcanon : l.Canonical) (htag : tag.1 = tagAttributeValue)
    (hty : l.ty = .Enumeration ∨ l.ty = .Integer) (attr : Tag) :
    (decodeJSON reg title T attr ((jsonForm reg T).attributeValue attr l)).toOption =
      some (Block.leaf tag l).bytes ↔ ValueRead reg attr l := by
  cases hval : reg.tags.value (lit "AttributeValue") with
  | none =>
    rw [decodeJSON_attributeValue_none attr attr l hval]
    refine iff_of_false (fun hnone => by cases hnone) ?_
    rintro ⟨t, ht, -⟩
    rw [hval] at ht
    cases ht
  | some t =>
    rw [decodeJSON_attributeValue h attr attr hval, ValueRead, hval]
    have hlow : t = tagAttributeValue → t.toNat % 2 ^ 24 = tagAttributeValue.toNat := by
      rintro rfl
      rfl
    rcases hty with hty | hty
    · have hprim : l.prim = .enumeration l.uint32 := by
        rw [Leaf.prim, hty]
      rw [decodeLeaf_enumeration attr attr t l hty, Option.map_map, Option.map_eq_some_iff]
      constructor
      · rintro ⟨v, hparse, heq⟩
        have hv : v = l.uint32 := enumeration_of_item_eq hcanon hty heq
        subst hv
        have hitem : l.prim.item t = (Block.leaf tag l).bytes := by
          rw [hprim]
          exact heq
        have hparsed : reg.parseEnum (enumTag t attr) (reg.formatEnum attr l.uint32) = .ok l.uint32 := by
          cases hres : reg.parseEnum (enumTag t attr) (reg.formatEnum attr l.uint32) with
          | error e =>
            rw [hres] at hparse
            cases hparse
          | ok v =>
            rw [hres] at hparse
            exact congrArg _ (Option.some.inj hparse)
        rw [h.parseEnum_formatEnum_iff, sharesName_enumTag h] at hparsed
        rw [item_prim_iff hcanon, htag] at hitem
        exact ⟨t, rfl, hparsed.imp id fun hshare => ⟨hitem, fun _ => hshare⟩⟩
      · rintro ⟨u, hu, hread⟩
        cases hu
        have hshare : t = tagAttributeValue ∨ reg.SharesName attr t l.uint32 :=
          hread.imp id fun hother => hother.2 hty
        rw [← sharesName_enumTag h, ← h.parseEnum_formatEnum_iff] at hshare
        refine ⟨l.uint32, by rw [hshare]; rfl, ?_⟩
        have hitem : l.prim.item t = (Block.leaf tag l).bytes := by
          rw [item_prim_iff hcanon, htag]
          exact hread.elim hlow fun hother => hother.1
        rw [hprim] at hitem
        exact hitem
    · have hprim : l.prim = .integer l.uint32 := by
        rw [Leaf.prim, hty]
      have hnot : l.ty ≠ .Enumeration := by
        rw [hty]
        decide
      rw [decodeLeaf_integer attr attr t l hty, ← hprim]
      constructor
      · intro heq
        have hitem := Option.some.inj heq
        rw [item_prim_iff hcanon, htag] at hitem
        exact ⟨t, rfl, Or.inr ⟨hitem, fun henum => absurd henum hnot⟩⟩
      · rintro ⟨u, hu, hread⟩
        cases hu
        refine congrArg some ((item_prim_iff hcanon).mpr ?_)
        rw [htag]
        exact hread.elim hlow fun hother => hother.1

/-- Whatever an attribute value is read as, it is 16 bytes long. -/
theorem decodeJSON_attributeValue_length (h : reg.Standard title) (attr attr' : Tag) (l : Leaf)
    {out : Bytes} (hty : l.ty = .Enumeration ∨ l.ty = .Integer)
    (hdec : (decodeJSON reg title T attr ((jsonForm reg T).attributeValue attr' l)).toOption = some out) :
    out.length = 16 := by
  cases hval : reg.tags.value (lit "AttributeValue") with
  | none =>
    rw [decodeJSON_attributeValue_none attr attr' l hval] at hdec
    cases hdec
  | some t =>
    rw [decodeJSON_attributeValue h attr attr' hval] at hdec
    rcases hty with hty | hty
    · rw [decodeLeaf_enumeration attr attr' t l hty, Option.map_map, Option.map_eq_some_iff] at hdec
      obtain ⟨v, -, rfl⟩ := hdec
      exact (length_item t .Enumeration _).trans (by rw [length_beBytes]; rfl)
    · rw [decodeLeaf_integer attr attr' t l hty] at hdec
      rw [← Option.some.inj hdec]
      exact (length_item t .Integer _).trans (by rw [length_beBytes]; rfl)

/-- What the decoder does with the documents of the encoder. -/
theorem jsonForm_reads (h : reg.Standard title) (hT : T.Lawful) (textOk : Bytes → Prop) :
    Reads reg title (jsonForm reg T) (fun attr j => (decodeJSON reg title T attr j).toOption)
      (fun tag => some tag.1) (LeafPlain reg textOk) (Unmasked reg) (fun _ => True)
      (ValueRead reg) where
  leaf attr tag l hcanon hplain := by
    have hleaf : (decodeJSON reg title T attr ((jsonForm reg T).leaf tag l)).toOption =
        (decodeLeaf reg T tag.1 attr l.ty (leafJson reg T tag.1 l)).toOption.map fun p => p.item tag.1 :=
      decodeJSON_leaf h attr (h.parseTag_formatTag tag.toNat_lt) (leaf_ty_ne l) _
    rw [hleaf, decodeLeaf_leafJson h hT hcanon hplain]
    exact congrArg some (item_prim tag hcanon.1.1)
  value_length attr attr' l out hdec hty := decodeJSON_attributeValue_length h attr attr' l hty hdec
  value_iff attr tag l hcanon hscalar _ := by
    obtain ⟨tag', heq, htag, hty⟩ := attributeScalar_eq_some hscalar
    cases heq
    exact decodeJSON_attributeValue_iff h hcanon.1.1 htag hty attr
  struct attr tag ds out := by
    have hstruct : (decodeJSON reg title T attr ((jsonForm reg T).struct tag ds)).toOption = _ :=
      decodeJSON_struct attr (h.parseTag_formatTag tag.toNat_lt) ds
    rw [hstruct, Option.map_eq_some_iff]
    constructor
    · rintro ⟨body, hbody, rfl⟩
      exact ⟨tag.1, body, rfl, hbody, rfl⟩
    · rintro ⟨t, body, ht, hbody, rfl⟩
      cases ht
      exact ⟨body, hbody, rfl⟩
  tag_iff tag := by
    refine iff_of_true ⟨tag.1, rfl, ?_⟩ trivial
    exact Nat.mod_eq_of_lt tag.toNat_lt

/-! ## The round trip -/

/-- Every enumeration and integer value of an attribute is read back under the literal name. -/
def ValuesRead (reg : Registry) (title : Bytes → Bytes) : Block → Prop :=
  Faithful reg title (fun _ => True) (ValueRead reg)

/-- `MarshalJSON` succeeds on every canonical block without masks, and `UnmarshalJSON` gives the block
    back iff the literal name AttributeValue reads as the tag of the attribute values in it. -/
theorem unmarshalJSON_marshalJSON_iff {C : JsonCodec} (h : reg.Standard title) (hC : C.Lawful)
    (hT : T.Lawful) {b : Block} (hsize : b.Sized)
    (hb : TextBlock reg (fun s => validUTF8 s = true) title b) :
    (∃ text, marshalJSON reg title C T b.bytes = .ok text ∧
      unmarshalJSON reg title C T text = .ok b.bytes) ↔ ValuesRead reg title b := by
  have hmarshal := marshalJSON_block h hC.quote_plain hT b [] hsize hb
  rw [List.append_nil] at hmarshal
  have hparse := hC.parse_render _ (writable_encode h hT b hb)
  rw [ValuesRead, ← (jsonForm_reads h hT _).decode_encode_iff hb, Res.toOption_eq_some]
  constructor
  · rintro ⟨text, htext, hread⟩
    rw [hmarshal] at htext
    cases htext
    rw [unmarshalJSON, hparse] at hread
    exact hread
  · intro hread
    refine ⟨_, hmarshal, ?_⟩
    rw [unmarshalJSON, hparse]
    exact hread

end

/-- Where the tags of attributes are registered, the name of the value is read back. -/
theorem unmarshalJSON_marshalJSON_objectType :
    ∃ text, marshalJSON attributeRegistry id compactCodec plainTime objectTypeAttribute.bytes = .ok text ∧
      unmarshalJSON attributeRegistry id compactCodec plainTime text = .ok objectTypeAttribute.bytes :=
  (unmarshalJSON_marshalJSON_iff attributeRegistry_standard compactCodec_lawful plainTime_lawful
    objectTypeAttribute_sized (textBlock_objectTypeAttribute _ (by decide +kernel))).mpr
    ⟨trivial, trivial, ⟨tagAttributeValue, by decide +kernel, Or.inl rfl⟩, trivial⟩

/-- A program that registers no tags cannot read the attribute it wrote. -/
theorem objectType_unreadable :
    marshalJSON typesRegistry id compactCodec plainTime objectTypeAttribute.bytes =
      .ok (lit "\x7b\"tag\":\"0x420008\",\"value\":[\x7b\"tag\":\"0x42000a\",\"type\":\"TextString\",\"value\":\"Object Type\"\x7d,\x7b\"tag\":\"AttributeValue\",\"type\":\"Enumeration\",\"value\":\"0x00000002\"\x7d]\x7d") ∧
    unmarshalJSON typesRegistry id compactCodec plainTime
        (lit "\x7b\"tag\":\"0x420008\",\"value\":[\x7b\"tag\":\"0x42000a\",\"type\":\"TextString\",\"value\":\"Object Type\"\x7d,\x7b\"tag\":\"AttributeValue\",\"type\":\"Enumeration\",\"value\":\"0x00000002\"\x7d]\x7d") =
      .err (.syntaxError 0x420008 1 (.invalidTag (.unregisteredEnumName (lit "AttributeValue")))) := by
  decide +kernel

end KmipGo.JsonForm
