import KmipGo.Registry.Mask
import KmipGo.Xml.Decode
import KmipGo.Xml.Document

/-! # XML round trip

`xmlForm_reads` is what the decoder does with the documents of the encoder.  The
tag of a structure is lost when it has no name, since only leaves write it as an
attribute.  A negative Integer of an attribute is written as a negative hex
number, which is not read.  `unmarshalXML_encodeXML_iff` is the round trip of
whole blocks.
-/

namespace KmipGo.XmlForm

open KmipGo.Lib KmipGo.Ttlv KmipGo.Reg KmipGo.Text

section

variable {reg : Registry} {title : Bytes → Bytes} {T : TimeCodec}

/-! ## The buffer -/

/-- `begin`, what the children add, and `end`. -/
theorem endStruct_append {f : EncBuf → Res XmlErr EncBuf} {r : Res XmlErr EncBuf}
    (h : ∀ buf, f buf = (r >>= fun out => .ok (buf ++ out))) (buf : EncBuf) (tag : Tag) :
    (f (buf.begin tag .Structure).1 >>= fun buf' =>
        (pure (EncBuf.endAt buf' (buf.begin tag .Structure).2) : Res XmlErr EncBuf)) =
      (r >>= fun out => .ok (buf ++ item tag .Structure out)) := by
  rw [h]
  cases r with
  | err e => rfl
  | panic => rfl
  | ok out => exact congrArg Res.ok (EncBuf.write_eq buf tag .Structure out)

mutual
/-- The decoder appends to its buffer. -/
theorem unmarshalXMLTval_append : ∀ (x : Xml) (buf : EncBuf) (attr : Tag),
    unmarshalXMLTval reg title T buf attr x =
      (unmarshalXMLTval reg title T [] attr x >>= fun out => .ok (buf ++ out))
  | .element name attrs children, buf, attr => by
    rw [unmarshalXMLTval, unmarshalXMLTval]
    cases reg.parseTag (elementTag name attrs) with
    | error e => rfl
    | ok tag =>
      simp only
      cases elementType reg (attrField "type" attrs) with
      | err e => rfl
      | panic => rfl
      | ok tp =>
        have hstruct := endStruct_append (r := unmarshalXMLChildren reg title T [] tagNone children)
          (f := fun buf => unmarshalXMLChildren reg title T buf tagNone children)
          (fun buf => unmarshalXMLChildren_append children buf tagNone)
        simp only [hstruct]
        cases Typ.ofCode tp with
        | none => simp only [Res.ok_bind, List.append_nil]
        | some ty =>
          have hleaf : (match parseValue reg T tag attr (attrField "value" attrs) ty with
                | .ok p => (.ok (encodePrim buf tag p) : Res XmlErr EncBuf)
                | .error e => .err (.syntaxError tag tp e)) =
              ((match parseValue reg T tag attr (attrField "value" attrs) ty with
                | .ok p => (.ok (encodePrim [] tag p) : Res XmlErr EncBuf)
                | .error e => .err (.syntaxError tag tp e)) >>= fun out => .ok (buf ++ out)) := by
            cases parseValue reg T tag attr (attrField "value" attrs) ty with
            | error e => rfl
            | ok p => simp only [Res.ok_bind, encodePrim_eq, List.nil_append]
          cases ty with
          | Structure =>
            cases unmarshalXMLChildren reg title T [] tagNone children with
            | err e => rfl
            | panic => rfl
            | ok out => simp only [Res.ok_bind, List.nil_append]
          | _ => exact hleaf

theorem unmarshalXMLChildren_append : ∀ (xs : List Xml) (buf : EncBuf) (attr : Tag),
    unmarshalXMLChildren reg title T buf attr xs =
      (unmarshalXMLChildren reg title T [] attr xs >>= fun out => .ok (buf ++ out))
  | [], buf, attr => by
    rw [unmarshalXMLChildren, unmarshalXMLChildren, Res.ok_bind, List.append_nil]
  | x :: xs, buf, attr => by
    rw [unmarshalXMLChildren, unmarshalXMLChildren, unmarshalXMLTval_append x buf]
    cases unmarshalXMLTval reg title T [] attr x with
    | err e => rfl
    | panic => rfl
    | ok out =>
      simp only [Res.ok_bind, List.drop_left, List.length_nil, List.drop_zero]
      rw [unmarshalXMLChildren_append xs (buf ++ out), unmarshalXMLChildren_append xs out]
      cases unmarshalXMLChildren reg title T [] (nextAttr reg title attr out) xs with
      | err e => rfl
      | panic => rfl
      | ok rest => simp only [Res.ok_bind, List.append_assoc]
end

/-- The loop over children, without the buffer. -/
theorem unmarshalXMLChildren_toOption (attr : Tag) (xs : List Xml) :
    (unmarshalXMLChildren reg title T [] attr xs).toOption =
      decodeChildren reg title (fun attr x => (unmarshalXMLTval reg title T [] attr x).toOption) attr xs := by
  induction xs generalizing attr with
  | nil => rfl
  | cons x xs ih =>
    rw [unmarshalXMLChildren, decodeChildren]
    cases unmarshalXMLTval reg title T [] attr x with
    | err e => rfl
    | panic => rfl
    | ok out =>
      simp only [Res.ok_bind, Res.toOption_ok, Option.bind_some, List.length_nil, List.drop_zero]
      rw [← ih, unmarshalXMLChildren_append xs out]
      cases unmarshalXMLChildren reg title T [] (nextAttr reg title attr out) xs with
      | err e => rfl
      | panic => rfl
      | ok rest => rfl

/-! ## Elements -/

theorem attrField_leaf (tag type value : GoString) :
    attrField "tag" (attrIfSet "tag" tag ++ attrIfSet "type" type ++ attrIfSet "value" value) = tag ∧
    attrField "type" (attrIfSet "tag" tag ++ attrIfSet "type" type ++ attrIfSet "value" value) = type ∧
    attrField "value" (attrIfSet "tag" tag ++ attrIfSet "type" type ++ attrIfSet "value" value) =
      value := by
  have h1 : lit "tag" ≠ lit "type" := by decide
  have h2 : lit "tag" ≠ lit "value" := by decide
  have h3 : lit "type" ≠ lit "value" := by decide
  simp only [attrField, attrIfSet, List.foldl_append]
  by_cases htag : tag = [] <;> by_cases htype : type = [] <;> by_cases hvalue : value = [] <;>
    simp [htag, htype, hvalue, h1, h2, h3, h1.symm, h2.symm, h3.symm]

/-- A leaf has its tag as an attribute where it has no name. -/
theorem elementTag_leaf (tag : Tag) {attrs : List (Bytes × Bytes)}
    (h : attrField "tag" attrs = (elementName reg tag).2) :
    elementTag (elementName reg tag).1 attrs = reg.formatTag tag := by
  rw [elementTag, h, elementName]
  split
  · rename_i hhex
    rw [if_neg]
    intro hnil
    rw [show reg.formatTag tag = [] from hnil] at hhex
    cases hhex
  · exact if_pos rfl

theorem elementType_typeName (h : reg.Standard title) (ty : Typ) :
    elementType reg (typeName ty) = .ok ty.code := by
  have hne : typeName ty ≠ [] := by
    cases ty <;> decide
  rw [elementType, if_neg hne, h.parseType_typeName]

/-- An element that is read as a leaf with this value. -/
inductive LeafElement (reg : Registry) (x : Xml) (tag : Tag) (ty : Typ) (value : GoString) : Prop
  | mk {name : GoString} {attrs : List (Bytes × Bytes)} {children : List Xml}
      (hx : x = .element name attrs children) (htag : reg.parseTag (elementTag name attrs) = .ok tag)
      (htype : elementType reg (attrField "type" attrs) = .ok ty.code)
      (hvalue : attrField "value" attrs = value) : LeafElement reg x tag ty value

/-- What is returned for a leaf: its item, or the error with its tag and type. -/
def leafResult (tag : Tag) (ty : Typ) : Except XmlErr Prim → Res XmlErr Bytes
  | .ok p => .ok (encodePrim [] tag p)
  | .error e => .err (.syntaxError tag ty.code e)

theorem leafResult_ok (tag : Tag) (ty : Typ) (p : Prim) : leafResult tag ty (.ok p) = .ok (p.item tag) :=
  congrArg Res.ok (encodePrim_eq [] tag p)

/-- The decoder on the element of a leaf. -/
theorem LeafElement.unmarshalXMLTval_eq {x : Xml} {tag : Tag} {ty : Typ} {value : GoString}
    (h : LeafElement reg x tag ty value) (hty : ty ≠ .Structure) (attr : Tag) :
    unmarshalXMLTval reg title T [] attr x = leafResult tag ty (parseValue reg T tag attr value ty) := by
  obtain ⟨rfl, htag, htype, rfl⟩ := h
  rw [unmarshalXMLTval]
  simp only [htag, htype]
  rw [Typ.ofCode_code]
  cases ty with
  | Structure => exact absurd rfl hty
  | _ => rfl

/-- The element that is written for a leaf. -/
theorem leafElement_element (h : reg.Standard title) {tag : Tag} (htag : tag.toNat < 2 ^ 24) (ty : Typ)
    (value : GoString) :
    LeafElement reg (.element (elementName reg tag).1 (attrIfSet "tag" (elementName reg tag).2 ++
      attrIfSet "type" (typeName ty) ++ attrIfSet "value" value) []) tag ty value := by
  obtain ⟨htagAttr, htype, hvalue⟩ := attrField_leaf (elementName reg tag).2 (typeName ty) value
  have hparse := h.parseTag_formatTag htag
  rw [← elementTag_leaf tag htagAttr] at hparse
  exact .mk rfl hparse (by rw [htype, elementType_typeName h]) hvalue

theorem unmarshalXMLTval_leaf (h : reg.Standard title) (attr : Tag) {name : GoString}
    {attrs : List (Bytes × Bytes)} {children : List Xml} {tag : Tag} {ty : Typ}
    (htag : reg.parseTag (elementTag name attrs) = .ok tag)
    (htype : attrField "type" attrs = typeName ty) (hty : ty ≠ .Structure) :
    (unmarshalXMLTval reg title T [] attr (.element name attrs children)).toOption =
      (parseValue reg T tag attr (attrField "value" attrs) ty).toOption.map fun p => p.item tag := by
  have helement : LeafElement reg (.element name attrs children) tag ty (attrField "value" attrs) :=
    .mk rfl htag (by rw [htype, elementType_typeName h]) rfl
  rw [helement.unmarshalXMLTval_eq hty]
  cases parseValue reg T tag attr (attrField "value" attrs) ty with
  | error e => rfl
  | ok p =>
    rw [leafResult_ok]
    rfl

/-- The tag that the element of a structure stands for. -/
def structTag (reg : Registry) (tag : ValidTag) : Option Tag :=
  (reg.parseTag (elementName reg tag.1).1).toOption

theorem unmarshalXMLTval_struct (attr : Tag) (tag : ValidTag) (xs : List Xml) :
    (unmarshalXMLTval reg title T [] attr ((xmlForm reg T).struct tag xs)).toOption =
      (structTag reg tag).bind fun t =>
        (decodeChildren reg title (fun attr x => (unmarshalXMLTval reg title T [] attr x).toOption)
          tagNone xs).map fun body => item t .Structure body := by
  have htag : elementTag (elementName reg tag.1).1 [] = (elementName reg tag.1).1 := if_pos rfl
  have htype : elementType reg (attrField "type" []) = .ok Typ.Structure.code := if_pos rfl
  have hstruct := endStruct_append (r := unmarshalXMLChildren reg title T [] tagNone xs)
    (f := fun buf => unmarshalXMLChildren reg title T buf tagNone xs)
    (fun buf => unmarshalXMLChildren_append xs buf tagNone) []
  rw [structTag, ← unmarshalXMLChildren_toOption]
  change (unmarshalXMLTval reg title T [] attr (.element (elementName reg tag.1).1 [] xs)).toOption = _
  rw [unmarshalXMLTval, htag, htype]
  cases reg.parseTag (elementName reg tag.1).1 with
  | error e => rfl
  | ok t =>
    have hcode : Typ.ofCode Typ.Structure.code = some .Structure := rfl
    simp only [hcode, hstruct]
    cases unmarshalXMLChildren reg title T [] tagNone xs with
    | err e => rfl
    | panic => rfl
    | ok body => rfl

/-! ## Leaves -/

theorem map_spaces_eq_self {s : Bytes} (h : ∀ b ∈ s, b ≠ 32) :
    (s.map fun b => if b = 32 then 124 else b) = s := by
  have hid : ∀ b ∈ s, (if b = 32 then 124 else b) = id b := fun b hb => if_neg (h b hb)
  rw [List.map_congr_left hid, List.map_id]

theorem ne_space_of_mem_intDec {i : Int} {b : UInt8} (h : b ∈ intDec i) : b ≠ 32 := by
  rw [intDec] at h
  have hnat : ∀ n, b ∈ natDec n → b ≠ 32 := by
    rintro n hb rfl
    exact absurd (isDigit_of_mem_natDec hb) (by decide)
  split at h
  · rw [List.mem_cons] at h
    rcases h with rfl | h
    · decide
    · exact hnat _ h
  · exact hnat _ h

theorem parseBool_boolean (b : Bool) : parseBool (if b then lit "true" else lit "false") = some b := by
  cases b <;> decide

/-- The decoder reads back the value of a leaf. -/
theorem parseValue_leafText (h : reg.Standard title) (hT : T.Lawful) {textOk : Bytes → Prop}
    {tag : ValidTag} {l : Leaf} {attr : Tag} (hcanon : LeafPlain reg textOk tag l)
    (hplain : Block.attributeScalar (.leaf tag l) = none ∨ attr = tagNone) :
    parseValue reg T tag.1 attr (leafText reg T tag.1 l) l.ty = .ok l.prim := by
  obtain ⟨⟨-, htext⟩, -⟩ := hcanon
  have hrule := l.rule
  have h32lo := BitVec.le_toInt l.uint32
  have h32hi := BitVec.toInt_lt (x := l.uint32)
  have h64lo := BitVec.le_toInt l.uint64
  have h64hi := BitVec.toInt_lt (x := l.uint64)
  rw [leafText, Leaf.prim]
  cases hty : l.ty with
  | Structure => exact absurd hty (leaf_ty_ne l)
  | Boolean => simp only [parseValue, parseBool_boolean]
  | TextString => rfl
  | Enumeration => simp only [parseValue, enumTag_of_plain hty hplain, h.parseEnum_formatEnum]
  | Integer =>
    have hread : parseInt 32 (intDec l.uint32.toInt) = some l.uint32.toInt :=
      parseInt_intDec (by omega) (by omega)
    simp only [parseValue, map_spaces_eq_self fun b hb => ne_space_of_mem_intDec hb,
      Registry.parseMask, Reg.parseMask, hread, BitVec.ofInt_toInt]
  | LongInteger =>
    have hread : parseInt 64 (intDec l.uint64.toInt) = some l.uint64.toInt :=
      parseInt_intDec (by omega) (by omega)
    simp only [parseValue, hread, BitVec.ofInt_toInt]
  | BigInteger =>
    rw [hty] at hrule
    simp only [parseValue, hasPrefix_hexEncode, hexDecode_hexEncode, hrule.1, unmarshalBigInt_eq]
    rfl
  | ByteString =>
    simp only [parseValue, hasPrefix_hexEncode, hexDecode_hexEncode]
    rfl
  | DateTime =>
    rw [hty] at htext
    simp only [parseValue, hT.parse_format l.time htext]
    rw [Leaf.time, hty]
    rfl
  | DateTimeExtended =>
    rw [hty] at htext
    simp only [parseValue, hT.parse_format l.time htext]
    rw [Leaf.time, hty]
    rfl
  | Interval =>
    have hlt := l.uint32.isLt
    have hread : parseUint 64 (natDec l.uint32.toNat) = some l.uint32.toNat :=
      parseUint_natDec (by omega)
    simp only [parseValue, hread, BitVec.ofNat_toNat]

/-! ## Values of attributes -/

/-- Whatever an attribute value is read as, it is 16 bytes long. -/
theorem length_item_parseValue {tag attr t : Tag} {s : GoString} {ty : Typ} {p : Prim}
    (h : parseValue reg T tag attr s ty = .ok p) (hty : ty = .Enumeration ∨ ty = .Integer) :
    (p.item t).length = 16 := by
  rcases hty with rfl | rfl
  · rw [parseValue] at h
    split at h
    · cases h
      exact (length_item t .Enumeration _).trans (by rw [length_beBytes]; rfl)
    · cases h
  · rw [parseValue] at h
    split at h
    · cases h
      exact (length_item t .Integer _).trans (by rw [length_beBytes]; rfl)
    · cases h

/-- The decoder on an attribute value. -/
theorem unmarshalXMLTval_attributeValue (h : reg.Standard title) (attr attr' : Tag) (l : Leaf) :
    (unmarshalXMLTval reg title T [] attr ((xmlForm reg T).attributeValue attr' l)).toOption =
      (parseValue reg T tagAttributeValue attr (attributeText reg attr' l) l.ty).toOption.map
        fun p => p.item tagAttributeValue := by
  have htag : reg.parseTag (reg.formatTag tagAttributeValue) = .ok tagAttributeValue :=
    h.parseTag_formatTag (by decide)
  exact unmarshalXMLTval_leaf h attr htag rfl (leaf_ty_ne l)

/-- An Integer of an attribute that is not negative. -/
def NotNegative (l : Leaf) : Prop := l.ty = .Integer → 0 ≤ l.uint32.toInt

/-- An attribute value is read back iff it is no negative Integer. -/
theorem unmarshalXMLTval_attributeValue_iff (h : reg.Standard title) {textOk : Bytes → Prop}
    {tag : ValidTag} {l : Leaf} (hcanon : LeafPlain reg textOk tag l) (htag : tag.1 = tagAttributeValue)
    (hty : l.ty = .Enumeration ∨ l.ty = .Integer) {attr : Tag} (hgov : Unmasked reg attr l) :
    (unmarshalXMLTval reg title T [] attr ((xmlForm reg T).attributeValue attr l)).toOption =
      some (Block.leaf tag l).bytes ↔ NotNegative l := by
  have hitem : l.prim.item tagAttributeValue = (Block.leaf tag l).bytes := by
    rw [← htag]
    exact item_prim tag hcanon.1.1
  rw [unmarshalXMLTval_attributeValue h attr attr l]
  rcases hty with hty | hty
  · have hprim : l.prim = .enumeration l.uint32 := by
      rw [Leaf.prim, hty]
    have hshare : reg.SharesName attr (enumTag tagAttributeValue attr) l.uint32 :=
      (sharesName_enumTag h attr tagAttributeValue l.uint32).mpr (Or.inl rfl)
    rw [← h.parseEnum_formatEnum_iff] at hshare
    rw [attributeText, if_pos hty, hty]
    simp only [parseValue, hshare]
    rw [hprim] at hitem
    refine iff_of_true (congrArg some hitem) ?_
    intro hint
    rw [hty] at hint
    cases hint
  · have hprim : l.prim = .integer l.uint32 := by
      rw [Leaf.prim, hty]
    have hspaces : (hexInt l.uint32).map (fun b => if b = 32 then 124 else b) = hexInt l.uint32 := by
      apply map_spaces_eq_self
      rintro b hb rfl
      exact absurd (mem_hexInt hb) (by decide)
    have henum : reg.enumForTag (enumTag tagAttributeValue attr) = none := by
      rw [enumTag]
      split
      · exact hgov hty
      · rw [← htag]
        exact hcanon.2 hty
    rw [attributeText_integer hgov hty, hty]
    simp only [parseValue, hspaces, Registry.parseMask, henum]
    by_cases hneg : l.uint32.toInt < 0
    · rw [parseMask_hexInt_of_neg hneg rfl]
      refine iff_of_false (fun hnone => by cases hnone) ?_
      intro hnot
      have hle := hnot hty
      omega
    · rw [parseMask_hexInt_of_nonneg (by omega)]
      rw [hprim] at hitem
      exact iff_of_true (congrArg some hitem) fun _ => by omega

/-! ## Tags of structures -/

/-- The tag has a name; or it is the low three bytes of a tag that is named TTLV, as the element is. -/
def TagRead (reg : Registry) (tag : ValidTag) : Prop :=
  (reg.tags.name tag.1).isSome = true ∨
    ∃ t, reg.tags.value (lit "TTLV") = some t ∧ t.toNat % 2 ^ 24 = tag.1.toNat

theorem structTag_iff (h : reg.Standard title) (tag : ValidTag) :
    (∃ t, structTag reg tag = some t ∧ t.toNat % 2 ^ 24 = tag.1.toNat) ↔ TagRead reg tag := by
  have hsmall : tag.1.toNat % 2 ^ 24 = tag.1.toNat := Nat.mod_eq_of_lt tag.toNat_lt
  have hread := h.parseTag_formatTag tag.toNat_lt
  rw [structTag, TagRead, elementName]
  cases hname : reg.tags.name tag.1 with
  | some s =>
    have hformat : reg.formatTag tag.1 = s := by
      rw [Registry.formatTag, Reg.formatTag, formatOr, Option.bind_some, hname]
    have hhex := (h.tags.value_of_name title hname).2.1.not_hex
    rw [hformat] at hread
    rw [hformat, hhex]
    refine iff_of_true ⟨tag.1, ?_, hsmall⟩ (Or.inl rfl)
    simp only [Bool.false_eq_true, if_false, hread]
    rfl
  | none =>
    have hformat : reg.formatTag tag.1 = lit "0x" ++ hexPad 6 tag.1.toNat := by
      rw [Registry.formatTag, Reg.formatTag, formatOr, Option.bind_some, hname]
    have hparse : reg.parseTag (lit "TTLV") =
        (reg.tags.value (lit "TTLV")).elim (.error (.unregisteredEnumName (lit "TTLV"))) .ok := by
      have hname : hasPrefix (lit "TTLV") (lit "0x") = false := by decide
      rw [Registry.parseTag, Reg.parseTag, parseHexOrName_of_not_hex hname, Option.bind_some]
    rw [hformat, hasPrefix_append, if_pos rfl, hparse]
    simp only [Option.isSome_none, Bool.false_eq_true, false_or]
    cases reg.tags.value (lit "TTLV") with
    | none =>
      refine iff_of_false ?_ ?_
      · rintro ⟨t, ht, -⟩
        cases ht
      · rintro ⟨t, ht, -⟩
        cases ht
    | some t => rfl

/-! ## The round trip -/

/-- What the decoder does with the documents of the encoder. -/
theorem xmlForm_reads (h : reg.Standard title) (hT : T.Lawful) (textOk : Bytes → Prop) :
    Reads reg title (xmlForm reg T) (fun attr x => (unmarshalXMLTval reg title T [] attr x).toOption)
      (structTag reg) (LeafPlain reg textOk) (Unmasked reg) (TagRead reg) (fun _ => NotNegative) where
  leaf attr tag l hcanon hplain := by
    have helement := leafElement_element h tag.toNat_lt l.ty (leafText reg T tag.1 l)
    have hleaf : unmarshalXMLTval reg title T [] attr ((xmlForm reg T).leaf tag l) = _ :=
      helement.unmarshalXMLTval_eq (leaf_ty_ne l) attr
    rw [hleaf, parseValue_leafText h hT hcanon hplain, leafResult_ok]
    exact congrArg some (item_prim tag hcanon.1.1)
  value_length attr attr' l out hdec hty := by
    rw [unmarshalXMLTval_attributeValue h attr attr' l, Option.map_eq_some_iff] at hdec
    obtain ⟨p, hp, rfl⟩ := hdec
    cases hparse : parseValue reg T tagAttributeValue attr (attributeText reg attr' l) l.ty with
    | error e =>
      rw [hparse] at hp
      cases hp
    | ok q => 
      rw [hparse] at hp
      cases hp
      exact length_item_parseValue hparse hty
  value_iff attr tag l hcanon hscalar hgov := by
    obtain ⟨tag', heq, htag, hty⟩ := attributeScalar_eq_some hscalar
    cases heq
    exact unmarshalXMLTval_attributeValue_iff h hcanon htag hty hgov
  struct attr tag xs out := by
    rw [unmarshalXMLTval_struct, Option.bind_eq_some_iff]
    constructor
    · rintro ⟨t, ht, hbody⟩
      rw [Option.map_eq_some_iff] at hbody
      obtain ⟨body, hbody, rfl⟩ := hbody
      exact ⟨t, body, ht, hbody, rfl⟩
    · rintro ⟨t, body, ht, hbody, rfl⟩
      exact ⟨t, ht, by rw [hbody]; rfl⟩
  tag_iff tag := structTag_iff h tag

/-- The conditions of the round trip: a structure's tag has a name, the tag of attribute values is
    named AttributeValue, no Integer of an attribute is negative, and no name begins with a digit. -/
def XmlReadable (reg : Registry) (title : Bytes → Bytes) (b : Block) : Prop :=
  Faithful reg title (TagRead reg) (fun _ l => ValueNamed reg ∧ NotNegative l) b ∧ NamesRead reg b

/-- These are the conditions of the encoder, of the decoder and of the library. -/
theorem xmlReadable_iff {reg : Registry} {title : Bytes → Bytes} (b : Block) :
    XmlReadable reg title b ↔ TagsMatch reg title b ∧
      Faithful reg title (TagRead reg) (fun _ => NotNegative) b ∧ NamesRead reg b := by
  rw [← and_assoc, TagsMatch, ← faithful_and_iff, XmlReadable]
  simp only [true_and]

/-- A canonical block without masks is written, and what is written is read back as the same bytes, iff
    these conditions hold throughout the block. -/
theorem unmarshalXML_encodeXML_iff {X : XmlCodec} (h : reg.Standard title) (hX : X.Lawful)
    (hT : T.Lawful) {b : Block} (hsize : b.Sized)
    (hb : TextBlock reg (fun s => xmlSafe s = true) title b) :
    (∃ text, encodeXML reg title X T b.bytes = .ok text ∧
      unmarshalXML reg title X T text = .ok b.bytes) ↔ XmlReadable reg title b := by
  have hreads := (xmlForm_reads h hT _).decode_encode_iff hb
  rw [Res.toOption_eq_some] at hreads
  have hworded := worded_encode h hT b hb
  have hnamed : ((xmlForm reg T).encode reg title b).Named ↔ NamesRead reg b := named_encode_iff b
  rw [xmlReadable_iff, ← hreads, ← hnamed]
  constructor
  · rintro ⟨text, htext, hread⟩
    have hmatch := tagsMatch_of_encodeXML h hsize htext
    rw [encodeXML_block h hsize hb hmatch] at htext
    cases htext
    by_cases hnames : ((xmlForm reg T).encode reg title b).Named
    · rw [unmarshalXML, hX.read_write _ ⟨hworded, hnames⟩] at hread
      exact ⟨hmatch, hread, hnames⟩
    · -- the library refuses the document
      rw [unmarshalXML, hX.refuses _ hworded hnames] at hread
      cases hread
  · rintro ⟨hmatch, hread, hnames⟩
    refine ⟨_, encodeXML_block h hsize hb hmatch, ?_⟩
    rw [unmarshalXML, hX.read_write _ ⟨hworded, hnames⟩]
    exact hread

end

theorem namesRead_objectTypeAttribute : NamesRead attributeRegistry objectTypeAttribute := by
  have hattribute : startsWithDigit (elementName attributeRegistry 0x420008).1 = false := by decide +kernel
  have hname : startsWithDigit (elementName attributeRegistry 0x42000a).1 = false := by decide +kernel
  have hvalue : startsWithDigit (attributeRegistry.formatTag tagAttributeValue) = false := by decide +kernel
  exact ⟨hattribute, hname, hvalue, trivial⟩

/-- An attribute with its tags registered is read back. -/
theorem unmarshalXML_encodeXML_objectType :
    ∃ text, encodeXML attributeRegistry id compactXml plainTime objectTypeAttribute.bytes = .ok text ∧
      unmarshalXML attributeRegistry id compactXml plainTime text = .ok objectTypeAttribute.bytes :=
  (unmarshalXML_encodeXML_iff attributeRegistry_standard compactXml_lawful plainTime_lawful
    objectTypeAttribute_sized (textBlock_objectTypeAttribute _ (by decide +kernel))).mpr
    ⟨⟨Or.inl (by decide +kernel), trivial, ⟨by decide +kernel, fun hty => by cases hty⟩, trivial⟩,
      namesRead_objectTypeAttribute⟩

/-- A structure under a tag without a name, with one leaf. -/
def customStruct : Bytes :=
  item 0x540001 .Structure (item 0x420057 .Enumeration [0, 0, 0, 2])

/-- An attribute whose value is the Integer −1. -/
def negativeAttribute : Bytes :=
  item 0x420008 .Structure (item 0x42000a .TextString (lit "x-count") ++
    item 0x42000b .Integer [255, 255, 255, 255])

/-- The tag of a structure is not written; a negative Integer of an attribute is not read; without a
    name for the tag of attribute values nothing is written at all. -/
theorem encodeXML_unreadable :
    encodeXML attributeRegistry id compactXml plainTime customStruct =
      .ok (lit "<TTLV><ObjectType type=\"Enumeration\" value=\"SymmetricKey\"></ObjectType></TTLV>") ∧
    unmarshalXML attributeRegistry id compactXml plainTime
        (lit "<TTLV><ObjectType type=\"Enumeration\" value=\"SymmetricKey\"></ObjectType></TTLV>") =
      .err (.invalidTag (.unregisteredEnumName (lit "TTLV"))) ∧
    (encodeXML attributeRegistry id compactXml plainTime negativeAttribute >>= fun text =>
        .ok (unmarshalXML attributeRegistry id compactXml plainTime text)) =
      .ok (.err (.syntaxError 0x42000b 2 (.parse (.unregisteredEnumName (lit "-0x0000001"))))) ∧
    encodeXML typesRegistry id compactXml plainTime objectTypeAttribute.bytes =
      .err (.mismatch (lit "AttributeValue") (lit "0x42000b")) := by
  decide +kernel

end KmipGo.XmlForm
