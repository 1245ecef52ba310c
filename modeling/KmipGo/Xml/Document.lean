import KmipGo.Xml.Encode

/-! # The XML document of a block

`xmlForm` is the tree of elements that `MarshalXML` writes for a block.  It is
written without an error iff the start and end tags of the attribute values in
the block have the same name (`marshalXML_block`, `marshalXML_named`); a library
reads it back, unless a name begins with a digit (`worded_encode`, `named_encode_iff`).
-/

namespace KmipGo.XmlForm

open KmipGo.Lib KmipGo.Ttlv KmipGo.Reg KmipGo.Text

section

variable (reg : Registry) (T : TimeCodec)

/-- The value of a leaf that is not written as a mask. -/
def leafText (tag : Tag) (l : Leaf) : GoString :=
  match l.ty with
  | .Boolean => if l.boolean then lit "true" else lit "false"
  | .Enumeration => reg.formatEnum tag l.uint32
  | .Integer => intDec l.uint32.toInt
  | .LongInteger => intDec l.uint64.toInt
  | .BigInteger | .ByteString => hexEncode l.value
  | .TextString => l.value
  | .DateTime | .DateTimeExtended => T.format l.time
  | .Interval => natDec l.uint32.toNat
  | .Structure => []

def attributeText (attr : Tag) (l : Leaf) : GoString :=
  if l.ty = .Enumeration then reg.formatEnum attr l.uint32 else reg.formatInt attr l.uint32

def xmlForm : Form Xml where
  leaf tag l := .element (elementName reg tag.1).1 (attrIfSet "tag" (elementName reg tag.1).2 ++
    attrIfSet "type" (typeName l.ty) ++ attrIfSet "value" (leafText reg T tag.1 l)) []
  attributeValue attr l := .element (reg.formatTag tagAttributeValue)
    [(lit "type", typeName l.ty), (lit "value", attributeText reg attr l)] []
  struct tag children := .element (elementName reg tag.1).1 [] children

/-- The tag of attribute values has the name that its end tags have. -/
def ValueNamed (reg : Registry) : Prop := reg.formatTag tagAttributeValue = lit "AttributeValue"

instance : Decidable (ValueNamed reg) := inferInstanceAs (Decidable (_ = _))

/-- The start and end tags of the attribute values in a block match. -/
def TagsMatch (title : Bytes → Bytes) : Block → Prop :=
  Faithful reg title (fun _ => True) (fun _ _ => ValueNamed reg)

end

section

variable {reg : Registry} {title : Bytes → Bytes} {T : TimeCodec}

/-! ## Names -/

theorem formatTag_ne_nil (h : reg.Standard title) (t : Tag) : reg.formatTag t ≠ [] := by
  rw [Registry.formatTag, Reg.formatTag, formatOr, Option.bind_some]
  cases hname : reg.tags.name t with
  | none => exact fun hnil => by cases hnil
  | some s => exact (h.tags.value_of_name title hname).2.1.ne_nil

theorem elementName_ne_nil (h : reg.Standard title) (t : Tag) : (elementName reg t).1 ≠ [] := by
  rw [elementName]
  split
  · exact fun hnil => by cases hnil
  · exact formatTag_ne_nil h t

/-! ## Values of leaves -/

/-- The value of a leaf is its text. -/
theorem valueAttr_leaf {textOk : Bytes → Prop} {tag : ValidTag} {l : Leaf}
    (hcanon : LeafPlain reg textOk tag l) (rest : Bytes) :
    valueAttr reg T ((Block.leaf tag l).bytes ++ rest) l.ty = .ok (leafText reg T tag.1 l) := by
  have hmask := hcanon.2
  have htag : TTLV.tag ((Block.leaf tag l).bytes ++ rest) = tag.1 := tag_bytes_append _ _
  rw [leafText]
  cases hty : l.ty with
  | Structure => exact absurd hty (leaf_ty_ne l)
  | Boolean =>
    simp only [valueAttr, valueBoolean_leaf rest hty]
    rfl
  | Enumeration =>
    simp only [valueAttr, valueEnumeration_leaf rest hty, htag]
    rfl
  | Integer =>
    simp only [valueAttr, valueInteger_leaf rest (Or.inl hty), htag, hmask hty]
    rfl
  | LongInteger =>
    simp only [valueAttr, valueLongInteger_leaf rest (Or.inl hty)]
    rfl
  | BigInteger | ByteString =>
    simp only [valueAttr, raw_leaf_append]
    rfl
  | TextString =>
    simp only [valueAttr, TTLV.valueTextString, raw_leaf_append]
    rfl
  | DateTime =>
    simp only [valueAttr, valueDateTime_leaf rest (Or.inl hty)]
    rfl
  | DateTimeExtended =>
    simp only [valueAttr, valueDateTime_leaf rest (Or.inr hty)]
    rfl
  | Interval =>
    simp only [valueAttr, uint32BE_raw_leaf rest hty]
    rfl

theorem encodeElement_eq (e : XmlEncoder) {name : GoString} (h : name ≠ [])
    (attrs : List (Bytes × Bytes)) :
    encodeElement e name attrs = .ok ⟨e.tags, e.out ++ (Xml.element name attrs []).tokens⟩ := by
  rw [encodeElement, XmlEncoder.encodeToken_start e h]
  simp only [ofExcept, Res.ok_bind, XmlEncoder.encodeToken_stop h, Xml.tokens, Xml.allTokens,
    List.nil_append, List.append_assoc, List.singleton_append]

/-! ## Attribute values -/

theorem encodeAttributeValue_eq (h : reg.Standard title) (hnamed : ValueNamed reg) (e : XmlEncoder)
    (typ value : GoString) :
    encodeAttributeValue reg e typ value = .ok ⟨e.tags, e.out ++
      (Xml.element (reg.formatTag tagAttributeValue)
        [(lit "type", typ), (lit "value", value)] []).tokens⟩ := by
  have hne := formatTag_ne_nil h tagAttributeValue
  rw [encodeAttributeValue, XmlEncoder.encodeToken_start e hne]
  rw [ValueNamed] at hnamed
  simp only [ofExcept, Res.ok_bind, ← hnamed, XmlEncoder.encodeToken_stop hne, Xml.tokens,
    Xml.allTokens, List.nil_append, List.append_assoc, List.singleton_append]

/-- Tags that do not match are an error. -/
theorem named_of_encodeAttributeValue {e e' : XmlEncoder} {typ value : GoString}
    (h : encodeAttributeValue reg e typ value = .ok e') : ValueNamed reg := by
  rw [encodeAttributeValue, Res.bind_eq_ok] at h
  obtain ⟨e₁, hstart, hstop⟩ := h
  by_cases hne : reg.formatTag tagAttributeValue = []
  · rw [XmlEncoder.encodeToken, if_pos hne] at hstart
    cases hstart
  · rw [XmlEncoder.encodeToken_start e hne] at hstart
    cases hstart
    have hlit : lit "AttributeValue" ≠ [] := by decide
    by_contra hmismatch
    rw [XmlEncoder.encodeToken, if_neg hlit] at hstop
    simp only [if_neg hne, ne_eq] at hstop
    rw [ValueNamed] at hmismatch
    rw [if_pos hmismatch] at hstop
    cases hstop

/-- A child that is an attribute value. -/
theorem encodeChild_attributeValue (h : reg.Standard title) {tag : ValidTag} {l : Leaf}
    (htag : tag.1 = tagAttributeValue) (hty : l.ty = .Enumeration ∨ l.ty = .Integer) (attr : Tag)
    (rest : Bytes) (other : Res XmlTokenErr XmlEncoder) (e : XmlEncoder) :
    encodeChild reg attr ((Block.leaf tag l).bytes ++ rest) other e =
      encodeAttributeValue reg e (typeName l.ty) (attributeText reg attr l) := by
  have hbtag : TTLV.tag ((Block.leaf tag l).bytes ++ rest) = tagAttributeValue :=
    (tag_bytes_append _ _).trans htag
  have hcode : TTLV.typeByte ((Block.leaf tag l).bytes ++ rest) = l.ty.code := by
    rw [Block.bytes, List.append_assoc, typeByte_header_append]
  have hscalar : some l.ty = some Typ.Enumeration ∨ some l.ty = some Typ.Integer :=
    hty.imp (congrArg some) (congrArg some)
  rw [encodeChild, typ_leaf_append, if_pos ⟨hbtag, hscalar⟩, hcode, h.formatType_code, attributeText]
  rcases hty with hty | hty
  · rw [if_pos (congrArg some hty), if_pos hty, valueEnumeration_leaf rest hty]
    rfl
  · have hne : ¬ l.ty = .Enumeration := by
      rw [hty]
      decide
    rw [if_neg (fun hc => hne (Option.some.inj hc)), if_neg hne, valueInteger_leaf rest (Or.inl hty)]
    rfl

theorem encodeChild_other {c : Block} (h : Block.attributeScalar c = none) (attr : Tag) (rest : Bytes)
    (other : Res XmlTokenErr XmlEncoder) (e : XmlEncoder) :
    encodeChild reg attr (c.bytes ++ rest) other e = other := by
  rw [attributeScalar_eq_none_iff c rest] at h
  rw [encodeChild, if_neg h]

/-! ## Structures -/

/-- A marshaler that writes `ts` and leaves nothing open. -/
theorem encodeMarshaler_eq {marshal : XmlEncoder → Res XmlTokenErr XmlEncoder} {ts : List XmlToken}
    (h : ∀ e, marshal e = .ok ⟨e.tags, e.out ++ ts⟩) (e : XmlEncoder) :
    encodeMarshaler marshal e = .ok ⟨e.tags, e.out ++ ts⟩ := by
  rw [encodeMarshaler, h]
  simp only [XmlEncoder.openMarshaler, Res.ok_bind, XmlEncoder.closeMarshaler_openMarshaler, ofExcept]

/-- The loop goes from a child to the next one. -/
theorem marshalXMLChildren_cons {c : Block} (cs : List Block) (hsize : c.Sized) (attr : Tag)
    (e : XmlEncoder) :
    marshalXMLChildren reg title T attr (blocksBytes (c :: cs)) e =
      (encodeChild reg (nextAttr reg title attr c.bytes) (c.bytes ++ blocksBytes cs)
        (encodeMarshaler (fun e => marshalXML reg title T (c.bytes ++ blocksBytes cs) e) e) e >>=
        marshalXMLChildren reg title T (nextAttr reg title attr c.bytes) (blocksBytes cs)) := by
  rw [blocksBytes, marshalXMLChildren, if_neg (bytes_append_length_ne_zero _ _)]
  simp only [nextAttr_bytes_append reg title hsize]
  congr 1
  funext e'
  split
  · rename_i hnext
    rw [next_bytes_append c _ hsize] at hnext
    cases cs with
    | nil =>
      rw [blocksBytes, marshalXMLChildren, if_pos List.length_nil]
      rfl
    | cons d ds =>
      rw [blocksBytes, if_neg (bytes_append_length_ne_zero d _)] at hnext
      cases hnext
  · rename_i m hnext
    rw [next_bytes_append c _ hsize] at hnext
    split at hnext
    · cases hnext
    · cases hnext
      rfl

mutual
/-- `MarshalXML` writes the document of the block where all tags match. -/
theorem marshalXML_block (h : reg.Standard title) {textOk : Bytes → Prop} :
    ∀ (b : Block) (rest : Bytes), b.Sized → TextBlock reg textOk title b → TagsMatch reg title b →
    ∀ e, marshalXML reg title T (b.bytes ++ rest) e =
      .ok ⟨e.tags, e.out ++ ((xmlForm reg T).encode reg title b).tokens⟩
  | .leaf tag l, rest, hsize, hcanon, _, e => by
    have hstruct : ¬ some l.ty = some Typ.Structure := fun hty => leaf_ty_ne l (Option.some.inj hty)
    have hcode : TTLV.typeByte ((Block.leaf tag l).bytes ++ rest) = l.ty.code := by
      rw [Block.bytes, List.append_assoc, typeByte_header_append]
    rw [marshalXML, dif_neg (bytes_append_length_ne_zero _ _)]
    simp only [typ_leaf_append, if_neg hstruct, valueAttr_leaf hcanon, Res.ok_bind, tag_bytes_append,
      hcode, h.formatType_code]
    exact encodeElement_eq e (elementName_ne_nil h tag.1) _
  | .struct tag cs, rest, hsize, hcanon, hmatch, e => by
    have hne := elementName_ne_nil h tag.1
    have hchildren := marshalXMLChildren_blocks h cs tagNone
      (fun c hc => Sized.of_mem hc hsize) hcanon hmatch.2
    rw [marshalXML, dif_neg (bytes_append_length_ne_zero _ _)]
    simp only [typ_struct_append, if_true, raw_struct_append tag cs rest hsize, tag_bytes_append,
      Block.tag, XmlEncoder.encodeToken_start e hne, ofExcept, Res.ok_bind, hchildren,
      XmlEncoder.encodeToken_stop hne]
    have hdoc : ((xmlForm reg T).encode reg title (.struct tag cs)).tokens =
        .start (elementName reg tag.1).1 [] ::
          (Xml.allTokens ((xmlForm reg T).encodeChildren reg title tagNone cs) ++
            [.stop (elementName reg tag.1).1]) := by
      rw [Form.encode]
      exact Xml.tokens.eq_1 ..
    rw [hdoc]
    simp only [List.append_assoc, List.cons_append, List.nil_append]

theorem marshalXMLChildren_blocks (h : reg.Standard title) {textOk : Bytes → Prop} :
    ∀ (cs : List Block) (attr : Tag), (∀ c ∈ cs, c.Sized) →
    ChildrenCanonical reg title (LeafPlain reg textOk) (Unmasked reg) attr cs →
    ChildrenFaithful reg title (fun _ => True) (fun _ _ => ValueNamed reg) attr cs →
    ∀ e, marshalXMLChildren reg title T attr (blocksBytes cs) e =
      .ok ⟨e.tags, e.out ++ Xml.allTokens ((xmlForm reg T).encodeChildren reg title attr cs)⟩
  | [], attr, _, _, _, e => by
    rw [blocksBytes, marshalXMLChildren, if_pos List.length_nil, Form.encodeChildren, Xml.allTokens,
      List.append_nil]
  | c :: cs, attr, hsize, hcanon, hmatch, e => by
    obtain ⟨hc, -, hcs⟩ := hcanon
    obtain ⟨hfirst, hothers⟩ := hmatch
    have hcsize : c.Sized := hsize c (List.mem_cons_self ..)
    have hrest := marshalXMLChildren_blocks h cs (nextAttr reg title attr c.bytes)
      (fun d hd => hsize d (List.mem_cons_of_mem _ hd)) hcs hothers
    rw [marshalXMLChildren_cons cs hcsize, Form.encodeChildren, Xml.allTokens]
    cases hscalar : Block.attributeScalar c with
    | none =>
      rw [hscalar] at hfirst
      rw [encodeChild_other hscalar,
        encodeMarshaler_eq (marshalXML_block h c (blocksBytes cs) hcsize hc hfirst)]
      simp only [Res.ok_bind, hrest, List.append_assoc]
    | some l =>
      rw [hscalar] at hfirst
      obtain ⟨tag, rfl, htag, hty⟩ := attributeScalar_eq_some hscalar
      rw [encodeChild_attributeValue h htag hty, encodeAttributeValue_eq h hfirst]
      simp only [Res.ok_bind, hrest, List.append_assoc]
      rfl
end

mutual
/-- A block that is written has matching tags throughout. -/
theorem marshalXML_named (h : reg.Standard title) : ∀ (b : Block) (rest : Bytes), b.Sized →
    ∀ e e', marshalXML reg title T (b.bytes ++ rest) e = .ok e' → TagsMatch reg title b
  | .leaf _ _, _, _, _, _, _ => trivial
  | .struct tag cs, rest, hsize, e, e', hok => by
    rw [marshalXML, dif_neg (bytes_append_length_ne_zero _ _)] at hok
    simp only [typ_struct_append, if_true, raw_struct_append tag cs rest hsize] at hok
    rw [Res.bind_eq_ok] at hok
    obtain ⟨e₁, -, hok⟩ := hok
    rw [Res.bind_eq_ok] at hok
    obtain ⟨e₂, hchildren, -⟩ := hok
    exact ⟨trivial, marshalXMLChildren_named h cs tagNone (fun c hc => Sized.of_mem hc hsize) e₁ e₂
      hchildren⟩

theorem marshalXMLChildren_named (h : reg.Standard title) : ∀ (cs : List Block) (attr : Tag),
    (∀ c ∈ cs, c.Sized) →
    ∀ e e', marshalXMLChildren reg title T attr (blocksBytes cs) e = .ok e' →
    ChildrenFaithful reg title (fun _ => True) (fun _ _ => ValueNamed reg) attr cs
  | [], _, _, _, _, _ => trivial
  | c :: cs, attr, hsize, e, e', hok => by
    have hcsize : c.Sized := hsize c (List.mem_cons_self ..)
    rw [marshalXMLChildren_cons cs hcsize, Res.bind_eq_ok] at hok
    obtain ⟨e₁, hchild, hrest⟩ := hok
    refine ⟨?_, marshalXMLChildren_named h cs _ (fun d hd => hsize d (List.mem_cons_of_mem _ hd)) e₁ e'
      hrest⟩
    cases hscalar : Block.attributeScalar c with
    | none =>
      rw [encodeChild_other hscalar, encodeMarshaler, Res.bind_eq_ok] at hchild
      obtain ⟨e₂, hmarshal, -⟩ := hchild
      exact marshalXML_named h c (blocksBytes cs) hcsize _ e₂ hmarshal
    | some l =>
      obtain ⟨tag, rfl, htag, hty⟩ := attributeScalar_eq_some hscalar
      rw [encodeChild_attributeValue h htag hty] at hchild
      exact named_of_encodeAttributeValue hchild
end

/-- The text of a block whose tags match. -/
theorem encodeXML_block {X : XmlCodec} (h : reg.Standard title) {textOk : Bytes → Prop} {b : Block}
    (hsize : b.Sized) (hb : TextBlock reg textOk title b) (hmatch : TagsMatch reg title b) :
    encodeXML reg title X T b.bytes = .ok (X.write ((xmlForm reg T).encode reg title b).tokens) := by
  have hmarshal := marshalXML_block (T := T) h b [] hsize hb hmatch
  rw [List.append_nil] at hmarshal
  rw [encodeXML, encodeMarshaler_eq hmarshal]
  rfl

theorem tagsMatch_of_encodeXML {X : XmlCodec} (h : reg.Standard title) {b : Block} (hsize : b.Sized)
    {text : Bytes} (hok : encodeXML reg title X T b.bytes = .ok text) : TagsMatch reg title b := by
  rw [encodeXML, Res.bind_eq_ok] at hok
  obtain ⟨e, hmarshal, -⟩ := hok
  rw [encodeMarshaler, Res.bind_eq_ok] at hmarshal
  obtain ⟨e', hwrite, -⟩ := hmarshal
  rw [← List.append_nil b.bytes] at hwrite
  exact marshalXML_named h b [] hsize _ e' hwrite

/-! ## Documents that are read back -/

theorem isNameByte_of_wordByte {b : UInt8} (h : WordByte b) : isNameByte b = true := by
  rw [WordByte, isWordRune_iff] at h
  rw [isNameByte, decide_eq_true_eq]
  omega

theorem xmlSafe_of_plain {s : Bytes} (h : ∀ b ∈ s, PlainByte b) : xmlSafe s = true := by
  apply xmlSafe_of_printable
  intro b hb
  have hplain := h b hb
  exact ⟨hplain.1, by have hlt := hplain.2.1; omega⟩

theorem plain_formatTag (h : reg.Standard title) (t : Tag) : ∀ b ∈ reg.formatTag t, PlainByte b :=
  fun _ hb => plainByte_of_wordByte (h.wordByte_of_mem_formatTag hb)

theorem plain_formatEnum (h : reg.Standard title) (t : Tag) (v : BitVec 32) :
    ∀ b ∈ reg.formatEnum t v, PlainByte b :=
  fun _ hb => plainByte_of_wordByte (h.wordByte_of_mem_formatEnum hb)

theorem isWord_formatTag (h : reg.Standard title) (t : Tag) : IsWord (reg.formatTag t) :=
  ⟨formatTag_ne_nil h t, fun _ hb => isNameByte_of_wordByte (h.wordByte_of_mem_formatTag hb)⟩

theorem isWord_elementName (h : reg.Standard title) (t : Tag) : IsWord (elementName reg t).1 := by
  rw [elementName]
  split
  · have hname : IsName (lit "TTLV") := by decide
    exact hname.1
  · exact isWord_formatTag h t

theorem plain_natDec (n : Nat) : ∀ b ∈ natDec n, PlainByte b := by
  intro b hb
  have hdigit := isDigit_of_mem_natDec hb
  apply plainByte_of_wordByte
  rw [WordByte, isWordRune_iff]
  exact Or.inr (Or.inr (Or.inl hdigit))

theorem plain_intDec (i : Int) : ∀ b ∈ intDec i, PlainByte b := by
  intro b hb
  rw [intDec] at hb
  split at hb
  · rw [List.mem_cons] at hb
    rcases hb with rfl | hb
    · decide
    · exact plain_natDec _ b hb
  · exact plain_natDec _ b hb

theorem plain_hexInt (i : BitVec 32) : ∀ b ∈ hexInt i, PlainByte b := by
  have hlit : ∀ b ∈ lit "-0x", PlainByte b := forall_mem_of_all (by decide)
  have hhex : ∀ b ∈ lit "0x", PlainByte b := forall_mem_of_all (by decide)
  intro b hb
  rw [hexInt] at hb
  split at hb
  · rw [List.mem_append] at hb
    exact hb.elim (hlit b) fun hb => plainByte_of_wordByte (wordByte_of_mem_hexPad hb)
  · rw [List.mem_append] at hb
    exact hb.elim (hhex b) fun hb => plainByte_of_wordByte (wordByte_of_mem_hexPad hb)

theorem xmlSafe_leafText (h : reg.Standard title) (hT : T.Lawful) {tag : ValidTag} {l : Leaf}
    (hcanon : LeafPlain reg (fun s => xmlSafe s = true) tag l) :
    xmlSafe (leafText reg T tag.1 l) = true := by
  obtain ⟨⟨-, htext⟩, -⟩ := hcanon
  rw [leafText]
  cases hty : l.ty with
  | Structure => exact absurd hty (leaf_ty_ne l)
  | Boolean =>
    simp only
    split
    · exact xmlSafe_of_plain (forall_mem_of_all (by decide))
    · exact xmlSafe_of_plain (forall_mem_of_all (by decide))
  | Enumeration => exact xmlSafe_of_plain (plain_formatEnum h _ _)
  | Integer | LongInteger => exact xmlSafe_of_plain (plain_intDec _)
  | BigInteger | ByteString => exact xmlSafe_of_plain fun b hb => plainByte_of_mem_hexEncode hb
  | TextString =>
    rw [hty] at htext
    exact htext
  | DateTime | DateTimeExtended =>
    rw [hty] at htext
    exact xmlSafe_of_plain (hT.format_plain l.time htext)
  | Interval => exact xmlSafe_of_plain (plain_natDec _)

/-- Without an enumeration an Integer of an attribute is written in hex. -/
theorem attributeText_integer {attr : Tag} {l : Leaf} (hgov : Unmasked reg attr l)
    (hty : l.ty = .Integer) : attributeText reg attr l = hexInt l.uint32 := by
  have hne : ¬ l.ty = .Enumeration := by
    rw [hty]
    decide
  rw [attributeText, if_neg hne, Registry.formatInt, hgov hty, Reg.formatInt]

theorem xmlSafe_attributeText (h : reg.Standard title) {attr : Tag} {l : Leaf}
    (hgov : Unmasked reg attr l) (hty : l.ty = .Enumeration ∨ l.ty = .Integer) :
    xmlSafe (attributeText reg attr l) = true := by
  rcases hty with hty | hty
  · rw [attributeText, if_pos hty]
    exact xmlSafe_of_plain (plain_formatEnum h _ _)
  · rw [attributeText_integer hgov hty]
    exact xmlSafe_of_plain (plain_hexInt _)

theorem writable_attrIfSet {name : String} (hname : IsName (lit name)) {value : GoString}
    (hvalue : xmlSafe value = true) : ∀ a ∈ attrIfSet name value, IsName a.1 ∧ xmlSafe a.2 = true := by
  intro a ha
  rw [attrIfSet] at ha
  split at ha
  · cases ha
  · rw [List.mem_singleton] at ha
    rw [ha]
    exact ⟨hname, hvalue⟩

/-- The element of a leaf can be written when its value can. -/
theorem worded_leaf (h : reg.Standard title) (tag : Tag) (ty : Typ) {value : GoString}
    (hvalue : xmlSafe value = true) :
    (Xml.element (elementName reg tag).1 (attrIfSet "tag" (elementName reg tag).2 ++
      attrIfSet "type" (typeName ty) ++ attrIfSet "value" value) []).Worded := by
  have hhex : xmlSafe (elementName reg tag).2 = true := by
    rw [elementName]
    split
    · exact xmlSafe_of_plain (plain_formatTag h _)
    · exact xmlSafe_of_plain fun b hb => by cases hb
  refine ⟨isWord_elementName h tag, ?_, trivial⟩
  intro a ha
  rw [List.mem_append, List.mem_append] at ha
  rcases ha with (ha | ha) | ha
  · exact writable_attrIfSet (by decide) hhex a ha
  · exact writable_attrIfSet (by decide) (xmlSafe_of_plain (plain_typeName ty)) a ha
  · exact writable_attrIfSet (by decide) hvalue a ha

mutual
theorem worded_encode (h : reg.Standard title) (hT : T.Lawful) : ∀ b : Block,
    TextBlock reg (fun s => xmlSafe s = true) title b →
    ((xmlForm reg T).encode reg title b).Worded
  | .leaf tag l, hcanon => worded_leaf h tag.1 l.ty (xmlSafe_leafText h hT hcanon)
  | .struct tag cs, hcanon => by
    refine ⟨isWord_elementName h tag.1, ?_, worded_encodeChildren h hT cs tagNone hcanon⟩
    intro a ha
    cases ha

theorem worded_encodeChildren (h : reg.Standard title) (hT : T.Lawful) :
    ∀ (cs : List Block) (attr : Tag),
    ChildrenCanonical reg title (LeafPlain reg fun s => xmlSafe s = true) (Unmasked reg) attr cs →
    Xml.AllWorded ((xmlForm reg T).encodeChildren reg title attr cs)
  | [], _, _ => trivial
  | c :: cs, attr, hcanon => by
    have htype : IsName (lit "type") := by decide
    have hvalue : IsName (lit "value") := by decide
    refine ⟨?_, worded_encodeChildren h hT cs _ hcanon.2.2⟩
    cases hscalar : Block.attributeScalar c with
    | none => exact worded_encode h hT c hcanon.1
    | some l =>
      obtain ⟨-, -, -, hty⟩ := attributeScalar_eq_some hscalar
      have htext := xmlSafe_attributeText h (hcanon.2.1 l hscalar) hty
      refine ⟨isWord_formatTag h _, ?_, trivial⟩
      intro a ha
      rw [List.mem_cons, List.mem_singleton] at ha
      rcases ha with rfl | rfl
      · exact ⟨htype, xmlSafe_of_plain (plain_typeName l.ty)⟩
      · exact ⟨hvalue, htext⟩
end

/-! ## Names that are read back -/

section

variable (reg)

mutual
/-- No tag of the block has a name that begins with a digit. -/
def NamesRead : Block → Prop
  | .leaf tag _ => startsWithDigit (elementName reg tag.1).1 = false
  | .struct tag cs => startsWithDigit (elementName reg tag.1).1 = false ∧ ChildrenNamesRead cs

def ChildrenNamesRead : List Block → Prop
  | [] => True
  | c :: cs =>
    (match Block.attributeScalar c with
      | some _ => startsWithDigit (reg.formatTag tagAttributeValue) = false
      | none => NamesRead c) ∧ ChildrenNamesRead cs
end

end

mutual
theorem named_encode_iff : ∀ b : Block, ((xmlForm reg T).encode reg title b).Named ↔ NamesRead reg b
  | .leaf _ _ => and_iff_left trivial
  | .struct _ cs => and_congr_right fun _ => named_encodeChildren_iff cs tagNone

theorem named_encodeChildren_iff : ∀ (cs : List Block) (attr : Tag),
    Xml.AllNamed ((xmlForm reg T).encodeChildren reg title attr cs) ↔ ChildrenNamesRead reg cs
  | [], _ => Iff.rfl
  | c :: cs, attr => by
    have hrest := named_encodeChildren_iff cs (nextAttr reg title attr c.bytes)
    rw [Form.encodeChildren, Xml.AllNamed, ChildrenNamesRead, hrest]
    cases hscalar : Block.attributeScalar c with
    | none =>
      simp only [named_encode_iff c]
    | some l =>
      simp only [xmlForm, Xml.Named, Xml.AllNamed, and_true]
end

end

end KmipGo.XmlForm
