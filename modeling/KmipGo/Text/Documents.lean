import KmipGo.Json.RoundTrip
import KmipGo.Text.Accepted
import KmipGo.Xml.RoundTrip

/-! # Accepted documents

`UnmarshalJSON` and `UnmarshalXML` on arbitrary documents.  Tags and types may be
given in hex.  A type without a case is accepted and leaves nothing behind, and a
tag outside of the ranges of the specification is written as it is.

* `accepted_valid_iff` — an accepted document gives a valid block that mirrors it iff
  each of its types has a case and each of its tags is valid.
-/

namespace KmipGo.Text

open KmipGo.Lib KmipGo.Ttlv KmipGo.Reg

section

variable (reg : Registry) (title : Bytes → Bytes) (T : TimeCodec)

/-! ## JSON -/

/-- The children of a structure: a list, or null for none. -/
def arrayItems : Option Json → List Json
  | some (.array items) => items
  | _ => []

def viewType (tag : Tag) (tp : UInt8) {D : Type} (children : List D) : View D :=
  match Typ.ofCode tp with
  | none => .unknown
  | some .Structure => .struct tag children
  | some ty => .leaf tag ty

def jsonView (j : Json) : View Json :=
  match JsonForm.decodeTval j with
  | none => .unknown
  | some tv =>
    match reg.parseTag tv.tag, JsonForm.decodeType reg tv.type with
    | .ok tag, .ok tp => viewType tag tp (arrayItems tv.value)
    | _, _ => .unknown

/-- `unmarshalJSON` where it returns a value. -/
def jsonDec (attr : Tag) (j : Json) : Option Bytes := (JsonForm.decodeJSON reg title T attr j).toOption

/-! ## XML -/

def xmlView : Xml → View Xml
  | .element name attrs children =>
    match reg.parseTag (XmlForm.elementTag name attrs),
      XmlForm.elementType reg (XmlForm.attrField "type" attrs) with
    | .ok tag, .ok tp => viewType tag tp children
    | _, _ => .unknown

/-- `unmarshalXMLTval` on an empty buffer, where it returns. -/
def xmlDec (attr : Tag) (x : Xml) : Option Bytes :=
  (XmlForm.unmarshalXMLTval reg title T [] attr x).toOption

end

section

variable {reg : Registry} {title : Bytes → Bytes} {T : TimeCodec}

/-! ## Leaves have the type of their document -/

theorem eq_of_map_ok {ε α β : Type} {x : Except ε α} {f : α → β} {b : β}
    (h : (x >>= fun a => pure (f a)) = .ok b) : ∃ a, b = f a := by
  cases x with
  | error e => cases h
  | ok a =>
    cases h
    exact ⟨a, rfl⟩

theorem content_decodeLeaf {tag attr : Tag} {ty : Typ} {v : Json} {p : Prim}
    (h : JsonForm.decodeLeaf reg T tag attr ty v = .ok p) : ∃ value, p.content = some (ty, value) := by
  unfold JsonForm.decodeLeaf at h
  -- a branch fails, or returns a value of its own type, from what it has parsed
  split at h <;> repeat' split at h
  all_goals first
    | (cases h; exact ⟨_, rfl⟩)
    | cases h
    | (obtain ⟨a, rfl⟩ := eq_of_map_ok h; exact ⟨_, rfl⟩)

theorem content_parseValue {tag attr : Tag} {s : GoString} {ty : Typ} {p : Prim}
    (h : XmlForm.parseValue reg T tag attr s ty = .ok p) : ∃ value, p.content = some (ty, value) := by
  unfold XmlForm.parseValue at h
  split at h <;> repeat' split at h
  all_goals first
    | (cases h; exact ⟨_, rfl⟩)
    | cases h

/-! ## What is written -/

theorem written_json_leaf {dec : Tag → Json → Option Bytes} {tag attr : Tag} {tp : UInt8} {ty : Typ}
    {v : Json} {out : Bytes}
    (h : (match JsonForm.decodeLeaf reg T tag attr ty v with
      | .ok p => .ok (encodePrim [] tag p)
      | .error e => .err (.syntaxError tag tp e)) = (.ok out : Res JsonForm.JsonErr Bytes)) :
    Written reg title dec out (.leaf tag ty) := by
  cases hleaf : JsonForm.decodeLeaf reg T tag attr ty v with
  | error e =>
    rw [hleaf] at h
    cases h
  | ok p =>
    rw [hleaf] at h
    cases h
    obtain ⟨value, hvalue⟩ := content_decodeLeaf hleaf
    exact ⟨p, value, hvalue, encodePrim_eq [] tag p⟩

theorem written_json_struct {tag : Tag} {tp : UInt8} {items : List Json} {out : Bytes}
    (h : (match JsonForm.decodeItems reg title T tagNone items with
      | .ok children => .ok (EncBuf.write [] tag .Structure children)
      | .err e => .err (.syntaxError tag tp e)
      | .panic => .panic) = (.ok out : Res JsonForm.JsonErr Bytes)) :
    Written reg title (jsonDec reg title T) out (.struct tag items) := by
  have hchildren : (JsonForm.decodeItems reg title T tagNone items).toOption =
      decodeChildren reg title (jsonDec reg title T) tagNone items :=
    JsonForm.decodeItems_toOption tagNone items
  cases hitems : JsonForm.decodeItems reg title T tagNone items with
  | err e =>
    rw [hitems] at h
    cases h
  | panic =>
    rw [hitems] at h
    cases h
  | ok body =>
    rw [hitems] at h hchildren
    cases h
    exact ⟨body, hchildren.symm, EncBuf.write_eq [] tag .Structure body⟩

theorem jsonAccepts : Accepts reg title (jsonDec reg title T) (jsonView reg) := by
  intro attr j out hdec
  have h := Res.toOption_eq_some.mp hdec
  rw [JsonForm.decodeJSON] at h
  rw [jsonView]
  split at h
  · cases h
  · rename_i tv htv
    rw [htv]
    simp only
    cases htag : reg.parseTag tv.tag with
    | error e =>
      rw [htag] at h
      cases h
    | ok tag =>
      simp only [htag] at h
      cases htp : JsonForm.decodeType reg tv.type with
      | err e =>
        rw [htp] at h
        cases h
      | panic =>
        rw [htp] at h
        cases h
      | ok tp =>
        simp only [htp] at h
        show Written reg title _ out (viewType tag tp (arrayItems tv.value))
        rw [viewType]
        split at h
        · split at h <;> cases h
        · rename_i v hv
          rw [hv]
          cases hty : Typ.ofCode tp with
          | none =>
            rw [hty] at h
            cases h
            rfl
          | some ty =>
            rw [hty] at h
            cases ty with
            | Structure =>
              cases v with
              | array items => exact written_json_struct h
              | null =>
                cases h
                exact ⟨[], rfl, EncBuf.write_eq [] tag .Structure []⟩
              | _ => cases h
            | _ => exact written_json_leaf h

variable (T) in
theorem written_xml_leaf {dec : Tag → Xml → Option Bytes} {tag : Tag} (attr : Tag) (tp : UInt8) {ty : Typ}
    {s : GoString} {out : Bytes}
    (h : (match XmlForm.parseValue reg T tag attr s ty with
      | .ok p => .ok (encodePrim [] tag p)
      | .error e => .err (.syntaxError tag tp e)) = (.ok out : Res XmlForm.XmlErr EncBuf)) :
    Written reg title dec out (.leaf tag ty) := by
  cases hleaf : XmlForm.parseValue reg T tag attr s ty with
  | error e =>
    rw [hleaf] at h
    cases h
  | ok p =>
    rw [hleaf] at h
    cases h
    obtain ⟨value, hvalue⟩ := content_parseValue hleaf
    exact ⟨p, value, hvalue, encodePrim_eq [] tag p⟩

theorem written_xml_struct {tag : Tag} {children : List Xml} {out : Bytes}
    (h : (do
      let buf ← XmlForm.unmarshalXMLChildren reg title T (EncBuf.begin [] tag .Structure).1 tagNone children
      return EncBuf.endAt buf (EncBuf.begin [] tag .Structure).2) = (.ok out : Res XmlForm.XmlErr EncBuf)) :
    Written reg title (xmlDec reg title T) out (.struct tag children) := by
  have happend := XmlForm.endStruct_append
    (f := fun buf => XmlForm.unmarshalXMLChildren reg title T buf tagNone children)
    (fun buf => XmlForm.unmarshalXMLChildren_append children buf tagNone) [] tag
  rw [happend] at h
  obtain ⟨body, hbody, hout⟩ := Res.bind_eq_ok.mp h
  have hchildren : (XmlForm.unmarshalXMLChildren reg title T [] tagNone children).toOption =
      decodeChildren reg title (xmlDec reg title T) tagNone children :=
    XmlForm.unmarshalXMLChildren_toOption tagNone children
  rw [hbody] at hchildren
  cases hout
  exact ⟨body, hchildren.symm, rfl⟩

theorem xmlAccepts : Accepts reg title (xmlDec reg title T) (xmlView reg) := by
  intro attr x out hdec
  have h := Res.toOption_eq_some.mp hdec
  cases x with
  | element name attrs children =>
    rw [XmlForm.unmarshalXMLTval] at h
    rw [xmlView]
    cases htag : reg.parseTag (XmlForm.elementTag name attrs) with
    | error e =>
      rw [htag] at h
      cases h
    | ok tag =>
      simp only [htag] at h
      cases htp : XmlForm.elementType reg (XmlForm.attrField "type" attrs) with
      | err e =>
        rw [htp] at h
        cases h
      | panic =>
        rw [htp] at h
        cases h
      | ok tp =>
        simp only [htp] at h
        show Written reg title _ out (viewType tag tp children)
        rw [viewType]
        cases hty : Typ.ofCode tp with
        | none =>
          rw [hty] at h
          cases h
          rfl
        | some ty =>
          rw [hty] at h
          cases ty with
          | Structure => exact written_xml_struct h
          | _ => exact written_xml_leaf T attr tp h

/-- For a JSON text or an XML element that is accepted, with a result below 2³² bytes: the result is one
    valid block, with one block for each child of the document in order, at each level, iff each type in
    the document has a case and each tag is valid. -/
theorem accepted_valid_iff (C : JsonCodec) (X : XmlCodec) {text : Bytes} {t : TTLV} (hlen : t.length < 2 ^ 32) :
    (JsonForm.unmarshalJSON reg title C T text = .ok t → ∃ j, C.parse text = some j ∧
      (Mirrors (jsonDec reg title T) (jsonView reg) j t ↔ Representable (jsonView reg) j)) ∧
    (XmlForm.unmarshalXML reg title X T text = .ok t → ∃ x, X.read text = some x ∧
      (Mirrors (xmlDec reg title T) (xmlView reg) x t ↔ Representable (xmlView reg) x)) := by
  constructor
  · intro h
    rw [JsonForm.unmarshalJSON] at h
    cases hj : C.parse text with
    | none =>
      rw [hj] at h
      cases h
    | some j =>
      rw [hj] at h
      exact ⟨j, rfl, jsonAccepts.mirrors_iff (Res.toOption_eq_some.mpr h) hlen⟩
  · intro h
    rw [XmlForm.unmarshalXML] at h
    cases hx : X.read text with
    | none =>
      rw [hx] at h
      cases h
    | some x =>
      rw [hx] at h
      exact ⟨x, rfl, xmlAccepts.mirrors_iff (Res.toOption_eq_some.mpr h) hlen⟩

end

/-! ## Documents with tags and types in hex -/

def nameJson (tag type : String) : Json :=
  .object [(lit "tag", .string (lit tag)), (lit "type", .string (lit type)),
    (lit "value", .string (lit "x-id"))]

/-- An attribute with one child. -/
def attributeJson (tag type : String) : Json :=
  .object [(lit "tag", .string (lit "0x420008")), (lit "value", .array [nameJson tag type])]

def nameXml (tag type : String) : Xml :=
  .element (lit "TTLV") [(lit "tag", lit tag), (lit "type", lit type), (lit "value", lit "x-id")] []

def attributeXml (tag type : String) : Xml :=
  .element (lit "TTLV") [(lit "tag", lit "0x420008")] [nameXml tag type]

theorem jsonView_attributeJson (reg : Registry) (tag type : String) :
    jsonView reg (attributeJson tag type) = .struct 0x420008 [nameJson tag type] := by
  rfl

theorem xmlView_attributeXml (reg : Registry) (tag type : String) :
    xmlView reg (attributeXml tag type) = .struct 0x420008 [nameXml tag type] := by
  rfl

theorem representable_attribute {D : Type} {view : D → View D} {d c : D} {tag : Tag}
    (hview : view d = .struct tag [c]) : Representable view d ↔ (wireTag tag).Valid ∧ Representable view c := by
  constructor
  · intro h
    cases h with
    | leaf hleaf _ =>
      rw [hview] at hleaf
      cases hleaf
    | struct hstruct htag hchildren =>
      rw [hview] at hstruct
      cases hstruct
      exact ⟨htag, hchildren c (List.mem_singleton_self c)⟩
  · rintro ⟨htag, hc⟩
    refine .struct hview htag fun x hx => ?_
    rw [List.mem_singleton.mp hx]
    exact hc

theorem not_representable_unknown {D : Type} {view : D → View D} {d : D} (hview : view d = .unknown) :
    ¬ Representable view d := by
  intro h
  cases h with
  | leaf hleaf _ =>
    rw [hview] at hleaf
    cases hleaf
  | struct hstruct _ _ =>
    rw [hview] at hstruct
    cases hstruct

theorem read_attributeJson : compactCodec.parse ((attributeJson "0x42000a" "0x07").render compactCodec.quote) =
    some (attributeJson "0x42000a" "0x07") := by
  apply compactCodec_lawful.parse_render
  have hname : (nameJson "0x42000a" "0x07").Writable :=
    JsonForm.writable_leaf (forall_mem_of_all (by decide)) (forall_mem_of_all (by decide))
      (JsonForm.validUTF8_of_plain (forall_mem_of_all (by decide)))
  exact ⟨⟨JsonForm.validUTF8_of_plain (forall_mem_of_all (by decide)),
      JsonForm.validUTF8_of_plain (forall_mem_of_all (by decide))⟩,
    ⟨JsonForm.validUTF8_of_plain (forall_mem_of_all (by decide)), hname, trivial⟩, trivial⟩

theorem read_attributeXml : compactXml.read (compactXml.write (attributeXml "0x42000a" "0x07").tokens) =
    some (attributeXml "0x42000a" "0x07") := by
  apply compactXml_lawful.read_write
  have hsafe : ∀ s ∈ [lit "0x420008", lit "0x42000a", lit "0x07", lit "x-id"], xmlSafe s = true := by
    have hplain : ∀ s ∈ [lit "0x420008", lit "0x42000a", lit "0x07", lit "x-id"],
        (s.all fun b => decide (PlainByte b)) = true := by decide
    exact fun s hs => XmlForm.xmlSafe_of_plain (forall_mem_of_all (hplain s hs))
  simp only [List.forall_mem_cons] at hsafe
  obtain ⟨hattribute, hname, htext, hid, -⟩ := hsafe
  have hword : IsName (lit "TTLV") := by decide
  simp only [attributeXml, nameXml, Xml.Writable, Xml.Worded, Xml.AllWorded, Xml.Named, Xml.AllNamed,
    List.forall_mem_cons, and_true]
  exact ⟨⟨hword.1, ⟨⟨by decide, hattribute⟩, nofun⟩, hword.1, ⟨by decide, hname⟩, ⟨by decide, htext⟩,
    ⟨by decide, hid⟩, nofun⟩, hword.2, hword.2⟩

/-- The attribute with its name. -/
def nameBytes : Bytes := item 0x420008 .Structure (item 0x42000a .TextString (lit "x-id"))

theorem accepted_valid_attribute :
    JsonForm.unmarshalJSON typesRegistry id compactCodec plainTime
        ((attributeJson "0x42000a" "0x07").render compactCodec.quote) = .ok nameBytes ∧
      Mirrors (jsonDec typesRegistry id plainTime) (jsonView typesRegistry)
        (attributeJson "0x42000a" "0x07") nameBytes ∧
    XmlForm.unmarshalXML typesRegistry id compactXml plainTime
        (compactXml.write (attributeXml "0x42000a" "0x07").tokens) = .ok nameBytes ∧
      Mirrors (xmlDec typesRegistry id plainTime) (xmlView typesRegistry)
        (attributeXml "0x42000a" "0x07") nameBytes := by
  have hlen : nameBytes.length < 2 ^ 32 := by decide
  have hjson : JsonForm.unmarshalJSON typesRegistry id compactCodec plainTime
      ((attributeJson "0x42000a" "0x07").render compactCodec.quote) = .ok nameBytes := by
    decide +kernel
  have hxml : XmlForm.unmarshalXML typesRegistry id compactXml plainTime
      (compactXml.write (attributeXml "0x42000a" "0x07").tokens) = .ok nameBytes := by
    decide +kernel
  obtain ⟨j, hj, hjiff⟩ := (accepted_valid_iff compactCodec compactXml hlen).1 hjson
  obtain ⟨x, hx, hxiff⟩ := (accepted_valid_iff compactCodec compactXml hlen).2 hxml
  rw [read_attributeJson] at hj
  rw [read_attributeXml] at hx
  cases hj
  cases hx
  refine ⟨hjson, hjiff.mpr ?_, hxml, hxiff.mpr ?_⟩
  · rw [representable_attribute (jsonView_attributeJson _ _ _)]
    exact ⟨by decide, .leaf (by rfl) (by decide)⟩
  · rw [representable_attribute (xmlView_attributeXml _ _ _)]
    exact ⟨by decide, .leaf (by rfl) (by decide)⟩

/-- With the type 0x0c the child is lost, and a document of that type alone gives nothing.  With the tag
    0x000001 the result is not valid. -/
theorem untyped_accepted :
    (JsonForm.decodeJSON typesRegistry id plainTime tagNone (nameJson "0x42000a" "0x0c") = .ok [] ∧
      JsonForm.decodeJSON typesRegistry id plainTime tagNone (attributeJson "0x42000a" "0x0c") =
        .ok (item 0x420008 .Structure []) ∧
      ¬ Mirrors (jsonDec typesRegistry id plainTime) (jsonView typesRegistry)
        (attributeJson "0x42000a" "0x0c") (item 0x420008 .Structure [])) ∧
    (XmlForm.unmarshalXMLTval typesRegistry id plainTime [] tagNone (nameXml "0x42000a" "0x0c") = .ok [] ∧
      XmlForm.unmarshalXMLTval typesRegistry id plainTime [] tagNone (attributeXml "0x42000a" "0x0c") =
        .ok (item 0x420008 .Structure []) ∧
      ¬ Mirrors (xmlDec typesRegistry id plainTime) (xmlView typesRegistry)
        (attributeXml "0x42000a" "0x0c") (item 0x420008 .Structure [])) ∧
    (JsonForm.decodeJSON typesRegistry id plainTime tagNone (nameJson "0x000001" "0x07") =
        .ok (item 0x000001 .TextString (lit "x-id")) ∧
      XmlForm.unmarshalXMLTval typesRegistry id plainTime [] tagNone (nameXml "0x000001" "0x07") =
        .ok (item 0x000001 .TextString (lit "x-id")) ∧
      TTLV.valid (item 0x000001 .TextString (lit "x-id")) = .err ⟨[], .invalidTag⟩) := by
  refine ⟨⟨by decide +kernel, by decide +kernel, fun h => ?_⟩,
    ⟨by decide +kernel, by decide +kernel, fun h => ?_⟩,
    by decide +kernel, by decide +kernel, by decide +kernel⟩
  · have hrep := (representable_attribute (jsonView_attributeJson _ _ _)).mp (jsonAccepts.representable h)
    exact not_representable_unknown (by rfl) hrep.2
  · have hrep := (representable_attribute (xmlView_attributeXml _ _ _)).mp (xmlAccepts.representable h)
    exact not_representable_unknown (by rfl) hrep.2

end KmipGo.Text
