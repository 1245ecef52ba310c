import KmipGo.Lib.Xml
import KmipGo.Text.Leaf

/-! # Writing XML

`TTLV.MarshalXML` of `ttlv/ttlv.go`, on the state of the `xml.Encoder` it is
given.  `encodeXML` is `xml.Marshal` of a block.
-/

namespace KmipGo.XmlForm

open KmipGo.Lib KmipGo.Ttlv KmipGo.Reg KmipGo.Text

section

variable (reg : Registry) (title : Bytes → Bytes) (X : XmlCodec) (T : TimeCodec)

/-- `EncodeToken`, or a check of the encoder, as a call that cannot panic. -/
def ofExcept : Except XmlTokenErr XmlEncoder → Res XmlTokenErr XmlEncoder
  | .ok e => .ok e
  | .error err => .err err

/-- `out.XMLName.Local` and `out.Tag`. -/
def elementName (tag : Tag) : GoString × GoString :=
  if hasPrefix (reg.formatTag tag) (lit "0x") then (lit "TTLV", reg.formatTag tag)
  else (reg.formatTag tag, [])

/-- An attribute with `omitempty`. -/
def attrIfSet (name : String) (value : GoString) : List (Bytes × Bytes) :=
  if value = [] then [] else [(lit name, value)]

/-- `out.Value` of a leaf. -/
def valueAttr (t : TTLV) : Typ → Res XmlTokenErr GoString
  | .Integer => do
    let i ← Res.ofOption t.valueInteger
    return match reg.enumForTag t.tag with
      | some e => (Reg.formatInt i (some e)).map fun b => if b = 124 then 32 else b
      | none => intDec i.toInt
  | .Boolean => do
    let b ← Res.ofOption t.valueBoolean
    return if b then lit "true" else lit "false"
  | .LongInteger => do
    let v ← Res.ofOption t.valueLongInteger
    return intDec v.toInt
  | .BigInteger => return hexEncode t.raw
  | .Enumeration => do
    let v ← Res.ofOption t.valueEnumeration
    return reg.formatEnum t.tag v
  | .TextString => return t.valueTextString
  | .ByteString => return hexEncode t.raw
  | .DateTime | .DateTimeExtended => do
    let tm ← Res.ofOption t.valueDateTime
    return T.format tm
  | .Interval => do
    let u ← Res.ofOption (uint32BE t.raw)
    return natDec u.toNat
  -- a structure is not written here
  | .Structure => return []

/-- `e.Encode(&out)`: an element without children. -/
def encodeElement (e : XmlEncoder) (name : GoString) (attrs : List (Bytes × Bytes)) :
    Res XmlTokenErr XmlEncoder := do
  let e ← ofExcept (e.encodeToken (.start name attrs))
  ofExcept (e.encodeToken (.stop name))

/-- The start and end tags of an attribute value; the end tag has a fixed name. -/
def encodeAttributeValue (e : XmlEncoder) (typ value : GoString) : Res XmlTokenErr XmlEncoder := do
  let e ← ofExcept (e.encodeToken
    (.start (reg.formatTag tagAttributeValue) [(lit "type", typ), (lit "value", value)]))
  ofExcept (e.encodeToken (.stop (lit "AttributeValue")))

/-- `e.Encode(n)`: a call of the marshaler `marshal` of `n`. -/
def encodeMarshaler (marshal : XmlEncoder → Res XmlTokenErr XmlEncoder) (e : XmlEncoder) :
    Res XmlTokenErr XmlEncoder := do
  let e' ← marshal e.openMarshaler
  ofExcept (XmlEncoder.closeMarshaler e.tags.length e')

/-- One child of a structure; `other` writes a child that is no attribute value. -/
def encodeChild (attrTag : Tag) (n : TTLV) (other : Res XmlTokenErr XmlEncoder) (e : XmlEncoder) :
    Res XmlTokenErr XmlEncoder :=
  if n.tag = tagAttributeValue ∧ (n.typ = some .Enumeration ∨ n.typ = some .Integer) then
    if n.typ = some .Enumeration then do
      let v ← Res.ofOption n.valueEnumeration
      encodeAttributeValue reg e (reg.formatType n.typeByte) (reg.formatEnum attrTag v)
    else do
      let i ← Res.ofOption n.valueInteger
      encodeAttributeValue reg e (reg.formatType n.typeByte) (reg.formatInt attrTag i)
  else other

mutual
/-- `MarshalXML`. -/
def marshalXML (t : TTLV) (e : XmlEncoder) : Res XmlTokenErr XmlEncoder :=
  if _h : t.length = 0 then .ok e
  else if t.typ = some .Structure then do
    -- the element of a structure has no attributes
    let e ← ofExcept (e.encodeToken (.start (elementName reg t.tag).1 []))
    let e ← marshalXMLChildren tagNone t.raw e
    ofExcept (e.encodeToken (.stop (elementName reg t.tag).1))
  else do
    let value ← (match t.typ with
      | some ty => valueAttr reg T t ty
      -- a type without a case in the switch
      | none => return [])
    encodeElement e (elementName reg t.tag).1 (attrIfSet "tag" (elementName reg t.tag).2 ++
      attrIfSet "type" (reg.formatType t.typeByte) ++ attrIfSet "value" value)
termination_by 2 * t.length
decreasing_by
  have hraw := raw_length_le t
  simp only [lenHeader] at hraw
  omega

/-- The loop over the value of a structure; `attrTag` is the tag of the last attribute name. -/
def marshalXMLChildren (attrTag : Tag) (n : TTLV) (e : XmlEncoder) : Res XmlTokenErr XmlEncoder :=
  if n.length = 0 then .ok e
  else do
    let attrTag := nextAttr reg title attrTag n
    let e ← encodeChild reg attrTag n (encodeMarshaler (fun e => marshalXML n e) e) e
    match _h : n.next with
    | none => return e
    | some m => marshalXMLChildren attrTag m e
termination_by 2 * n.length + 1
decreasing_by
  · omega
  · have hlt := next_length_lt _h
    omega
end

/-- `xml.Marshal`. -/
def encodeXML (t : TTLV) : Res XmlTokenErr Bytes := do
  let e ← encodeMarshaler (marshalXML reg title T t) ⟨[], []⟩
  return X.write e.out

end

end KmipGo.XmlForm
