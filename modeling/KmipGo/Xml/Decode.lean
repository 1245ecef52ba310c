import KmipGo.Lib.Xml
import KmipGo.Text.Leaf

/-! # Reading XML

`unmarshalXMLTval` and `TTLV.UnmarshalXML` of `ttlv/ttlv.go`.  The XML library
reads the text into a tree of elements; the fields of the struct `xmltval` are
the name, three attributes and the child elements.
-/

namespace KmipGo.XmlForm

open KmipGo.Lib KmipGo.Ttlv KmipGo.Reg KmipGo.Text

inductive XmlErr where
  /-- an error of `encoding/xml` -/
  | xml
  | invalidTag (e : ParseErr)
  | invalidType (e : ParseErr)
  /-- `syntaxError`: the tag, the type and the cause -/
  | syntaxError (tag : Tag) (tp : UInt8) (cause : XmlErr)
  | message (text : GoString)
  | parse (e : ParseErr)
  /-- an error of `hex.DecodeString` -/
  | hex
  /-- an error of `time.Parse`, "must be ISO8601 format" -/
  | time
deriving DecidableEq

/-- `strconv.ParseBool`. -/
def parseBool (s : GoString) : Option Bool :=
  if s ∈ [lit "1", lit "t", lit "T", lit "TRUE", lit "true", lit "True"] then some true
  else if s ∈ [lit "0", lit "f", lit "F", lit "FALSE", lit "false", lit "False"] then some false
  else none

/-- A field of the struct that an attribute sets; the last attribute of the name counts. -/
def attrField (name : String) (attrs : List (Bytes × Bytes)) : GoString :=
  attrs.foldl (fun old a => if a.1 = lit name then a.2 else old) []

section

variable (reg : Registry) (title : Bytes → Bytes) (X : XmlCodec) (T : TimeCodec)

def mustBe (text : String) : Except XmlErr Prim := .error (.message (lit text))

/-- `tval.Tag`, or the name of the element. -/
def elementTag (name : GoString) (attrs : List (Bytes × Bytes)) : GoString :=
  if attrField "tag" attrs = [] then name else attrField "tag" attrs

/-- The type of an element: a Structure if none is given. -/
def elementType (s : GoString) : Res XmlErr UInt8 :=
  if s = [] then .ok Typ.Structure.code
  else
    match reg.parseType s with
    | .ok b => .ok b
    | .err e => .err (.invalidType e)
    | .panic => .panic

/-- The switch over the types of leaves. -/
def parseValue (tag attrTag : Tag) (s : GoString) : Typ → Except XmlErr Prim
  | .Boolean =>
    match parseBool s with
    | some b => .ok (.boolean b)
    | none => mustBe "must be 0, 1, true, or false"
  | .TextString => .ok (.textString s)
  | .ByteString =>
    if hasPrefix s (lit "0x") then mustBe "should not have 0x prefix"
    else
      match hexDecode s with
      | some b => .ok (.byteString (some b))
      | none => .error .hex
  | .Interval =>
    match parseUint 64 s with
    | some u => .ok (.interval (BitVec.ofNat 64 u * 1000000000))
    | none => mustBe "must be a number"
  | .DateTime =>
    match T.parse s with
    | some t => .ok (.dateTime t)
    | none => .error .time
  | .DateTimeExtended =>
    match T.parse s with
    | some t => .ok (.dateTimeExtended t)
    | none => .error .time
  | .Integer =>
    match reg.parseMask (enumTag tag attrTag) (s.map fun b => if b = 32 then 124 else b) with
    | .ok i => .ok (.integer i)
    | .error e => .error (.parse e)
  | .LongInteger =>
    match parseInt 64 s with
    | some i => .ok (.longInteger (BitVec.ofInt 64 i))
    | none => mustBe "must be number"
  | .BigInteger =>
    if hasPrefix s (lit "0x") then mustBe "should not have 0x prefix"
    else
      match hexDecode s with
      | none => .error .hex
      | some b =>
        if b.length % 8 ≠ 0 then mustBe "must be multiple of 8 bytes"
        else .ok (.bigInteger (some (unmarshalBigInt b)))
  | .Enumeration =>
    match reg.parseEnum (enumTag tag attrTag) s with
    | .ok v => .ok (.enumeration v)
    | .error e => .error (.parse e)
  -- a structure is not read here
  | .Structure => .error .xml

mutual
/-- `unmarshalXMLTval`: the buffer after the element is written to it. -/
def unmarshalXMLTval (buf : EncBuf) (attrTag : Tag) : Xml → Res XmlErr EncBuf
  | .element name attrs children =>
    match reg.parseTag (elementTag name attrs) with
    | .error e => .err (.invalidTag e)
    | .ok tag =>
      match elementType reg (attrField "type" attrs) with
      | .err e => .err e
      | .panic => .panic
      | .ok tp =>
        match Typ.ofCode tp with
        -- a type without a case in the switch
        | none => .ok buf
        | some .Structure => do
          let i := buf.begin tag .Structure
          let buf ← unmarshalXMLChildren i.1 tagNone children
          return EncBuf.endAt buf i.2
        | some ty =>
          match parseValue reg T tag attrTag (attrField "value" attrs) ty with
          | .ok p => .ok (encodePrim buf tag p)
          | .error e => .err (.syntaxError tag tp e)

/-- The loop over the children of a structure. -/
def unmarshalXMLChildren (buf : EncBuf) (attrTag : Tag) : List Xml → Res XmlErr EncBuf
  | [] => .ok buf
  | x :: xs => do
    let buf' ← unmarshalXMLTval buf attrTag x
    unmarshalXMLChildren buf' (nextAttr reg title attrTag (buf'.drop buf.length)) xs
end

/-- `UnmarshalXML`. -/
def unmarshalXML (text : Bytes) : Res XmlErr Bytes :=
  match X.read text with
  | none => .err .xml
  | some x => unmarshalXMLTval reg title T [] tagNone x

end

end KmipGo.XmlForm
