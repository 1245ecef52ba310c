import KmipGo.Text.Leaf

/-! # Writing JSON

`TTLV.MarshalJSON` of `ttlv/ttlv.go`, on the text it writes.
-/

namespace KmipGo.JsonForm

open KmipGo.Lib KmipGo.Ttlv KmipGo.Reg KmipGo.Text

inductive MarshalErr where
  | invalid (e : ValidError)
  /-- `Time.MarshalJSON`: year outside of range [0,9999] -/
  | year
deriving DecidableEq

def maxJSONInt : Int := 2 ^ 52

section

variable (reg : Registry) (title : Bytes → Bytes) (C : JsonCodec) (T : TimeCodec)

/-- The text of an Integer under a tag that may have an enumeration. -/
def integerText (tag : Tag) (i : BitVec 32) : Bytes :=
  match reg.enumForTag tag with
  | some e => lit "\"" ++ Reg.formatInt i (some e) ++ lit "\""
  | none => intDec i.toInt

/-- The text after `"value":` of a leaf. -/
def valueText (t : TTLV) : Typ → Res MarshalErr Bytes
  | .Boolean => do
    let b ← Res.ofOption t.valueBoolean
    return if b then lit "true" else lit "false"
  | .Enumeration => do
    let v ← Res.ofOption t.valueEnumeration
    return lit "\"" ++ reg.formatEnum t.tag v ++ lit "\""
  | .Integer => do
    let i ← Res.ofOption t.valueInteger
    return integerText reg t.tag i
  | .LongInteger => do
    let v ← Res.ofOption t.valueLongInteger
    return if v.toInt ≤ -maxJSONInt ∨ v.toInt ≥ maxJSONInt then
      lit "\"0x" ++ hexEncode t.raw ++ lit "\""
    else intDec v.toInt
  | .BigInteger =>
    let v := t.valueBigInteger
    -- `v.IsInt64() && v.CmpAbs(maxJSONBigInt) < 0`
    return if (-2 ^ 63 ≤ v ∧ v < 2 ^ 63) ∧ (v.natAbs : Int) < maxJSONInt then intDec v
    else lit "\"0x" ++ hexEncode t.raw ++ lit "\""
  | .TextString => return C.quote t.valueTextString
  | .ByteString => return lit "\"" ++ hexEncode t.raw ++ lit "\""
  | .DateTime | .DateTimeExtended => do
    let tm ← Res.ofOption t.valueDateTime
    if InYears tm then return lit "\"" ++ T.format tm ++ lit "\"" else .err .year
  | .Interval => do
    let u ← Res.ofOption (uint32BE t.raw)
    return natDec u.toNat
  -- a structure is not written here
  | .Structure => return []

/-- The text of a child of a structure.  An attribute value is written here, with the enumeration of
    the attribute; `other` is the text of any other child. -/
def childText (attrTag : Tag) (c : TTLV) (other : Res MarshalErr Bytes) : Res MarshalErr Bytes :=
  if c.tag = tagAttributeValue ∧ c.typ = some .Enumeration then do
    let v ← Res.ofOption c.valueEnumeration
    return lit "\x7b\"tag\":\"AttributeValue\",\"type\":\"Enumeration\",\"value\":\"" ++
      reg.formatEnum attrTag v ++ lit "\"\x7d"
  else if c.tag = tagAttributeValue ∧ c.typ = some .Integer then do
    let i ← Res.ofOption c.valueInteger
    return lit "\x7b\"tag\":\"AttributeValue\",\"type\":\"Integer\",\"value\":" ++
      integerText reg attrTag i ++ lit "\x7d"
  else other

mutual
/-- `MarshalJSON`. -/
def marshalJSON (t : TTLV) : Res MarshalErr Bytes :=
  if _h : t.length = 0 then .ok (lit "null")
  else
    match t.valid with
    | .err e => .err (.invalid e)
    | .panic => .panic
    | .ok () =>
      if t.typ = some .Structure then do
        let children ← marshalChildren tagNone t.raw
        return lit "\x7b\"tag\":\"" ++ reg.formatTag t.tag ++ lit "\",\"value\":[" ++ children ++
          lit "]\x7d"
      else do
        let value ← (match t.typ with
          | some ty => valueText reg C T t ty
          -- no other type is valid
          | none => return [])
        return lit "\x7b\"tag\":\"" ++ reg.formatTag t.tag ++ lit "\",\"type\":\"" ++
          reg.formatType t.typeByte ++ lit "\",\"value\":" ++ value ++ lit "\x7d"
termination_by 2 * t.length
decreasing_by
  have hraw := raw_length_le t
  simp only [lenHeader] at hraw
  omega

/-- The loop over the value of a structure; `attrTag` is the tag of the last attribute name. -/
def marshalChildren (attrTag : Tag) (c : TTLV) : Res MarshalErr Bytes :=
  if c.length = 0 then .ok []
  else do
    let attrTag := nextAttr reg title attrTag c
    let child ← childText reg attrTag c (marshalJSON c)
    match _h : c.next with
    | none => return child
    | some n =>
      let rest ← marshalChildren attrTag n
      return child ++ (if n.length > 0 then lit "," else []) ++ rest
termination_by 2 * c.length + 1
decreasing_by
  · omega
  · have hlt := next_length_lt _h
    omega
end

end

end KmipGo.JsonForm
