import KmipGo.Ttlv.Bounds

/-! # The leading block of a slice

A `TTLV` is read at its beginning.  What the accessors see of a slice is its tag,
its type, its length and its value (`Agrees`), and for a slice that begins with a
block these do not depend on what follows the block (`agrees_append`).
-/

namespace KmipGo.Ttlv

open KmipGo.Lib

/-- Slices that no accessor can tell apart. -/
structure Agrees (t u : TTLV) : Prop where
  tag : t.tag = u.tag
  typeByte : t.typeByte = u.typeByte
  len : t.len = u.len
  valueRaw : t.valueRaw = u.valueRaw

namespace Agrees

variable {t u : TTLV} (h : Agrees t u)

include h

theorem typ : t.typ = u.typ := by rw [TTLV.typ, h.typeByte, ← TTLV.typ]

theorem fullLen : t.fullLen = u.fullLen := by rw [TTLV.fullLen, h.typ, h.len, ← TTLV.fullLen]

theorem raw : t.raw = u.raw := by rw [TTLV.raw, h.valueRaw, ← TTLV.raw]

theorem valueStructure : t.valueStructure = u.valueStructure := h.valueRaw

theorem valueByteString : t.valueByteString = u.valueByteString := h.valueRaw

theorem valueTextString : t.valueTextString = u.valueTextString := h.raw

theorem valueInteger : t.valueInteger = u.valueInteger := by
  rw [TTLV.valueInteger, h.raw, ← TTLV.valueInteger]

theorem valueEnumeration : t.valueEnumeration = u.valueEnumeration := by
  rw [TTLV.valueEnumeration, h.raw, ← TTLV.valueEnumeration]

theorem valueLongInteger : t.valueLongInteger = u.valueLongInteger := by
  rw [TTLV.valueLongInteger, h.raw, ← TTLV.valueLongInteger]

theorem valueBigInteger : t.valueBigInteger = u.valueBigInteger := by
  rw [TTLV.valueBigInteger, h.raw, ← TTLV.valueBigInteger]

theorem valueBoolean : t.valueBoolean = u.valueBoolean := by
  rw [TTLV.valueBoolean, h.raw, ← TTLV.valueBoolean]

theorem valueDateTime : t.valueDateTime = u.valueDateTime := by
  rw [TTLV.valueDateTime, h.valueLongInteger, h.typ, ← TTLV.valueDateTime]

theorem valueDateTimeExtended : t.valueDateTimeExtended = u.valueDateTimeExtended := h.valueDateTime

theorem valueInterval : t.valueInterval = u.valueInterval := by
  rw [TTLV.valueInterval, h.raw, ← TTLV.valueInterval]

end Agrees

theorem agrees_header (tag : ValidTag) (ty : Typ) {value : Bytes} (h : value.length < 2 ^ 32)
    (rest rest' : Bytes) :
    Agrees (header tag.1 ty value.length ++ (value ++ rest))
      (header tag.1 ty value.length ++ (value ++ rest')) where
  tag := by rw [tag_header_append _ _ _ _ tag.toNat_lt, tag_header_append _ _ _ _ tag.toNat_lt]
  typeByte := by rw [typeByte_header_append, typeByte_header_append]
  len := by rw [len_header_append _ _ _ _ h, len_header_append _ _ _ _ h]
  valueRaw := by rw [valueRaw_header_append _ _ _ _ h, valueRaw_header_append _ _ _ _ h]

/-- What follows a block does not matter to the accessors. -/
theorem agrees_append (b : Block) (rest : Bytes) (h : b.Sized) : Agrees (b.bytes ++ rest) b.bytes := by
  cases b with
  | leaf tag l =>
    rw [Block.bytes, List.append_assoc, List.append_assoc]
    exact agrees_header tag l.ty l.rule.length_lt _ _
  | struct tag cs =>
    have hsame := agrees_header tag .Structure h rest []
    rw [List.append_nil] at hsame
    rw [Block.bytes, List.append_assoc]
    exact hsame

theorem agrees_leaf (tag : ValidTag) (l : Leaf) (rest : Bytes) :
    Agrees ((Block.leaf tag l).bytes ++ rest) (Block.leaf tag l).bytes :=
  agrees_append (.leaf tag l) rest trivial

end KmipGo.Ttlv
