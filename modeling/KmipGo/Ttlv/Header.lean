import KmipGo.Lib.BigEndian
import KmipGo.Lib.Result

/-! # The TTLV header and its accessors

A `TTLV` is a byte slice that begins with an encoded block: three tag bytes, a
type byte, a four byte length and the value.  This module embeds the types of
`ttlv/types.go` and `ttlv/tag.go` and the header accessors of `ttlv/ttlv.go`.

Slices are lists of bytes.  Where the source can tell a nil slice from an empty
one (`ValueRaw`, `Next`) the result is an `Option`, with `none` for nil.  An
access outside a slice is `none` or `Res.panic`.
-/

namespace KmipGo.Ttlv

open KmipGo.Lib

/-! ## Tags and types -/

/-- `type Tag uint32`. -/
abbrev Tag := BitVec 32

def tagNone : Tag := 0
def tagAttributeName : Tag := 0x42000a
def tagAttributeValue : Tag := 0x42000b

/-- `Tag.Valid`: the standard range `0x42xxxx` or the custom range `0x54xxxx`. -/
def Tag.Valid (t : Tag) : Prop :=
  (0x420000 ≤ t.toNat ∧ t.toNat < 0x430000) ∨ (0x540000 ≤ t.toNat ∧ t.toNat < 0x550000)

instance (t : Tag) : Decidable (Tag.Valid t) :=
  inferInstanceAs (Decidable (_ ∨ _))

/-- The item types, in the order of their codes. -/
inductive Typ where
  | Structure | Integer | LongInteger | BigInteger | Enumeration | Boolean
  | TextString | ByteString | DateTime | Interval | DateTimeExtended
deriving DecidableEq, Repr

/-- The byte that stands for a type on the wire. -/
def Typ.code : Typ → UInt8
  | .Structure => 0x01
  | .Integer => 0x02
  | .LongInteger => 0x03
  | .BigInteger => 0x04
  | .Enumeration => 0x05
  | .Boolean => 0x06
  | .TextString => 0x07
  | .ByteString => 0x08
  | .DateTime => 0x09
  | .Interval => 0x0A
  | .DateTimeExtended => 0x0B

/-- The type a byte stands for; `none` for a byte no case of a type switch covers. -/
def Typ.ofCode (b : UInt8) : Option Typ :=
  match b.toNat with
  | 1 => some .Structure
  | 2 => some .Integer
  | 3 => some .LongInteger
  | 4 => some .BigInteger
  | 5 => some .Enumeration
  | 6 => some .Boolean
  | 7 => some .TextString
  | 8 => some .ByteString
  | 9 => some .DateTime
  | 10 => some .Interval
  | 11 => some .DateTimeExtended
  | _ => none

@[simp] theorem Typ.ofCode_code (ty : Typ) : Typ.ofCode ty.code = some ty := by
  cases ty <;> rfl

theorem Typ.code_of_ofCode {b : UInt8} {ty : Typ} (h : Typ.ofCode b = some ty) : ty.code = b := by
  apply UInt8.toNat_inj.mp
  unfold Typ.ofCode at h
  split at h <;> simp_all <;> subst ty <;> rfl

/-! ## Header accessors -/

abbrev TTLV := Bytes

def lenHeader : Nat := 8

/-- `TTLV.Tag`: the first three bytes, or the empty tag when they are not all there. -/
def TTLV.tag (t : TTLV) : Tag :=
  if t.length < 3 then tagNone else BitVec.ofNat 32 (beNat (t.take 3))

/-- `TTLV.Type` as the raw byte, 0 when the header is truncated. -/
def TTLV.typeByte (t : TTLV) : UInt8 :=
  (t[3]?).getD 0

/-- `TTLV.Type`, as a case of the type switches. -/
def TTLV.typ (t : TTLV) : Option Typ :=
  Typ.ofCode t.typeByte

/-- `TTLV.Len`: the length field, 0 when the header is truncated. -/
def TTLV.len (t : TTLV) : Nat :=
  if t.length < lenHeader then 0 else beNat ((t.drop 4).take 4)

/-- The block length that a type and a length field announce. -/
def Typ.blockLen : Typ → Nat → Nat
  | .Interval, _ | .DateTime, _ | .DateTimeExtended, _ | .Boolean, _ | .Enumeration, _
  | .LongInteger, _ | .Integer, _ => lenHeader + 8
  | .ByteString, l | .TextString, l =>
    if (l + lenHeader) % 8 > 0 then l + lenHeader + (8 - (l + lenHeader) % 8) else l + lenHeader
  | .BigInteger, l | .Structure, l => l + lenHeader

/-- `TTLV.FullLen`; it panics (`none`) when the type byte is not a type. -/
def TTLV.fullLen (t : TTLV) : Option Nat :=
  t.typ.map fun ty => ty.blockLen t.len

/-- `TTLV.ValueRaw`: nil for a zero length, otherwise what is there of the value. -/
def TTLV.valueRaw (t : TTLV) : Option Bytes :=
  if t.len = 0 then none
  else if t.length < lenHeader + t.len then some (t.drop lenHeader)
  else some ((t.drop lenHeader).take t.len)

/-- The value segment with nil read as the empty slice. -/
def TTLV.raw (t : TTLV) : Bytes :=
  t.valueRaw.getD []

/-! ## The shape of a header -/

/-- The eight header bytes of a block. -/
def header (tag : Tag) (ty : Typ) (l : Nat) : Bytes :=
  beBytes 3 tag.toNat ++ [ty.code] ++ beBytes 4 l

@[simp] theorem length_header (tag : Tag) (ty : Typ) (l : Nat) : (header tag ty l).length = 8 := by
  simp [header]

section HeaderAccess

variable (tag : Tag) (ty : Typ) (l : Nat) (rest : Bytes)

theorem tag_header_append (h : tag.toNat < 2 ^ 24) : TTLV.tag (header tag ty l ++ rest) = tag := by
  have hlen : ¬ (header tag ty l ++ rest).length < 3 := by simp; omega
  have htake : (header tag ty l ++ rest).take 3 = beBytes 3 tag.toNat := by
    rw [header, List.append_assoc, List.append_assoc]
    exact List.take_left' (length_beBytes 3 _)
  rw [TTLV.tag, if_neg hlen, htake, beNat_beBytes_of_lt (by omega), BitVec.ofNat_toNat]
  simp

@[simp] theorem typeByte_header_append : TTLV.typeByte (header tag ty l ++ rest) = ty.code := by
  simp [TTLV.typeByte, header]

@[simp] theorem typ_header_append : TTLV.typ (header tag ty l ++ rest) = some ty := by
  simp [TTLV.typ]

theorem len_header_append_mod : TTLV.len (header tag ty l ++ rest) = l % 2 ^ 32 := by
  have hlen : ¬ (header tag ty l ++ rest).length < lenHeader := by simp [lenHeader]
  have hdrop : (header tag ty l ++ rest).drop 4 = beBytes 4 l ++ rest := by
    have : (beBytes 3 tag.toNat ++ [ty.code]).length = 4 := by simp
    rw [header, List.append_assoc, List.drop_left' this]
  rw [TTLV.len, if_neg hlen, hdrop, List.take_left' (length_beBytes 4 l), beNat_beBytes,
    show 256 ^ 4 = 2 ^ 32 by norm_num]

theorem len_header_append (h : l < 2 ^ 32) : TTLV.len (header tag ty l ++ rest) = l := by
  rw [len_header_append_mod, Nat.mod_eq_of_lt h]

end HeaderAccess

theorem len_lt (t : TTLV) : t.len < 2 ^ 32 := by
  unfold TTLV.len
  split
  · norm_num
  · rename_i h
    have := beNat_lt ((t.drop 4).take 4)
    have hl : ((t.drop 4).take 4).length = 4 := by
      simp [lenHeader] at h ⊢; omega
    rw [hl] at this
    omega

/-- A slice with a whole header is a header followed by the rest. -/
theorem eq_header_append {t : TTLV} {ty : Typ} (hlen : lenHeader ≤ t.length)
    (hty : t.typ = some ty) : t = header t.tag ty t.len ++ t.drop 8 := by
  match t, hlen with
  | b0 :: b1 :: b2 :: b3 :: b4 :: b5 :: b6 :: b7 :: rest, _ =>
    have htag : beBytes 3 (TTLV.tag (b0 :: b1 :: b2 :: b3 :: b4 :: b5 :: b6 :: b7 :: rest)).toNat =
        [b0, b1, b2] := by
      have hlt := beNat_lt [b0, b1, b2]
      have hnat : (TTLV.tag (b0 :: b1 :: b2 :: b3 :: b4 :: b5 :: b6 :: b7 :: rest)).toNat =
          beNat [b0, b1, b2] := by
        simp only [TTLV.tag, List.length_cons, List.take_succ_cons, List.take_zero]
        rw [if_neg (by omega), BitVec.toNat_ofNat, Nat.mod_eq_of_lt]
        simp only [List.length_cons, List.length_nil] at hlt
        omega
      rw [hnat]
      exact beBytes_beNat [b0, b1, b2]
    have hl : beBytes 4 (TTLV.len (b0 :: b1 :: b2 :: b3 :: b4 :: b5 :: b6 :: b7 :: rest)) =
        [b4, b5, b6, b7] := by
      simp only [TTLV.len, List.length_cons, lenHeader, List.drop_succ_cons, List.drop_zero,
        List.take_succ_cons, List.take_zero]
      rw [if_neg (by omega)]
      exact beBytes_beNat [b4, b5, b6, b7]
    have hcode : ty.code = b3 := Typ.code_of_ofCode (by simpa [TTLV.typ, TTLV.typeByte] using hty)
    rw [header, htag, hl, hcode]
    rfl

end KmipGo.Ttlv
