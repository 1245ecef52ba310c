import KmipGo.Go.TypeInfo

/-! # The decoder

`Decoder` of `ttlv/decoder.go`, with the `UnmarshalTTLV` methods of
`ttlv/types.go` and `ttlv/ttlv.go`.

`unmarshal` stores a block into a destination of a given type: it returns the
destination afterwards, also when it fails, and what the call did.  A reflect
operation on a kind it is not defined for, or a read outside a slice, is
`Res.panic`.

A destination starts as a zero value.  An interface in it can then hold a
pointer only if the decoder has put it there, and the only pointers it puts
there are of type `*big.Int`.
-/

namespace KmipGo.Decoder

open KmipGo.Lib KmipGo.Ttlv KmipGo.Reg KmipGo.Go

/-! ## Errors -/

inductive Cause where
  | unsupportedType
  | intOverflow
  | invalidType
  | unexpectedValue
  | typeInfo (e : TypeErr)
deriving DecidableEq

/-- `UnmarshalerError`, with its cause. -/
structure UnmarshalerError where
  val : GoType
  struct : Option GoType
  field : GoString
  tag : Tag
  typ : UInt8
  cause : Cause
deriving DecidableEq

inductive DecErr where
  /-- the reader ended before the block did -/
  | eof
  | invalidHeader (e : ValidErr)
  | unmarshaler (e : UnmarshalerError)
deriving DecidableEq

abbrev Outcome := Res DecErr Unit

/-- The fields of a `Decoder` that decoding a value depends on. -/
structure Dec where
  disallowExtraValues : Bool
  currStruct : Option GoType
  currField : GoString

def newDecoder : Dec := ⟨false, none, []⟩

/-- `newUnmarshalerError`. -/
def newError (dec : Dec) (ttlv : TTLV) (val : GoType) (cause : Cause) : Outcome :=
  .err (.unmarshaler ⟨val, dec.currStruct, dec.currField, ttlv.tag, ttlv.typeByte, cause⟩)

/-- `typeMismatchErr`. -/
def mismatch (dec : Dec) (ttlv : TTLV) (val : GoType) : Outcome :=
  newError dec ttlv val .unsupportedType

/-! ## Values without a destination type -/

/-- `TTLV.Value`; none where an accessor panics. -/
def value (t : TTLV) : Option (GoVal .iface) :=
  match t.typ with
  | some .Interval => t.valueInterval.map fun d => .iface (.scalar (s := .duration) d)
  | some .DateTime => t.valueDateTime.map fun i => .iface (.scalar (s := .time) i)
  | some .DateTimeExtended =>
    t.valueDateTimeExtended.map fun i => .iface (.scalar (s := .dateTimeExtended) i)
  | some .ByteString => some (.iface (.scalar (s := .bytes []) t.valueByteString))
  | some .TextString => some (.iface (.scalar (s := .string (lit "string")) t.valueTextString))
  | some .Boolean => t.valueBoolean.map fun b => .iface (.scalar (s := .bool (lit "bool")) b)
  | some .Enumeration => t.valueEnumeration.map fun v => .iface (.scalar (s := enumValue) v)
  | some .BigInteger => some (.iface (.ptr (.scalar (s := .bigInt) t.valueBigInteger)))
  | some .LongInteger =>
    t.valueLongInteger.map fun i => .iface (.scalar (s := .int (lit "int64") .int64) i)
  | some .Integer =>
    t.valueInteger.map fun i => .iface (.scalar (s := .int (lit "int32") .int32) i)
  | some .Structure => some (.iface (.scalar (s := .ttlv) (t.valueStructure.getD [])))
  | none => none

mutual
/-- `Value.UnmarshalTTLV`; none where it panics. -/
def valueOf (t : TTLV) : Option (GoVal .value) :=
  match _h : t.typ with
  | some .Structure =>
    (valuesOf t.raw).map fun vs => .value t.tag (.iface (.slice (n := valuesName) vs))
  | _ => (value t).map fun v => .value t.tag v
termination_by 2 * t.length
decreasing_by
  have hraw := raw_length_le t
  have hpos : t.length ≠ 0 := by
    intro h0
    rw [List.length_eq_zero_iff.mp h0] at _h
    cases _h
  simp only [lenHeader] at hraw
  omega

/-- The loop of `Value.UnmarshalTTLV` over the value of a structure: it ends at the first child that
    is not valid. -/
def valuesOf (inner : TTLV) : Option (GoVals .value) :=
  if inner.IsValid then
    match valueOf inner with
    | none => none
    | some v =>
      match _h : inner.next with
      | none => some (.cons v .nil)
      | some n => (valuesOf n).map fun vs => .cons v vs
  else some .nil
termination_by 2 * inner.length + 1
decreasing_by
  · omega
  · have := next_length_lt _h
    omega
end

/-! ## Scalar destinations -/

/-- What happened at a scalar destination: its value afterwards, and the outcome. -/
abbrev Stored (s : Scalar) := s.Val × Outcome

/-- Stores what an accessor returns. -/
def store {α : Type} (cur : α) : Option α → α × Outcome
  | some v => (v, .ok ())
  | none => (cur, .panic)

/-- `val.OverflowInt(i)`. -/
def overflowInt (bits : Nat) (i : Int) : Bool :=
  decide (i < -(2 ^ (bits - 1) : Int) ∨ (2 ^ (bits - 1) : Int) ≤ i)

/-- `val.OverflowUint(u)`. -/
def overflowUint (bits : Nat) (u : Nat) : Bool := decide (2 ^ bits ≤ u)

section

variable (dec : Dec) (t : TTLV)

/-- An integer into a destination of a signed kind. -/
def storeInt (ty : GoType) {bits : Nat} (cur : BitVec bits) : Option Int → BitVec bits × Outcome
  | none => (cur, .panic)
  | some i =>
    if overflowInt bits i then (cur, newError dec t ty .intOverflow)
    else (BitVec.ofInt bits i, .ok ())

/-- An integer into a destination of an unsigned kind. -/
def storeUint (ty : GoType) {bits : Nat} (cur : BitVec bits) : Option Nat → BitVec bits × Outcome
  | none => (cur, .panic)
  | some u =>
    if overflowUint bits u then (cur, newError dec t ty .intOverflow)
    else (BitVec.ofNat bits u, .ok ())

/-- `int64(ttlv.ValueEnumeration())` and `int64(ttlv.ValueInteger())`. -/
def enumerationInt : Option Int := t.valueEnumeration.map fun v => (v.toNat : Int)
def integerInt : Option Int := t.valueInteger.map fun v => v.toInt

/-- `uint64(ttlv.ValueEnumeration())` and `uint64(ttlv.ValueInteger())`, the latter sign-extended. -/
def enumerationUint : Option Nat := t.valueEnumeration.map fun v => v.toNat
def integerUint : Option Nat := t.valueInteger.map fun v => (v.signExtend 64).toNat

/-- The number of bits of the unsigned destinations that take Integers and Enumerations. -/
def storeUintOf (ty : GoType) {bits : Nat} (cur : BitVec bits) (typ : Typ) : BitVec bits × Outcome :=
  match typ with
  | .Enumeration => storeUint dec t ty cur (enumerationUint t)
  | .Integer => storeUint dec t ty cur (integerUint t)
  | _ => (cur, mismatch dec t ty)

/-- A ByteString into a destination that is not a slice: `val.Type().Elem()` panics for the kinds
    without an element type, and `SetBytes` for those whose element type is `byte`. -/
def byteStringInto (ty : GoType) : Outcome :=
  match ty with
  | .ptr e => if e = byteType then .panic else mismatch dec t ty
  | .array _ e => if e = byteType then .panic else mismatch dec t ty
  | .scalar (.other _ (.chan byteElem)) => if byteElem then .panic else mismatch dec t ty
  | .scalar (.other _ (.map byteElem)) => if byteElem then .panic else mismatch dec t ty
  | _ => .panic

/-- `unmarshalStructure` into a struct type without exported fields. -/
def skipStructure (ty : GoType) : Outcome :=
  if dec.disallowExtraValues && t.valueStructure.isSome then
    newError { dec with currStruct := some ty } t ty .unexpectedValue
  else .ok ()

/-- The type switch of `unmarshal` on a scalar destination. -/
def storeScalar (typ : Typ) : (s : Scalar) → s.Val → Stored s
  | .bool n, cur =>
    match typ with
    | .Boolean => store cur t.valueBoolean
    | .ByteString => (cur, byteStringInto dec t (.scalar (.bool n)))
    | _ => (cur, mismatch dec t (.scalar (.bool n)))
  | .string n, cur =>
    match typ with
    | .TextString => (t.valueTextString, .ok ())
    | .ByteString => (cur, byteStringInto dec t (.scalar (.string n)))
    | _ => (cur, mismatch dec t (.scalar (.string n)))
  | .int n .int64, cur =>
    match typ with
    | .Interval => store cur t.valueInterval
    | .LongInteger => store cur t.valueLongInteger
    | .ByteString => (cur, byteStringInto dec t (.scalar (.int n .int64)))
    | _ => (cur, mismatch dec t (.scalar (.int n .int64)))
  | .duration, cur =>
    match typ with
    | .Interval => store cur t.valueInterval
    | .LongInteger => store cur t.valueLongInteger
    | .ByteString => (cur, byteStringInto dec t (.scalar .duration))
    | _ => (cur, mismatch dec t (.scalar .duration))
  | .int n k, cur =>
    match typ with
    | .Enumeration => storeInt dec t (.scalar (.int n k)) cur (enumerationInt t)
    | .Integer => storeInt dec t (.scalar (.int n k)) cur (integerInt t)
    | .ByteString => (cur, byteStringInto dec t (.scalar (.int n k)))
    | _ => (cur, mismatch dec t (.scalar (.int n k)))
  | .uint n .uint64, cur =>
    match typ with
    | .LongInteger => store cur t.valueLongInteger
    | .ByteString => (cur, byteStringInto dec t (.scalar (.uint n .uint64)))
    | _ => (cur, mismatch dec t (.scalar (.uint n .uint64)))
  | .uint n k, cur =>
    match typ with
    | .ByteString => (cur, byteStringInto dec t (.scalar (.uint n k)))
    | _ => storeUintOf dec t (.scalar (.uint n k)) cur typ
  | .tag, cur =>
    match typ with
    | .ByteString => (cur, byteStringInto dec t (.scalar .tag))
    | _ => storeUintOf dec t (.scalar .tag) cur typ
  | .enum n m, cur =>
    match typ with
    | .ByteString => (cur, byteStringInto dec t (.scalar (.enum n m)))
    | _ => storeUintOf dec t (.scalar (.enum n m)) cur typ
  | .bytes n, cur =>
    match typ with
    | .ByteString => (t.valueByteString, .ok ())
    | _ => (cur, mismatch dec t (.scalar (.bytes n)))
  | .time, cur =>
    match typ with
    -- the kind is a struct
    | .Structure => (cur, skipStructure dec t (.scalar .time))
    | .DateTime | .DateTimeExtended => store cur t.valueDateTime
    | .ByteString => (cur, byteStringInto dec t (.scalar .time))
    | _ => (cur, mismatch dec t (.scalar .time))
  | .bigInt, cur =>
    match typ with
    | .Structure => (cur, skipStructure dec t (.scalar .bigInt))
    | .BigInteger => (t.valueBigInteger, .ok ())
    | .ByteString => (cur, byteStringInto dec t (.scalar .bigInt))
    | _ => (cur, mismatch dec t (.scalar .bigInt))
  | .dateTimeExtended, cur =>
    -- `DateTimeExtended.UnmarshalTTLV` decodes into its `Time`
    match typ with
    | .Structure => (cur, skipStructure dec t (.scalar .time))
    | .DateTime | .DateTimeExtended => store cur t.valueDateTime
    | .ByteString => (cur, byteStringInto dec t (.scalar .time))
    | _ => (cur, mismatch dec t (.scalar .time))
  | .ttlv, _ => (t, .ok ())
  | .other n k, cur =>
    match typ with
    | .ByteString => (cur, byteStringInto dec t (.scalar (.other n k)))
    | _ => (cur, mismatch dec t (.scalar (.other n k)))

/-- `unmarshal` on a scalar destination. -/
def unmarshalScalar (s : Scalar) (cur : s.Val) : Stored s :=
  match s, cur with
  | .ttlv, _ => (t, .ok ())
  | s, cur =>
    match t.typ with
    | some typ => storeScalar dec t typ s cur
    | none => (cur, newError dec t (.scalar s) .invalidType)

theorem unmarshalScalar_of_ne {s : Scalar} (hs : s ≠ .ttlv) (cur : s.Val) :
    unmarshalScalar dec t s cur =
      match t.typ with
      | some typ => storeScalar dec t typ s cur
      | none => (cur, newError dec t (.scalar s) .invalidType) := by
  cases s with
  | ttlv => exact absurd rfl hs
  | _ => rfl

theorem unmarshalScalar_of_typ {t : TTLV} {typ : Typ} (h : t.typ = some typ) {s : Scalar}
    (hs : s ≠ .ttlv) (cur : s.Val) :
    unmarshalScalar dec t s cur = storeScalar dec t typ s cur := by
  rw [unmarshalScalar_of_ne dec t hs, h]

-- the cells of the type switch that store a value

@[simp] theorem storeScalar_boolean (n : GoString) (cur : Bool) :
    storeScalar dec t .Boolean (.bool n) cur = store cur t.valueBoolean := rfl

@[simp] theorem storeScalar_textString (n cur : GoString) :
    storeScalar dec t .TextString (.string n) cur = (t.valueTextString, .ok ()) := rfl

@[simp] theorem storeScalar_byteString (n : GoString) (cur : Option Bytes) :
    storeScalar dec t .ByteString (.bytes n) cur = (t.valueByteString, .ok ()) := rfl

@[simp] theorem storeScalar_bigInteger (cur : Int) :
    storeScalar dec t .BigInteger .bigInt cur = (t.valueBigInteger, .ok ()) := rfl

@[simp] theorem storeScalar_interval (cur : BitVec 64) :
    storeScalar dec t .Interval .duration cur = store cur t.valueInterval := rfl

@[simp] theorem storeScalar_dateTime (cur : Time) :
    storeScalar dec t .DateTime .time cur = store cur t.valueDateTime := rfl

@[simp] theorem storeScalar_dateTimeExtended (cur : Time) :
    storeScalar dec t .DateTimeExtended .time cur = store cur t.valueDateTime := rfl

@[simp] theorem storeScalar_int64 (n : GoString) (cur : BitVec 64) :
    storeScalar dec t .LongInteger (.int n .int64) cur = store cur t.valueLongInteger := rfl

@[simp] theorem storeScalar_uint64 (n : GoString) (cur : BitVec 64) :
    storeScalar dec t .LongInteger (.uint n .uint64) cur = store cur t.valueLongInteger := rfl

theorem storeScalar_integer (n : GoString) {k : IntKind} (hk : k ≠ .int64) (cur : BitVec k.bits) :
    storeScalar dec t .Integer (.int n k) cur =
      storeInt dec t (.scalar (.int n k)) cur (integerInt t) := by
  cases k with
  | int64 => exact absurd rfl hk
  | _ => rfl

theorem storeScalar_enumeration (n : GoString) {k : IntKind} (hk : k ≠ .int64) (cur : BitVec k.bits) :
    storeScalar dec t .Enumeration (.int n k) cur =
      storeInt dec t (.scalar (.int n k)) cur (enumerationInt t) := by
  cases k with
  | int64 => exact absurd rfl hk
  | _ => rfl

theorem storeScalar_uint (n : GoString) {k : UintKind} (hk : k ≠ .uint64) {typ : Typ}
    (htyp : typ ≠ .ByteString) (cur : BitVec k.bits) :
    storeScalar dec t typ (.uint n k) cur = storeUintOf dec t (.scalar (.uint n k)) cur typ := by
  cases k with
  | uint64 => exact absurd rfl hk
  | _ =>
    cases typ with
    | ByteString => exact absurd rfl htyp
    | _ => rfl

theorem storeScalar_tag {typ : Typ} (htyp : typ ≠ .ByteString) (cur : Tag) :
    storeScalar dec t typ .tag cur = storeUintOf dec t (.scalar .tag) cur typ := by
  cases typ with
  | ByteString => exact absurd rfl htyp
  | _ => rfl

theorem storeScalar_enum (n : GoString) (m : Bool) {typ : Typ} (htyp : typ ≠ .ByteString)
    (cur : BitVec 32) :
    storeScalar dec t typ (.enum n m) cur = storeUintOf dec t (.scalar (.enum n m)) cur typ := by
  cases typ with
  | ByteString => exact absurd rfl htyp
  | _ => rfl

/-- `unmarshal` on a destination of a kind that takes no block. -/
def refuse (ty : GoType) : Outcome :=
  match t.typ with
  | none => newError dec t ty .invalidType
  | some .ByteString => byteStringInto dec t ty
  | some _ => mismatch dec t ty

end

/-! ## Structures -/

/-- The loop `for n := t.ValueStructure(); n != nil; n = n.Next()` up to the first failure. -/
def eachChild {σ : Type} (step : σ → TTLV → σ × Outcome) (s : σ) (n : TTLV) : σ × Outcome :=
  match step s n with
  | (s', .ok ()) =>
    match _h : n.next with
    | none => (s', .ok ())
    | some m => eachChild step s' m
  | (s', .err e) => (s', .err e)
  | (s', .panic) => (s', .panic)
termination_by n.length
decreasing_by
  have := next_length_lt _h
  omega

/-- The field a child is stored in, with its position: the first with the child's tag, or else the
    first one with the `any` flag. -/
def findField (tag : Tag) : List Slot → Nat → Option (Nat × FieldInfo) → Option (Nat × FieldInfo)
  | [], _, candidate => candidate
  | .valueField fi :: slots, i, candidate =>
    if fi.flags.any then
      findField tag slots (i + 1) (match candidate with
        | some c => some c
        | none => some (i, fi))
    else if fi.tag = tag then some (i, fi)
    else findField tag slots (i + 1) candidate
  | _ :: slots, i, candidate => findField tag slots (i + 1) candidate

/-- Sets a TTLVTag field of type `Tag`. -/
def setTTLVTag (tag : Tag) : {fs : Fields} → List Slot → FieldVals fs → FieldVals fs
  | .cons _ (.scalar .tag) _, .tagField _ :: _, .cons _ vs => .cons (.scalar tag) vs
  | _, .tagField _ :: _, vs => vs
  | _, _ :: slots, .cons v vs => .cons v (setTTLVTag tag slots vs)
  | _, _, vs => vs

def bigIntOf : {ty : GoType} → GoVal ty → Option Int
  | .scalar .bigInt, .scalar i => some i
  | _, _ => none

def bigIntAt : {ty : GoType} → GoVal ty → Option Int
  | _, .ptr v => bigIntOf v
  | _, _ => none

/-- The number of the `*big.Int` that an interface holds. -/
def heldBigInt : {ty : GoType} → GoVal ty → Option Int
  | _, .iface v => bigIntAt v
  | _, _ => none

/-- `reflect.PtrTo(typ).Implements(unmarshalerType)`. -/
def ptrIsUnmarshaler : GoType → Bool
  | .value | .scalar .ttlv | .scalar .dateTimeExtended => true
  | _ => false

/-- One child of the structure `parent`, whose destination is of type `ty`; `field` decodes into the
    field at a position. -/
def unmarshalChild {σ : Type} (dec : Dec) (parent : TTLV) (ty : GoType) (slots : List Slot)
    (field : Dec → Nat → σ → TTLV → σ × Outcome) (vs : σ) (n : TTLV) : σ × Outcome :=
  match findField n.tag slots 0 none with
  | some (i, fi) => field ⟨dec.disallowExtraValues, some ty, fi.name⟩ i vs n
  | none =>
    if dec.disallowExtraValues then
      (vs, newError { dec with currStruct := some ty } parent ty .unexpectedValue)
    else (vs, .ok ())

section

variable (reg : Registry)

mutual
/-- `unmarshal`; `deref` says whether a pointer may still be followed. -/
def unmarshal (dec : Dec) (deref : Bool) : (ty : GoType) → GoVal ty → TTLV → GoVal ty × Outcome
  | .scalar s, .scalar cur, t =>
    if t.length = 0 then (.scalar cur, .ok ())
    else match unmarshalScalar dec t s cur with
      | (v, r) => (.scalar v, r)
  | .iface, cur, t =>
    if t.length = 0 then (cur, .ok ())
    else match deref, heldBigInt cur with
      | true, some i =>
        -- the pointer that an earlier BigInteger has left here is followed
        match unmarshalScalar dec t .bigInt i with
        | (i', r) => (.iface (.ptr (.scalar (s := .bigInt) i')), r)
      | _, _ =>
        match t.typ with
        | some .Structure => (.iface (.scalar (s := .ttlv) t), .ok ())
        | _ => store cur (value t)
  | .ptr e, cur, t =>
    if t.length = 0 then (cur, .ok ())
    else match deref, cur with
      | true, .ptr v =>
        match unmarshal dec false e v t with
        | (v', r) => (.ptr v', r)
      | true, .ptrNil =>
        match unmarshal dec false e e.zero t with
        | (v', r) => (.ptr v', r)
      | false, .ptr v =>
        if ptrIsUnmarshaler e then
          match unmarshal dec false e v t with
          | (v', r) => (.ptr v', r)
        else (.ptr v, refuse dec t (.ptr e))
      -- `UnmarshalTTLV` is called on the nil pointer
      | false, .ptrNil => (.ptrNil, if ptrIsUnmarshaler e then .panic else refuse dec t (.ptr e))
  | .slice _ e, .slice vs, t =>
    if t.length = 0 then (.slice vs, .ok ())
    else match unmarshal dec true e e.zero t with
      | (v, .ok ()) => (.slice (vs.append (.cons v .nil)), .ok ())
      | (_, .err err) => (.slice vs, .err err)
      | (_, .panic) => (.slice vs, .panic)
  | .array l e, cur, t =>
    if t.length = 0 then (cur, .ok ()) else (cur, refuse dec t (.array l e))
  | .struct n fs, .struct vs, t =>
    if t.length = 0 then (.struct vs, .ok ())
    else match t.typ with
      | some .Structure =>
        match getTypeInfo reg (.struct n fs) with
        | .error e => (.struct vs, newError dec t (.struct n fs) (.typeInfo e))
        | .ok ti =>
          match t.valueStructure with
          | none => (.struct (setTTLVTag t.tag ti.slots vs), .ok ())
          | some inner =>
            match eachChild
              (unmarshalChild dec t (.struct n fs) ti.slots fun d i vs c => unmarshalField d fs i vs c)
              (setTTLVTag t.tag ti.slots vs) inner with
            | (vs', r) => (.struct vs', r)
      | _ => (.struct vs, refuse dec t (.struct n fs))
  | .value, cur, t => if t.length = 0 then (cur, .ok ()) else store cur (valueOf t)
  | .marshaler n p, cur, t =>
    if t.length = 0 then (cur, .ok ())
    else match t.typ with
      | some .Structure => (cur, skipStructure dec t (.marshaler n p))
      | _ => (cur, refuse dec t (.marshaler n p))

/-- `unmarshal(val.FieldByIndex(i), n)`. -/
def unmarshalField (dec : Dec) : (fs : Fields) → Nat → FieldVals fs → TTLV → FieldVals fs × Outcome
  | .nil, _, vs, _ => (vs, .ok ())
  | .cons _ ty _, 0, .cons v vs, n =>
    match unmarshal dec true ty v n with
    | (v', r) => (.cons v' vs, r)
  | .cons _ _ rest, i + 1, .cons v vs, n =>
    match unmarshalField dec rest i vs n with
    | (vs', r) => (.cons v vs', r)
end

/-- `NextTTLV` on a reader that holds the bytes `b`. -/
def nextTTLV (b : Bytes) : Res DecErr TTLV :=
  if b.length < lenHeader then .err .eof
  else match TTLV.validHeader (b.take lenHeader) with
    | some e => .err (.invalidHeader e)
    | none =>
      match TTLV.fullLen (b.take lenHeader) with
      | none => .panic
      | some n => if b.length < n then .err .eof else .ok (b.take n)

/-- `Unmarshal(b, &dst)` with a zero `dst` of type `ty`: the destination afterwards, and what the
    call did. -/
def unmarshalBytes (ty : GoType) (b : Bytes) : GoVal ty × Outcome :=
  match nextTTLV b with
  | .ok t => unmarshal reg newDecoder false ty ty.zero t
  | .err e => (ty.zero, .err e)
  | .panic => (ty.zero, .panic)

end

end KmipGo.Decoder
