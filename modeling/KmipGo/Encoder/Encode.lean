import KmipGo.Go.TypeInfo

/-! # The encoder

`Encoder` of `ttlv/encoder.go`, with `Value.MarshalTTLV` of `ttlv/types.go`.
The state is the encoder itself: the depth of open structures, the pending
buffer, and what the writer has received so far (it never fails).  `currStruct`
and `currField`, which the source saves and restores around each call, are
arguments.

`encode` follows the recursion of the source over the value.  `indirect` looks
through an interface and then through one pointer: `Deref` says which of the
two may still happen at a value.
-/

namespace KmipGo.Encoder

open KmipGo.Lib KmipGo.Ttlv KmipGo.Reg KmipGo.Go

/-! ## State and errors -/

structure Enc where
  encodeDepth : Nat
  encBuf : EncBuf
  w : Bytes
deriving DecidableEq, Repr

/-- `NewEncoder`, on a writer that has received nothing. -/
def newEncoder : Enc := ⟨0, [], []⟩

inductive Cause where
  | unsupportedType
  | noTag
  | intOverflow
  /-- `ErrUnsupportedEnumTypeError`, with the name of the type appended -/
  | unsupportedEnumType (typ : GoType)
  | parse (e : ParseErr)
deriving DecidableEq

inductive EncErr where
  /-- `MarshalerError`, with its cause -/
  | marshaler (typ : GoType) (struct field : GoString) (tag : Tag) (cause : Cause)
  | typeInfo (e : TypeErr)
  /-- an error of a user's `MarshalTTLV` -/
  | user (message : GoString)
deriving DecidableEq

/-- The encoder after a call, and the error it returned, if any. -/
abbrev EncRes := Enc × Option EncErr

/-- Goes on only if the first call returned no error. -/
def EncRes.andThen (r : EncRes) (k : Enc → EncRes) : EncRes :=
  match r with
  | (e, none) => k e
  | (e, some err) => (e, some err)

/-- Where the encoder is, for error messages. -/
structure Ctx where
  currStruct : GoString
  currField : GoString

def Ctx.top : Ctx := ⟨[], []⟩

/-- `Flush`: nothing while a structure is open. -/
def flush (e : Enc) : EncRes :=
  if e.encodeDepth > 0 then (e, none)
  else ({ e with w := e.w ++ e.encBuf, encBuf := [] }, none)

/-- `EncodeStructure`.  The structure is closed also when `f` fails. -/
def encodeStructure (tag : Tag) (f : Enc → EncRes) (e : Enc) : EncRes :=
  match f { e with
      encodeDepth := e.encodeDepth + 1
      encBuf := (EncBuf.begin e.encBuf tag .Structure).1 } with
  | (e', err) =>
    ({ e' with
        encodeDepth := e'.encodeDepth - 1
        encBuf := EncBuf.endAt e'.encBuf (EncBuf.begin e.encBuf tag .Structure).2 }, err)

/-! ## Scalars -/

/-- What is done with a scalar: nothing, raw bytes, or one item. -/
inductive Emit where
  | nothing
  | raw (b : Bytes)
  | prim (p : Prim)

def Emit.run (tag : Tag) (e : Enc) : Emit → Enc
  | .nothing => e
  | .raw b => { e with encBuf := e.encBuf ++ b }
  | .prim p => { e with encBuf := encodePrim e.encBuf tag p }

def flagsOf (fi : Option FieldInfo) : Flags :=
  match fi with
  | some fi => fi.flags
  | none => noFlags

section

variable (reg : Registry)

/-- The tag a value is encoded with: the one given, or else the inferred one. -/
def tagOr {ty : GoType} (tag : Tag) (ti : TypeInfo) (fi : Option FieldInfo) (v : GoVal ty) : Tag :=
  if tag = tagNone then tagForMarshal ti fi v else tag

/-- The tag is to be treated as a mask rather than as an enumeration. -/
def asMask (flags : Flags) (enumMap : Option Enum) : Bool :=
  flags.bitmask || (match enumMap with
    | some e => e.bitMask
    | none => false)

/-- A 32 bit number under an enumeration or mask tag. -/
def enumPrim (flags : Flags) (enumMap : Option Enum) (i : BitVec 32) : Prim :=
  if asMask flags enumMap then .integer i else .enumeration i

/-- A string under an enumeration or mask tag: the number it names, or an error that counts only
    if the field is flagged. -/
def enumString (flags : Flags) (enumMap : Option Enum) (s : GoString) :
    Except (ParseErr × Bool) Prim :=
  if asMask flags enumMap then
    match parseMask s enumMap with
    | .ok i => .ok (.integer i)
    | .error e => .error (e, flags.bitmask)
  else
    match parseEnum s enumMap with
    | .ok i => .ok (.enumeration i)
    | .error e => .error (e, flags.enum)

/-- `typ.Implements(marshalerType)` for scalars. -/
def marshalScalar : (s : Scalar) → s.Val → Option Prim
  | .enum _ true, v => some (.integer v)
  | .enum _ false, v => some (.enumeration v)
  | .dateTimeExtended, t => some (.dateTimeExtended t)
  | _, _ => none

/-- The encoding by kind and special type, after the enumeration rules. -/
def plainScalar (dateTimeExt : Bool) : (s : Scalar) → s.Val → Except Cause Prim
  | .time, t => .ok (if dateTimeExt then .dateTimeExtended t else .dateTime t)
  | .bigInt, i => .ok (.bigInteger (some i))
  | .duration, d => .ok (.interval d)
  | .string _, s => .ok (.textString s)
  | .bytes _, b => .ok (.byteString b)
  | .int _ .int64, i => .ok (.longInteger i)
  | .int _ _, i =>
    if i.toInt > 2147483647 then .error .intOverflow else .ok (.integer (BitVec.ofInt 32 i.toInt))
  | .uint _ .uint64, u => .ok (.longInteger u)
  | .uint _ _, u =>
    if u.toNat > 2147483647 then .error .intOverflow else .ok (.integer (BitVec.ofNat 32 u.toNat))
  | .tag, u =>
    if u.toNat > 2147483647 then .error .intOverflow else .ok (.integer u)
  | .bool _, b => .ok (.boolean b)
  -- marshalers, raw TTLV and unsupported kinds do not get here
  | .enum _ _, _ => .error .unsupportedType
  | .dateTimeExtended, _ => .error .unsupportedType
  | .ttlv, _ => .error .unsupportedType
  | .other _ _, _ => .error .unsupportedType

/-- The number of an integer scalar that is narrower than `int64`, as the enumeration rules take it. -/
def enumNumber : (s : Scalar) → s.Val → Option (BitVec 32)
  | .int _ .int64, _ => none
  | .int _ _, i => some (BitVec.ofInt 32 i.toInt)
  | .uint _ .uint64, _ => none
  | .uint _ _, u => some (BitVec.ofNat 32 u.toNat)
  | .tag, u => some u
  | _, _ => none

def scalarString : (s : Scalar) → s.Val → Option GoString
  | .string _, str => some str
  | _, _ => none

/-- The part of `encode` after the tag is known to be set. -/
def taggedScalar (flags : Flags) (tag : Tag) (s : Scalar) (v : s.Val) : Except Cause Prim :=
  if flags.enum || flags.bitmask || (reg.enumForTag tag).isSome then
    match enumNumber s v, scalarString s v with
    | some i, _ => .ok (enumPrim flags (reg.enumForTag tag) i)
    | none, some str =>
      match enumString flags (reg.enumForTag tag) str with
      | .ok p => .ok p
      | .error (e, true) => .error (.parse e)
      | .error (_, false) => plainScalar flags.dateTimeExt s v
    | none, none =>
      if flags.enum || flags.bitmask then .error (.unsupportedEnumType (.scalar s))
      else plainScalar flags.dateTimeExt s v
  else plainScalar flags.dateTimeExt s v

/-- The nil values of scalar types, which `indirect` turns into an invalid value. -/
def scalarIsNil : (s : Scalar) → s.Val → Bool
  | .bytes _, b => b.isNone
  | .other _ .func, isNil => isNil
  | .other _ (.chan _), isNil => isNil
  | .other _ (.map _), isNil => isNil
  | _, _ => false

/-- `encode` on a scalar that is not nil. -/
def scalarEmit (ctx : Ctx) (tag : Tag) (fi : Option FieldInfo) :
    (s : Scalar) → s.Val → Except EncErr Emit
  | .ttlv, b => .ok (.raw b)
  | .other n k, _ => .error (.marshaler (.scalar (.other n k)) ctx.currStruct ctx.currField tag
      .unsupportedType)
  | s, v =>
    match marshalScalar s v with
    | some p =>
      if (flagsOf fi).omitEmpty && isEmptyValue (.scalar v : GoVal (.scalar s)) then .ok .nothing
      else .ok (.prim p)
    | none =>
      if (flagsOf fi).omitEmpty && isEmptyValue (.scalar v : GoVal (.scalar s)) then .ok .nothing
      else if tag = tagNone then
        .error (.marshaler (.scalar s) ctx.currStruct ctx.currField tag .noTag)
      else match taggedScalar reg (flagsOf fi) tag s v with
        | .ok p => .ok (.prim p)
        | .error c => .error (.marshaler (.scalar s) ctx.currStruct ctx.currField tag c)

def encodeScalar (ctx : Ctx) (tag : Tag) (fi : Option FieldInfo) (s : Scalar) (v : s.Val)
    (e : Enc) : EncRes :=
  if scalarIsNil s v then (e, none)
  else
    match scalarEmit reg ctx (tagOr tag (plainInfo reg (.scalar s)) fi (.scalar v)) fi s v with
    | .ok em => (em.run (tagOr tag (plainInfo reg (.scalar s)) fi (.scalar v)) e, none)
    | .error err => (e, some err)

/-! ## Values -/

/-- What `indirect` may still look through: an interface and a pointer, a pointer, or nothing. -/
inductive Deref where
  | any | ptr | done
deriving DecidableEq, Repr

/-- `reflect.PtrTo(typ).Implements(marshalerType)`. -/
def ptrIsMarshaler : GoType → Bool
  | .scalar (.enum _ _) | .scalar .dateTimeExtended | .value | .marshaler _ _ => true
  | _ => false

def unsupported (ctx : Ctx) (tag : Tag) (typ : GoType) : EncErr :=
  .marshaler typ ctx.currStruct ctx.currField tag .unsupportedType

/-- The field information for the elements of a slice: without omitempty. -/
def elemInfo (fi : Option FieldInfo) : Option FieldInfo :=
  fi.map fun fi => { fi with flags := { fi.flags with omitEmpty := false } }

/-- The checks on a struct value before its Structure is opened. -/
def structCheck (ctx : Ctx) (fi : Option FieldInfo) (tag : Tag) (ty : GoType) : Option EncErr :=
  if tag = tagNone then some (.marshaler ty ctx.currStruct ctx.currField tag .noTag)
  else if (flagsOf fi).enum || (flagsOf fi).bitmask then
    some (.marshaler ty ctx.currStruct ctx.currField tag (.unsupportedEnumType ty))
  else none

/-- The tag of a `Value` overrides the suggested one. -/
def valueTag (own tag : Tag) : Tag := if own ≠ tagNone then own else tag

mutual
/-- `encode`; `addr` is `v.CanAddr()`. -/
def encode (ctx : Ctx) (d : Deref) (addr : Bool) (tag : Tag) (fi : Option FieldInfo) :
    {ty : GoType} → GoVal ty → Enc → EncRes
  | .scalar s, .scalar v, e => encodeScalar reg ctx tag fi s v e
  | _, .ifaceNil, e => (e, none)
  | _, .iface v, e =>
    match d with
    | .any => encode ctx .ptr false tag fi v e
    -- a pointer to an interface: the interface itself is not looked through
    | _ => (e, some (unsupported ctx (tagOr tag (plainInfo reg .iface) fi (.iface v)) .iface))
  | _, .ptrNil, e => (e, none)
  | .ptr t, .ptr v, e =>
    match d with
    | .done =>
      -- a pointer to a pointer, which is fine if the inner one has a `MarshalTTLV` method
      if ptrIsMarshaler t then
        marshalTTLV ctx (tagOr tag (plainInfo reg (.ptr t)) fi (.ptr v)) v e
      else (e, some (unsupported ctx (tagOr tag (plainInfo reg (.ptr t)) fi (.ptr v)) (.ptr t)))
    | _ => encode ctx .done true tag fi v e
  | .slice n t, .slice vs, e =>
    if (flagsOf fi).omitEmpty && isEmptyValue (.slice vs : GoVal (.slice n t)) then (e, none)
    else encodeElems ctx true (tagOr tag (plainInfo reg (.slice n t)) fi (.slice vs : GoVal (.slice n t)))
      (elemInfo fi) vs e
  | .array l t, .array vs, e =>
    if (flagsOf fi).omitEmpty && isEmptyValue (.array vs : GoVal (.array l t)) then (e, none)
    else encodeElems ctx addr (tagOr tag (plainInfo reg (.array l t)) fi (.array vs : GoVal (.array l t)))
      (elemInfo fi) vs e
  | .struct n fs, .struct vs, e =>
    match getTypeInfo reg (.struct n fs) with
    | .error err => (e, some (.typeInfo err))
    | .ok ti =>
      match structCheck ctx fi (tagOr tag ti fi (.struct vs : GoVal (.struct n fs))) (.struct n fs) with
      | some err => (e, some err)
      | none =>
        encodeStructure (tagOr tag ti fi (.struct vs : GoVal (.struct n fs)))
          (encodeFields ⟨n, ctx.currField⟩ addr ti.slots vs) e
  | _, .value vt v, e =>
    match getTypeInfo reg .value with
    | .error err => (e, some (.typeInfo err))
    | .ok ti => marshalValue ctx (valueTag vt (tagOr tag ti fi (.value vt v))) v e
  | .marshaler n p, .marshaler body, e =>
    if !p || addr then
      runActs ctx (tagOr tag (plainInfo reg (.marshaler n p)) fi (.marshaler body : GoVal (.marshaler n p)))
        body e
    else
      -- only the pointer type has the method: the value is encoded as a struct without fields
      match structCheck ctx fi
          (tagOr tag (plainInfo reg (.marshaler n p)) fi (.marshaler body : GoVal (.marshaler n p)))
          (.marshaler n p) with
      | some err => (e, some err)
      | none =>
        encodeStructure
          (tagOr tag (plainInfo reg (.marshaler n p)) fi (.marshaler body : GoVal (.marshaler n p)))
          (fun e => (e, none)) e

/-- A call of a `MarshalTTLV` method. -/
def marshalTTLV (ctx : Ctx) (tag : Tag) : {ty : GoType} → GoVal ty → Enc → EncRes
  | .scalar s, .scalar v, e =>
    match marshalScalar s v with
    | some p => ((Emit.prim p).run tag e, none)
    | none => (e, none)
  | _, .value vt v, e => marshalValue ctx (valueTag vt tag) v e
  | _, .marshaler body, e => runActs ctx tag body e
  -- no other type has the method
  | _, _, e => (e, none)

/-- `Value.MarshalTTLV` on the content of a `Value`, once its own tag is taken into account. -/
def marshalValue (ctx : Ctx) (tag : Tag) : {ty : GoType} → GoVal ty → Enc → EncRes
  | _, .iface (t := t) v, e =>
    match t, v with
    | .slice n .value, .slice vs =>
      if n = valuesName then encodeStructure tag (encodeEach ctx vs) e
      else EncRes.andThen (encode ctx .ptr false tag none (.slice vs : GoVal (.slice n .value)) e) flush
    | _, v => EncRes.andThen (encode ctx .ptr false tag none v e) flush
  | _, .ifaceNil, e => flush e
  -- the content of a `Value` is an interface
  | _, _, e => (e, none)

/-- `for _, v := range tvs { e.Encode(v) }`. -/
def encodeEach (ctx : Ctx) : {t : GoType} → GoVals t → Enc → EncRes
  | _, .nil, e => (e, none)
  | _, .cons v vs, e =>
    EncRes.andThen (EncRes.andThen (encode ctx .any false tagNone none v e) flush)
      (encodeEach ctx vs)

/-- The elements of a slice or an array, one after the other. -/
def encodeElems (ctx : Ctx) (addr : Bool) (tag : Tag) (fi : Option FieldInfo) :
    {t : GoType} → GoVals t → Enc → EncRes
  | _, .nil, e => (e, none)
  | _, .cons v vs, e =>
    EncRes.andThen (encode ctx .any addr tag fi v e) (encodeElems ctx addr tag fi vs)

/-- The value fields of a struct. -/
def encodeFields (ctx : Ctx) (addr : Bool) : List Slot → {fs : Fields} → FieldVals fs → Enc → EncRes
  | slots, _, .cons v vs, e =>
    match slots with
    | .valueField fi :: slots =>
      EncRes.andThen (encode ⟨ctx.currStruct, fi.name⟩ .any addr tagNone (some fi) v e)
        (encodeFields ctx addr slots vs)
    | _ :: slots => encodeFields ctx addr slots vs e
    | [] => (e, none)
  | _, _, .nil, e => (e, none)

/-- A user's `MarshalTTLV`. -/
def runActs (ctx : Ctx) (given : Tag) : Acts → Enc → EncRes
  | .done, e => (e, none)
  | .fail msg, e => (e, some (.user msg))
  | .prim tag p rest, e => runActs ctx given rest ((Emit.prim p).run (tag.get given) e)
  | .structure tag body rest, e =>
    EncRes.andThen (encodeStructure (tag.get given) (runActs ctx given body) e)
      (runActs ctx given rest)
  | .encodeValue tag v rest, e =>
    EncRes.andThen (EncRes.andThen (encode ctx .any false (tag.get given) none v e) flush)
      (runActs ctx given rest)
  | .flush rest, e => EncRes.andThen (flush e) (runActs ctx given rest)
end

/-- `EncodeValue`. -/
def encodeValue {ty : GoType} (tag : Tag) (v : GoVal ty) (e : Enc) : EncRes :=
  EncRes.andThen (encode reg Ctx.top .any false tag none v e) flush

/-- `Marshal`. -/
def marshal {ty : GoType} (v : GoVal ty) : Except EncErr Bytes :=
  match encodeValue reg tagNone v newEncoder with
  | (e, none) => .ok e.w
  | (_, some err) => .error err

end

end KmipGo.Encoder
