import KmipGo.Registry.Format
import KmipGo.Ttlv.Access

/-! # Go types and values

What the reflection code of the encoder and the decoder sees: a type, and a
value of that type.  `GoVal` is indexed by its type, so a value always has the
shape its type says.

* `Scalar` — types whose values hold no other Go value, with `Scalar.Val` the
  set of their values.  Byte slices are scalars: a nil slice is `none`.
* `GoType` — scalars, interfaces, pointers, slices, arrays and structs, the
  type `ttlv.Value`, and struct types with a `MarshalTTLV` method of their own.
* `GoVal` — the values.  Apart from byte slices, a nil slice is the empty one.

Types are compared by their unqualified name, as `typ.Name()` gives it.  The
element type of a `slice` is not `byte`; a slice of bytes is `Scalar.bytes`.
-/

namespace KmipGo.Go

open KmipGo.Lib KmipGo.Ttlv KmipGo.Reg

/-! ## Kinds -/

/-- `reflect.Kind`. -/
inductive Kind where
  | Bool | Int | Int8 | Int16 | Int32 | Int64 | Uint | Uint8 | Uint16 | Uint32 | Uint64 | Uintptr
  | Float32 | Float64 | Complex64 | Complex128 | Array | Chan | Func | Interface | Map | Ptr
  | Slice | String | Struct | UnsafePointer
deriving DecidableEq, Repr

inductive IntKind where
  | int | int8 | int16 | int32 | int64
deriving DecidableEq, Repr

inductive UintKind where
  | uint | uint8 | uint16 | uint32 | uint64
deriving DecidableEq, Repr

-- `int` and `uint` are 64 bits wide
@[reducible] def IntKind.bits : IntKind → Nat
  | .int => 64
  | .int8 => 8
  | .int16 => 16
  | .int32 => 32
  | .int64 => 64

@[reducible] def UintKind.bits : UintKind → Nat
  | .uint => 64
  | .uint8 => 8
  | .uint16 => 16
  | .uint32 => 32
  | .uint64 => 64

def IntKind.kind : IntKind → Kind
  | .int => .Int
  | .int8 => .Int8
  | .int16 => .Int16
  | .int32 => .Int32
  | .int64 => .Int64

def UintKind.kind : UintKind → Kind
  | .uint => .Uint
  | .uint8 => .Uint8
  | .uint16 => .Uint16
  | .uint32 => .Uint32
  | .uint64 => .Uint64

/-- The kinds neither the encoder nor the decoder supports.  Channels and maps have an element type,
    of which only matters whether it is `byte`. -/
inductive OtherKind where
  | uintptr | float32 | float64 | complex64 | complex128 | func | unsafePointer
  | chan (byteElem : Bool)
  | map (byteElem : Bool)
deriving DecidableEq, Repr

def OtherKind.kind : OtherKind → Kind
  | .uintptr => .Uintptr
  | .float32 => .Float32
  | .float64 => .Float64
  | .complex64 => .Complex64
  | .complex128 => .Complex128
  | .func => .Func
  | .unsafePointer => .UnsafePointer
  | .chan _ => .Chan
  | .map _ => .Map

/-! ## Types -/

inductive Scalar where
  | bool (name : GoString)
  | string (name : GoString)
  | int (name : GoString) (k : IntKind)
  | uint (name : GoString) (k : UintKind)
  /-- `time.Duration` -/
  | duration
  /-- `ttlv.Tag` -/
  | tag
  /-- `ttlv.EnumValue` and the generated enumeration and mask types: `uint32` with a `MarshalTTLV`
      that writes an Enumeration, or an Integer for a mask. -/
  | enum (name : GoString) (mask : Bool)
  | bytes (name : GoString)
  /-- `time.Time` -/
  | time
  /-- `big.Int` -/
  | bigInt
  | dateTimeExtended
  | ttlv
  | other (name : GoString) (k : OtherKind)
deriving DecidableEq, Repr

@[reducible] def Scalar.Val : Scalar → Type
  | .bool _ => Bool
  | .string _ => GoString
  | .int _ k => BitVec k.bits
  | .uint _ k => BitVec k.bits
  | .duration => BitVec 64
  | .tag => Tag
  | .enum _ _ => BitVec 32
  | .bytes _ => Option Bytes
  | .time => Time
  | .bigInt => Int
  | .dateTimeExtended => Time
  | .ttlv => TTLV
  -- whether the value is nil, for the kinds that can be
  | .other _ _ => Bool

/-- A field of a struct type: its name, its `ttlv` struct tag, and what makes the package skip it. -/
structure FieldHdr where
  name : GoString
  ttlvTag : GoString
  anonymous : Bool
  unexported : Bool
deriving DecidableEq, Repr

mutual
inductive GoType where
  | scalar (s : Scalar)
  /-- `interface{}` -/
  | iface
  | ptr (elem : GoType)
  | slice (name : GoString) (elem : GoType)
  | array (len : Nat) (elem : GoType)
  | struct (name : GoString) (fields : Fields)
  /-- `ttlv.Value` -/
  | value
  /-- A struct type without exported fields whose `MarshalTTLV` has a value or a pointer receiver. -/
  | marshaler (name : GoString) (ptrReceiver : Bool)
inductive Fields where
  | nil
  | cons (hdr : FieldHdr) (ty : GoType) (rest : Fields)
end

deriving instance DecidableEq for GoType, Fields

def Scalar.name : Scalar → GoString
  | .bool n | .string n | .int n _ | .uint n _ | .enum n _ | .bytes n | .other n _ => n
  | .duration => lit "Duration"
  | .tag => lit "Tag"
  | .time => lit "Time"
  | .bigInt => lit "Int"
  | .dateTimeExtended => lit "DateTimeExtended"
  | .ttlv => lit "TTLV"

/-- `typ.Name()`; empty for a type without a name. -/
def GoType.name : GoType → GoString
  | .scalar s => s.name
  | .iface | .ptr _ | .array _ _ => []
  | .slice n _ | .struct n _ | .marshaler n _ => n
  | .value => lit "Value"

def Scalar.kind : Scalar → Kind
  | .bool _ => .Bool
  | .string _ => .String
  | .int _ k => k.kind
  | .uint _ k => k.kind
  | .duration => .Int64
  | .tag | .enum _ _ => .Uint32
  | .bytes _ | .ttlv => .Slice
  | .time | .bigInt | .dateTimeExtended => .Struct
  | .other _ k => k.kind

/-- `typ.Kind()`. -/
def GoType.kind : GoType → Kind
  | .scalar s => s.kind
  | .iface => .Interface
  | .ptr _ => .Ptr
  | .slice _ _ => .Slice
  | .array _ _ => .Array
  | .struct _ _ | .value | .marshaler _ _ => .Struct

/-- `reflect.TypeOf(byte(0))`. -/
def byteType : GoType := .scalar (.uint (lit "uint8") .uint8)

/-- `reflect.TypeOf(Tag(0))`. -/
def tagType : GoType := .scalar .tag

/-- `ttlv.EnumValue`. -/
def enumValue : Scalar := .enum (lit "EnumValue") false

/-- The name of the type `ttlv.Values`. -/
def valuesName : GoString := lit "Values"

/-! ## Values -/

/-- The tag a `MarshalTTLV` method hands on: the one it was given, or one of its own. -/
inductive TagArg where
  | given
  | own (tag : Tag)
deriving DecidableEq, Repr

def TagArg.get (given : Tag) : TagArg → Tag
  | .given => given
  | .own t => t

mutual
inductive GoVal : GoType → Type where
  | scalar {s : Scalar} (v : s.Val) : GoVal (.scalar s)
  | ifaceNil : GoVal .iface
  | iface {t : GoType} (v : GoVal t) : GoVal .iface
  | ptrNil {e : GoType} : GoVal (.ptr e)
  | ptr {e : GoType} (v : GoVal e) : GoVal (.ptr e)
  | slice {n : GoString} {e : GoType} (vs : GoVals e) : GoVal (.slice n e)
  | array {l : Nat} {e : GoType} (vs : GoVals e) : GoVal (.array l e)
  | struct {n : GoString} {fs : Fields} (vs : FieldVals fs) : GoVal (.struct n fs)
  | value (tag : Tag) (v : GoVal .iface) : GoVal .value
  | marshaler {n : GoString} {p : Bool} (body : Acts) : GoVal (.marshaler n p)
/-- The elements of a slice or an array. -/
inductive GoVals : GoType → Type where
  | nil {e : GoType} : GoVals e
  | cons {e : GoType} (v : GoVal e) (vs : GoVals e) : GoVals e
inductive FieldVals : Fields → Type where
  | nil : FieldVals .nil
  | cons {hdr : FieldHdr} {ty : GoType} {rest : Fields} (v : GoVal ty) (vs : FieldVals rest) :
      FieldVals (.cons hdr ty rest)
/-- What a user's `MarshalTTLV` does with the encoder, up to the first error. -/
inductive Acts : Type where
  | done
  | fail (message : GoString)
  | prim (tag : TagArg) (p : Prim) (rest : Acts)
  | structure (tag : TagArg) (body : Acts) (rest : Acts)
  | encodeValue (tag : TagArg) {t : GoType} (v : GoVal t) (rest : Acts)
  | flush (rest : Acts)
end

/-- The value of a scalar. -/
def GoVal.get {s : Scalar} : GoVal (.scalar s) → s.Val
  | .scalar v => v

/-- The fields of a struct. -/
def GoVal.fields {n : GoString} {fs : Fields} : GoVal (.struct n fs) → FieldVals fs
  | .struct vs => vs

def FieldVals.head {hdr : FieldHdr} {ty : GoType} {rest : Fields} :
    FieldVals (.cons hdr ty rest) → GoVal ty
  | .cons v _ => v

def FieldVals.tail {hdr : FieldHdr} {ty : GoType} {rest : Fields} :
    FieldVals (.cons hdr ty rest) → FieldVals rest
  | .cons _ vs => vs

/-! ## Zero values -/

def Scalar.zero : (s : Scalar) → s.Val
  | .bool _ => false
  | .string _ => []
  | .int _ _ => (0 : BitVec _)
  | .uint _ _ => (0 : BitVec _)
  | .duration => (0 : BitVec 64)
  | .tag => tagNone
  | .enum _ _ => (0 : BitVec 32)
  | .bytes _ => none
  | .time => ⟨BitVec.ofInt 64 (-62135596800), 0⟩
  | .bigInt => (0 : Int)
  | .dateTimeExtended => ⟨BitVec.ofInt 64 (-62135596800), 0⟩
  | .ttlv => []
  | .other _ _ => true

def GoVals.replicate {e : GoType} (v : GoVal e) : Nat → GoVals e
  | 0 => .nil
  | n + 1 => .cons v (replicate v n)

mutual
/-- `reflect.Zero`. -/
def GoType.zero : (ty : GoType) → GoVal ty
  | .scalar s => .scalar s.zero
  | .iface => .ifaceNil
  | .ptr _ => .ptrNil
  | .slice _ _ => .slice .nil
  | .array l e => .array (GoVals.replicate (GoType.zero e) l)
  | .struct _ fs => .struct (Fields.zero fs)
  | .value => .value tagNone .ifaceNil
  | .marshaler _ _ => .marshaler .done
def Fields.zero : (fs : Fields) → FieldVals fs
  | .nil => .nil
  | .cons _ ty rest => .cons (GoType.zero ty) (Fields.zero rest)
end

/-- `v.Len() == 0` of a list of elements. -/
def GoVals.isEmpty {e : GoType} : GoVals e → Bool
  | .nil => true
  | .cons _ _ => false

def GoVals.append {e : GoType} : GoVals e → GoVals e → GoVals e
  | .nil, ws => ws
  | .cons v vs, ws => .cons v (vs.append ws)

theorem GoVals.append_nil {e : GoType} : ∀ vs : GoVals e, vs.append .nil = vs
  | .nil => rfl
  | .cons v vs => congrArg (GoVals.cons v) (append_nil vs)

theorem GoVals.append_assoc {e : GoType} : ∀ us vs ws : GoVals e,
    (us.append vs).append ws = us.append (vs.append ws)
  | .nil, _, _ => rfl
  | .cons u us, vs, ws => congrArg (GoVals.cons u) (append_assoc us vs ws)

def Scalar.isEmpty : (s : Scalar) → s.Val → Bool
  | .bool _, b => !b
  | .string _, s => decide (s.length = 0)
  | .int _ _, i => i == 0
  | .uint _ _, u => u == 0
  | .duration, d => d == 0
  | .tag, t => t == 0
  | .enum _ _, u => u == 0
  | .bytes _, b => decide ((b.getD []).length = 0)
  | .time, t => t.isZero
  | .bigInt, i => i == 0
  | .dateTimeExtended, _ => false
  | .ttlv, b => decide (b.length = 0)
  -- asked only of a value the encoder has already refused
  | .other _ _, _ => false

/-- `isEmptyValue`. -/
@[simp] def isEmptyValue : {ty : GoType} → GoVal ty → Bool
  | .scalar s, .scalar v => s.isEmpty v
  | _, .ifaceNil => true
  | _, .iface _ => false
  | _, .ptrNil => true
  | _, .ptr _ => false
  | _, .slice vs => vs.isEmpty
  | _, .array vs => vs.isEmpty
  | _, .struct _ => false
  | _, .value _ _ => false
  | _, .marshaler _ => false

end KmipGo.Go
