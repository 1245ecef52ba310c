import KmipGo.Ttlv.Header
import KmipGo.Ttlv.BigInt

/-! # The encoding buffer

`encBuf` of `ttlv/encoder.go`.  An item is written in three steps: `begin` puts
a header with an empty length field, the value follows, and `end` pads the value
to a multiple of eight bytes and patches the length field it left open.

`Prim.item` is the byte string of one primitive item; `encodePrim_eq` says that
each `encode<Type>` method appends exactly that, whatever the buffer holds.
-/

namespace KmipGo.Ttlv

open KmipGo.Lib

/-! ## Instants -/

-- named, so that every use of a nanosecond literal has the same instance
instance neZeroNanoseconds : NeZero 1000000000 := ⟨by decide⟩

/-- A `time.Time` as the package uses it: seconds since the Unix epoch and nanoseconds within
    the second. -/
structure Time where
  unix : BitVec 64
  nanosecond : Fin 1000000000
deriving DecidableEq, Repr

/-- `time.Unix(sec, 0)`. -/
def Time.ofUnix (sec : BitVec 64) : Time := ⟨sec, 0⟩

/-- `time.Unix(0, nsec)`: the nanoseconds are carried into whole seconds. -/
def Time.ofUnixNano (nsec : BitVec 64) : Time :=
  ⟨BitVec.ofInt 64 (nsec.toInt / 1000000000), Fin.ofNat _ (nsec.toInt % 1000000000).toNat⟩

/-- `Time.IsZero`: January 1, year 1. -/
def Time.isZero (t : Time) : Bool :=
  t.unix == BitVec.ofInt 64 (-62135596800) && t.nanosecond == 0

/-- Microseconds since the epoch, as `encodeDateTimeExtended` computes them in `int64`. -/
def Time.micros (t : Time) : BitVec 64 :=
  t.unix * 1000000 + BitVec.ofNat 64 (t.nanosecond.val / 1000)

/-- `uint32(d / time.Second)`. -/
def intervalSeconds (d : BitVec 64) : BitVec 32 :=
  BitVec.ofInt 32 (d.toInt.tdiv 1000000000)

/-! ## The buffer -/

abbrev EncBuf := Bytes

namespace EncBuf

/-- `begin`: the header with its length field open, and the position after it. -/
def begin (h : EncBuf) (tag : Tag) (typ : Typ) : EncBuf × Nat :=
  (h ++ (beBytes 3 tag.toNat ++ [typ.code] ++ List.replicate 4 0), h.length + 8)

/-- `binary.BigEndian.PutUint32(h.Bytes()[i:], v)`. -/
def putUint32 (h : EncBuf) (i v : Nat) : EncBuf :=
  h.take i ++ beBytes 4 v ++ h.drop (i + 4)

/-- `binary.BigEndian.PutUint64(h.Bytes()[i:], v)`. -/
def putUint64 (h : EncBuf) (i v : Nat) : EncBuf :=
  h.take i ++ beBytes 8 v ++ h.drop (i + 8)

/-- `end`: pad what was written since position `i`, and patch its length in. -/
def endAt (h : EncBuf) (i : Nat) : EncBuf :=
  if (h.length - i) % 8 > 0 then
    putUint32 (h ++ List.replicate (8 - (h.length - i) % 8) 0) (i - 4) (h.length - i)
  else putUint32 h (i - 4) (h.length - i)

/-- `begin`, then the value bytes, then `end`. -/
def write (h : EncBuf) (tag : Tag) (typ : Typ) (value : Bytes) : EncBuf :=
  endAt ((begin h tag typ).1 ++ value) (begin h tag typ).2

def writeLongIntVal (h : EncBuf) (tag : Tag) (typ : Typ) (i : BitVec 64) : EncBuf :=
  endAt (putUint64 ((begin h tag typ).1 ++ List.replicate 8 0) (begin h tag typ).1.length i.toNat)
    (begin h tag typ).2

def writeIntVal (h : EncBuf) (tag : Tag) (typ : Typ) (val : BitVec 32) : EncBuf :=
  endAt (putUint32 ((begin h tag typ).1 ++ List.replicate 4 0) (begin h tag typ).1.length val.toNat)
    (begin h tag typ).2

/-- `encodeBigInt`; a nil pointer is skipped. -/
def encodeBigInt (h : EncBuf) (tag : Tag) : Option Int → EncBuf
  | none => h
  | some i => write h tag .BigInteger (bigIntValue i)

def encodeInt (h : EncBuf) (tag : Tag) (i : BitVec 32) : EncBuf :=
  writeIntVal h tag .Integer i

def encodeBool (h : EncBuf) (tag : Tag) (b : Bool) : EncBuf :=
  writeLongIntVal h tag .Boolean (if b then 1 else 0)

def encodeLongInt (h : EncBuf) (tag : Tag) (i : BitVec 64) : EncBuf :=
  writeLongIntVal h tag .LongInteger i

def encodeDateTime (h : EncBuf) (tag : Tag) (t : Time) : EncBuf :=
  writeLongIntVal h tag .DateTime t.unix

def encodeDateTimeExtended (h : EncBuf) (tag : Tag) (t : Time) : EncBuf :=
  writeLongIntVal h tag .DateTimeExtended t.micros

def encodeInterval (h : EncBuf) (tag : Tag) (d : BitVec 64) : EncBuf :=
  writeIntVal h tag .Interval (intervalSeconds d)

def encodeEnum (h : EncBuf) (tag : Tag) (i : BitVec 32) : EncBuf :=
  writeIntVal h tag .Enumeration i

def encodeTextString (h : EncBuf) (tag : Tag) (s : Bytes) : EncBuf :=
  write h tag .TextString s

/-- `encodeByteString`; a nil slice is skipped. -/
def encodeByteString (h : EncBuf) (tag : Tag) : Option Bytes → EncBuf
  | none => h
  | some b => write h tag .ByteString b

end EncBuf

/-! ## What an item looks like -/

/-- Header, value, and zeros up to a multiple of eight. -/
def item (tag : Tag) (ty : Typ) (value : Bytes) : Bytes :=
  header tag ty value.length ++ (value ++ List.replicate (padTo8 value.length) 0)

theorem length_item (tag : Tag) (ty : Typ) (value : Bytes) :
    (item tag ty value).length = 8 + (value.length + padTo8 value.length) := by
  simp [item]

theorem item_ne_nil (tag : Tag) (ty : Typ) (value : Bytes) : item tag ty value ≠ [] := by
  intro hnil
  have hlen := length_item tag ty value
  rw [hnil, List.length_nil] at hlen
  omega

/-- The three bytes that a tag has on the wire. -/
def wireTag (tag : Tag) : Tag := BitVec.ofNat 32 (tag.toNat % 2 ^ 24)

theorem toNat_wireTag (tag : Tag) : (wireTag tag).toNat = tag.toNat % 2 ^ 24 := by
  rw [wireTag, BitVec.toNat_ofNat]
  omega

theorem wireTag_of_lt {tag : Tag} (h : tag.toNat < 2 ^ 24) : wireTag tag = tag := by
  apply BitVec.eq_of_toNat_eq
  rw [toNat_wireTag, Nat.mod_eq_of_lt h]

/-- Only the low three bytes of a tag are written. -/
theorem header_wireTag (tag : Tag) (ty : Typ) (l : Nat) : header (wireTag tag) ty l = header tag ty l := by
  have hdigits := beBytes_beNat (beBytes 3 tag.toNat)
  rw [length_beBytes, beNat_beBytes] at hdigits
  rw [header, header, toNat_wireTag, show 2 ^ 24 = 256 ^ 3 by norm_num, hdigits]

theorem wireTag_header_append (tag : Tag) (ty : Typ) (l : Nat) (rest : Bytes) :
    TTLV.tag (header tag ty l ++ rest) = wireTag tag := by
  rw [← header_wireTag]
  apply tag_header_append
  rw [toNat_wireTag]
  exact Nat.mod_lt _ (by norm_num)

theorem tag_item_append (tag : Tag) (ty : Typ) (body rest : Bytes) :
    TTLV.tag (item tag ty body ++ rest) = wireTag tag := by
  rw [item, List.append_assoc, wireTag_header_append]

theorem typ_item (tag : Tag) (ty : Typ) (value : Bytes) : TTLV.typ (item tag ty value) = some ty := by
  rw [item, typ_header_append]

namespace EncBuf

theorem putUint32_append (xs ys : Bytes) (v : Nat) {i : Nat} (hi : xs.length = i) :
    putUint32 (xs ++ List.replicate 4 0 ++ ys) i v = xs ++ beBytes 4 v ++ ys := by
  have hdrop : (xs ++ List.replicate 4 0 ++ ys).drop (i + 4) = ys := by
    apply List.drop_left'
    simp [hi]
  rw [putUint32, hdrop, List.append_assoc xs, List.take_left' hi]

theorem putUint64_append (xs : Bytes) (v : Nat) :
    putUint64 (xs ++ List.replicate 8 0) xs.length v = xs ++ beBytes 8 v := by
  have hdrop : (xs ++ List.replicate 8 (0 : UInt8)).drop (xs.length + 8) = [] := by
    apply List.drop_eq_nil_of_le
    simp
  rw [putUint64, hdrop, List.take_left' rfl, List.append_nil]

/-- `end` closes the item that `begin` opened. -/
theorem write_eq (h : EncBuf) (tag : Tag) (ty : Typ) (value : Bytes) :
    write h tag ty value = h ++ item tag ty value := by
  have hlen : ((begin h tag ty).1 ++ value).length - (begin h tag ty).2 = value.length := by
    simp [begin]
    omega
  have hopen : ∀ ys : Bytes, putUint32 ((begin h tag ty).1 ++ value ++ ys) ((begin h tag ty).2 - 4)
      value.length = h ++ (header tag ty value.length ++ (value ++ ys)) := by
    intro ys
    have hpos : (h ++ (beBytes 3 tag.toNat ++ [ty.code])).length = (begin h tag ty).2 - 4 := by
      simp [begin]
    have hput := putUint32_append (h ++ (beBytes 3 tag.toNat ++ [ty.code])) (value ++ ys)
      value.length hpos
    simpa [begin, header] using hput
  rw [write, endAt, hlen, item, padTo8]
  by_cases hm : value.length % 8 > 0
  · rw [if_pos hm, hopen, Nat.mod_eq_of_lt (show 8 - value.length % 8 < 8 by omega)]
  · have hzero : (8 - value.length % 8) % 8 = 0 := by omega
    have hput := hopen []
    rw [List.append_nil, List.append_nil] at hput
    rw [if_neg hm, hput, hzero, List.replicate_zero, List.append_nil]

theorem writeLongIntVal_eq (h : EncBuf) (tag : Tag) (ty : Typ) (i : BitVec 64) :
    writeLongIntVal h tag ty i = h ++ item tag ty (beBytes 8 i.toNat) := by
  rw [writeLongIntVal, putUint64_append]
  exact write_eq h tag ty _

theorem writeIntVal_eq (h : EncBuf) (tag : Tag) (ty : Typ) (val : BitVec 32) :
    writeIntVal h tag ty val = h ++ item tag ty (beBytes 4 val.toNat) := by
  have hput := putUint32_append (begin h tag ty).1 [] val.toNat rfl
  rw [List.append_nil, List.append_nil] at hput
  rw [writeIntVal, hput]
  exact write_eq h tag ty _

end EncBuf

/-! ## Primitive items -/

/-- An argument of one of the `Encode<Type>` methods. -/
inductive Prim where
  | enumeration (v : BitVec 32)
  | integer (v : BitVec 32)
  | longInteger (v : BitVec 64)
  | interval (d : BitVec 64)
  | dateTime (t : Time)
  | dateTimeExtended (t : Time)
  | bigInteger (i : Option Int)
  | boolean (b : Bool)
  | textString (s : Bytes)
  | byteString (b : Option Bytes)

/-- The `Encode<Type>` method for an argument. -/
def encodePrim (h : EncBuf) (tag : Tag) : Prim → EncBuf
  | .enumeration v => EncBuf.encodeEnum h tag v
  | .integer v => EncBuf.encodeInt h tag v
  | .longInteger v => EncBuf.encodeLongInt h tag v
  | .interval d => EncBuf.encodeInterval h tag d
  | .dateTime t => EncBuf.encodeDateTime h tag t
  | .dateTimeExtended t => EncBuf.encodeDateTimeExtended h tag t
  | .bigInteger i => EncBuf.encodeBigInt h tag i
  | .boolean b => EncBuf.encodeBool h tag b
  | .textString s => EncBuf.encodeTextString h tag s
  | .byteString b => EncBuf.encodeByteString h tag b

/-- Type and value bytes of an item; none for the nil arguments that are skipped. -/
def Prim.content : Prim → Option (Typ × Bytes)
  | .enumeration v => some (.Enumeration, beBytes 4 v.toNat)
  | .integer v => some (.Integer, beBytes 4 v.toNat)
  | .longInteger v => some (.LongInteger, beBytes 8 v.toNat)
  | .interval d => some (.Interval, beBytes 4 (intervalSeconds d).toNat)
  | .dateTime t => some (.DateTime, beBytes 8 t.unix.toNat)
  | .dateTimeExtended t => some (.DateTimeExtended, beBytes 8 t.micros.toNat)
  | .bigInteger i => i.map fun i => (.BigInteger, bigIntValue i)
  | .boolean b => some (.Boolean, beBytes 8 (if b then 1 else 0))
  | .textString s => some (.TextString, s)
  | .byteString b => b.map fun b => (.ByteString, b)

/-- The bytes a primitive adds to the buffer. -/
def Prim.item (tag : Tag) (p : Prim) : Bytes :=
  match p.content with
  | none => []
  | some (ty, value) => Ttlv.item tag ty value

theorem encodePrim_eq (h : EncBuf) (tag : Tag) (p : Prim) :
    encodePrim h tag p = h ++ p.item tag := by
  cases p with
  | bigInteger i =>
    cases i with
    | none => exact (List.append_nil h).symm
    | some i => exact EncBuf.write_eq h tag _ _
  | byteString b =>
    cases b with
    | none => exact (List.append_nil h).symm
    | some b => exact EncBuf.write_eq h tag _ _
  | textString s => exact EncBuf.write_eq h tag _ _
  | boolean b =>
    cases b with
    | false => exact EncBuf.writeLongIntVal_eq h tag _ _
    | true => exact EncBuf.writeLongIntVal_eq h tag _ _
  | longInteger v => exact EncBuf.writeLongIntVal_eq h tag _ _
  | dateTime t => exact EncBuf.writeLongIntVal_eq h tag _ _
  | dateTimeExtended t => exact EncBuf.writeLongIntVal_eq h tag _ _
  | enumeration v => exact EncBuf.writeIntVal_eq h tag _ _
  | integer v => exact EncBuf.writeIntVal_eq h tag _ _
  | interval d => exact EncBuf.writeIntVal_eq h tag _ _

end KmipGo.Ttlv
