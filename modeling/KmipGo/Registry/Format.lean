import KmipGo.Registry.Enum
import KmipGo.Lib.Result

/-! # Text forms of tags, types, enumerations and masks

`ttlv/formatting.go` and the hex helpers of `internal/kmiputil/hex_values.go`.
An `enumMap` argument that may be nil is an `Option Enum`.
-/

namespace KmipGo.Reg

open KmipGo.Lib KmipGo.Ttlv

/-- The errors of the parsers, with what they say about the text. -/
inductive ParseErr where
  /-- `ErrInvalidHexString` from the hex decoder. -/
  | invalidHex (text : GoString)
  /-- `ErrInvalidHexString`, "must be n bytes". -/
  | hexTooLong (maxLen : Nat)
  /-- `ErrUnregisteredEnumName`, with the name. -/
  | unregisteredEnumName (name : GoString)
deriving DecidableEq, Repr

/-! ## Hex values -/

/-- `pad`: zeros in front up to `l` bytes. -/
def pad (b : Bytes) (l : Nat) : Bytes := List.replicate (l - b.length) 0 ++ b

/-- `DecodeUint32`: the first four bytes after padding. -/
def decodeUint32 (b : Bytes) : BitVec 32 := BitVec.ofNat 32 (beNat ((pad b 4).take 4))

/-- `DecodeUint64`. -/
def decodeUint64 (b : Bytes) : BitVec 64 := BitVec.ofNat 64 (beNat ((pad b 8).take 8))

/-- `ParseHexValue`; `ok none` when there is no `0x`.  A `maxLen` of 0 is no limit. -/
def parseHexValue (s : GoString) (maxLen : Nat) : Except ParseErr (Option Bytes) :=
  if hasPrefix s (lit "0x") then
    match hexDecode (s.drop 2) with
    | none => .error (.invalidHex (s.drop 2))
    | some b =>
      if maxLen > 0 ∧ (b.dropWhile (· == 0)).length > maxLen then .error (.hexTooLong maxLen)
      else .ok (some b)
  else .ok none

/-- `parseHexOrName`. -/
def parseHexOrName (s : GoString) (maxLen : Nat) (enumMap : Option Enum) :
    Except ParseErr (BitVec 32) :=
  match parseHexValue s maxLen with
  | .error e => .error e
  | .ok (some b) => .ok (decodeUint32 b)
  | .ok none =>
    match enumMap.bind fun e => e.value s with
    | some v => .ok v
    | none => .error (.unregisteredEnumName s)

/-! ## Formatting -/

/-- The registered name of a value, or its hex form of at least `w` digits. -/
def formatOr (w : Nat) (v : BitVec 32) (enumMap : Option Enum) : GoString :=
  match enumMap.bind fun e => e.name v with
  | some s => s
  | none => lit "0x" ++ hexPad w v.toNat

def formatType (b : UInt8) (enumMap : Option Enum) : GoString :=
  formatOr 2 (BitVec.ofNat 32 b.toNat) enumMap

def formatTag (v : BitVec 32) (enumMap : Option Enum) : GoString := formatOr 6 v enumMap

def formatTagCanonical (v : BitVec 32) (enumMap : Option Enum) : GoString :=
  match enumMap.bind fun e => e.canonicalName v with
  | some s => s
  | none => lit "0x" ++ hexPad 6 v.toNat

def formatEnum (v : BitVec 32) (enumMap : Option Enum) : GoString := formatOr 8 v enumMap

/-- `fmt.Sprintf("%#08x", i)` of a signed number: the sign counts towards the width. -/
def hexInt (i : BitVec 32) : GoString :=
  if i.toInt < 0 then lit "-0x" ++ hexPad 7 i.toInt.natAbs else lit "0x" ++ hexPad 8 i.toNat

/-- Appends to a list of names separated by `|`. -/
def appendName (sb name : GoString) : GoString :=
  if sb.length > 0 then sb ++ lit "|" ++ name else sb ++ name

/-- The loop of `FormatInt`: the text so far and the bits still to name. -/
def formatFlags (e : Enum) : List (BitVec 32) → GoString → BitVec 32 → GoString × BitVec 32
  | [], sb, v => (sb, v)
  | v1 :: rest, sb, v =>
    match (if v1 &&& v = v1 then e.name v1 else none) with
    | some name =>
      if v ^^^ v1 = 0 then (appendName sb name, v ^^^ v1)
      else formatFlags e rest (appendName sb name) (v ^^^ v1)
    | none => if v = 0 then (sb, v) else formatFlags e rest sb v

def formatInt (i : BitVec 32) (enumMap : Option Enum) : GoString :=
  match enumMap with
  | none => hexInt i
  | some e =>
    if e.values.length = 0 then hexInt i
    else match formatFlags e e.values [] i with
      | (sb, v) => if v ≠ 0 then appendName sb (lit "0x" ++ hexPad 8 v.toNat) else sb

/-! ## Parsing -/

def parseEnum (s : GoString) (enumMap : Option Enum) : Except ParseErr (BitVec 32) :=
  match parseUint 32 s with
  | some u => .ok (BitVec.ofNat 32 u)
  | none => parseHexOrName s 4 enumMap

/-- The loop of `ParseInt` over the parts of a mask. -/
def parseFlags (enumMap : Option Enum) : List GoString → BitVec 32 → Except ParseErr (BitVec 32)
  | [], v => .ok v
  | part :: rest, v =>
    if part.length = 0 then parseFlags enumMap rest v
    else match parseHexOrName part 4 enumMap with
      | .error e => .error e
      | .ok i => parseFlags enumMap rest (v ||| i)

/-- `ParseInt` of masks and integers. -/
def parseMask (s : GoString) (enumMap : Option Enum) : Except ParseErr (BitVec 32) :=
  match parseInt 32 s with
  | some i => .ok (BitVec.ofInt 32 i)
  | none =>
    if s.all (fun b => b != 124 && b != 32) then parseHexOrName s 4 enumMap
    else parseFlags enumMap (splitAt 32 (s.map fun b => if b = 124 then 32 else b)) 0

def parseTag (s : GoString) (enumMap : Option Enum) : Except ParseErr Tag :=
  parseHexOrName s 3 enumMap

/-- `ParseType`; it indexes the first byte of a hex value, and panics when there is none. -/
def parseType (s : GoString) (enumMap : Option Enum) : Res ParseErr UInt8 :=
  match parseHexValue s 1 with
  | .error e => .err e
  | .ok (some b) => Res.ofOption b.head?
  | .ok none =>
    match enumMap.bind fun e => e.value s with
    | some v => .ok (UInt8.ofNat v.toNat)
    | none => .err (.unregisteredEnumName s)

namespace Registry

variable (r : Registry)

def formatEnum (t : Tag) (v : BitVec 32) : GoString := Reg.formatEnum v (r.enumForTag t)
def formatInt (t : Tag) (v : BitVec 32) : GoString := Reg.formatInt v (r.enumForTag t)
def formatTag (t : Tag) : GoString := Reg.formatTag t (some r.tags)
def formatTagCanonical (t : Tag) : GoString := Reg.formatTagCanonical t (some r.tags)
def formatType (b : UInt8) : GoString := Reg.formatType b (some r.types)
def parseEnum (t : Tag) (s : GoString) : Except ParseErr (BitVec 32) :=
  Reg.parseEnum s (r.enumForTag t)
def parseMask (t : Tag) (s : GoString) : Except ParseErr (BitVec 32) :=
  Reg.parseMask s (r.enumForTag t)
def parseTag (s : GoString) : Except ParseErr Tag := Reg.parseTag s (some r.tags)
def parseType (s : GoString) : Res ParseErr UInt8 := Reg.parseType s (some r.types)

/-- `tag, _ := DefaultRegistry.ParseTag(s)`: the error is dropped and the tag is then 0. -/
def parseTagOrNone (s : GoString) : Tag :=
  match r.parseTag s with
  | .ok t => t
  | .error _ => tagNone

end Registry

end KmipGo.Reg
