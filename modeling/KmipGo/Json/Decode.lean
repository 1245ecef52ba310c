import KmipGo.Text.Leaf

/-! # Reading JSON

`TTLV.UnmarshalJSON` of `ttlv/ttlv.go`.  The JSON library parses the text into a
tree; the three calls of `json.Unmarshal` in the source, into the struct `tval`,
into an interface and into a list of raw messages, are read off that tree.

A JSON number is the rational value of its double.  Conversions to integer types
drop the fraction; out of range they give what the amd64 instructions give.
-/

namespace KmipGo.JsonForm

open KmipGo.Lib KmipGo.Ttlv KmipGo.Reg KmipGo.Text

inductive JsonErr where
  /-- an error of `encoding/json` -/
  | json
  | invalidTag (e : ParseErr)
  | invalidType (e : ParseErr)
  /-- `syntaxError`: the tag, the type and the cause -/
  | syntaxError (tag : Tag) (tp : UInt8) (cause : JsonErr)
  | message (text : GoString)
  | parse (e : ParseErr)
  /-- an error of `hex.DecodeString` -/
  | hex
  /-- an error of `time.Parse`, "must be ISO8601 format" -/
  | time
deriving DecidableEq

/-! ## Numbers -/

/-- `int64(tv)`. -/
def floatToInt64 (q : Rat) : BitVec 64 :=
  let i := q.num.tdiv q.den
  if -2 ^ 63 ≤ i ∧ i < 2 ^ 63 then BitVec.ofInt 64 i else BitVec.ofInt 64 (-2 ^ 63)

/-- `int32(tv)`. -/
def floatToInt32 (q : Rat) : BitVec 32 :=
  let i := q.num.tdiv q.den
  if -2 ^ 31 ≤ i ∧ i < 2 ^ 31 then BitVec.ofInt 32 i else BitVec.ofInt 32 (-2 ^ 31)

/-- `uint32(tv)`: the low half of the 64 bit conversion. -/
def floatToUint32 (q : Rat) : BitVec 32 := (floatToInt64 q).setWidth 32

/-- `t.Add(d)`. -/
def addDuration (t : Time) (d : BitVec 64) : Time :=
  ⟨t.unix + BitVec.ofInt 64 ((t.nanosecond.val + d.toInt) / 1000000000),
    Fin.ofNat _ ((t.nanosecond.val + d.toInt) % 1000000000).toNat⟩

/-- `time.Time{}`. -/
def zeroTime : Time := ⟨BitVec.ofInt 64 (-62135596800), 0⟩

/-! ## Objects -/

structure Tval where
  tag : GoString
  type : GoString
  value : Option Json

/-- A field of type `string`; null leaves it as it is. -/
def stringField (old : GoString) : Json → Option GoString
  | .string s => some s
  | .null => some old
  | _ => none

/-- One member of an object.  Keys match without regard to case. -/
def Tval.set (tv : Tval) (m : Bytes × Json) : Option Tval :=
  if toLower m.1 = lit "tag" then (stringField tv.tag m.2).map fun s => { tv with tag := s }
  else if toLower m.1 = lit "type" then (stringField tv.type m.2).map fun s => { tv with type := s }
  else if toLower m.1 = lit "value" then some { tv with value := some m.2 }
  else some tv

/-- `json.Unmarshal(b, &ttl)`. -/
def decodeTval : Json → Option Tval
  | .object members => members.foldlM Tval.set ⟨[], [], none⟩
  | .null => some ⟨[], [], none⟩
  | _ => none

theorem set_value {tv tv' : Tval} {m : Bytes × Json} (h : tv.set m = some tv') :
    tv'.value = tv.value ∨ tv'.value = some m.2 := by
  rw [Tval.set] at h
  split at h
  · rw [Option.map_eq_some_iff] at h
    obtain ⟨s, -, rfl⟩ := h
    exact Or.inl rfl
  · split at h
    · rw [Option.map_eq_some_iff] at h
      obtain ⟨s, -, rfl⟩ := h
      exact Or.inl rfl
    · split at h
      · cases h
        exact Or.inr rfl
      · cases h
        exact Or.inl rfl

theorem foldlM_set_value {ms : List (Bytes × Json)} {tv tv' : Tval} {v : Json}
    (h : ms.foldlM Tval.set tv = some tv') (hv : tv'.value = some v) :
    tv.value = some v ∨ ∃ m ∈ ms, m.2 = v := by
  induction ms generalizing tv with
  | nil =>
    cases h
    exact Or.inl hv
  | cons m ms ih =>
    rw [List.foldlM_cons, Option.bind_eq_bind, Option.bind_eq_some_iff] at h
    obtain ⟨next, hset, hrest⟩ := h
    rcases ih hrest with hnext | ⟨q, hq, hqv⟩
    · rcases set_value hset with hsame | hnew
      · rw [hsame] at hnext
        exact Or.inl hnext
      · rw [hnew] at hnext
        exact Or.inr ⟨m, List.mem_cons_self .., Option.some.inj hnext⟩
    · exact Or.inr ⟨q, List.mem_cons_of_mem _ hq, hqv⟩

/-- The value is a part of the object. -/
theorem sizeOf_value_lt {j v : Json} {tv : Tval} (h : decodeTval j = some tv)
    (hv : tv.value = some v) : sizeOf v < sizeOf j := by
  cases j with
  | object ms =>
    rcases foldlM_set_value h hv with hnone | ⟨m, hm, rfl⟩
    · cases hnone
    · have hlt := List.sizeOf_lt_of_mem hm
      have hpair : sizeOf m.2 < sizeOf m := by
        cases m
        simp
      rw [Json.object.sizeOf_spec]
      omega
  | null =>
    cases h
    cases hv
  | _ => cases h

section

variable (reg : Registry) (title : Bytes → Bytes) (C : JsonCodec) (T : TimeCodec)

/-! ## Leaves -/

def mustBe (text : String) : Except JsonErr Prim := .error (.message (lit text))

/-- A hex value of at most `maxLen` bytes that must be there. -/
def hexValue (s : GoString) (maxLen : Nat) : Except JsonErr Bytes :=
  match parseHexValue s maxLen with
  | .error e => .error (.parse e)
  | .ok none => .error (.message (lit "hex value must start with 0x"))
  | .ok (some b) => .ok b

/-- The instant of a DateTime or a DateTimeExtended: a hex value or a text. -/
def decodeTime (extended : Bool) (s : GoString) : Except JsonErr Time :=
  match parseHexValue s 8 with
  | .error e => .error (.parse e)
  | .ok (some b) =>
    if extended then .ok (addDuration zeroTime (decodeUint64 b * 1000))
    else .ok (Time.ofUnix (decodeUint64 b))
  | .ok none =>
    match T.parse s with
    | some t => .ok t
    | none => .error .time

/-- The switch over the types of leaves. -/
def decodeLeaf (tag attrTag : Tag) : Typ → Json → Except JsonErr Prim
  | .Boolean, .bool b => .ok (.boolean b)
  | .Boolean, .string s =>
    if s = lit "0x0000000000000001" then .ok (.boolean true)
    else if s = lit "0x0000000000000000" then .ok (.boolean false)
    else mustBe "hex string for Boolean value must be either 0x0000000000000001 (true) or 0x0000000000000000 (false)"
  | .Boolean, _ => mustBe "must be boolean or hex string"
  | .TextString, .string s => .ok (.textString s)
  | .TextString, _ => mustBe "must be string"
  | .ByteString, .string s =>
    if hasPrefix s (lit "0x") then mustBe "should not have 0x prefix"
    else
      match hexDecode s with
      | some b => .ok (.byteString (some b))
      | none => .error .hex
  | .ByteString, _ => mustBe "must be hex string"
  | .Interval, .string s => do
    let b ← hexValue s 4
    return .interval ((decodeUint32 b).setWidth 64 * 1000000000)
  | .Interval, .number q => .ok (.interval (floatToInt64 q * 1000000000))
  | .Interval, _ => mustBe "must be number or hex string"
  | .DateTime, .string s => do
    let t ← decodeTime T false s
    return .dateTime t
  | .DateTimeExtended, .string s => do
    let t ← decodeTime T true s
    return .dateTimeExtended t
  | .DateTime, _ | .DateTimeExtended, _ => mustBe "must be string"
  | .Integer, .string s =>
    match reg.parseMask (enumTag tag attrTag) s with
    | .ok i => .ok (.integer i)
    | .error e => .error (.parse e)
  | .Integer, .number q => .ok (.integer (floatToInt32 q))
  | .Integer, _ => mustBe "must be number, hex string, or mask value name"
  | .LongInteger, .string s => do
    let b ← hexValue s 8
    return .longInteger (decodeUint64 b)
  | .LongInteger, .number q => .ok (.longInteger (floatToInt64 q))
  | .LongInteger, _ => mustBe "must be number or hex string"
  | .BigInteger, .string s =>
    if !hasPrefix s (lit "0x") then mustBe "hex value must start with 0x"
    else
      match hexDecode (s.drop 2) with
      | none => .error .hex
      | some b =>
        if b.length % 8 ≠ 0 then mustBe "must be multiple of 8 bytes (16 hex characters)"
        else .ok (.bigInteger (some (unmarshalBigInt (unpadBigInt b))))
  | .BigInteger, .number q => .ok (.bigInteger (some (floatToInt64 q).toInt))
  | .BigInteger, _ => mustBe "must be number or hex string"
  | .Enumeration, .string s =>
    match reg.parseEnum (enumTag tag attrTag) s with
    | .ok v => .ok (.enumeration v)
    | .error e => .error (.parse e)
  | .Enumeration, .number q => .ok (.enumeration (floatToUint32 q))
  | .Enumeration, _ => mustBe "must be number or string"
  -- a structure is not read here
  | .Structure, _ => .error .json

/-- The type of an object: a Structure if none is given. -/
def decodeType (s : GoString) : Res JsonErr UInt8 :=
  if s = [] then .ok Typ.Structure.code
  else
    match reg.parseType s with
    | .ok b => .ok b
    | .err e => .err (.invalidType e)
    | .panic => .panic

mutual
/-- `unmarshalJSON` on the tree of the text. -/
def decodeJSON (attrTag : Tag) (j : Json) : Res JsonErr Bytes :=
  match _h : decodeTval j with
  | none => .err .json
  | some tv =>
    match reg.parseTag tv.tag with
    | .error e => .err (.invalidTag e)
    | .ok tag =>
      match decodeType reg tv.type with
      | .err e => .err e
      | .panic => .panic
      | .ok tp =>
        match _hv : tv.value with
        | none => if tv.type = [] then .err (.syntaxError tag tp .json) else .err .json
        | some v =>
          match Typ.ofCode tp with
          -- a type without a case in the switch
          | none => .ok []
          | some .Structure =>
            match _hi : v with
            | .array items =>
              match decodeItems tagNone items with
              | .ok children => .ok (EncBuf.write [] tag .Structure children)
              | .err e => .err (.syntaxError tag tp e)
              | .panic => .panic
            | .null => .ok (EncBuf.write [] tag .Structure [])
            | _ => .err (.syntaxError tag tp .json)
          | some ty =>
            match decodeLeaf reg T tag attrTag ty v with
            | .ok p => .ok (encodePrim [] tag p)
            | .error e => .err (.syntaxError tag tp e)
termination_by sizeOf j
decreasing_by
  have hlt := sizeOf_value_lt _h _hv
  rw [Json.array.sizeOf_spec] at hlt
  omega

/-- The loop over the children of a structure. -/
def decodeItems (attrTag : Tag) (js : List Json) : Res JsonErr Bytes :=
  match js with
  | [] => .ok []
  | j :: js => do
    let scratch ← decodeJSON attrTag j
    let rest ← decodeItems (nextAttr reg title attrTag scratch) js
    return scratch ++ rest
termination_by sizeOf js
end

/-- `UnmarshalJSON`, on a text that is not empty. -/
def unmarshalJSON (b : Bytes) : Res JsonErr Bytes :=
  match C.parse b with
  | none => .err .json
  | some j => decodeJSON reg title T tagNone j

end

end KmipGo.JsonForm
