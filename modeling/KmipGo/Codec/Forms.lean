import KmipGo.Codec.Numbers
import KmipGo.Codec.Reading
import KmipGo.Ttlv.Chunk

/-! # The items of scalars

A field of a scalar type is one item.  Its type follows from the Go type, the flags
of the field and the enumeration registered for its tag: `ScalarForm` is this
mapping, as the documentation of `Marshal` has it, and `scalarOf` the value that
the item stands for.

* `LeafRead` — the item is one that the decoder takes; `unmarshal_leaf` says that
  it takes these and no others, as the value they stand for.
* `LeafBack` — the value is written back as the same item; `codes_leaf` and
  `codes_other` say that it is just then.
* `heldScalar` — the type that an item is read as into an interface; `encode_held` and
  `codes_held` say what is written for it.
-/

namespace KmipGo.Codec

open KmipGo.Lib KmipGo.Ttlv KmipGo.Reg KmipGo.Go KmipGo.Encoder KmipGo.Decoder KmipGo.Value

/-! ## Forms -/

/-- The flags ask for an enumeration or a mask. -/
def flagged (flags : Flags) : Bool := flags.enum || flags.bitmask

/-- Numbers and names in the field stand for values of an enumeration or a mask. -/
def enumerated (flags : Flags) (enumMap : Option Enum) : Bool := flagged flags || enumMap.isSome

/-- The type of the item for such a value. -/
def wordTyp (flags : Flags) (enumMap : Option Enum) : Typ :=
  if asMask flags enumMap then .Integer else .Enumeration

/-- The text is the name of such a value. -/
def Names (flags : Flags) (enumMap : Option Enum) (s : GoString) : Prop :=
  if asMask flags enumMap then ∃ i, parseMask s enumMap = .ok i else ∃ i, parseEnum s enumMap = .ok i

/-- The text has to be such a name. -/
def mustName (flags : Flags) (enumMap : Option Enum) : Bool :=
  if asMask flags enumMap then flags.bitmask else flags.enum

/-- The leaf is an item for a value of the scalar type. -/
def ScalarForm (flags : Flags) (enumMap : Option Enum) (l : Leaf) : Scalar → Prop
  | .enum _ mask => l.ty = if mask then .Integer else .Enumeration
  | .dateTimeExtended => l.ty = .DateTimeExtended
  | .int _ .int64 | .uint _ .uint64 => flagged flags = false ∧ l.ty = .LongInteger
  | .int _ _ | .uint _ _ | .tag =>
    l.ty = if enumerated flags enumMap then wordTyp flags enumMap else .Integer
  | .string _ =>
    if enumerated flags enumMap then
      l.ty = wordTyp flags enumMap ∨
        l.ty = .TextString ∧ mustName flags enumMap = false ∧ ¬ Names flags enumMap l.value
    else l.ty = .TextString
  | .bool _ => flagged flags = false ∧ l.ty = .Boolean
  | .bytes _ => flagged flags = false ∧ l.ty = .ByteString
  | .time => flagged flags = false ∧ l.ty = if flags.dateTimeExt then .DateTimeExtended else .DateTime
  | .bigInt => flagged flags = false ∧ l.ty = .BigInteger
  | .duration => flagged flags = false ∧ l.ty = .Interval
  | .ttlv | .other _ _ => False

/-- The number of an Integer or an Enumeration for a signed kind. -/
def leafSigned (l : Leaf) : Int := if l.ty = .Enumeration then l.uint32.toNat else l.uint32.toInt

/-- The same for an unsigned kind: the sign of an Integer is extended to 64 bits. -/
def leafUnsigned (l : Leaf) : Nat :=
  if l.ty = .Enumeration then l.uint32.toNat else (l.uint32.signExtend 64).toNat

/-- The value of a scalar type that the leaf stands for. -/
def scalarOf (l : Leaf) : (s : Scalar) → s.Val
  | .bool _ => l.boolean
  | .string _ => l.value
  | .int _ .int64 => l.uint64
  | .int _ k => BitVec.ofInt k.bits (leafSigned l)
  | .uint _ .uint64 => l.uint64
  | .uint _ k => BitVec.ofNat k.bits (leafUnsigned l)
  | .duration => l.uint32.setWidth 64 * 1000000000
  | .tag => BitVec.ofNat 32 (leafUnsigned l)
  | .enum _ _ => BitVec.ofNat 32 (leafUnsigned l)
  | .bytes _ => if l.value.length = 0 then none else some l.value
  | .time => l.time
  | .dateTimeExtended => l.time
  | .bigInt => twosValue l.value
  | .ttlv => []
  | .other _ _ => true

/-- The decoder takes the leaf: a number fits its kind, and a string is not a number. -/
def LeafRead (l : Leaf) : Scalar → Prop
  | .int _ .int64 | .uint _ .uint64 => True
  | .int _ k => overflowInt k.bits (leafSigned l) = false
  | .uint _ k => overflowUint k.bits (leafUnsigned l) = false
  | .tag | .enum _ _ => overflowUint 32 (leafUnsigned l) = false
  | .string _ => l.ty = .TextString
  | _ => True

/-- The encoder writes the leaf back: a byte string is not empty, an extended time is in the range of
    nanoseconds, and a plain number in that of an Integer. -/
def LeafBack (flags : Flags) (enumMap : Option Enum) (l : Leaf) : Scalar → Prop
  | .bytes _ => l.value.length ≠ 0
  | .time | .dateTimeExtended => l.ty = .DateTimeExtended → NanosFit l.uint64
  | .uint _ .uint64 => True
  | .uint _ _ | .tag => enumerated flags enumMap = false → leafUnsigned l ≤ 2147483647
  | _ => True

/-- A leaf in canonical form: the padding is zero, a boolean 0 or 1, and a big integer as short as it can
    be. -/
def LeafExact (l : Leaf) : Prop :=
  l.padding = List.replicate l.padding.length 0 ∧
    (l.ty = .Boolean → beNat l.value ≤ 1) ∧ (l.ty = .BigInteger → Shortest8 l.value)

theorem LeafExact.canonical {l : Leaf} (h : LeafExact l) (hfit : l.ty = .DateTimeExtended → NanosFit l.uint64) :
    l.Canonical := by
  obtain ⟨hpad, hbool, hbig⟩ := h
  refine ⟨hpad, ?_⟩
  cases hty : l.ty with
  | Boolean => exact hbool hty
  | BigInteger => exact hbig hty
  | DateTimeExtended => exact hfit hty
  | _ => trivial

/-! ## Numbers -/

theorem ofInt_leafSigned (l : Leaf) : BitVec.ofInt 32 (leafSigned l) = l.uint32 := by
  rw [leafSigned]
  split
  · exact ofInt_natCast_self l.uint32
  · exact BitVec.ofInt_toInt

theorem ofInt_leafUnsigned (l : Leaf) : BitVec.ofInt 32 (leafUnsigned l : Int) = l.uint32 := by
  rw [leafUnsigned]
  split
  · exact ofInt_natCast_self l.uint32
  · apply BitVec.eq_of_toNat_eq
    rw [BitVec.ofInt_natCast, BitVec.toNat_ofNat, BitVec.toNat_signExtend]
    have := l.uint32.isLt
    split <;> simp <;> omega

/-- The number of a leaf in a field of an integer type. -/
def leafNumber (l : Leaf) : Scalar → Int
  | .int _ _ => leafSigned l
  | _ => leafUnsigned l

theorem ofInt_leafNumber (l : Leaf) (s : Scalar) : BitVec.ofInt 32 (leafNumber l s) = l.uint32 := by
  cases s with
  | int _ _ => exact ofInt_leafSigned l
  | _ => exact ofInt_leafUnsigned l

theorem goInteger_scalarOf {s : Scalar} {l : Leaf} (hread : LeafRead l s) {v : s.Val} {m : Int}
    (hs : goInteger s v = some m) : goInteger s (scalarOf l s) = some (leafNumber l s) := by
  have hsigned : ∀ {bits : Nat}, 0 < bits → overflowInt bits (leafSigned l) = false →
      (BitVec.ofInt bits (leafSigned l)).toInt = leafSigned l :=
    fun hbits h => (overflowInt_iff hbits _).1 h
  have hunsigned : ∀ {bits : Nat}, overflowUint bits (leafUnsigned l) = false →
      (BitVec.ofNat bits (leafUnsigned l)).toNat = leafUnsigned l := by
    intro bits h
    rw [overflowUint, decide_eq_false_iff_not] at h
    rw [BitVec.toNat_ofNat, Nat.mod_eq_of_lt (by omega)]
  cases s with
  | int name k =>
    cases k with
    | int64 => cases hs
    | _ => exact congrArg some (hsigned (by decide) hread)
  | uint name k =>
    cases k with
    | uint64 => cases hs
    | _ => exact congrArg (fun u : Nat => some (u : Int)) (hunsigned hread)
  | tag | enum name m => exact congrArg (fun u : Nat => some (u : Int)) (hunsigned hread)
  | _ => cases hs

/-! ## Reading -/

theorem enumerated_typ {flags : Flags} {enumMap : Option Enum} {ty : Typ}
    (h : ty = if enumerated flags enumMap then wordTyp flags enumMap else .Integer) :
    ty = .Integer ∨ ty = .Enumeration := by
  rw [h, wordTyp]
  split
  · split
    · exact .inl rfl
    · exact .inr rfl
  · exact .inl rfl

section

variable {flags : Flags} {enumMap : Option Enum} {l : Leaf} (dec : Dec) (t : ValidTag) (rest : Bytes)

/-- A number into a destination of a signed kind. -/
theorem storeScalar_signed (n : GoString) {k : IntKind} (hk : k ≠ .int64)
    (hty : l.ty = .Integer ∨ l.ty = .Enumeration) (cur : BitVec k.bits) :
    storeScalar dec ((Block.leaf t l).bytes ++ rest) l.ty (.int n k) cur =
      storeInt dec ((Block.leaf t l).bytes ++ rest) (.scalar (.int n k)) cur (some (leafSigned l)) := by
  rcases hty with hty | hty
  · rw [hty, storeScalar_integer dec _ n hk, integerInt, valueInteger_leaf rest (.inl hty), leafSigned, hty]
    rfl
  · rw [hty, storeScalar_enumeration dec _ n hk, enumerationInt, valueEnumeration_leaf rest hty, leafSigned, hty]
    rfl

/-- A number into a destination of an unsigned kind. -/
theorem storeUintOf_leaf (hty : l.ty = .Integer ∨ l.ty = .Enumeration) (ty : GoType) {bits : Nat}
    (cur : BitVec bits) :
    storeUintOf dec ((Block.leaf t l).bytes ++ rest) ty cur l.ty =
      storeUint dec ((Block.leaf t l).bytes ++ rest) ty cur (some (leafUnsigned l)) := by
  rcases hty with hty | hty
  · rw [hty, storeUintOf, integerUint, valueInteger_leaf rest (.inl hty), leafUnsigned, hty]
    rfl
  · rw [hty, storeUintOf, enumerationUint, valueEnumeration_leaf rest hty, leafUnsigned, hty]
    rfl

theorem runs_storeInt {t : TTLV} (ty : GoType) {bits : Nat} (cur : BitVec bits) (n : Int) :
    Runs (overflowInt bits n = false) (fun w => w = BitVec.ofInt bits n ∧ overflowInt bits n = false)
      (storeInt dec t ty cur (some n)) := by
  rw [storeInt]
  split
  · next h => exact .of_ne (by simp [h]) (by simp [newError])
  · next h => exact .of_eq rfl ⟨rfl, Bool.eq_false_iff.mpr h⟩

theorem runs_storeUint {t : TTLV} (ty : GoType) {bits : Nat} (cur : BitVec bits) (n : Nat) :
    Runs (overflowUint bits n = false) (fun w => w = BitVec.ofNat bits n ∧ overflowUint bits n = false)
      (storeUint dec t ty cur (some n)) := by
  rw [storeUint]
  split
  · next h => exact .of_ne (by simp [h]) (by simp [newError])
  · next h => exact .of_eq rfl ⟨rfl, Bool.eq_false_iff.mpr h⟩

/-- The decoder takes a leaf of the right form just if it can hold the number, and then as the value that
    the leaf stands for. -/
theorem unmarshal_leaf {s : Scalar} (hform : ScalarForm flags enumMap l s) :
    Runs (LeafRead l s) (fun v => v = scalarOf l s ∧ LeafRead l s)
      (unmarshalScalar dec ((Block.leaf t l).bytes ++ rest) s s.zero) := by
  have hs : s ≠ .ttlv := by
    rintro rfl
    exact hform
  rw [unmarshalScalar_of_typ dec (typ_leaf_append t l rest) hs]
  have hbyteString : ∀ {ty : Typ}, ty = .Integer ∨ ty = .Enumeration → ty ≠ .ByteString := by
    rintro _ (rfl | rfl) <;> decide
  cases s with
  | bool n =>
    rw [hform.2, storeScalar_boolean, valueBoolean_leaf rest hform.2]
    exact .of_eq rfl ⟨rfl, trivial⟩
  | bytes n =>
    rw [hform.2, storeScalar_byteString, TTLV.valueByteString, valueRaw_leaf_append]
    exact .of_eq rfl ⟨rfl, trivial⟩
  | bigInt =>
    rw [hform.2, storeScalar_bigInteger, valueBigInteger_leaf]
    exact .of_eq rfl ⟨rfl, trivial⟩
  | duration =>
    rw [hform.2, storeScalar_interval, TTLV.valueInterval, uint32BE_raw_leaf rest hform.2]
    exact .of_eq rfl ⟨rfl, trivial⟩
  | time =>
    obtain ⟨-, hform⟩ := hform
    have hty : l.ty = .DateTime ∨ l.ty = .DateTimeExtended := by
      rw [hform]
      split
      · exact .inr rfl
      · exact .inl rfl
    have hread : TTLV.valueDateTime ((Block.leaf t l).bytes ++ rest) = some l.time := valueDateTime_leaf rest hty
    rcases hty with hty | hty
    · rw [hty, storeScalar_dateTime, hread]
      exact .of_eq rfl ⟨rfl, trivial⟩
    · rw [hty, storeScalar_dateTimeExtended, hread]
      exact .of_eq rfl ⟨rfl, trivial⟩
  | dateTimeExtended =>
    have hread : TTLV.valueDateTime ((Block.leaf t l).bytes ++ rest) = some l.time :=
      valueDateTime_leaf rest (.inr hform)
    rw [show l.ty = .DateTimeExtended from hform]
    show Runs _ _ (store _ (TTLV.valueDateTime _))
    rw [hread]
    exact .of_eq rfl ⟨rfl, trivial⟩
  | string n =>
    by_cases hty : l.ty = .TextString
    · rw [hty, storeScalar_textString, TTLV.valueTextString, raw_leaf_append]
      exact .of_eq rfl ⟨rfl, hty⟩
    · -- a number, which is no string
      have hword : l.ty = wordTyp flags enumMap := by
        rw [ScalarForm] at hform
        split at hform
        · exact hform.resolve_right fun h => hty h.1
        · exact absurd hform hty
      refine .of_ne hty ?_
      rw [hword, wordTyp]
      split <;> simp [storeScalar, mismatch, newError]
  | int n k =>
    cases k with
    | int64 =>
      rw [hform.2, storeScalar_int64, valueLongInteger_leaf rest (.inl hform.2)]
      exact .of_eq rfl ⟨rfl, trivial⟩
    | int | int8 | int16 | int32 =>
      rw [storeScalar_signed dec t rest n (by decide) (enumerated_typ hform)]
      exact runs_storeInt dec _ _ _
  | uint n k =>
    cases k with
    | uint64 =>
      rw [hform.2, storeScalar_uint64, valueLongInteger_leaf rest (.inl hform.2)]
      exact .of_eq rfl ⟨rfl, trivial⟩
    | uint | uint8 | uint16 | uint32 =>
      have hty := enumerated_typ hform
      rw [storeScalar_uint dec _ n (by decide) (hbyteString hty), storeUintOf_leaf dec t rest hty]
      exact runs_storeUint dec _ _ _
  | tag =>
    have hty := enumerated_typ hform
    rw [storeScalar_tag dec _ (hbyteString hty), storeUintOf_leaf dec t rest hty]
    exact runs_storeUint dec _ _ _
  | enum n m =>
    have hty : l.ty = .Integer ∨ l.ty = .Enumeration := by
      rw [show l.ty = if m then .Integer else .Enumeration from hform]
      cases m with
      | true => exact .inl rfl
      | false => exact .inr rfl
    rw [storeScalar_enum dec _ n m (hbyteString hty), storeUintOf_leaf dec t rest hty]
    exact runs_storeUint dec _ _ _
  | ttlv => exact absurd rfl hs
  | other n k => exact absurd hform id

end

/-! ## Writing -/

section

variable (reg : Registry) {flags : Flags} {tag : Tag} {l : Leaf}

/-- The encoder chooses the item `p` for a scalar. -/
def Codes (flags : Flags) (tag : Tag) (s : Scalar) (v : s.Val) (p : Prim) : Prop :=
  marshalScalar s v = some p ∨ marshalScalar s v = none ∧ taggedScalar reg flags tag s v = .ok p

/-- Outside the enumeration rules a scalar is encoded by its type. -/
theorem taggedScalar_plain {s : Scalar} {v : s.Val} (henum : flags.enum = false) (hmask : flags.bitmask = false)
    (h : reg.enumForTag tag = none ∨ enumNumber s v = none ∧ scalarString s v = none) :
    taggedScalar reg flags tag s v = plainScalar flags.dateTimeExt s v := by
  rw [taggedScalar, henum, hmask]
  rcases h with h | ⟨hnum, hstr⟩
  · rw [h]
    rfl
  · rw [hnum, hstr]
    cases reg.enumForTag tag <;> rfl

/-- A scalar that is neither a number nor a string is refused in a flagged field. -/
theorem taggedScalar_other {s : Scalar} {v : s.Val} (hnum : enumNumber s v = none) (hstr : scalarString s v = none) :
    taggedScalar reg flags tag s v =
      if flagged flags then .error (.unsupportedEnumType (.scalar s)) else plainScalar flags.dateTimeExt s v := by
  rw [taggedScalar, hnum, hstr, flagged]
  cases flags.enum <;> cases flags.bitmask <;> cases reg.enumForTag tag <;> rfl

/-- The item of a number: its 32 bits, unless it is too large for a plain Integer. -/
theorem taggedScalar_number {s : Scalar} {v : s.Val} {n : Int} (hn : goInteger s v = some n)
    (hs : isEnumType s = false) (hword : BitVec.ofInt 32 n = l.uint32)
    (hform : l.ty = if enumerated flags (reg.enumForTag tag) then wordTyp flags (reg.enumForTag tag) else .Integer) :
    taggedScalar reg flags tag s v =
      if enumerated flags (reg.enumForTag tag) = false ∧ n > 2147483647 then .error .intOverflow
      else .ok l.prim := by
  have hcond : (flags.enum || flags.bitmask || (reg.enumForTag tag).isSome) =
      enumerated flags (reg.enumForTag tag) := rfl
  rw [taggedScalar, hcond]
  cases henum : enumerated flags (reg.enumForTag tag) with
  | true =>
    rw [henum, if_pos rfl, wordTyp] at hform
    have hlarge : ¬ (true = false ∧ n > 2147483647) := fun h => Bool.noConfusion h.1
    rw [if_pos rfl, enumNumber_goInteger hn hs, hword, if_neg hlarge, Leaf.prim, hform]
    simp only [enumPrim]
    split <;> rfl
  | false =>
    rw [henum, if_neg Bool.false_ne_true] at hform
    rw [if_neg Bool.false_ne_true, plainScalar_goInteger hn hs, hword, Leaf.prim, hform]
    simp

/-- The ways in which a string is written under the enumeration rules. -/
inductive StringItem (flags : Flags) (enumMap : Option Enum) (s : GoString) : Except Encoder.Cause Prim → Prop
  | word (h : Names flags enumMap s) (w : BitVec 32) : StringItem flags enumMap s (.ok (enumPrim flags enumMap w))
  | refused (h : mustName flags enumMap = true) (c : Encoder.Cause) : StringItem flags enumMap s (.error c)
  | text (h : ¬ Names flags enumMap s) (hmay : mustName flags enumMap = false) :
      StringItem flags enumMap s (.ok (.textString s))

/-- The same from what the parser for masks or that for enumerations makes of the string. -/
theorem StringItem.of_parse {enumMap : Option Enum} {s : GoString} {out : Except Encoder.Cause Prim}
    {parsed : Except ParseErr (BitVec 32)} (hnames : Names flags enumMap s ↔ ∃ i, parsed = .ok i)
    (hok : ∀ i, parsed = .ok i → out = .ok (enumPrim flags enumMap i))
    (herr : ∀ e, parsed = .error e →
      if mustName flags enumMap then ∃ c, out = .error c else out = .ok (.textString s)) :
    StringItem flags enumMap s out := by
  cases parsed with
  | ok i =>
    rw [hok i rfl]
    exact .word (hnames.mpr ⟨i, rfl⟩) i
  | error e =>
    have hout := herr e rfl
    cases hmust : mustName flags enumMap with
    | true =>
      rw [hmust, if_pos rfl] at hout
      obtain ⟨c, rfl⟩ := hout
      exact .refused hmust c
    | false =>
      rw [hmust, if_neg Bool.false_ne_true] at hout
      rw [hout]
      refine .text (fun h => ?_) hmust
      obtain ⟨i, hi⟩ := hnames.mp h
      cases hi

theorem taggedScalar_string (n : GoString) {s : GoString} (h : enumerated flags (reg.enumForTag tag) = true) :
    StringItem flags (reg.enumForTag tag) s (taggedScalar reg flags tag (.string n) s) := by
  have hcond : (flags.enum || flags.bitmask || (reg.enumForTag tag).isSome) = true := h
  rw [taggedScalar, hcond, if_pos rfl]
  simp only [enumNumber, scalarString, enumString, plainScalar]
  cases hmask : asMask flags (reg.enumForTag tag) with
  | true =>
    refine .of_parse (by rw [Names, if_pos hmask]) (fun i hi => ?_) (fun e he => ?_)
    · simp only [if_true, hi, enumPrim, hmask]
    · rw [mustName, if_pos hmask]
      cases flags.bitmask <;> simp [he]
  | false =>
    have hplain : ¬ asMask flags (reg.enumForTag tag) = true := by simp [hmask]
    refine .of_parse (by rw [Names, if_neg hplain]) (fun i hi => ?_) (fun e he => ?_)
    · simp only [Bool.false_eq_true, if_false, hi, enumPrim, hmask]
    · rw [mustName, if_neg hplain]
      cases flags.enum <;> simp [he]

/-- A leaf that is read is written back as it was, if the encoder can. -/
theorem codes_leaf {s : Scalar} (hform : ScalarForm flags (reg.enumForTag tag) l s) (hread : LeafRead l s)
    (hback : LeafBack flags (reg.enumForTag tag) l s) :
    Codes reg flags tag s (scalarOf l s) l.prim ∧ scalarIsNil s (scalarOf l s) = false := by
  have plain {s : Scalar} {v : s.Val} (hflags : flagged flags = false) (hmarshal : marshalScalar s v = none)
      (hnum : enumNumber s v = none) (hstr : scalarString s v = none)
      (hp : plainScalar flags.dateTimeExt s v = .ok l.prim) : Codes reg flags tag s v l.prim := by
    refine .inr ⟨hmarshal, ?_⟩
    rw [taggedScalar_other reg hnum hstr, hflags, if_neg Bool.false_ne_true, hp]
  have number {s : Scalar} {v : s.Val} {n : Int} (hn : goInteger s v = some n) (hs : isEnumType s = false)
      (hmarshal : marshalScalar s v = none) (hword : BitVec.ofInt 32 n = l.uint32)
      (hform : l.ty = if enumerated flags (reg.enumForTag tag) then wordTyp flags (reg.enumForTag tag) else .Integer)
      (hsmall : enumerated flags (reg.enumForTag tag) = false → n ≤ 2147483647) : Codes reg flags tag s v l.prim := by
    refine .inr ⟨hmarshal, ?_⟩
    rw [taggedScalar_number reg hn hs hword hform, if_neg]
    rintro ⟨henum, hbig⟩
    have := hsmall henum
    omega
  cases s with
  | bool n =>
    exact ⟨plain hform.1 rfl rfl rfl (by rw [Leaf.prim, hform.2]; rfl), rfl⟩
  | bigInt => exact ⟨plain hform.1 rfl rfl rfl (by rw [Leaf.prim, hform.2]; rfl), rfl⟩
  | duration => exact ⟨plain hform.1 rfl rfl rfl (by rw [Leaf.prim, hform.2]; rfl), rfl⟩
  | bytes n =>
    have hvalue : scalarOf l (.bytes n) = some l.value := if_neg hback
    rw [hvalue]
    exact ⟨plain hform.1 rfl rfl rfl (by rw [Leaf.prim, hform.2]; rfl), rfl⟩
  | time =>
    obtain ⟨hflags, hty⟩ := hform
    refine ⟨plain hflags rfl rfl rfl ?_, rfl⟩
    rw [plainScalar, Leaf.prim, scalarOf, Leaf.time, hty]
    cases flags.dateTimeExt <;> rfl
  | dateTimeExtended =>
    have hty : l.ty = .DateTimeExtended := hform
    refine ⟨.inl ?_, rfl⟩
    rw [marshalScalar, Leaf.prim, scalarOf, Leaf.time, hty]
    rfl
  | string n =>
    have hty : l.ty = .TextString := hread
    have hprim : l.prim = .textString l.value := by rw [Leaf.prim, hty]
    refine ⟨.inr ⟨rfl, ?_⟩, rfl⟩
    rw [hprim]
    rw [ScalarForm] at hform
    split at hform
    · next henum =>
      -- the text is no name, and need not be one
      obtain ⟨-, hmay, hnames⟩ := hform.resolve_left (by rw [hty, wordTyp]; split <;> decide)
      have hitem := taggedScalar_string reg n (s := l.value) henum
      show taggedScalar reg flags tag (.string n) l.value = _
      generalize taggedScalar reg flags tag (.string n) l.value = r at hitem
      cases hitem with
      | word h w => exact absurd h hnames
      | refused h c =>
        rw [hmay] at h
        cases h
      | text => rfl
    · next henum =>
      have hcond : ¬ (flags.enum || flags.bitmask || (reg.enumForTag tag).isSome) = true := henum
      rw [taggedScalar, if_neg hcond]
      rfl
  | int n k =>
    cases k with
    | int64 => exact ⟨plain hform.1 rfl rfl rfl (by rw [Leaf.prim, hform.2]; rfl), rfl⟩
    | int | int8 | int16 | int32 =>
      have hn := goInteger_scalarOf hread (goInteger_int n (by decide) (scalarOf l (.int n _)))
      refine ⟨number hn rfl rfl (ofInt_leafNumber l _) hform fun henum => ?_, rfl⟩
      -- a plain Integer is not too large
      have hty : l.ty = .Integer := Eq.trans hform (by rw [henum]; rfl)
      rw [leafNumber, leafSigned, hty, if_neg (by decide)]
      have := BitVec.toInt_lt (x := l.uint32)
      omega
  | uint n k =>
    cases k with
    | uint64 => exact ⟨plain hform.1 rfl rfl rfl (by rw [Leaf.prim, hform.2]; rfl), rfl⟩
    | uint | uint8 | uint16 | uint32 =>
      have hn := goInteger_scalarOf hread (goInteger_uint n (by decide) (scalarOf l (.uint n _)))
      exact ⟨number hn rfl rfl (ofInt_leafNumber l _) hform fun henum => Int.ofNat_le.mpr (hback henum), rfl⟩
  | tag =>
    exact ⟨number (goInteger_scalarOf (v := scalarOf l .tag) hread rfl) rfl rfl (ofInt_leafNumber l _) hform
      fun henum => Int.ofNat_le.mpr (hback henum), rfl⟩
  | enum n m =>
    have hword : scalarOf l (.enum n m) = l.uint32 := by
      rw [← ofInt_leafUnsigned, BitVec.ofInt_natCast]
      rfl
    refine ⟨.inl ?_, rfl⟩
    rw [hword, Leaf.prim, show l.ty = _ from hform]
    cases m <;> rfl
  | ttlv => exact absurd hform id
  | other n k => exact absurd hform id

/-- If the encoder cannot, it writes nothing or something else. -/
theorem codes_other {s : Scalar} (hform : ScalarForm flags (reg.enumForTag tag) l s) (hread : LeafRead l s)
    (hback : ¬ LeafBack flags (reg.enumForTag tag) l s) {p : Prim} (hnil : scalarIsNil s (scalarOf l s) = false)
    (hp : Codes reg flags tag s (scalarOf l s) p) : p.content ≠ some (l.ty, l.value) := by
  -- an extended time that is out of range has become another one
  have htime : l.ty = .DateTimeExtended → ¬ NanosFit l.uint64 →
      (Prim.dateTimeExtended l.time).content ≠ some (l.ty, l.value) := by
    intro hty hfit hcontent
    have hvalue : beBytes 8 l.time.micros.toNat = l.value := (Prod.mk.inj (Option.some.inj hcontent)).2
    have hmicros : l.time.micros = l.uint64 := by
      rw [Leaf.uint64, ← hvalue, beNat_beBytes_of_lt l.time.micros.isLt, BitVec.ofNat_toNat, BitVec.setWidth_eq]
    rw [Leaf.time, if_pos hty] at hmicros
    exact hfit (NanosFit.of_micros hmicros)
  have hnumber : ∀ {s : Scalar}, isEnumType s = false → goInteger s (scalarOf l s) = some (leafNumber l s) →
      l.ty = (if enumerated flags (reg.enumForTag tag) then wordTyp flags (reg.enumForTag tag) else .Integer) →
      ¬ (enumerated flags (reg.enumForTag tag) = false → leafUnsigned l ≤ 2147483647) →
      leafNumber l s = leafUnsigned l → taggedScalar reg flags tag s (scalarOf l s) ≠ .ok p := by
    intro s hs hn hform hback hunsigned
    rw [Classical.not_imp] at hback
    rw [taggedScalar_number reg hn hs (ofInt_leafNumber l s) hform, if_pos ⟨hback.1, by omega⟩]
    exact fun h => (by cases h)
  cases s with
  | bytes n =>
    have hempty : scalarOf l (.bytes n) = none := if_pos (by simpa [LeafBack] using hback)
    rw [hempty] at hnil
    cases hnil
  | time =>
    rw [LeafBack, Classical.not_imp] at hback
    obtain ⟨hflags, hty⟩ := hform
    have hext : flags.dateTimeExt = true := by
      rw [hback.1] at hty
      split at hty
      · assumption
      · cases hty
    obtain hmarshal | ⟨-, htagged⟩ := hp
    · cases hmarshal
    · rw [taggedScalar_other reg rfl rfl, hflags, if_neg Bool.false_ne_true, plainScalar, hext, if_pos rfl] at htagged
      cases htagged
      exact htime hback.1 hback.2
  | dateTimeExtended =>
    rw [LeafBack, Classical.not_imp] at hback
    obtain hmarshal | ⟨hmarshal, -⟩ := hp
    · cases hmarshal
      exact htime hback.1 hback.2
    · cases hmarshal
  | uint n k =>
    cases k with
    | uint64 => exact absurd trivial hback
    | uint | uint8 | uint16 | uint32 =>
      obtain hmarshal | ⟨-, htagged⟩ := hp
      · cases hmarshal
      · have hn := goInteger_scalarOf hread (goInteger_uint n (by decide) (scalarOf l (.uint n _)))
        exact absurd htagged (hnumber rfl hn hform hback rfl)
  | tag =>
    obtain hmarshal | ⟨-, htagged⟩ := hp
    · cases hmarshal
    · exact absurd htagged (hnumber rfl (goInteger_scalarOf (v := scalarOf l .tag) hread rfl) hform hback rfl)
  | int n k => cases k <;> exact absurd trivial hback
  | ttlv => exact absurd hform id
  | other n k => exact absurd hform id
  | bool _ | string _ | duration | bigInt | enum _ _ => exact absurd trivial hback

/-- A scalar that is written as an item. -/
theorem writes_scalar {ctx : Ctx} {fi : Option FieldInfo} {s : Scalar} {v : s.Val} {p : Prim}
    (hs : s ≠ .ttlv ∧ ∀ n k, s ≠ .other n k) (hnil : scalarIsNil s v = false)
    (hkept : ¬ ((flagsOf fi).omitEmpty && s.isEmpty v) = true) (htag : fieldTag reg tag fi (.scalar s) ≠ tagNone)
    (hp : Codes reg (flagsOf fi) (fieldTag reg tag fi (.scalar s)) s v p) :
    Writes (fun e => encodeScalar reg ctx tag fi s v e) (p.item (fieldTag reg tag fi (.scalar s))) none := by
  have hemit : scalarEmit reg ctx (fieldTag reg tag fi (.scalar s)) fi s v = .ok (.prim p) := by
    rw [scalarEmit.eq_3 reg ctx _ fi s v (fun b h _ => hs.1 h) (fun n k x h _ => hs.2 n k h)]
    obtain hmarshal | ⟨hmarshal, htagged⟩ := hp
    · rw [hmarshal]
      exact if_neg hkept
    · simp only [hmarshal, isEmptyValue, if_neg hkept, if_neg htag, htagged]
  simp only [encodeScalar, hnil, Bool.false_eq_true, if_false]
  rw [tagOr_plainInfo rfl, hemit]
  exact Writes.emitRun _ (.prim p)

/-- Nothing else is written for a scalar. -/
theorem writes_scalar_parts {ctx : Ctx} {fi : Option FieldInfo} {s : Scalar} {v : s.Val}
    (hs : s ≠ .ttlv ∧ ∀ n k, s ≠ .other n k) {b : Bytes}
    (h : Writes (fun e => encodeScalar reg ctx tag fi s v e) b none) :
    b = [] ∨ scalarIsNil s v = false ∧ ¬ ((flagsOf fi).omitEmpty && s.isEmpty v) = true ∧
      ∃ p, Codes reg (flagsOf fi) (fieldTag reg tag fi (.scalar s)) s v p ∧
        b = p.item (fieldTag reg tag fi (.scalar s)) := by
  simp only [encodeScalar] at h
  rw [tagOr_plainInfo rfl, scalarEmit.eq_3 reg ctx _ fi s v (fun b h _ => hs.1 h) (fun n k x h _ => hs.2 n k h),
    isEmptyValue] at h
  have hnothing : Writes (fun e => (e, none)) b none → b = [] := fun hw => (hw.unique (Writes.nothing none)).1
  have hitem : ∀ p, Writes (fun e => ((Emit.prim p).run (fieldTag reg tag fi (.scalar s)) e, none)) b none →
      b = p.item (fieldTag reg tag fi (.scalar s)) := fun p hw => (hw.unique (Writes.emitRun _ (.prim p))).1
  cases hnil : scalarIsNil s v with
  | true =>
    simp only [hnil, if_true] at h
    exact .inl (hnothing h)
  | false =>
    simp only [hnil, Bool.false_eq_true, if_false] at h
    by_cases hkept : ((flagsOf fi).omitEmpty && s.isEmpty v) = true
    · cases hmarshal : marshalScalar s v <;> simp only [hmarshal, if_pos hkept] at h <;> exact .inl (hnothing h)
    · cases hmarshal : marshalScalar s v with
      | some p =>
        simp only [hmarshal, if_neg hkept] at h
        exact .inr ⟨rfl, hkept, p, .inl hmarshal, hitem p h⟩
      | none =>
        by_cases htag : fieldTag reg tag fi (.scalar s) = tagNone
        · simp only [hmarshal, if_neg hkept, if_pos htag] at h
          cases (h.unique (Writes.nothing _)).2
        · cases htagged : taggedScalar reg (flagsOf fi) (fieldTag reg tag fi (.scalar s)) s v with
          | ok p =>
            simp only [hmarshal, if_neg hkept, if_neg htag, htagged] at h
            exact .inr ⟨rfl, hkept, p, .inr ⟨hmarshal, htagged⟩, hitem p h⟩
          | error c =>
            simp only [hmarshal, if_neg hkept, if_neg htag, htagged] at h
            cases (h.unique (Writes.nothing _)).2

/-- A scalar that is left out. -/
theorem writes_scalar_nothing {ctx : Ctx} {fi : Option FieldInfo} {s : Scalar} {v : s.Val} (hs : s ≠ .ttlv)
    (h : scalarIsNil s v = true ∨ (∀ n k, s ≠ .other n k) ∧ ((flagsOf fi).omitEmpty && s.isEmpty v) = true) :
    Writes (fun e => encodeScalar reg ctx tag fi s v e) [] none := by
  by_cases hnil : scalarIsNil s v = true
  · simp only [encodeScalar, if_pos hnil]
    exact Writes.nothing none
  · obtain ⟨hother, hempty⟩ := h.resolve_left hnil
    simp only [encodeScalar, if_neg hnil]
    rw [scalarEmit.eq_3 reg ctx _ fi s v (fun b h _ => hs h) (fun n k x h _ => hother n k h), isEmptyValue]
    cases marshalScalar s v <;> simp only [if_pos hempty] <;> exact Writes.nothing none

end

/-! ## Interfaces -/

/-- The Go type that an item is read as when the destination is an interface. -/
def heldScalar : Typ → Scalar
  | .Integer => .int (lit "int32") .int32
  | .LongInteger => .int (lit "int64") .int64
  | .BigInteger => .bigInt
  | .Enumeration => enumValue
  | .Boolean => .bool (lit "bool")
  | .TextString => .string (lit "string")
  | .ByteString => .bytes []
  | .DateTime => .time
  | .Interval => .duration
  | .DateTimeExtended => .dateTimeExtended
  -- no leaf is a structure
  | .Structure => .ttlv

theorem heldScalar_ne (l : Leaf) : heldScalar l.ty ≠ .ttlv ∧ ∀ n k, heldScalar l.ty ≠ .other n k := by
  cases hty : l.ty with
  | Structure => exact absurd hty (leaf_ty_ne l)
  | _ => exact ⟨by simp [heldScalar, enumValue], by simp [heldScalar, enumValue]⟩

theorem leafRead_held (l : Leaf) : LeafRead l (heldScalar l.ty) := by
  have hlt := l.uint32.isLt
  cases hty : l.ty with
  | Integer =>
    have := BitVec.le_toInt l.uint32
    have := BitVec.toInt_lt (x := l.uint32)
    simp only [heldScalar, LeafRead, leafSigned, hty, overflowInt, decide_eq_false_iff_not]
    simp
    omega
  | Enumeration =>
    simp only [heldScalar, enumValue, LeafRead, leafUnsigned, hty, if_true, overflowUint, decide_eq_false_iff_not]
    omega
  | TextString => exact hty
  | _ => trivial

section

variable (reg : Registry) {flags : Flags} {tag : Tag} {l : Leaf}

/-- An interface that holds the value of a leaf is written as that value. -/
theorem encode_held (ctx : Ctx) (addr : Bool) (fi : Option FieldInfo) (e : Enc) :
    encode reg ctx .any addr tag fi (leafItem l).iface e =
      encodeScalar reg ctx tag fi (heldScalar l.ty) (scalarOf l (heldScalar l.ty)) e := by
  have hint : BitVec.ofInt 32 (leafSigned l) = l.uint32 := ofInt_leafSigned l
  have huint : BitVec.ofNat 32 (leafUnsigned l) = l.uint32 := by
    rw [← ofInt_leafUnsigned, BitVec.ofInt_natCast]
  rw [leafItem]
  cases hty : l.ty with
  | Structure => exact absurd hty (leaf_ty_ne l)
  | Integer =>
    simp only [Item.iface, encode, heldScalar, scalarOf, hint]
    rfl
  | Enumeration =>
    simp only [Item.iface, encode, heldScalar, enumValue, scalarOf, huint]
    rfl
  | DateTime | DateTimeExtended =>
    simp only [Item.iface, encode, heldScalar, scalarOf, Leaf.time, hty]
    rfl
  | _ =>
    simp only [Item.iface, encode, heldScalar, scalarOf]
    rfl

/-- An item of another form than its Go type in an interface has is not written back. -/
theorem codes_held (hform : ¬ ScalarForm flags (reg.enumForTag tag) l (heldScalar l.ty)) {p : Prim}
    (hp : Codes reg flags tag (heldScalar l.ty) (scalarOf l (heldScalar l.ty)) p) :
    p.content ≠ some (l.ty, l.value) := by
  have hrefused : ∀ {s : Scalar} {v : s.Val} {q : Prim}, marshalScalar s v = none → enumNumber s v = none →
      scalarString s v = none → flagged flags = true → ¬ Codes reg flags tag s v q := by
    rintro s v q hmarshal hnum hstr hflags (h | ⟨-, h⟩)
    · rw [hmarshal] at h
      cases h
    · rw [taggedScalar_other reg hnum hstr, hflags, if_pos rfl] at h
      cases h
  generalize hty : l.ty = ty at hform hp ⊢
  cases ty with
  | Structure => exact absurd hty (leaf_ty_ne l)
  | Boolean | ByteString | BigInteger | Interval | LongInteger =>
    -- the form is wrong only in a flagged field
    have hflags : flagged flags = true := by
      rw [← Bool.not_eq_false]
      exact fun h => hform ⟨h, hty⟩
    exact absurd hp (hrefused rfl rfl rfl hflags)
  | Enumeration => exact absurd hty hform
  | DateTimeExtended => exact absurd hty hform
  | DateTime =>
    cases hflags : flagged flags with
    | true => exact absurd hp (hrefused rfl rfl rfl hflags)
    | false =>
      obtain hmarshal | ⟨-, htagged⟩ := hp
      · cases hmarshal
      · rw [taggedScalar_other reg rfl rfl, hflags, if_neg Bool.false_ne_true] at htagged
        cases hext : flags.dateTimeExt with
        | true =>
          rw [hext] at htagged
          cases htagged
          exact fun h => (by cases h)
        | false => exact absurd ⟨hflags, hty.trans (by rw [hext]; rfl)⟩ hform
  | Integer =>
    -- the number is written as a value of the enumeration
    have hform : ¬ l.ty = if enumerated flags (reg.enumForTag tag) then wordTyp flags (reg.enumForTag tag)
        else .Integer := hform
    have henum : enumerated flags (reg.enumForTag tag) = true := by
      rw [← Bool.not_eq_false]
      intro h
      rw [h] at hform
      exact hform hty
    have hmask : asMask flags (reg.enumForTag tag) = false := by
      rw [← Bool.not_eq_true]
      intro h
      rw [henum, wordTyp, h] at hform
      exact hform hty
    obtain hmarshal | ⟨-, htagged⟩ := hp
    · cases hmarshal
    · have hcond : (flags.enum || flags.bitmask || (reg.enumForTag tag).isSome) = true := henum
      rw [taggedScalar, if_pos hcond] at htagged
      simp only [heldScalar, enumNumber, enumPrim, hmask] at htagged
      cases htagged
      exact fun h => (by cases h)
  | TextString =>
    obtain hmarshal | ⟨-, htagged⟩ := hp
    · cases hmarshal
    · rw [heldScalar, ScalarForm] at hform
      split at hform
      · next henum =>
        rw [not_or] at hform
        have hitem := taggedScalar_string reg (lit "string") (s := l.value) henum
        rw [show taggedScalar reg flags tag (.string (lit "string")) l.value = .ok p from htagged] at hitem
        cases hitem with
        | word h w =>
          rw [enumPrim]
          split <;> exact fun h => (by cases h)
        | text hnames hmay => exact absurd ⟨hty, hmay, hnames⟩ hform.2
      · exact absurd hty hform

end

end KmipGo.Codec
