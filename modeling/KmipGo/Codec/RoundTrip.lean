import KmipGo.Codec.Delivery
import KmipGo.Codec.Forms
import KmipGo.Codec.Tags
import KmipGo.Message.Types

/-! # Structs survive a round trip

`Unmarshal` of what `Marshal` writes for a struct gives back the struct, for
types and values that a block can carry: `Plain` says which types these are and
`InRange` which of their values, and every tag has to be one that blocks may have
(`TagsValid`).

* `Survives` — what the encoder writes for a value is a list of blocks with the
  tag of its field, from which the decoder reads the value again.
* `val_survives` — every value in range of a plain type does, by induction over
  the type, the elements of a slice and the fields of a struct.
-/

namespace KmipGo.Codec

open KmipGo.Lib KmipGo.Ttlv KmipGo.Reg KmipGo.Go KmipGo.Encoder KmipGo.Decoder KmipGo.Value
  KmipGo.Message

/-! ## Types -/

section

variable (reg : Registry)

/-- The scalar types a field with the tag may have. -/
def ScalarPlain (tag : Tag) : Scalar → Prop
  | .bool _ | .bytes _ | .time | .bigInt | .duration | .enum _ _ => True
  | .int _ .int64 | .uint _ .uint64 | .uint _ .uint32 => True
  -- these would be taken for the number or the name of an enumeration value
  | .string _ | .int _ .int | .int _ .int32 => reg.enumForTag tag = none
  | _ => False

mutual
/-- The types a field with the tag may have. -/
def Plain (tag : Tag) : GoType → Prop
  | .scalar s => ScalarPlain reg tag s
  | .ptr e => e.kind ≠ .Ptr ∧ e.kind ≠ .Slice ∧ Plain tag e
  | .slice _ e => e.kind ≠ .Slice ∧ Plain tag e
  | .struct n fs => ∃ ti, getTypeInfo reg (.struct n fs) = .ok ti ∧ FieldsPlain ti.slots fs
  | _ => False
def FieldsPlain : List Slot → Fields → Prop
  | .valueField fi :: slots, .cons _ ty rest =>
    fi.tag ≠ tagNone ∧ fi.flags.any = false ∧ fi.flags.enum = false ∧ fi.flags.bitmask = false ∧
      (fi.flags.omitEmpty = true → ty.kind ≠ .Ptr) ∧ Plain fi.tag ty ∧ FieldsPlain slots rest
  | [], .nil => True
  | _, _ => False
end

mutual
/-- The tags of all fields are in the ranges that blocks may have. -/
def TagsValid : GoType → Prop
  | .ptr e | .slice _ e => TagsValid e
  | .struct n fs =>
    (∀ ti, getTypeInfo reg (.struct n fs) = .ok ti → ∀ fi ∈ ti.valueFields, fi.tag.Valid) ∧
      FieldsTagsValid fs
  | _ => True
def FieldsTagsValid : Fields → Prop
  | .nil => True
  | .cons _ ty rest => TagsValid ty ∧ FieldsTagsValid rest
end

/-! ## Values -/

/-- The values of a scalar type that its item holds exactly; `ext` is the datetimeextended flag. -/
def ScalarInRange (ext : Bool) : (s : Scalar) → s.Val → Prop
  | .int _ .int, i | .int _ .int32, i => -(2 ^ 31) ≤ i.toInt ∧ i.toInt < 2 ^ 31
  | .uint _ .uint32, u => u.toNat < 2 ^ 31
  | .enum _ true, u => u.toNat < 2 ^ 31
  | .time, t => if ext then t.MicroExact else t.nanosecond = 0
  | .duration, d => IntervalExact d
  | _, _ => True

def isNil : {ty : GoType} → GoVal ty → Bool
  | _, .ptrNil => true
  | _, _ => false

mutual
def InRange (ext : Bool) : {ty : GoType} → GoVal ty → Prop
  | .scalar s, .scalar v => ScalarInRange ext s v
  | _, .ptr v => InRange ext v
  | _, .slice vs => ElemsInRange ext vs
  | .struct n fs, .struct vs => ∃ ti, getTypeInfo reg (.struct n fs) = .ok ti ∧ FieldsInRange ti.slots vs
  | _, _ => True
def ElemsInRange (ext : Bool) : {e : GoType} → GoVals e → Prop
  | _, .nil => True
  | _, .cons v vs => isNil v = false ∧ InRange ext v ∧ ElemsInRange ext vs
def FieldsInRange : List Slot → {fs : Fields} → FieldVals fs → Prop
  | .valueField fi :: slots, _, .cons v vs => InRange fi.flags.dateTimeExt v ∧ FieldsInRange slots vs
  | _, _, _ => True
end

end

/-- Byte strings are compared by content: nil and empty are the same. -/
def scalarContent : (s : Scalar) → s.Val → s.Val
  | .bytes _, b => some (b.getD [])
  | _, v => v

mutual
def content : {ty : GoType} → GoVal ty → GoVal ty
  | .scalar s, .scalar v => .scalar (scalarContent s v)
  | .ptr _, .ptr v => .ptr (content v)
  | .slice _ _, .slice vs => .slice (elemsContent vs)
  | .struct _ _, .struct vs => .struct (fieldsContent vs)
  | _, v => v
def elemsContent : {e : GoType} → GoVals e → GoVals e
  | _, .nil => .nil
  | _, .cons v vs => .cons (content v) (elemsContent vs)
def fieldsContent : {fs : Fields} → FieldVals fs → FieldVals fs
  | _, .nil => .nil
  | _, .cons v vs => .cons (content v) (fieldsContent vs)
end

/-! ## Scalars -/

/-- The item `p` is read into a scalar of type `s` as `v`, up to content. -/
def ReadsAs (p : Prim) (s : Scalar) (v : s.Val) : Prop :=
  ∀ (dec : Dec) (t : TTLV) (ty : Typ) (value : Bytes), p.content = some (ty, value) →
    t.typ = some ty → t.raw = value → t.valueRaw = (if value.length = 0 then none else some value) →
    ∃ w, unmarshalScalar dec t s s.zero = (w, .ok ()) ∧ scalarContent s w = scalarContent s v

section

variable (reg : Registry)

theorem readsAs_boolean (n : GoString) (b : Bool) : ReadsAs (.boolean b) (.bool n) b := by
  intro dec t ty value hp htyp hraw _
  cases hp
  have hread : t.valueBoolean = some b := by
    rw [TTLV.valueBoolean, hraw]
    cases b <;> rfl
  refine ⟨b, ?_, rfl⟩
  rw [unmarshalScalar_of_typ dec htyp (by simp), storeScalar_boolean, hread]
  rfl

theorem readsAs_textString (n : GoString) (s : GoString) : ReadsAs (.textString s) (.string n) s := by
  intro dec t ty value hp htyp hraw _
  cases hp
  refine ⟨s, ?_, rfl⟩
  rw [unmarshalScalar_of_typ dec htyp (by simp), storeScalar_textString, TTLV.valueTextString,
    hraw]

theorem readsAs_byteString (n : GoString) (b : Bytes) : ReadsAs (.byteString (some b)) (.bytes n) (some b) := by
  intro dec t ty value hp htyp _ hraw
  cases hp
  refine ⟨t.valueByteString, ?_, ?_⟩
  · rw [unmarshalScalar_of_typ dec htyp (by simp), storeScalar_byteString]
  · -- an empty byte string is read as nil
    rw [TTLV.valueByteString, hraw]
    cases b with
    | nil => rfl
    | cons x xs => rfl

theorem readsAs_bigInteger (i : Int) : ReadsAs (.bigInteger (some i)) .bigInt i := by
  intro dec t ty value hp htyp hraw _
  cases hp
  refine ⟨i, ?_, rfl⟩
  rw [unmarshalScalar_of_typ dec htyp (by simp), storeScalar_bigInteger, TTLV.valueBigInteger,
    hraw, valueBigInteger_eq, twosValue_bigIntValue]

theorem readsAs_interval {d : BitVec 64} (h : IntervalExact d) : ReadsAs (.interval d) .duration d := by
  intro dec t ty value hp htyp hraw _
  cases hp
  have hread : t.valueInterval = some d := by
    rw [TTLV.valueInterval, hraw, uint32BE_beBytes, Option.map_some, intervalSeconds_read h]
  refine ⟨d, ?_, rfl⟩
  rw [unmarshalScalar_of_typ dec htyp (by simp), storeScalar_interval, hread]
  rfl

theorem readsAs_dateTime {t : Time} (h : t.nanosecond = 0) : ReadsAs (.dateTime t) .time t := by
  intro dec b ty value hp htyp hraw _
  cases hp
  have hread : b.valueDateTime = some t := by
    rw [TTLV.valueDateTime, TTLV.valueLongInteger, htyp, hraw, uint64BE_beBytes]
    cases t
    cases h
    rfl
  refine ⟨t, ?_, rfl⟩
  rw [unmarshalScalar_of_typ dec htyp (by simp), storeScalar_dateTime, hread]
  rfl

theorem readsAs_dateTimeExtended {t : Time} (h : t.MicroExact) :
    ReadsAs (.dateTimeExtended t) .time t := by
  intro dec b ty value hp htyp hraw _
  cases hp
  have hread : b.valueDateTime = some t := by
    rw [TTLV.valueDateTime, TTLV.valueLongInteger, htyp, hraw, uint64BE_beBytes, Option.map_some,
      if_pos rfl, Time.ofUnixNano_micros h]
  refine ⟨t, ?_, rfl⟩
  rw [unmarshalScalar_of_typ dec htyp (by simp), storeScalar_dateTimeExtended, hread]
  rfl

theorem readsAs_longInteger (n : GoString) (i : BitVec 64) :
    ReadsAs (.longInteger i) (.int n .int64) i ∧ ReadsAs (.longInteger i) (.uint n .uint64) i := by
  have hread : ∀ t : TTLV, t.raw = beBytes 8 i.toNat → t.valueLongInteger = some i := by
    intro t hraw
    rw [TTLV.valueLongInteger, hraw, uint64BE_beBytes]
  constructor
  · intro dec t ty value hp htyp hraw _
    cases hp
    refine ⟨i, ?_, rfl⟩
    rw [unmarshalScalar_of_typ dec htyp (by simp), storeScalar_int64, hread t hraw]
    rfl
  · intro dec t ty value hp htyp hraw _
    cases hp
    refine ⟨i, ?_, rfl⟩
    rw [unmarshalScalar_of_typ dec htyp (by simp), storeScalar_uint64, hread t hraw]
    rfl

/-- An Integer into a signed destination that is not `int64`. -/
theorem readsAs_integer (n : GoString) {k : IntKind} (hk : k = .int ∨ k = .int32) {i : BitVec k.bits}
    (h : -(2 ^ 31) ≤ i.toInt ∧ i.toInt < 2 ^ 31) :
    ReadsAs (.integer (BitVec.ofInt 32 i.toInt)) (.int n k) i := by
  intro dec t ty value hp htyp hraw _
  cases hp
  have hread : integerInt t = some i.toInt := by
    rw [integerInt, TTLV.valueInteger, hraw, uint32BE_beBytes, Option.map_some, BitVec.toInt_ofInt,
      Int.bmod_eq_of_le (by norm_num; omega) (by norm_num; omega)]
  have hfits : overflowInt k.bits i.toInt = false := by
    rw [overflowInt, decide_eq_false_iff_not]
    rcases hk with rfl | rfl <;> simp only [IntKind.bits] <;> omega
  refine ⟨i, ?_, rfl⟩
  have hstore : storeInt dec t (.scalar (.int n k)) (0 : BitVec k.bits) (integerInt t) = (i, .ok ()) := by
    rw [hread, storeInt, if_neg (by rw [hfits]; exact Bool.false_ne_true), BitVec.ofInt_toInt]
  rw [unmarshalScalar_of_typ dec htyp (by simp),
    storeScalar_integer dec t n (by rcases hk with rfl | rfl <;> simp)]
  exact hstore

/-- An Enumeration, or an Integer that is not negative, into a 32 bit unsigned destination. -/
theorem storeUintOf_item {p : Prim} {u : BitVec 32}
    (hp : p = .enumeration u ∨ p = .integer u ∧ u.toNat < 2 ^ 31) {typ : Typ} {value : Bytes}
    (hcontent : p.content = some (typ, value)) {t : TTLV} (hraw : t.raw = value) (dec : Dec)
    (ty : GoType) (cur : BitVec 32) :
    typ ≠ .ByteString ∧ storeUintOf dec t ty cur typ = (u, .ok ()) := by
  have hfits : overflowUint 32 u.toNat = false := by
    have := u.isLt
    rw [overflowUint, decide_eq_false_iff_not]
    omega
  have hstore : storeUint dec t ty cur (some u.toNat) = (u, .ok ()) := by
    rw [storeUint, if_neg (by rw [hfits]; exact Bool.false_ne_true), BitVec.ofNat_toNat,
      BitVec.setWidth_eq]
  rcases hp with rfl | ⟨rfl, hsmall⟩
  · cases hcontent
    refine ⟨by decide, ?_⟩
    rw [storeUintOf, enumerationUint, TTLV.valueEnumeration, hraw, uint32BE_beBytes]
    exact hstore
  · cases hcontent
    refine ⟨by decide, ?_⟩
    have hext : (u.signExtend 64).toNat = u.toNat := by
      rw [BitVec.signExtend_eq_setWidth_of_msb_false, BitVec.toNat_setWidth]
      · omega
      · rw [BitVec.msb_eq_decide]
        simp
        omega
    rw [storeUintOf, integerUint, TTLV.valueInteger, hraw, uint32BE_beBytes, Option.map_some, hext]
    exact hstore

theorem readsAs_uint32 {p : Prim} {u : BitVec 32}
    (hp : p = .enumeration u ∨ p = .integer u ∧ u.toNat < 2 ^ 31) (n : GoString) (m : Bool) :
    ReadsAs p (.uint n .uint32) u ∧ ReadsAs p (.enum n m) u := by
  constructor
  · intro dec t ty value hcontent htyp hraw _
    obtain ⟨hne, hstore⟩ := storeUintOf_item hp hcontent hraw dec (.scalar (.uint n .uint32)) 0
    refine ⟨u, ?_, rfl⟩
    rw [unmarshalScalar_of_typ dec htyp (by simp), storeScalar_uint dec t n (by simp) hne]
    exact hstore
  · intro dec t ty value hcontent htyp hraw _
    obtain ⟨hne, hstore⟩ := storeUintOf_item hp hcontent hraw dec (.scalar (.enum n m)) 0
    refine ⟨u, ?_, rfl⟩
    rw [unmarshalScalar_of_typ dec htyp (by simp), storeScalar_enum dec t n m hne]
    exact hstore

/-- What `scalarEmit` does with a scalar that is written as `p` unless it is omitted. -/
def EmitsItem (fi : FieldInfo) (s : Scalar) (v : s.Val) (p : Prim) : Prop :=
  ∀ ctx, scalarEmit reg ctx fi.tag (some fi) s v =
    if fi.flags.omitEmpty && s.isEmpty v then .ok .nothing else .ok (.prim p)

theorem emitsItem_of_tagged {fi : FieldInfo} (htag : fi.tag ≠ tagNone) {s : Scalar} {v : s.Val}
    {p : Prim} (hs : s ≠ .ttlv ∧ (∀ n k, s ≠ .other n k) ∧ marshalScalar s v = none)
    (h : taggedScalar reg fi.flags fi.tag s v = .ok p) : EmitsItem reg fi s v p := by
  obtain ⟨httlv, hother, hmarshal⟩ := hs
  intro ctx
  rw [scalarEmit.eq_3 reg ctx fi.tag (some fi) s v (fun b h _ => httlv h) (fun n k x h _ => hother n k h),
    hmarshal]
  simp only [flagsOf, if_neg htag, h, isEmptyValue]

theorem emitsItem_plain {fi : FieldInfo} (htag : fi.tag ≠ tagNone) (henum : fi.flags.enum = false)
    (hmask : fi.flags.bitmask = false) {s : Scalar} {v : s.Val} {p : Prim}
    (hs : s ≠ .ttlv ∧ (∀ n k, s ≠ .other n k) ∧ marshalScalar s v = none)
    (h : reg.enumForTag fi.tag = none ∨ enumNumber s v = none ∧ scalarString s v = none)
    (hp : plainScalar fi.flags.dateTimeExt s v = .ok p) : EmitsItem reg fi s v p :=
  emitsItem_of_tagged reg htag hs ((taggedScalar_plain reg henum hmask h).trans hp)

/-- The item of a `uint32`: under a tag with a registered enumeration the number is one of its values. -/
theorem uint32_item {fi : FieldInfo} (htag : fi.tag ≠ tagNone) (henum : fi.flags.enum = false)
    (hmask : fi.flags.bitmask = false) (n : GoString) {v : BitVec 32} (hsmall : v.toNat < 2 ^ 31) :
    ∃ p, (∃ c, p.content = some c) ∧ ReadsAs p (.uint n .uint32) v ∧ EmitsItem reg fi (.uint n .uint32) v p := by
  have hself : BitVec.ofNat 32 v.toNat = v := by
    rw [BitVec.ofNat_toNat, BitVec.setWidth_eq]
  by_cases hreg : reg.enumForTag fi.tag = none
  · refine ⟨.integer v, ⟨_, rfl⟩, (readsAs_uint32 (Or.inr ⟨rfl, hsmall⟩) n false).1,
      emitsItem_plain reg htag henum hmask ⟨by simp, by simp, rfl⟩ (Or.inl hreg) ?_⟩
    rw [plainScalar]
    · simp only [hself]
      exact if_neg (by omega)
    · simp
  · have htagged : taggedScalar reg fi.flags fi.tag (.uint n .uint32) v =
        .ok (enumPrim fi.flags (reg.enumForTag fi.tag) v) := by
      rw [taggedScalar, if_pos (by simp [Option.isSome_iff_ne_none, hreg]), enumNumber]
      · simp only [hself]
      · simp
    refine ⟨_, ?_, (readsAs_uint32 ?_ n false).1, emitsItem_of_tagged reg htag
      ⟨by simp, by simp, rfl⟩ htagged⟩
    · rw [enumPrim]
      split <;> exact ⟨_, rfl⟩
    · rw [enumPrim]
      split
      · exact Or.inr ⟨rfl, hsmall⟩
      · exact Or.inl rfl

/-- The item of a scalar is written unless the field is to be omitted, and read back. -/
theorem scalar_item {fi : FieldInfo} (htag : fi.tag ≠ tagNone) (henum : fi.flags.enum = false)
    (hmask : fi.flags.bitmask = false) {s : Scalar} {v : s.Val} (hplain : ScalarPlain reg fi.tag s)
    (hv : ScalarInRange fi.flags.dateTimeExt s v) (hnil : scalarIsNil s v = false) :
    ∃ p, (∃ c, p.content = some c) ∧ ReadsAs p s v ∧ EmitsItem reg fi s v p := by
  have emits {s : Scalar} {v : s.Val} {p : Prim} := emitsItem_plain reg htag henum hmask (s := s) (v := v) (p := p)
  cases s with
  | bool n =>
    exact ⟨.boolean v, ⟨_, rfl⟩, readsAs_boolean n v, emits ⟨by simp, by simp, rfl⟩ (Or.inr ⟨rfl, rfl⟩) rfl⟩
  | string n =>
    exact ⟨.textString v, ⟨_, rfl⟩, readsAs_textString n v, emits ⟨by simp, by simp, rfl⟩ (Or.inl hplain) rfl⟩
  | bytes n =>
    cases v with
    | none => cases hnil
    | some b =>
      exact ⟨.byteString (some b), ⟨_, rfl⟩, readsAs_byteString n b,
        emits ⟨by simp, by simp, rfl⟩ (Or.inr ⟨rfl, rfl⟩) rfl⟩
  | bigInt =>
    exact ⟨.bigInteger (some v), ⟨_, rfl⟩, readsAs_bigInteger v,
      emits ⟨by simp, by simp, rfl⟩ (Or.inr ⟨rfl, rfl⟩) rfl⟩
  | duration =>
    exact ⟨.interval v, ⟨_, rfl⟩, readsAs_interval hv, emits ⟨by simp, by simp, rfl⟩ (Or.inr ⟨rfl, rfl⟩) rfl⟩
  | time =>
    have hemit := emits (s := .time) (v := v) ⟨by simp, by simp, rfl⟩ (Or.inr ⟨rfl, rfl⟩) rfl
    rw [ScalarInRange] at hv
    cases hext : fi.flags.dateTimeExt with
    | true =>
      rw [hext] at hv hemit
      exact ⟨.dateTimeExtended v, ⟨_, rfl⟩, readsAs_dateTimeExtended hv, hemit⟩
    | false =>
      rw [hext] at hv hemit
      exact ⟨.dateTime v, ⟨_, rfl⟩, readsAs_dateTime hv, hemit⟩
  | int n k =>
    cases k with
    | int64 =>
      exact ⟨.longInteger v, ⟨_, rfl⟩, (readsAs_longInteger n v).1,
        emits ⟨by simp, by simp, rfl⟩ (Or.inr ⟨rfl, rfl⟩) rfl⟩
    | int =>
      refine ⟨_, ⟨_, rfl⟩, readsAs_integer n (Or.inl rfl) hv, emits ⟨by simp, by simp, rfl⟩ (Or.inl hplain) ?_⟩
      exact if_neg (by have := hv.2; omega)
    | int32 =>
      refine ⟨_, ⟨_, rfl⟩, readsAs_integer n (Or.inr rfl) hv, emits ⟨by simp, by simp, rfl⟩ (Or.inl hplain) ?_⟩
      exact if_neg (by have := hv.2; omega)
    | int8 => exact absurd hplain id
    | int16 => exact absurd hplain id
  | uint n k =>
    cases k with
    | uint64 =>
      exact ⟨.longInteger v, ⟨_, rfl⟩, (readsAs_longInteger n v).2,
        emits ⟨by simp, by simp, rfl⟩ (Or.inr ⟨rfl, rfl⟩) rfl⟩
    | uint32 => exact uint32_item reg htag henum hmask n hv
    | uint => exact absurd hplain id
    | uint8 => exact absurd hplain id
    | uint16 => exact absurd hplain id
  | enum n m =>
    cases m with
    | true =>
      exact ⟨.integer v, ⟨_, rfl⟩, (readsAs_uint32 (Or.inr ⟨rfl, hv⟩) n true).2, fun ctx => rfl⟩
    | false =>
      exact ⟨.enumeration v, ⟨_, rfl⟩, (readsAs_uint32 (Or.inl rfl) n false).2, fun ctx => rfl⟩
  | tag => exact absurd hplain id
  | dateTimeExtended => exact absurd hplain id
  | ttlv => exact absurd hplain id
  | other n k => exact absurd hplain id

/-- An omitted scalar has the content of the zero value. -/
theorem content_of_isEmpty {tag : Tag} {s : Scalar} {v : s.Val} (hplain : ScalarPlain reg tag s)
    (h : s.isEmpty v = true) : scalarContent s s.zero = scalarContent s v := by
  cases s with
  | bool n =>
    cases v with
    | true => cases h
    | false => rfl
  | string n =>
    have h0 : v = [] := List.length_eq_zero_iff.mp (of_decide_eq_true h)
    rw [h0]
    rfl
  | bytes n =>
    have h0 : v.getD [] = [] := List.length_eq_zero_iff.mp (of_decide_eq_true h)
    rw [scalarContent, scalarContent, h0]
    rfl
  | time =>
    rw [Scalar.isEmpty, Time.isZero, Bool.and_eq_true, beq_iff_eq, beq_iff_eq] at h
    cases v
    obtain ⟨rfl, rfl⟩ := h
    rfl
  | int n k | uint n k | enum n m | duration | bigInt =>
    exact (eq_of_beq h).symm
  | tag => exact absurd hplain id
  | dateTimeExtended => exact absurd hplain id
  | ttlv => exact absurd hplain id
  | other n k => exact absurd hplain id

/-! ## Values that survive -/

/-- What is written for `v` are blocks with the tag of the field, which are read back as `v`. -/
def Survives (d : Deref) (tag : Tag) (fi : FieldInfo) {ty : GoType} (v : GoVal ty) : Prop :=
  Delivers reg d tag fi v True (fun w => content w = content v)
    (isNil v = false ∧ fi.flags.omitEmpty = false ∧ ty.kind ≠ .Slice)

/-- A scalar with an item is written as the item, unless the field is to be omitted. -/
theorem writesOut_item {d : Deref} {tag : Tag} {fi : FieldInfo} (htag : tag = tagNone ∨ tag = fi.tag)
    {s : Scalar} {v : s.Val} (hnil : scalarIsNil s v = false) {p : Prim} (hemit : EmitsItem reg fi s v p) :
    WritesOut reg d tag (some fi) (.scalar v)
      (if fi.flags.omitEmpty && s.isEmpty v then [] else p.item fi.tag) := by
  have hown : tagOr tag (plainInfo reg (.scalar s)) (some fi) (.scalar v) = fi.tag :=
    tagOr_field htag rfl
  intro ctx addr
  simp only [encode, encodeScalar, hnil, Bool.false_eq_true, if_false, hown, hemit ctx]
  by_cases hempty : (fi.flags.omitEmpty && s.isEmpty v) = true
  · simp only [if_pos hempty]
    exact Writes.nothing none
  · simp only [if_neg hempty]
    exact Writes.emitRun fi.tag (.prim p)

theorem scalar_survives {d : Deref} {tag : Tag} {fi : FieldInfo} (htag : tag = tagNone ∨ tag = fi.tag)
    (hvalid : fi.tag.Valid) (henum : fi.flags.enum = false) (hmask : fi.flags.bitmask = false)
    {s : Scalar} {v : s.Val} (hplain : ScalarPlain reg fi.tag s)
    (hv : ScalarInRange fi.flags.dateTimeExt s v) : Survives reg d tag fi (.scalar v) := by
  -- nothing is written, and the zero value has the content of `v`
  have hnothing : WritesOut reg d tag (some fi) (.scalar v) [] →
      scalarContent s s.zero = scalarContent s v →
      (s.kind = .Slice ∨ fi.flags.omitEmpty = true) → Survives reg d tag fi (.scalar v) := by
    intro hw hcontent hwhy
    refine .nothing hw ?_ ?_
    · rw [GoType.zero, content, content, hcontent]
    · rintro ⟨-, homit, hkind⟩
      rcases hwhy with hslice | homitted
      · exact absurd hslice hkind
      · rw [homit] at homitted
        cases homitted
  by_cases hnil : scalarIsNil s v = true
  · -- a nil byte slice
    cases s with
    | bytes n =>
      cases v with
      | some b => cases hnil
      | none =>
        exact hnothing (fun ctx addr => Writes.nothing none) rfl (Or.inl rfl)
    | other n k => exact absurd hplain id
    | _ => cases hnil
  · obtain ⟨p, ⟨⟨ty, value⟩, hp⟩, hreads, hemit⟩ :=
      scalar_item reg (ne_none_of_valid hvalid) henum hmask hplain hv (Bool.eq_false_iff.mpr hnil)
    have hw := writesOut_item reg (d := d) htag (Bool.eq_false_iff.mpr hnil) hemit
    by_cases hempty : (fi.flags.omitEmpty && s.isEmpty v) = true
    · rw [if_pos hempty] at hw
      exact hnothing hw (content_of_isEmpty reg hplain (Bool.and_eq_true_iff.mp hempty).2)
        (Or.inr (Bool.and_eq_true_iff.mp hempty).1)
    · rw [if_neg hempty] at hw
      have hread : ∀ (dec : Dec) (t : TTLV), t.typ = some ty → t.raw = value →
          t.valueRaw = (if value.length = 0 then none else some value) →
          Runs True (fun w => scalarContent s w = scalarContent s v) (unmarshalScalar dec t s s.zero) := by
        intro dec t htyp hraw hvalueRaw
        obtain ⟨w, hread, hcontent⟩ := hreads dec t ty value hp htyp hraw hvalueRaw
        exact .of_eq hread hcontent
      refine (Delivers.item hvalid hw hp hread).mono id (fun w hcontent => ?_) id
      cases w
      rw [content, content]
      exact congrArg GoVal.scalar hcontent

/-- The elements of a slice: one block each, from which they are read back. -/
def ElemsSurvive (tag : Tag) (fi : FieldInfo) {e : GoType} (vs : GoVals e) : Prop :=
  DeliversElems reg tag fi vs True fun ws => elemsContent ws = elemsContent vs

/-! ## Structs -/

/-- None of the fields is a `TTLVTag`. -/
def ValueFieldsOnly (slots : List Slot) : Prop := ∀ fi, Slot.tagField fi ∉ slots

theorem intrinsicTag_valueFields {n : GoString} {fs : Fields} {ti : TypeInfo} (h : ValueFieldsOnly ti.slots)
    (v : GoVal (.struct n fs)) : intrinsicTag ti v = none := by
  have hnone : ti.tagField = none := by
    rw [TypeInfo.tagField, List.findSome?_eq_none_iff]
    intro slot hslot
    cases slot with
    | tagField fi => exact absurd hslot (h fi)
    | _ => rfl
  cases v
  rw [intrinsicTag, hnone]

theorem valueFields_of_plain : ∀ {fs : Fields} {slots : List Slot}, FieldsPlain reg slots fs →
    ValueFieldsOnly slots
  | .nil, [], _ => fun _ => List.not_mem_nil
  | .cons _ _ _, .valueField _ :: slots, ⟨_, _, _, _, _, _, hrest⟩ => by
    intro fi hfi
    cases hfi with
    | tail _ hfi => exact valueFields_of_plain hrest fi hfi

/-- The fields from position `k` on: their blocks are matched there, and read back just when `P` holds. -/
def FieldsRead (P : Prop) (all : List Slot) (k : Nat) (slots : List Slot) {fs : Fields} (vs : FieldVals fs) :
    Prop :=
  DeliversFields reg all k slots vs P fun ws => P ∧ fieldsContent ws = fieldsContent vs

/-- What survives is read back without a condition. -/
theorem Survives.always {reg : Registry} {d : Deref} {tag : Tag} {fi : FieldInfo} {ty : GoType} {v : GoVal ty}
    (h : Survives reg d tag fi v) :
    Delivers reg d tag fi v True (fun w => True ∧ content w = content v) False :=
  h.mono id (fun _ hcontent => ⟨trivial, hcontent⟩) False.elim

theorem fieldsRead_nil {P : Prop} (hP : P) (all : List Slot) (k : Nat) (slots : List Slot) :
    FieldsRead reg P all k slots .nil :=
  .nil ⟨hP, rfl⟩

theorem fieldsRead_cons {P Q single : Prop} {all : List Slot} {k : Nat} {slots : List Slot} {fi : FieldInfo}
    (hdr : FieldHdr) {ty : GoType} {rest : Fields} {v : GoVal ty} {vs : FieldVals rest}
    (hown : findField fi.tag all 0 none = some (k, fi))
    (hv : Delivers reg .any tagNone fi v P (fun w => P ∧ content w = content v) single)
    (hvs : FieldsRead reg Q all (k + 1) slots vs) :
    FieldsRead reg (P ∧ Q) all k (.valueField fi :: slots)
      (.cons v vs : FieldVals (.cons hdr ty rest)) := by
  refine (DeliversFields.cons hdr hown hv hvs).mono id ?_
  rintro _ ⟨w, us, rfl, ⟨hP, hcontent⟩, hQ, hcontents⟩
  exact ⟨⟨hP, hQ⟩, by rw [fieldsContent, fieldsContent, hcontent, hcontents]⟩

/-- A value of the type may stand at a field with this information, the encoder being called with `d`
    and `tag` there. -/
structure Fits (d : Deref) (tag : Tag) (fi : FieldInfo) (ty : GoType) : Prop where
  tag : tag = tagNone ∨ tag = fi.tag
  valid : fi.tag.Valid
  enum : fi.flags.enum = false
  bitmask : fi.flags.bitmask = false
  omitEmpty : fi.flags.omitEmpty = true → ty.kind ≠ .Ptr
  deref : ty.kind = .Ptr → d = .any
  plain : Plain reg fi.tag ty
  tags : TagsValid reg ty

namespace Fits

variable {reg : Registry} {d : Deref} {tag : Tag} {fi : FieldInfo}

theorem elem_ptr {e : GoType} (h : Fits reg d tag fi (.ptr e)) :
    e.kind ≠ .Ptr ∧ e.kind ≠ .Slice ∧ fi.flags.omitEmpty = false ∧ Fits reg .done tag fi e := by
  obtain ⟨hptr, hslice, hplain⟩ := h.plain
  refine ⟨hptr, hslice, ?_, ?_⟩
  · cases homit : fi.flags.omitEmpty with
    | false => rfl
    | true => exact absurd rfl (h.omitEmpty homit)
  · exact ⟨h.tag, h.valid, h.enum, h.bitmask, fun _ => hptr, fun hk => absurd hk hptr, hplain, h.tags⟩

theorem elem_slice {n : GoString} {e : GoType} (h : Fits reg d tag fi (.slice n e)) :
    e.kind ≠ .Slice ∧
      Fits reg .any fi.tag (elemField fi) e :=
  ⟨h.plain.1, Or.inr rfl, h.valid, h.enum, h.bitmask, fun homit => (by cases homit), fun _ => rfl,
    h.plain.2, h.tags⟩

end Fits

/-- The fields `slots`, after the fields `pre` of the same struct type. -/
structure FieldsFit (pre slots : List Slot) (fs : Fields) : Prop where
  differ : (TypeInfo.valueFields ⟨tagNone, pre ++ slots⟩).Pairwise TagsDiffer
  valid : ∀ fi ∈ TypeInfo.valueFields ⟨tagNone, pre ++ slots⟩, fi.tag.Valid
  plain : FieldsPlain reg slots fs
  tags : FieldsTagsValid reg fs

namespace FieldsFit

variable {reg : Registry}

theorem of_struct {n : GoString} {fs : Fields} {ti : TypeInfo}
    (hti : getTypeInfo reg (.struct n fs) = .ok ti) (hplain : FieldsPlain reg ti.slots fs)
    (htags : TagsValid reg (.struct n fs)) : FieldsFit reg [] ti.slots fs :=
  ⟨(tagsDiffer_of_getTypeInfo hti :), htags.1 ti hti, hplain, htags.2⟩

theorem head {pre slots : List Slot} {fi : FieldInfo} {hdr : FieldHdr} {ty : GoType} {rest : Fields}
    (h : FieldsFit reg pre (.valueField fi :: slots) (.cons hdr ty rest)) :
    findField fi.tag (pre ++ .valueField fi :: slots) 0 none = some (pre.length, fi) ∧
      Fits reg .any tagNone fi ty := by
  obtain ⟨hne, hany, henum, hmask, homit, hplain, -⟩ := h.plain
  have hmem : fi ∈ TypeInfo.valueFields ⟨tagNone, pre ++ .valueField fi :: slots⟩ :=
    List.mem_filterMap.mpr ⟨.valueField fi, by simp, rfl⟩
  exact ⟨findField_own h.differ hany hne, Or.inl rfl, h.valid fi hmem, henum, hmask, homit,
    fun _ => rfl, hplain, h.tags.1⟩

theorem tail {pre slots : List Slot} {fi : FieldInfo} {hdr : FieldHdr} {ty : GoType} {rest : Fields}
    (h : FieldsFit reg pre (.valueField fi :: slots) (.cons hdr ty rest)) :
    FieldsFit reg (pre ++ [.valueField fi]) slots rest := by
  obtain ⟨-, -, -, -, -, -, hrest⟩ := h.plain
  have hlist : pre ++ [.valueField fi] ++ slots = pre ++ .valueField fi :: slots := by simp
  refine ⟨?_, ?_, hrest, h.tags.2⟩
  · rw [hlist]
    exact h.differ
  · rw [hlist]
    exact h.valid

end FieldsFit

mutual
/-- Every value in range survives where it fits. -/
theorem val_survives : ∀ {ty : GoType} (v : GoVal ty) (d : Deref) (tag : Tag) (fi : FieldInfo),
    Fits reg d tag fi ty → InRange reg fi.flags.dateTimeExt v → Survives reg d tag fi v
  | _, .scalar v, d, tag, fi => fun h hv =>
    scalar_survives reg h.tag h.valid h.enum h.bitmask h.plain hv
  | _, .ptrNil, d, tag, fi => fun _ _ => .nothing (.ptrNil _) rfl fun hsingle => (by cases hsingle.1)
  | _, .ptr (e := e) v, d, tag, fi => by
    intro h hv
    obtain rfl := h.deref rfl
    obtain ⟨hptr, hslice, homit, helem⟩ := h.elem_ptr
    have hnil : isNil v = false := by
      cases v with
      | ptrNil => exact absurd rfl hptr
      | _ => rfl
    refine (Delivers.ptr (val_survives v .done tag fi helem hv) ⟨hnil, homit, hslice⟩).mono id ?_ id
    rintro _ ⟨u, rfl, hcontent⟩
    rw [content, content, hcontent]
  | _, .slice vs, d, tag, fi => by
    intro h hv
    have helems := elems_survive vs (elemField fi) rfl h.elem_slice.1 h.elem_slice.2 hv
    refine (DeliversElems.slice h.tag helems fun hsingle => hsingle.2.2 rfl).mono id ?_ id
    rintro _ ⟨ws, rfl, hcontent⟩
    rw [content, content, hcontent]
  | _, @GoVal.struct n fs vs, d, tag, fi => by
    intro h hv
    obtain ⟨ti, hti, hplain⟩ := h.plain
    obtain ⟨ti', hti', hv⟩ := hv
    rw [hti, Except.ok.injEq] at hti'
    subst hti'
    have hown : tagOr tag ti (some fi) (.struct vs : GoVal (.struct n fs)) = fi.tag :=
      tagOr_field h.tag (intrinsicTag_valueFields (valueFields_of_plain reg hplain) _)
    have hfields := fields_survive vs [] ti.slots (FieldsFit.of_struct hti hplain h.tags) hv
    refine (hfields.field h.valid hti hown h.enum h.bitmask).mono id ?_ id
    rintro _ ⟨ws, rfl, -, hcontent⟩
    rw [content, content, hcontent]
  | _, .ifaceNil, d, tag, fi => fun h => absurd h.plain id
  | _, .iface _, d, tag, fi => fun h => absurd h.plain id
  | _, .array _, d, tag, fi => fun h => absurd h.plain id
  | _, .value _ _, d, tag, fi => fun h => absurd h.plain id
  | _, .marshaler _, d, tag, fi => fun h => absurd h.plain id
theorem elems_survive : ∀ {e : GoType} (vs : GoVals e) (fi : FieldInfo), fi.flags.omitEmpty = false →
    e.kind ≠ .Slice → Fits reg .any fi.tag fi e → ElemsInRange reg fi.flags.dateTimeExt vs →
    ElemsSurvive reg fi.tag fi vs
  | e, .nil, fi => fun _ _ _ _ => .nil rfl
  | e, .cons v vs, fi => by
    intro homit hslice h hvs
    obtain ⟨hnil, hv, hvs⟩ := hvs
    refine (DeliversElems.cons (val_survives v .any fi.tag fi h hv) ⟨hnil, homit, hslice⟩
      (elems_survive vs fi homit hslice h hvs)).mono (fun _ => ⟨trivial, trivial⟩) ?_
    rintro _ ⟨w, us, rfl, hcontent, hcontents⟩
    rw [elemsContent, elemsContent, hcontent, hcontents]
theorem fields_survive : ∀ {fs : Fields} (vs : FieldVals fs) (pre slots : List Slot),
    FieldsFit reg pre slots fs → FieldsInRange reg slots vs →
    FieldsRead reg True (pre ++ slots) pre.length slots vs
  | _, .nil, pre, slots => fun _ _ => fieldsRead_nil reg trivial (pre ++ slots) pre.length slots
  | .cons hdr _ _, .cons v vs, pre, slots => by
    intro h hvs
    cases slots with
    | nil => exact absurd h.plain id
    | cons slot slots =>
      cases slot with
      | skipped => exact absurd h.plain id
      | tagField fi => exact absurd h.plain id
      | valueField fi =>
        obtain ⟨hown, hfits⟩ := h.head
        have hmore := fields_survive vs (pre ++ [.valueField fi]) slots h.tail hvs.2
        rw [List.length_append, List.append_assoc] at hmore
        have hboth := fieldsRead_cons reg hdr hown (val_survives v .any tagNone fi hfits hvs.1).always hmore
        rwa [and_self] at hboth
end

/-- `Unmarshal` of what `Marshal` writes for a value in range of a plain struct type with valid tags gives back
    the value. -/
theorem unmarshalBytes_marshal {n : GoString} {fs : Fields} {ti : TypeInfo}
    (hti : getTypeInfo reg (.struct n fs) = .ok ti) (hplain : FieldsPlain reg ti.slots fs)
    (htag : ti.inferredTag.Valid) (htags : TagsValid reg (.struct n fs)) (v : GoVal (.struct n fs))
    (hv : InRange reg false v) {b : Bytes} (hb : marshal reg v = .ok b) (hsize : b.length < 2 ^ 32) :
    ∃ w, unmarshalBytes reg (.struct n fs) b = (w, .ok ()) ∧ content w = content v := by
  cases v with
  | struct vs =>
    obtain ⟨ti', hti', hv⟩ := hv
    rw [hti, Except.ok.injEq] at hti'
    subst hti'
    have hvalues := valueFields_of_plain reg hplain
    have hown : tagOr tagNone ti none (.struct vs : GoVal (.struct n fs)) = ti.inferredTag := by
      rw [tagOr, if_pos rfl, tagForMarshal, intrinsicTag_valueFields hvalues]
    have hfields := fields_survive reg vs [] ti.slots (FieldsFit.of_struct hti hplain htags) hv
    obtain ⟨out, hw, hblock⟩ := hfields.struct (t := ⟨ti.inferredTag, htag⟩) hti hown rfl rfl
    have hout : marshal reg (.struct vs : GoVal (.struct n fs)) = .ok out :=
      marshal_of_writes reg (hw .any Ctx.top false)
    rw [hb, Except.ok.injEq] at hout
    subst hout
    obtain ⟨cs, rfl, hsized, hreads⟩ := hblock hsize
    obtain ⟨w, hrun, ws, rfl, -, hcontent⟩ := (hreads .any newDecoder [] rfl).result trivial
    rw [unmarshalBytes_block reg n fs hsized]
    exact ⟨_, hrun, by rw [content, content, hcontent]⟩

end

/-- A header with a nested struct, an omitted number, an empty byte string and a slice of pointers. -/
def headerFields : Fields :=
  field "ProtocolVersion" protocolVersion
  (fieldOmitempty "MaximumResponseSize" intType
  (field "UniqueBatchItemID" bytesType
  (field "BatchItem" (.slice [] (.ptr protocolVersion)) .nil)))

def headerValue : GoVal (.struct (lit "RequestHeader") headerFields) :=
  .struct (.cons (version 1 4) (.cons (.scalar (0 : BitVec 64)) (.cons (.scalar (some []))
    (.cons (.slice (.cons (.ptr (version 2 0)) (.cons (.ptr (version 1 (-1))) .nil))) .nil))))

theorem plain_intType (tag : Tag) : Plain requestRegistry tag intType :=
  (rfl : requestRegistry.enumForTag tag = none)

theorem inRange_intType {i : BitVec 64} (h : -(2 ^ 31) ≤ i.toInt ∧ i.toInt < 2 ^ 31) (ext : Bool) :
    InRange requestRegistry ext (.scalar i : GoVal intType) := h

theorem plain_protocolVersion (tag : Tag) : Plain requestRegistry tag protocolVersion :=
  ⟨_, getTypeInfo_protocolVersion, by decide, rfl, rfl, rfl, by decide, plain_intType _, by decide, rfl, rfl,
    rfl, by decide, plain_intType _, trivial⟩

theorem tagsValid_protocolVersion : TagsValid requestRegistry protocolVersion := by
  refine ⟨fun ti hti => ?_, trivial, trivial, trivial⟩
  rw [← Except.ok.inj (getTypeInfo_protocolVersion.symm.trans hti)]
  decide

theorem unmarshalBytes_marshal_headerValue :
    ∃ b w, marshal requestRegistry headerValue = .ok b ∧ b.length = 136 ∧
      unmarshalBytes requestRegistry (.struct (lit "RequestHeader") headerFields) b = (w, .ok ()) ∧
      content w = content headerValue := by
  have hti : getTypeInfo requestRegistry (.struct (lit "RequestHeader") headerFields) = .ok ⟨0x420077,
      [.valueField (fieldInfo "ProtocolVersion" 0x420069 protocolVersion),
       .valueField (fieldInfoOmitempty "MaximumResponseSize" 0x420050 intType),
       .valueField (fieldInfo "UniqueBatchItemID" 0x420093 bytesType),
       .valueField (fieldInfo "BatchItem" 0x42000f (.slice [] (.ptr protocolVersion)))]⟩ :=
    eq_ok_of_toOption (by decide +kernel)
  have hplain := plain_protocolVersion
  have hversion : ∀ major minor : BitVec 64, (-(2 ^ 31) ≤ major.toInt ∧ major.toInt < 2 ^ 31) →
      (-(2 ^ 31) ≤ minor.toInt ∧ minor.toInt < 2 ^ 31) →
      InRange requestRegistry false (version major minor) :=
    fun major minor hmajor hminor => ⟨_, getTypeInfo_protocolVersion, hmajor, hminor, trivial⟩
  obtain ⟨b, hb, hlen⟩ : ∃ b, marshal requestRegistry headerValue = .ok b ∧ b.length = 136 := by
    have hlen : (marshal requestRegistry headerValue).toOption.map List.length = some 136 := by
      decide +kernel
    cases hb : marshal requestRegistry headerValue with
    | error e =>
      rw [hb] at hlen
      cases hlen
    | ok b =>
      rw [hb] at hlen
      exact ⟨b, rfl, Option.some.inj hlen⟩
  obtain ⟨w, hw, hcontent⟩ := unmarshalBytes_marshal requestRegistry hti
    ⟨by decide, rfl, rfl, rfl, by decide, hplain _, by decide, rfl, rfl, rfl, by decide, plain_intType _,
      by decide, rfl, rfl, rfl, by decide, trivial, by decide, rfl, rfl, rfl, by decide,
      ⟨by decide, by decide, by decide, hplain _⟩, trivial⟩
    (by decide)
    ⟨fun ti hti' => (by rw [← Except.ok.inj (hti.symm.trans hti')]; decide), tagsValid_protocolVersion,
      trivial, trivial, tagsValid_protocolVersion, trivial⟩
    headerValue
    ⟨_, hti, hversion 1 4 (by decide) (by decide), inRange_intType (by decide) _, trivial,
      ⟨rfl, hversion 2 0 (by decide) (by decide), rfl, hversion 1 (-1) (by decide) (by decide), trivial⟩,
      trivial⟩
    hb (by omega)
  exact ⟨b, w, hb, hlen, hw, hcontent⟩

/-- A struct type like `ProtocolVersion` with explicit tags outside the valid ranges. -/
def strayFields : Fields :=
  .cons ⟨lit "ProtocolVersionMajor", lit "0x000001", false, false⟩ intType
    (.cons ⟨lit "ProtocolVersionMinor", lit "0x000002", false, false⟩ intType .nil)

def strayValue : GoVal (.struct (lit "ProtocolVersion") strayFields) :=
  .struct (.cons (.scalar (1 : BitVec 64)) (.cons (.scalar (4 : BitVec 64)) .nil))

def strayBytes : Bytes :=
  item 0x420069 .Structure ((Prim.integer 1).item 1 ++ (Prim.integer 4).item 2)

theorem content_minor (v : GoVal (.struct (lit "ProtocolVersion") strayFields)) :
    (content v).fields.tail.head.get = v.fields.tail.head.get := by
  cases v with
  | struct vs =>
    cases vs with
    | cons major vs =>
      cases vs with
      | cons minor vs =>
        cases minor
        rfl

/-- With other tags `Marshal` writes the fields all the same, but the decoder stops at the first child
    with such a tag that is not the first one, without an error. -/
theorem strayFields_lost :
    Plain requestRegistry tagNone (.struct (lit "ProtocolVersion") strayFields) ∧
    InRange requestRegistry false strayValue ∧
    marshal requestRegistry strayValue = .ok strayBytes ∧ strayBytes.length = 40 ∧
    ∃ w, unmarshalBytes requestRegistry (.struct (lit "ProtocolVersion") strayFields) strayBytes =
        (w, .ok ()) ∧ content w ≠ content strayValue := by
  have hti : getTypeInfo requestRegistry (.struct (lit "ProtocolVersion") strayFields) = .ok ⟨0x420069,
      [.valueField ⟨lit "ProtocolVersionMajor", 1, 1, noFlags, intType⟩,
       .valueField ⟨lit "ProtocolVersionMinor", 2, 2, noFlags, intType⟩]⟩ :=
    eq_ok_of_toOption (by decide +kernel)
  have hok : (unmarshalBytes requestRegistry (.struct (lit "ProtocolVersion") strayFields) strayBytes).2 =
      .ok () := by
    decide +kernel
  have hminor : (unmarshalBytes requestRegistry (.struct (lit "ProtocolVersion") strayFields)
      strayBytes).1.fields.tail.head.get = (0 : BitVec 64) := by
    decide +kernel
  refine ⟨⟨_, hti, by decide, rfl, rfl, rfl, by decide, plain_intType _, by decide, rfl, rfl, rfl,
      by decide, plain_intType _, trivial⟩,
    ⟨_, hti, inRange_intType (by decide) _, inRange_intType (by decide) _, trivial⟩,
    eq_ok_of_toOption (by decide +kernel), by decide,
    (unmarshalBytes requestRegistry (.struct (lit "ProtocolVersion") strayFields) strayBytes).1,
    by rw [← hok], fun hsame => ?_⟩
  have hminors := content_minor (unmarshalBytes requestRegistry
    (.struct (lit "ProtocolVersion") strayFields) strayBytes).1
  rw [hsame, content_minor, hminor] at hminors
  revert hminors
  decide

end KmipGo.Codec
