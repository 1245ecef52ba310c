import KmipGo.Ttlv.Access

/-! # Canonical leaves

A leaf is canonical when the encoder would write it: its padding is zero, a
boolean is 0 or 1, a big integer is in its shortest form, and an extended time
survives the conversion to nanoseconds.  `Leaf.prim` is the value of a leaf, and
`item_prim` says that encoding it gives a canonical leaf back.
-/

namespace KmipGo.Ttlv

open KmipGo.Lib

namespace Leaf

variable (l : Leaf)

def uint32 : BitVec 32 := BitVec.ofNat 32 (beNat l.value)

def uint64 : BitVec 64 := BitVec.ofNat 64 (beNat l.value)

def boolean : Bool := (l.value[7]?).getD 0 != 0

/-- The instant of a DateTime or a DateTimeExtended. -/
def time : Time :=
  if l.ty = .DateTimeExtended then Time.ofUnixNano (l.uint64 * 1000) else Time.ofUnix l.uint64

/-- The primitive value of a leaf. -/
def prim : Prim :=
  match l.ty with
  | .Integer => .integer l.uint32
  | .LongInteger => .longInteger l.uint64
  | .BigInteger => .bigInteger (some (twosValue l.value))
  | .Enumeration => .enumeration l.uint32
  | .Boolean => .boolean l.boolean
  | .TextString => .textString l.value
  | .ByteString => .byteString (some l.value)
  | .DateTime => .dateTime (Time.ofUnix l.uint64)
  | .Interval => .interval (l.uint32.setWidth 64 * 1000000000)
  | .DateTimeExtended => .dateTimeExtended (Time.ofUnixNano (l.uint64 * 1000))
  -- no leaf is a structure
  | .Structure => .byteString none

def Canonical : Prop :=
  l.padding = List.replicate l.padding.length 0 ∧
    match l.ty with
    | .Boolean => beNat l.value ≤ 1
    | .BigInteger => Shortest8 l.value
    | .DateTimeExtended => NanosFit (BitVec.ofNat 64 (beNat l.value))
    | _ => True

end Leaf

/-! ## The bytes of a value -/

theorem beBytes_ofNat_four {value : Bytes} (h : value.length = 4) :
    beBytes 4 (BitVec.ofNat 32 (beNat value)).toNat = value :=
  beBytes_uint32BE h (uint32BE_of_length h)

theorem beBytes_ofNat_eight {value : Bytes} (h : value.length = 8) :
    beBytes 8 (BitVec.ofNat 64 (beNat value)).toNat = value :=
  beBytes_uint64BE h (uint64BE_of_length h)

/-- Eight bytes that denote 0 or 1 are the encoding of a boolean. -/
theorem beBytes_boolean {value : Bytes} (hlen : value.length = 8) (h : beNat value ≤ 1) :
    beBytes 8 (if ((value[7]?).getD 0 != 0) then 1 else 0) = value := by
  have hcases : beNat value = 0 ∨ beNat value = 1 := by omega
  rcases hcases with h0 | h1
  · have heq : value = beBytes 8 0 := by
      rw [← h0, ← hlen, beBytes_beNat]
    rw [heq]
    rfl
  · have heq : value = beBytes 8 1 := by
      rw [← h1, ← hlen, beBytes_beNat]
    rw [heq]
    rfl

theorem LeafRule.padding_length {ty : Typ} {value padding : Bytes} (h : LeafRule ty value padding) :
    padding.length = padTo8 value.length := by
  cases ty with
  | Structure => exact absurd h id
  | TextString | ByteString => exact h.1
  | BigInteger =>
    rw [h.2.1, padTo8_eq_zero (Nat.dvd_of_mod_eq_zero h.1)]
  | _ =>
    rw [h.1, h.2]
    rfl

/-- Every value keeps its bytes. -/
theorem content_prim {l : Leaf} (h : l.Canonical) : l.prim.content = some (l.ty, l.value) := by
  obtain ⟨-, hcanon⟩ := h
  have hrule := l.rule
  rw [Leaf.prim]
  cases hty : l.ty with
  | Structure => exact absurd hty (leaf_ty_ne l)
  | Integer | Enumeration =>
    rw [hty] at hrule
    simp only [Prim.content, Leaf.uint32, beBytes_ofNat_four hrule.1]
  | LongInteger =>
    rw [hty] at hrule
    simp only [Prim.content, Leaf.uint64, beBytes_ofNat_eight hrule.1]
  | BigInteger =>
    rw [hty] at hcanon
    simp only [Prim.content, Option.map_some, bigIntValue_twosValue hcanon]
  | Boolean =>
    rw [hty] at hrule hcanon
    exact congrArg (fun value => some (Typ.Boolean, value)) (beBytes_boolean hrule.1 hcanon)
  | TextString | ByteString => rfl
  | DateTime =>
    rw [hty] at hrule
    simp only [Prim.content, Time.ofUnix, Leaf.uint64, beBytes_ofNat_eight hrule.1]
  | Interval =>
    rw [hty] at hrule
    simp only [Prim.content, intervalSeconds_of_seconds, Leaf.uint32, beBytes_ofNat_four hrule.1]
  | DateTimeExtended =>
    rw [hty] at hrule hcanon
    simp only [Prim.content, Leaf.uint64, Time.micros_ofUnixNano hcanon, beBytes_ofNat_eight hrule.1]

/-- Encoding the value of a canonical leaf gives its block. -/
theorem item_prim (tag : ValidTag) {l : Leaf} (h : l.Canonical) :
    l.prim.item tag.1 = (Block.leaf tag l).bytes := by
  have hpad := h.1
  rw [LeafRule.padding_length l.rule] at hpad
  rw [Prim.item, content_prim h, Block.bytes, hpad]
  rfl

theorem item_structure {tag : Tag} {bs : List Block} :
    item tag .Structure (blocksBytes bs) =
      header tag .Structure (blocksBytes bs).length ++ blocksBytes bs := by
  rw [item, padTo8_eq_zero (blocksBytes_dvd bs), List.replicate_zero, List.append_nil]

/-- A leaf of type `ty` with the zero padding its value needs. -/
theorem exists_leaf_of_value (tag : ValidTag) (ty : Typ) (value : Bytes)
    (hrule : LeafRule ty value (List.replicate (padTo8 value.length) 0)) :
    ∃ l : Leaf, l.ty = ty ∧ l.value = value ∧
      (Block.leaf tag l).bytes = item tag.1 ty value :=
  ⟨⟨ty, value, _, hrule⟩, rfl, rfl, rfl⟩

/-- The leaf of a primitive item. -/
theorem exists_leaf_of_prim (tag : ValidTag) {p : Prim} {ty : Typ} {value : Bytes}
    (hp : p.content = some (ty, value)) (hsize : (p.item tag.1).length < 2 ^ 32) :
    ∃ l : Leaf, l.ty = ty ∧ l.value = value ∧ (Block.leaf tag l).bytes = p.item tag.1 := by
  have hitem : p.item tag.1 = item tag.1 ty value := by
    rw [Prim.item, hp]
  rw [hitem] at hsize ⊢
  have hlen : value.length < 2 ^ 32 := by
    have := length_item tag.1 ty value
    omega
  apply exists_leaf_of_value
  cases p with
  | bigInteger i =>
    cases i with
    | none => cases hp
    | some i =>
      cases hp
      have hdvd := (shortest8_bigIntValue i).dvd
      have hpad : padTo8 (bigIntValue i).length = 0 := padTo8_eq_zero hdvd
      refine ⟨by omega, ?_, hlen⟩
      rw [hpad, List.length_replicate]
  | byteString b =>
    cases b with
    | none => cases hp
    | some b =>
      cases hp
      exact ⟨List.length_replicate .., hlen⟩
  | textString s =>
    cases hp
    exact ⟨List.length_replicate .., hlen⟩
  | _ =>
    cases hp
    simp [LeafRule, padTo8]

/-! ## Reading a leaf -/

section

variable {tag : ValidTag} {l : Leaf} (rest : Bytes)

theorem valueInteger_leaf (h : l.ty = .Integer ∨ l.ty = .Enumeration ∨ l.ty = .Interval) :
    TTLV.valueInteger ((Block.leaf tag l).bytes ++ rest) = some l.uint32 := by
  have hrule := l.rule
  rw [TTLV.valueInteger, raw_leaf_append]
  rcases h with h | h | h
  · rw [h] at hrule
    exact uint32BE_of_length hrule.1
  · rw [h] at hrule
    exact uint32BE_of_length hrule.1
  · rw [h] at hrule
    exact uint32BE_of_length hrule.1

theorem valueEnumeration_leaf (h : l.ty = .Enumeration) :
    TTLV.valueEnumeration ((Block.leaf tag l).bytes ++ rest) = some l.uint32 :=
  valueInteger_leaf rest (Or.inr (Or.inl h))

/-- The seconds of an interval, as the text forms read them. -/
theorem uint32BE_raw_leaf (h : l.ty = .Interval) :
    uint32BE (TTLV.raw ((Block.leaf tag l).bytes ++ rest)) = some l.uint32 :=
  valueInteger_leaf rest (Or.inr (Or.inr h))

theorem valueLongInteger_leaf
    (h : l.ty = .LongInteger ∨ l.ty = .DateTime ∨ l.ty = .DateTimeExtended) :
    TTLV.valueLongInteger ((Block.leaf tag l).bytes ++ rest) = some l.uint64 := by
  have hrule := l.rule
  rw [TTLV.valueLongInteger, raw_leaf_append]
  rcases h with h | h | h
  · rw [h] at hrule
    exact uint64BE_of_length hrule.1
  · rw [h] at hrule
    exact uint64BE_of_length hrule.1
  · rw [h] at hrule
    exact uint64BE_of_length hrule.1

theorem valueDateTime_leaf (h : l.ty = .DateTime ∨ l.ty = .DateTimeExtended) :
    TTLV.valueDateTime ((Block.leaf tag l).bytes ++ rest) = some l.time := by
  rw [TTLV.valueDateTime, valueLongInteger_leaf rest (Or.inr h), Option.map_some, typ_leaf_append,
    Leaf.time]
  simp only [Option.some.injEq]

theorem valueBoolean_leaf (h : l.ty = .Boolean) :
    TTLV.valueBoolean ((Block.leaf tag l).bytes ++ rest) = some l.boolean := by
  have hrule := l.rule
  rw [h] at hrule
  have hget : ∃ b, l.value[7]? = some b := by
    have hlt : 7 < l.value.length := by
      rw [hrule.1]
      decide
    exact ⟨_, List.getElem?_eq_getElem hlt⟩
  obtain ⟨b, hb⟩ := hget
  rw [TTLV.valueBoolean, raw_leaf_append, hb, Option.map_some, Leaf.boolean, hb, Option.getD_some]

theorem valueBigInteger_leaf :
    TTLV.valueBigInteger ((Block.leaf tag l).bytes ++ rest) = twosValue l.value := by
  rw [TTLV.valueBigInteger, raw_leaf_append, valueBigInteger_eq]

end

end KmipGo.Ttlv
