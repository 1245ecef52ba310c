import KmipGo.Decoder.Decode
import KmipGo.Lib.Plan

/-! # Verdicts

What becomes of an item at the destination it arrives at: it is stored, it is
refused with a cause, or an accessor or a reflect operation panics.  `verdict`
says which, by the type of the item and the type of the destination, in the
order of the type switch of `unmarshal`.

* `agrees_unmarshalScalar`, `agrees_refuse` — the decoder does what the table says.
* `isSome_valueOf` — the same for destinations without a type of their own.
-/

namespace KmipGo.Decoder

open KmipGo.Lib KmipGo.Ttlv KmipGo.Reg KmipGo.Go

/-! ## Verdicts -/

abbrev Verdict := Res Cause Unit

/-- The value segment is long enough for the accessor of the type. -/
def readable (t : TTLV) : Typ → Bool
  | .Integer | .Enumeration | .Interval => decide (4 ≤ t.raw.length)
  | .LongInteger | .Boolean | .DateTime | .DateTimeExtended => decide (8 ≤ t.raw.length)
  | .BigInteger | .TextString | .ByteString | .Structure => true

def reads (t : TTLV) (typ : Typ) : Verdict := if readable t typ then .ok () else .panic

/-- A number that was read, against the range of its destination. -/
def inRange {α : Type} (overflow : α → Bool) : Option α → Verdict
  | none => .panic
  | some i => if overflow i then .err .intOverflow else .ok ()

/-- A number of type Integer or Enumeration, as signed and unsigned destinations see it. -/
def numberVerdict (i : Option Int) (u : Option Nat) : Scalar → Verdict
  | .int _ .int64 | .duration | .uint _ .uint64 => .err .unsupportedType
  | .int _ k => inRange (overflowInt k.bits) i
  | .uint _ k => inRange (overflowUint k.bits) u
  | .tag | .enum _ _ => inRange (overflowUint 32) u
  | .ttlv => .ok ()
  | _ => .err .unsupportedType

/-- What becomes of an item at a scalar destination. -/
def scalarVerdict (t : TTLV) (s : Scalar) : Typ → Verdict
  | .Structure =>
    match s with
    | .time | .bigInt | .dateTimeExtended | .ttlv => .ok ()
    | _ => .err .unsupportedType
  | .Interval =>
    match s with
    | .int _ .int64 | .duration => reads t .Interval
    | .ttlv => .ok ()
    | _ => .err .unsupportedType
  | .DateTime =>
    match s with
    | .time | .dateTimeExtended => reads t .DateTime
    | .ttlv => .ok ()
    | _ => .err .unsupportedType
  | .DateTimeExtended =>
    match s with
    | .time | .dateTimeExtended => reads t .DateTimeExtended
    | .ttlv => .ok ()
    | _ => .err .unsupportedType
  | .ByteString =>
    match s with
    | .bytes _ | .ttlv => .ok ()
    | .other _ (.chan byteElem) | .other _ (.map byteElem) =>
      if byteElem then .panic else .err .unsupportedType
    -- no element type to ask for
    | _ => .panic
  | .TextString =>
    match s with
    | .string _ | .ttlv => .ok ()
    | _ => .err .unsupportedType
  | .Boolean =>
    match s with
    | .bool _ => reads t .Boolean
    | .ttlv => .ok ()
    | _ => .err .unsupportedType
  | .Enumeration => numberVerdict (enumerationInt t) (enumerationUint t) s
  | .Integer => numberVerdict (integerInt t) (integerUint t) s
  | .LongInteger =>
    match s with
    | .int _ .int64 | .duration | .uint _ .uint64 => reads t .LongInteger
    | .ttlv => .ok ()
    | _ => .err .unsupportedType
  | .BigInteger =>
    match s with
    | .bigInt | .ttlv => .ok ()
    | _ => .err .unsupportedType

/-- What becomes of an item at a destination of a kind that takes no item of its type. -/
def refusal (t : TTLV) (ty : GoType) : Verdict :=
  match t.typ with
  | none => .err .invalidType
  | some .ByteString =>
    match ty with
    | .ptr e | .array _ e => if e = byteType then .panic else .err .unsupportedType
    | _ => .panic
  | some _ => .err .unsupportedType

/-- What becomes of an item at the destination it arrives at. -/
def verdict (reg : Registry) : GoType × TTLV → Verdict
  | (.scalar .ttlv, _) => .ok ()
  | (.scalar s, t) =>
    match t.typ with
    | some typ => scalarVerdict t s typ
    | none => .err .invalidType
  | (.iface, t) | (.value, t) =>
    match t.typ with
    | some typ => reads t typ
    | none => .panic
  | (.ptr e, t) => if ptrIsUnmarshaler e then .panic else refusal t (.ptr e)
  | (.struct n fs, t) =>
    match t.typ with
    | some .Structure =>
      match getTypeInfo reg (.struct n fs) with
      | .error e => .err (.typeInfo e)
      | .ok _ => .ok ()
    | _ => refusal t (.struct n fs)
  | (.marshaler n p, t) =>
    match t.typ with
    | some .Structure => .ok ()
    | _ => refusal t (.marshaler n p)
  | (ty, t) => refusal t ty

/-! ## Accessors -/

theorem isSome_uint32BE (b : Bytes) : (uint32BE b).isSome = decide (4 ≤ b.length) := by
  rw [uint32BE]
  by_cases h : b.length < 4
  · rw [if_pos h, decide_eq_false (by omega)]
    rfl
  · rw [if_neg h, decide_eq_true (by omega)]
    rfl

theorem isSome_uint64BE (b : Bytes) : (uint64BE b).isSome = decide (8 ≤ b.length) := by
  rw [uint64BE]
  by_cases h : b.length < 8
  · rw [if_pos h, decide_eq_false (by omega)]
    rfl
  · rw [if_neg h, decide_eq_true (by omega)]
    rfl

section

variable (t : TTLV)

theorem isSome_valueBoolean : t.valueBoolean.isSome = readable t .Boolean := by
  rw [TTLV.valueBoolean, Option.isSome_map, readable]
  by_cases h : 8 ≤ t.raw.length
  · rw [decide_eq_true h, List.getElem?_eq_getElem (by omega)]
    rfl
  · rw [decide_eq_false h, List.getElem?_eq_none (by omega)]
    rfl

theorem isSome_valueInterval : t.valueInterval.isSome = readable t .Interval := by
  rw [TTLV.valueInterval, Option.isSome_map, isSome_uint32BE, readable]

theorem isSome_valueLongInteger : t.valueLongInteger.isSome = readable t .LongInteger := by
  rw [TTLV.valueLongInteger, isSome_uint64BE, readable]

theorem isSome_valueDateTime : t.valueDateTime.isSome = readable t .DateTime := by
  rw [TTLV.valueDateTime, Option.isSome_map, isSome_valueLongInteger, readable, readable]

/-- `TTLV.Value` panics exactly on a value segment that is too short. -/
theorem isSome_value {t : TTLV} {typ : Typ} (h : t.typ = some typ) (hne : typ ≠ .Structure) :
    (value t).isSome = readable t typ := by
  rw [value, h]
  cases typ with
  | Structure => exact absurd rfl hne
  | Integer | Enumeration => exact (Option.isSome_map).trans (isSome_uint32BE _)
  | LongInteger => exact (Option.isSome_map).trans (isSome_uint64BE _)
  | Boolean => exact (Option.isSome_map).trans (isSome_valueBoolean t)
  | Interval => exact (Option.isSome_map).trans (isSome_valueInterval t)
  | DateTime | DateTimeExtended => exact (Option.isSome_map).trans (isSome_valueDateTime t)
  | BigInteger | TextString | ByteString => rfl

end

theorem readable_leaf (l : Leaf) {t : TTLV} (h : t.raw = l.value) : readable t l.ty = true := by
  have hrule := l.rule
  cases hty : l.ty with
  | Integer | Enumeration | Interval | LongInteger | Boolean | DateTime | DateTimeExtended =>
    rw [hty] at hrule
    exact decide_eq_true (by rw [h]; exact hrule.1.ge)
  | BigInteger | TextString | ByteString | Structure => rfl

/-- The accessors do not read past the end of a valid block. -/
theorem readable_of_isValid {t : TTLV} {typ : Typ} (hv : t.IsValid) (h : t.typ = some typ) :
    readable t typ = true := by
  obtain ⟨b, hsize, rest, rfl⟩ := isValid_iff.mp hv
  cases b with
  | leaf tag l =>
    rw [typ_leaf_append, Option.some.injEq] at h
    rw [← h]
    exact readable_leaf l (raw_leaf_append tag l rest)
  | struct tag cs =>
    rw [typ_struct_append, Option.some.injEq] at h
    rw [← h]
    rfl

theorem typ_ne_none_of_isValid {t : TTLV} (hv : t.IsValid) : t.typ ≠ none := by
  obtain ⟨typ, htyp, -⟩ := fullLen_of_validHeader (validHeader_of_isValid hv)
  rw [htyp]
  exact Option.some_ne_none typ

theorem isSome_valueOf {t : TTLV} {typ : Typ} (h : t.typ = some typ)
    (hinner : (valuesOf t.raw).isSome) : (valueOf t).isSome = readable t typ := by
  rw [valueOf]
  by_cases hs : typ = .Structure
  · subst hs
    split
    · rw [Option.isSome_map, hinner]
      rfl
    · rename_i hne
      exact absurd h hne
  · split
    · rename_i hst
      rw [h, Option.some.injEq] at hst
      exact absurd hst hs
    · rw [Option.isSome_map, isSome_value h hs]

/-- A valid block has a value, and the loop over a structure's value only looks at valid children. -/
theorem isSome_valueOf_and_valuesOf (t : TTLV) :
    (t.IsValid → (valueOf t).isSome) ∧ (valuesOf t).isSome := by
  revert t
  apply walk_induction
  · intro t hinner hv
    have h8 := length_of_validHeader (validHeader_of_isValid hv)
    simp only [lenHeader] at h8
    obtain ⟨typ, htyp⟩ := Option.ne_none_iff_exists'.mp (typ_ne_none_of_isValid hv)
    rw [isSome_valueOf htyp (hinner (by omega)), readable_of_isValid hv htyp]
  · intro t hone hrest
    rw [valuesOf]
    by_cases hv : t.IsValid
    · have hsome := hone hv
      rw [if_pos hv]
      cases hval : valueOf t with
      | none =>
        rw [hval] at hsome
        cases hsome
      | some v =>
        simp only
        split
        · rfl
        · rename_i n hn
          rw [Option.isSome_map]
          exact hrest n hn
    · rw [if_neg hv]
      rfl

theorem isSome_valuesOf (inner : TTLV) : (valuesOf inner).isSome :=
  (isSome_valueOf_and_valuesOf inner).2

/-! ## Scalar destinations follow the table -/

/-- An error of the decoder that has a given cause. -/
def HasCause (e : DecErr) (c : Cause) : Prop := ∃ u, e = .unmarshaler u ∧ u.cause = c

theorem agrees_newError (dec : Dec) (t : TTLV) (ty : GoType) (c : Cause) :
    Agrees HasCause (newError dec t ty c) (.err c) :=
  ⟨_, rfl, rfl⟩

theorem agrees_store {α : Type} (cur : α) {o : Option α} {b : Bool} (h : o.isSome = b) :
    Agrees HasCause (store cur o).2 (if b then .ok () else .panic : Verdict) := by
  subst h
  cases o with
  | none => trivial
  | some v => trivial

theorem agrees_storeInt (dec : Dec) (t : TTLV) (ty : GoType) {bits : Nat} (cur : BitVec bits)
    (o : Option Int) :
    Agrees HasCause (storeInt dec t ty cur o).2 (inRange (overflowInt bits) o) := by
  cases o with
  | none => trivial
  | some i =>
    cases h : overflowInt bits i with
    | true =>
      simp only [storeInt, inRange, h]
      exact agrees_newError dec t ty _
    | false =>
      simp only [storeInt, inRange, h]
      trivial

theorem agrees_storeUint (dec : Dec) (t : TTLV) (ty : GoType) {bits : Nat} (cur : BitVec bits)
    (o : Option Nat) :
    Agrees HasCause (storeUint dec t ty cur o).2 (inRange (overflowUint bits) o) := by
  cases o with
  | none => trivial
  | some i =>
    cases h : overflowUint bits i with
    | true =>
      simp only [storeUint, inRange, h]
      exact agrees_newError dec t ty _
    | false =>
      simp only [storeUint, inRange, h]
      trivial

theorem agrees_skipStructure {dec : Dec} (hdec : dec.disallowExtraValues = false) (t : TTLV)
    (ty : GoType) : Agrees HasCause (skipStructure dec t ty) (.ok () : Verdict) := by
  rw [skipStructure, hdec]
  trivial

section

variable {dec : Dec} (hdec : dec.disallowExtraValues = false) (t : TTLV)
include hdec

theorem agrees_storeScalar (typ : Typ) (s : Scalar) (cur : s.Val) :
    Agrees HasCause (storeScalar dec t typ s cur).2 (scalarVerdict t s typ) := by
  cases s with
  | bool n =>
    cases typ with
    | Boolean => exact agrees_store cur (isSome_valueBoolean t)
    | ByteString => trivial
    | _ => exact agrees_newError dec t _ _
  | string n =>
    cases typ with
    | TextString => trivial
    | ByteString => trivial
    | _ => exact agrees_newError dec t _ _
  | int n k =>
    cases k with
    | int64 =>
      cases typ with
      | Interval => exact agrees_store cur (isSome_valueInterval t)
      | LongInteger => exact agrees_store cur (isSome_valueLongInteger t)
      | ByteString => trivial
      | _ => exact agrees_newError dec t _ _
    | _ =>
      cases typ with
      | Enumeration => exact agrees_storeInt dec t _ cur (enumerationInt t)
      | Integer => exact agrees_storeInt dec t _ cur (integerInt t)
      | ByteString => trivial
      | _ => exact agrees_newError dec t _ _
  | uint n k =>
    cases k with
    | uint64 =>
      cases typ with
      | LongInteger => exact agrees_store cur (isSome_valueLongInteger t)
      | ByteString => trivial
      | _ => exact agrees_newError dec t _ _
    | _ =>
      cases typ with
      | Enumeration => exact agrees_storeUint dec t _ cur (enumerationUint t)
      | Integer => exact agrees_storeUint dec t _ cur (integerUint t)
      | ByteString => trivial
      | _ => exact agrees_newError dec t _ _
  | duration =>
    cases typ with
    | Interval => exact agrees_store cur (isSome_valueInterval t)
    | LongInteger => exact agrees_store cur (isSome_valueLongInteger t)
    | ByteString => trivial
    | _ => exact agrees_newError dec t _ _
  | tag =>
    cases typ with
    | Enumeration => exact agrees_storeUint dec t _ cur (enumerationUint t)
    | Integer => exact agrees_storeUint dec t _ cur (integerUint t)
    | ByteString => trivial
    | _ => exact agrees_newError dec t _ _
  | enum n m =>
    cases typ with
    | Enumeration => exact agrees_storeUint dec t _ cur (enumerationUint t)
    | Integer => exact agrees_storeUint dec t _ cur (integerUint t)
    | ByteString => trivial
    | _ => exact agrees_newError dec t _ _
  | bytes n =>
    cases typ with
    | ByteString => trivial
    | _ => exact agrees_newError dec t _ _
  | time =>
    cases typ with
    | Structure => exact agrees_skipStructure hdec t _
    | DateTime | DateTimeExtended => exact agrees_store cur (isSome_valueDateTime t)
    | ByteString => trivial
    | _ => exact agrees_newError dec t _ _
  | bigInt =>
    cases typ with
    | Structure => exact agrees_skipStructure hdec t _
    | BigInteger => trivial
    | ByteString => trivial
    | _ => exact agrees_newError dec t _ _
  | dateTimeExtended =>
    cases typ with
    | Structure => exact agrees_skipStructure hdec t _
    | DateTime | DateTimeExtended => exact agrees_store cur (isSome_valueDateTime t)
    | ByteString => trivial
    | _ => exact agrees_newError dec t _ _
  | ttlv => cases typ <;> trivial
  | other n k =>
    cases typ with
    | ByteString =>
      cases k with
      | chan byteElem | map byteElem =>
        cases byteElem with
        | true => trivial
        | false => exact agrees_newError dec t _ _
      | _ => trivial
    | _ => exact agrees_newError dec t _ _

theorem agrees_unmarshalScalar (reg : Registry) (s : Scalar) (cur : s.Val) :
    Agrees HasCause (unmarshalScalar dec t s cur).2 (verdict reg (.scalar s, t)) := by
  by_cases hs : s = .ttlv
  · subst hs
    trivial
  · rw [unmarshalScalar.eq_2 dec t s cur (fun _ h _ => hs h), verdict.eq_2 reg s t hs]
    cases t.typ with
    | none => exact agrees_newError dec t _ _
    | some typ => exact agrees_storeScalar hdec t typ s cur

end

theorem agrees_refuse (dec : Dec) (t : TTLV) (ty : GoType) (hty : ∀ s, ty ≠ .scalar s) :
    Agrees HasCause (refuse dec t ty) (refusal t ty) := by
  unfold refuse refusal
  cases t.typ with
  | none => exact agrees_newError dec t ty _
  | some typ =>
    cases typ with
    | ByteString =>
      cases ty with
      | scalar s => exact absurd rfl (hty s)
      | ptr e | array _ e =>
        by_cases he : e = byteType
        · simp only [byteStringInto, if_pos he]
          trivial
        · simp only [byteStringInto, if_neg he]
          exact agrees_newError dec t _ _
      | _ => trivial
    | _ => exact agrees_newError dec t ty _

end KmipGo.Decoder
