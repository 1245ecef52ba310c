import KmipGo.Decoder.Fields
import KmipGo.Message.Types

/-! # Refusing extra values

`DisallowExtraValues` of `Decoder`.  `AllMatched` says that each child, at each
struct level that decoding reaches, has a field; with the flag decoding succeeds
exactly where it succeeds without and all children are matched (`strict_iff`).

With the edits of `KmipGo.Decoder.Fields` this says that decoding a structure
depends, for each field, on the children of that field (`decodeValue_per_field`).
-/

namespace KmipGo.Decoder

open KmipGo.Lib KmipGo.Ttlv KmipGo.Reg KmipGo.Go KmipGo.Message

section

variable (reg : Registry)

/-- The scalar types that are struct types without exported fields. -/
def isBareStruct : Scalar → Bool
  | .time | .bigInt | .dateTimeExtended => true
  | _ => false

mutual
/-- Each child of the structure has a field, at this level and below. -/
def AllMatched : GoType → TTLV → Prop
  | .ptr e, t => AllMatched e t
  | .slice _ e, t => AllMatched e t
  | .struct n fs, t =>
    t.typ = some .Structure → ∀ ti, getTypeInfo reg (.struct n fs) = .ok ti →
      ∀ c ∈ t.children, ∃ i fi, findField c.tag ti.slots 0 none = some (i, fi) ∧ FieldMatched fs i c
  | .scalar s, t => isBareStruct s = true → t.typ = some .Structure → t.children = []
  | .marshaler _ _, t => t.typ = some .Structure → t.children = []
  | _, _ => True
def FieldMatched : Fields → Nat → TTLV → Prop
  | .nil, _, _ => True
  | .cons _ ty _, 0, t => AllMatched ty t
  | .cons _ _ rest, i + 1, t => FieldMatched rest i t
end

theorem allMatched_of_typ_ne {t : TTLV} (h : t.typ ≠ some .Structure) : ∀ ty : GoType, AllMatched reg ty t
  | .ptr e => allMatched_of_typ_ne h e
  | .slice _ e => allMatched_of_typ_ne h e
  | .struct _ _ | .marshaler _ _ => fun hs => absurd hs h
  | .scalar _ => fun _ hs => absurd hs h
  | .iface | .array _ _ | .value => trivial

end

/-! ## Scalar destinations -/

theorem children_eq_nil_iff {t : TTLV} : t.children = [] ↔ t.valueStructure = none := by
  rw [TTLV.children, TTLV.valueStructure]
  cases t.valueRaw with
  | none => simp
  | some inner =>
    simp [TTLV.walk.eq_def inner]

theorem skipStructure_strict {dec dec' : Dec} (hdec : dec.disallowExtraValues = false)
    (hdec' : dec'.disallowExtraValues = true) (t : TTLV) (ty : GoType) :
    skipStructure dec t ty = .ok () ∧ (skipStructure dec' t ty = .ok () ↔ t.children = []) := by
  rw [children_eq_nil_iff, skipStructure, skipStructure, hdec, hdec']
  cases t.valueStructure with
  | none => simp
  | some inner => simp [newError]

theorem storeInt_ok_iff (dec dec' : Dec) (t : TTLV) (ty : GoType) {bits : Nat} (cur w : BitVec bits)
    (o : Option Int) :
    storeInt dec' t ty cur o = (w, .ok ()) ↔ storeInt dec t ty cur o = (w, .ok ()) := by
  cases o with
  | none => rfl
  | some i =>
    rw [storeInt, storeInt]
    by_cases h : overflowInt bits i = true <;> simp [h, newError]

theorem storeUint_ok_iff (dec dec' : Dec) (t : TTLV) (ty : GoType) {bits : Nat} (cur w : BitVec bits)
    (o : Option Nat) :
    storeUint dec' t ty cur o = (w, .ok ()) ↔ storeUint dec t ty cur o = (w, .ok ()) := by
  cases o with
  | none => rfl
  | some i =>
    rw [storeUint, storeUint]
    by_cases h : overflowUint bits i = true <;> simp [h, newError]

theorem storeUintOf_ok_iff (dec dec' : Dec) (t : TTLV) (ty : GoType) {bits : Nat} (cur w : BitVec bits)
    (typ : Typ) :
    storeUintOf dec' t ty cur typ = (w, .ok ()) ↔ storeUintOf dec t ty cur typ = (w, .ok ()) := by
  cases typ with
  | Enumeration => exact storeUint_ok_iff dec dec' t ty cur w _
  | Integer => exact storeUint_ok_iff dec dec' t ty cur w _
  | _ => simp [storeUintOf, mismatch, newError]

theorem mismatch_ne_ok (dec : Dec) (t : TTLV) (ty : GoType) : mismatch dec t ty ≠ .ok () := by
  simp [mismatch, newError]

/-- Except for a structure that is skipped, the flag does not matter to a scalar. -/
theorem storeScalar_ok_iff (dec dec' : Dec) (t : TTLV) {typ : Typ} {s : Scalar}
    (h : typ ≠ .Structure ∨ isBareStruct s = false) (cur w : s.Val) :
    storeScalar dec' t typ s cur = (w, .ok ()) ↔ storeScalar dec t typ s cur = (w, .ok ()) := by
  cases s with
  | int n k =>
    cases k <;> cases typ <;>
      simp only [storeScalar, Prod.mk.injEq, mismatch_ne_ok, byteStringInto_ne_ok, and_false,
        storeInt_ok_iff dec dec']
  | uint n k =>
    cases k <;> cases typ <;>
      simp only [storeScalar, Prod.mk.injEq, mismatch_ne_ok, byteStringInto_ne_ok, and_false,
        storeUintOf_ok_iff dec dec']
  | tag | enum n m =>
    cases typ <;>
      simp only [storeScalar, Prod.mk.injEq, byteStringInto_ne_ok, and_false, storeUintOf_ok_iff dec dec']
  | ttlv => rfl
  | bool n | string n | duration | bytes n | other n k =>
    cases typ <;> simp only [storeScalar, Prod.mk.injEq, mismatch_ne_ok, byteStringInto_ne_ok, and_false]
  | time | bigInt | dateTimeExtended =>
    cases typ with
    | Structure => simp [isBareStruct] at h
    | _ => simp only [storeScalar, Prod.mk.injEq, mismatch_ne_ok, byteStringInto_ne_ok, and_false]

section

variable {reg : Registry} {dec dec' : Dec} (hdec : dec.disallowExtraValues = false)
  (hdec' : dec'.disallowExtraValues = true)

include hdec hdec'

theorem unmarshalScalar_strict {t : TTLV} {s : Scalar} (cur w : s.Val) :
    unmarshalScalar dec' t s cur = (w, .ok ()) ↔
      unmarshalScalar dec t s cur = (w, .ok ()) ∧ AllMatched reg (.scalar s) t := by
  by_cases hs : s = .ttlv
  · subst hs
    have hall : AllMatched reg (.scalar .ttlv) t := fun h => absurd h (by decide)
    simp [unmarshalScalar, hall]
  · rw [unmarshalScalar_of_ne dec' t hs, unmarshalScalar_of_ne dec t hs]
    cases htyp : t.typ with
    | none => simp [newError]
    | some typ =>
      simp only
      by_cases hskip : typ = .Structure ∧ isBareStruct s = true
      · obtain ⟨rfl, hop⟩ := hskip
        have hall : AllMatched reg (.scalar s) t ↔ t.children = [] :=
          ⟨fun h => h hop htyp, fun h _ _ => h⟩
        rw [hall]
        cases s with
        | time | bigInt | dateTimeExtended =>
          simp only [storeScalar, Prod.mk.injEq, (skipStructure_strict hdec hdec' t _).1,
            (skipStructure_strict hdec hdec' t _).2, and_true]
        | _ => cases hop
      · have hall : AllMatched reg (.scalar s) t := by
          intro hop hst
          rw [htyp] at hst
          exact absurd ⟨Option.some.inj hst, hop⟩ hskip
        have hne : typ ≠ .Structure ∨ isBareStruct s = false := by
          by_cases h : typ = .Structure
          · exact .inr (Bool.eq_false_iff.mpr fun hop => hskip ⟨h, hop⟩)
          · exact .inl h
        rw [storeScalar_ok_iff dec dec' t hne cur w]
        simp [hall]

omit hdec hdec' in
/-- Two ways to fill what a value is built from. -/
theorem built_strict {α β : Type} (f : α → β) {run run' : α × Outcome} {P : Prop}
    (h : ∀ a, run' = (a, .ok ()) ↔ run = (a, .ok ()) ∧ P) (b : β) :
    (f run'.1, run'.2) = (b, .ok ()) ↔ (f run.1, run.2) = (b, .ok ()) ∧ P := by
  constructor
  · intro hrun
    obtain ⟨rfl, hok⟩ := Prod.mk.inj hrun
    obtain ⟨hrun, hP⟩ := (h run'.1).mp (Prod.ext rfl hok)
    exact ⟨by rw [hrun], hP⟩
  · rintro ⟨hrun, hP⟩
    obtain ⟨rfl, hok⟩ := Prod.mk.inj hrun
    rw [(h run.1).mpr ⟨Prod.ext rfl hok, hP⟩]

omit hdec hdec' in
theorem unmarshal_of_length_zero (dec : Dec) (deref : Bool) {ty : GoType} (v : GoVal ty) {t : TTLV}
    (h0 : t.length = 0) : unmarshal reg dec deref ty v t = (v, .ok ()) := by
  cases ty with
  | scalar s => cases v with | scalar cur => rw [unmarshal, if_pos h0]
  | slice n e => cases v with | slice vs => rw [unmarshal, if_pos h0]
  | struct n fs => cases v with | struct vs => rw [unmarshal, if_pos h0]
  | ptr e => cases deref <;> cases v <;> rw [unmarshal, if_pos h0]
  | iface => rw [unmarshal.eq_def]; simp [h0]
  | array l e => rw [unmarshal, if_pos h0]
  | value => rw [unmarshal, if_pos h0]
  | marshaler n p => rw [unmarshal, if_pos h0]

/-- The flag, on a destination of a type. -/
def Strict (reg : Registry) (dec dec' : Dec) (ty : GoType) (t : TTLV) : Prop :=
  ∀ deref v w, unmarshal reg dec' deref ty v t = (w, .ok ()) ↔
    unmarshal reg dec deref ty v t = (w, .ok ()) ∧ AllMatched reg ty t

omit hdec hdec' in
theorem strict_ptr {e : GoType} {t : TTLV} (h0 : ¬ t.length = 0) (he : Strict reg dec dec' e t) :
    Strict reg dec dec' (.ptr e) t := by
  intro deref v w
  rw [AllMatched]
  cases deref with
  | true =>
    cases v <;> rw [unmarshal, unmarshal, if_neg h0, if_neg h0] <;> exact built_strict .ptr (he false _) w
  | false =>
    by_cases hu : ptrIsUnmarshaler e = true
    · cases v with
      | ptr u =>
        rw [unmarshal, unmarshal, if_neg h0, if_neg h0, if_pos hu, if_pos hu]
        exact built_strict .ptr (he false u) w
      | ptrNil => simp [unmarshal, h0, hu]
    · cases v <;> simp [unmarshal, h0, hu, refuse_ne_ok]

omit hdec hdec' in
theorem unmarshal_slice_ok {dec : Dec} {deref : Bool} {n : GoString} {e : GoType} {vs : GoVals e}
    {w : GoVal (.slice n e)} {t : TTLV} (h0 : ¬ t.length = 0) :
    unmarshal reg dec deref (.slice n e) (.slice vs) t = (w, .ok ()) ↔
      ∃ v, unmarshal reg dec true e e.zero t = (v, .ok ()) ∧ w = .slice (vs.append (.cons v .nil)) := by
  rw [unmarshal, if_neg h0]
  cases unmarshal reg dec true e e.zero t with
  | mk v r =>
    cases r with
    | ok u =>
      constructor
      · intro h
        exact ⟨v, rfl, (Prod.mk.inj h).1.symm⟩
      · rintro ⟨v', hv, rfl⟩
        cases hv
        rfl
    | err err => simp
    | panic => simp

omit hdec hdec' in
theorem strict_slice {n : GoString} {e : GoType} {t : TTLV} (h0 : ¬ t.length = 0)
    (he : Strict reg dec dec' e t) : Strict reg dec dec' (.slice n e) t := by
  intro deref v w
  cases v with
  | slice vs =>
    rw [unmarshal_slice_ok h0, unmarshal_slice_ok h0, AllMatched]
    constructor
    · rintro ⟨v, hv, rfl⟩
      obtain ⟨hv, hall⟩ := (he true e.zero v).mp hv
      exact ⟨⟨v, hv, rfl⟩, hall⟩
    · rintro ⟨⟨v, hv, rfl⟩, hall⟩
      exact ⟨v, (he true e.zero v).mpr ⟨hv, hall⟩, rfl⟩

theorem strict_marshaler {n : GoString} {p : Bool} {t : TTLV} (h0 : ¬ t.length = 0) :
    Strict reg dec dec' (.marshaler n p) t := by
  intro deref v w
  by_cases ht : t.typ = some .Structure
  · have hall : AllMatched reg (.marshaler n p) t ↔ t.children = [] := ⟨fun h => h ht, fun h _ => h⟩
    rw [hall, unmarshal, unmarshal, if_neg h0, if_neg h0, ht]
    simp only [Prod.mk.injEq, (skipStructure_strict hdec hdec' t _).1, (skipStructure_strict hdec hdec' t _).2,
      and_true]
  · have hrefuse : ∀ d : Dec, unmarshal reg d deref (.marshaler n p) v t ≠ (w, .ok ()) := by
      intro d hd
      rw [unmarshal, if_neg h0] at hd
      split at hd
      · exact ht (by assumption)
      · exact refuse_ne_ok d t _ (Prod.mk.inj hd).2
    exact ⟨fun h => absurd h (hrefuse dec'), fun h => absurd h.1 (hrefuse dec)⟩

/-- A struct, when the flag is known for each of its fields. -/
theorem strict_struct {n : GoString} {fs : Fields} {t : TTLV} (h0 : ¬ t.length = 0)
    (hfields : ∀ ti, getTypeInfo reg (.struct n fs) = .ok ti → ∀ c i fi,
      findField c ti.slots 0 none = some (i, fi) → ∀ (d d' : Dec) (m : TTLV) (vs ws : FieldVals fs),
        d.disallowExtraValues = false → d'.disallowExtraValues = true →
        (unmarshalField reg d' fs i vs m = (ws, .ok ()) ↔
          unmarshalField reg d fs i vs m = (ws, .ok ()) ∧ FieldMatched reg fs i m)) :
    Strict reg dec dec' (.struct n fs) t := by
  intro deref v w
  cases v with
  | struct vs =>
    by_cases ht : t.typ = some .Structure
    · cases hti : getTypeInfo reg (.struct n fs) with
      | error e =>
        simp [unmarshal, h0, ht, hti, newError]
      | ok ti =>
        have hall : AllMatched reg (.struct n fs) t ↔ ∀ c ∈ t.children, ∃ i fi,
            findField c.tag ti.slots 0 none = some (i, fi) ∧ FieldMatched reg fs i c := by
          rw [AllMatched]
          exact ⟨fun h => h ht ti hti, fun h _ ti' hti' => by rw [hti] at hti'; cases hti'; exact h⟩
        rw [hall, unmarshal_struct reg dec' deref vs h0 ht hti, unmarshal_struct reg dec deref vs h0 ht hti]
        refine built_strict .struct (fun us => loop_guarded fun c _ s s' => ?_) w
        rw [unmarshalChild, unmarshalChild, hdec, hdec']
        cases hf : findField c.tag ti.slots 0 none with
        | none => simp [newError]
        | some found =>
          obtain ⟨i, fi⟩ := found
          simp only [Option.some.injEq, Prod.mk.injEq]
          rw [hfields ti hti c.tag i fi hf ⟨false, some (.struct n fs), fi.name⟩ ⟨true, some (.struct n fs), fi.name⟩
            c s s' rfl rfl]
          constructor
          · rintro ⟨hrun, hm⟩
            exact ⟨hrun, i, fi, ⟨rfl, rfl⟩, hm⟩
          · rintro ⟨hrun, _, _, ⟨rfl, rfl⟩, hm⟩
            exact ⟨hrun, hm⟩
    · have hrefuse : ∀ d : Dec, unmarshal reg d deref (.struct n fs) (.struct vs) t ≠ (w, .ok ()) := by
        intro d hd
        rw [unmarshal, if_neg h0] at hd
        split at hd
        · exact ht (by assumption)
        · exact refuse_ne_ok d t _ (Prod.mk.inj hd).2
      exact ⟨fun h => absurd h (hrefuse dec'), fun h => absurd h.1 (hrefuse dec)⟩

end

section

variable {reg : Registry}

mutual
theorem strict_iff : ∀ (ty : GoType), Typed reg ty → ∀ (dec dec' : Dec) (t : TTLV),
    dec.disallowExtraValues = false → dec'.disallowExtraValues = true → Strict reg dec dec' ty t
  | ty, hty, dec, dec', t, hdec, hdec' => by
    by_cases h0 : t.length = 0
    · intro deref v w
      have hne : t.typ ≠ some .Structure := by
        rw [List.length_eq_zero_iff.mp h0]
        decide
      rw [unmarshal_of_length_zero dec' deref v h0, unmarshal_of_length_zero dec deref v h0]
      exact ⟨fun h => ⟨h, allMatched_of_typ_ne reg hne ty⟩, fun h => h.1⟩
    · match ty, hty with
      | .scalar s, hty =>
        intro deref v w
        cases v with
        | scalar cur =>
          rw [unmarshal, unmarshal, if_neg h0, if_neg h0]
          exact built_strict .scalar (unmarshalScalar_strict hdec hdec' cur) w
      | .iface, hty => exact absurd hty id
      | .ptr e, hty => exact strict_ptr h0 (strict_iff e hty dec dec' t hdec hdec')
      | .slice n e, hty => exact strict_slice h0 (strict_iff e hty dec dec' t hdec hdec')
      | .array l e, hty =>
        intro deref v w
        simp [unmarshal, h0, refuse_ne_ok]
      | .struct n fs, hty =>
        refine strict_struct hdec hdec' h0 fun ti hti c i fi hf d d' m vs ws hd hd' => ?_
        obtain ⟨hany, hfs⟩ := hty ti hti
        obtain ⟨j, rfl, hslot, -⟩ := findField_slot hany hf
        rw [Nat.zero_add]
        exact fields_strict fs hfs hslot d d' m vs ws hd hd'
      | .value, hty =>
        intro deref v w
        have hall : AllMatched reg .value t := trivial
        simp [unmarshal, h0, hall]
      | .marshaler n p, hty => exact strict_marshaler hdec hdec' h0
theorem fields_strict {fi : FieldInfo} : ∀ (fs : Fields) {slots : List Slot} {i : Nat},
    FieldsTyped reg slots fs → slots[i]? = some (.valueField fi) →
    ∀ (d d' : Dec) (m : TTLV) (vs ws : FieldVals fs), d.disallowExtraValues = false →
      d'.disallowExtraValues = true →
      (unmarshalField reg d' fs i vs m = (ws, .ok ()) ↔
        unmarshalField reg d fs i vs m = (ws, .ok ()) ∧ FieldMatched reg fs i m)
  | .nil, slots, i, _, _, d, d', m, vs, ws, _, _ => by
    rw [unmarshalField, unmarshalField, FieldMatched]
    simp
  | .cons hdr ty fs, slot :: slots, 0, hfs, hslot, d, d', m, .cons v vs, ws, hd, hd' => by
    obtain rfl : slot = .valueField fi := Option.some.inj hslot
    rw [unmarshalField_zero, unmarshalField_zero, FieldMatched]
    exact built_strict (fun v => FieldVals.cons v vs) (strict_iff ty hfs.1 d d' m hd hd' true v) ws
  | .cons hdr ty fs, slot :: slots, i + 1, hfs, hslot, d, d', m, .cons v vs, ws, hd, hd' => by
    rw [unmarshalField_succ, unmarshalField_succ, FieldMatched]
    exact built_strict (FieldVals.cons v)
      (fun us => fields_strict fs (fieldsTyped_tail reg hfs) hslot d d' m vs us hd hd') ws
end

end

/-! ## Decoding a structure -/

/-- `DecodeValue(&v, t)` of a decoder with or without the flag. -/
def decodeValue (reg : Registry) (disallowExtraValues : Bool) {ty : GoType} (v : GoVal ty) (t : TTLV) :
    GoVal ty × Outcome :=
  unmarshal reg { newDecoder with disallowExtraValues := disallowExtraValues } false ty v t

/-- Without the flag, edits that keep the children of each field in order lead to the same struct.  With
    it, decoding succeeds exactly when it does without and each child at each level has a field. -/
theorem decodeValue_per_field {reg : Registry} {n : GoString} {fs : Fields}
    (hty : Typed reg (.struct n fs)) :
    (∀ b b' : Block, b.Sized → b'.Sized → Edited reg (.struct n fs) b b' →
      ∀ (v w : GoVal (.struct n fs)) (rest rest' : Bytes),
        decodeValue reg false v (b.bytes ++ rest) = (w, .ok ()) →
        decodeValue reg false v (b'.bytes ++ rest') = (w, .ok ())) ∧
    ∀ (t : TTLV) (v w : GoVal (.struct n fs)),
      decodeValue reg true v t = (w, .ok ()) ↔
        decodeValue reg false v t = (w, .ok ()) ∧ AllMatched reg (.struct n fs) t := by
  constructor
  · intro b b' _ hsize hedit v w rest rest' hrun
    exact edited_decodes hedit hty hsize _ false v w rest rest' rfl hrun
  · intro t v w
    exact strict_iff (.struct n fs) hty _ _ t rfl rfl false v w

/-- A header with a protocol version and a number. -/
def shortHeader : Fields :=
  field "ProtocolVersion" protocolVersion (fieldOmitempty "MaximumResponseSize" intType .nil)

def integerBlock (tag : ValidTag) (i : BitVec 32) : Block :=
  .leaf tag ⟨.Integer, beBytes 4 i.toNat, [0, 0, 0, 0], by simp [LeafRule]⟩

def majorTag : ValidTag := ⟨0x42006a, by decide⟩
def minorTag : ValidTag := ⟨0x42006b, by decide⟩
def versionTag : ValidTag := ⟨0x420069, by decide⟩
def sizeTag : ValidTag := ⟨0x420050, by decide⟩
def countTag : ValidTag := ⟨0x42000d, by decide⟩
def headerTag : ValidTag := ⟨0x420077, by decide⟩

def headerBlock : Block :=
  .struct headerTag [.struct versionTag [integerBlock majorTag 1, integerBlock minorTag 4],
    integerBlock sizeTag 512]

/-- The same with a value in the version that no field takes, and in another order. -/
def shuffledHeader : Block :=
  .struct headerTag [integerBlock sizeTag 512,
    .struct versionTag [integerBlock majorTag 1, integerBlock countTag 7, integerBlock minorTag 4]]

theorem getTypeInfo_shortHeader : getTypeInfo requestRegistry (.struct (lit "RequestHeader") shortHeader) =
    .ok ⟨0x420077, [.valueField (fieldInfo "ProtocolVersion" 0x420069 protocolVersion),
      .valueField (fieldInfoOmitempty "MaximumResponseSize" 0x420050 intType)]⟩ :=
  eq_ok_of_toOption (by decide +kernel)

theorem typed_shortHeader : Typed requestRegistry (.struct (lit "RequestHeader") shortHeader) := by
  have hversion : Typed requestRegistry protocolVersion := by
    intro ti hti
    cases getTypeInfo_protocolVersion.symm.trans hti
    exact ⟨by simp [fieldInfo, noFlags], Scalar.noConfusion, Scalar.noConfusion, trivial⟩
  intro ti hti
  cases getTypeInfo_shortHeader.symm.trans hti
  exact ⟨by simp [fieldInfo, fieldInfoOmitempty, noFlags], hversion, Scalar.noConfusion, trivial⟩

theorem edited_headerBlock :
    Edited requestRegistry (.struct (lit "RequestHeader") shortHeader) headerBlock shuffledHeader := by
  have hslots' : slotsOf requestRegistry protocolVersion = some
      [.valueField (fieldInfo "ProtocolVersionMajor" 0x42006a intType),
       .valueField (fieldInfo "ProtocolVersionMinor" 0x42006b intType)] := by
    rw [protocolVersion, slotsOf, ← protocolVersion, getTypeInfo_protocolVersion]
  have hslots : slotsOf requestRegistry (.struct (lit "RequestHeader") shortHeader) = some
      [.valueField (fieldInfo "ProtocolVersion" 0x420069 protocolVersion),
       .valueField (fieldInfoOmitempty "MaximumResponseSize" 0x420050 intType)] := by
    rw [slotsOf, getTypeInfo_shortHeader]
  have hadd := Edited.insert hslots' versionTag [integerBlock majorTag 1] [integerBlock minorTag 4]
    (integerBlock countTag 7) (by decide)
  refine Edited.trans (.child hslots headerTag [] [integerBlock sizeTag 512] (i := 0) rfl rfl hadd) ?_
  refine .reorder hslots headerTag fun k => ?_
  by_cases hk : versionTag.1 = k
  · subst hk
    rfl
  · by_cases hk' : sizeTag.1 = k
    · subst hk'
      rfl
    · simp [Block.tag, integerBlock, hk, hk']

theorem decodeValue_per_field_headerBlock :
    ∃ w, decodeValue requestRegistry false (GoType.struct (lit "RequestHeader") shortHeader).zero
        (headerBlock.bytes ++ []) = (w, .ok ()) ∧
      decodeValue requestRegistry false (GoType.struct (lit "RequestHeader") shortHeader).zero
        (shuffledHeader.bytes ++ []) = (w, .ok ()) ∧
      ¬ AllMatched requestRegistry (.struct (lit "RequestHeader") shortHeader) (shuffledHeader.bytes ++ []) ∧
      (decodeValue requestRegistry true (GoType.struct (lit "RequestHeader") shortHeader).zero
        (shuffledHeader.bytes ++ [])).2 ≠ .ok () := by
  obtain ⟨hedits, hstrict⟩ := decodeValue_per_field typed_shortHeader
  have hok : (decodeValue requestRegistry false (GoType.struct (lit "RequestHeader") shortHeader).zero
      (headerBlock.bytes ++ [])).2 = .ok () := by
    decide +kernel
  have hrefused : (decodeValue requestRegistry true (GoType.struct (lit "RequestHeader") shortHeader).zero
      (shuffledHeader.bytes ++ [])).2 ≠ .ok () := by
    decide +kernel
  have hsize : headerBlock.Sized := by simp only [headerBlock, Block.Sized]; decide
  have hsize' : shuffledHeader.Sized := by simp only [shuffledHeader, Block.Sized]; decide
  have hdecoded := hedits headerBlock shuffledHeader hsize hsize' edited_headerBlock _ _ [] []
    (Prod.ext rfl hok)
  refine ⟨_, Prod.ext rfl hok, hdecoded, fun hall => hrefused ?_, hrefused⟩
  rw [(hstrict _ _ _).mpr ⟨hdecoded, hall⟩]

end KmipGo.Decoder
