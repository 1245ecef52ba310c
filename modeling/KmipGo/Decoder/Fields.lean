import KmipGo.Decoder.Arrivals
import KmipGo.Lib.Reorder
import KmipGo.Value.RoundTrip

/-! # Decoding field by field

The children of a structure are stored in the fields of a struct one after the
other, each in the field that its tag selects.  For a type without raw fields the
result depends, for each field, only on the children of that field:

* `edited_decodes` — children that match no field may be added, and children with
  different tags exchanged, at every level;
* `strict_iff` — refusing extra values asks in addition that each child at each
  level has a field.
-/

namespace KmipGo.Decoder

open KmipGo.Lib KmipGo.Ttlv KmipGo.Reg KmipGo.Go KmipGo.Value

/-! ## What decoding sees of a slice

A child is handed over as a slice that begins with its block and runs to the end
of the structure.  Only a raw field keeps what follows the block. -/

/-- The slices show the same block. -/
structure SameBlock (t t' : TTLV) : Prop where
  tag : t.tag = t'.tag
  typeByte : t.typeByte = t'.typeByte
  valueRaw : t.valueRaw = t'.valueRaw

theorem sameBlock_append (c : Block) (hc : c.Sized) (rest rest' : Bytes) :
    SameBlock (c.bytes ++ rest) (c.bytes ++ rest') := by
  have htag : TTLV.tag (c.bytes ++ rest) = TTLV.tag (c.bytes ++ rest') := by
    rw [tag_bytes_append, tag_bytes_append]
  cases c with
  | leaf tag l =>
    refine ⟨htag, ?_, ?_⟩
    · simp only [Block.bytes, List.append_assoc, typeByte_header_append]
    · simp only [Block.bytes, List.append_assoc, valueRaw_header_append _ _ _ _ l.rule.length_lt]
  | struct tag cs =>
    refine ⟨htag, ?_, ?_⟩
    · simp only [Block.bytes, List.append_assoc, typeByte_header_append]
    · rw [valueRaw_struct_append tag cs rest hc, valueRaw_struct_append tag cs rest' hc]

namespace SameBlock

variable {t t' : TTLV}

theorem typ (h : SameBlock t t') : t.typ = t'.typ := by
  rw [TTLV.typ, TTLV.typ, h.typeByte]

theorem raw (h : SameBlock t t') : t.raw = t'.raw := by
  rw [TTLV.raw, TTLV.raw, h.valueRaw]

theorem children (h : SameBlock t t') : t.children = t'.children := by
  rw [TTLV.children, TTLV.children, h.valueRaw]

theorem newError (h : SameBlock t t') (dec : Dec) (ty : GoType) (cause : Cause) :
    Decoder.newError dec t ty cause = Decoder.newError dec t' ty cause := by
  rw [Decoder.newError, Decoder.newError, h.tag, h.typeByte]

theorem byteStringInto (h : SameBlock t t') (dec : Dec) (ty : GoType) :
    Decoder.byteStringInto dec t ty = Decoder.byteStringInto dec t' ty := by
  unfold Decoder.byteStringInto
  simp only [mismatch, h.newError]

theorem refuse (h : SameBlock t t') (dec : Dec) (ty : GoType) :
    Decoder.refuse dec t ty = Decoder.refuse dec t' ty := by
  unfold Decoder.refuse
  simp only [mismatch, h.typ, h.newError, h.byteStringInto]

theorem skipStructure (h : SameBlock t t') (dec : Dec) (ty : GoType) :
    Decoder.skipStructure dec t ty = Decoder.skipStructure dec t' ty := by
  unfold Decoder.skipStructure TTLV.valueStructure
  rw [h.valueRaw, h.newError]

theorem unmarshalChild (h : SameBlock t t') {σ : Type} (dec : Dec) (ty : GoType) (slots : List Slot)
    (field : Dec → Nat → σ → TTLV → σ × Outcome) :
    Decoder.unmarshalChild dec t ty slots field = Decoder.unmarshalChild dec t' ty slots field := by
  funext vs n
  unfold Decoder.unmarshalChild
  rw [h.newError]

theorem storeScalar (h : SameBlock t t') (dec : Dec) (typ : Typ) {s : Scalar} (hs : s ≠ .ttlv)
    (cur : s.Val) : Decoder.storeScalar dec t typ s cur = Decoder.storeScalar dec t' typ s cur := by
  cases s with
  | ttlv => exact absurd rfl hs
  | int n k =>
    cases k <;> simp only [Decoder.storeScalar, mismatch, storeInt, enumerationInt, integerInt,
      TTLV.valueInterval, TTLV.valueLongInteger, TTLV.valueEnumeration, TTLV.valueInteger, h.raw,
      h.newError, h.byteStringInto]
  | uint n k =>
    cases k <;> simp only [Decoder.storeScalar, mismatch, storeUintOf, storeUint, enumerationUint,
      integerUint, TTLV.valueLongInteger, TTLV.valueEnumeration, TTLV.valueInteger, h.raw, h.newError,
      h.byteStringInto]
  | bool n => simp only [Decoder.storeScalar, mismatch, TTLV.valueBoolean, h.raw, h.newError, h.byteStringInto]
  | string n =>
    simp only [Decoder.storeScalar, mismatch, TTLV.valueTextString, h.raw, h.newError, h.byteStringInto]
  | duration =>
    simp only [Decoder.storeScalar, mismatch, TTLV.valueInterval, TTLV.valueLongInteger, h.raw, h.newError,
      h.byteStringInto]
  | tag | enum n m =>
    simp only [Decoder.storeScalar, mismatch, storeUintOf, storeUint, enumerationUint, integerUint,
      TTLV.valueEnumeration, TTLV.valueInteger, h.raw, h.newError, h.byteStringInto]
  | bytes n => simp only [Decoder.storeScalar, mismatch, TTLV.valueByteString, h.valueRaw, h.newError]
  | time | dateTimeExtended =>
    simp only [Decoder.storeScalar, mismatch, TTLV.valueDateTime, TTLV.valueLongInteger, h.raw, h.typ,
      h.newError, h.byteStringInto, h.skipStructure]
  | bigInt =>
    simp only [Decoder.storeScalar, mismatch, TTLV.valueBigInteger, h.raw, h.newError, h.byteStringInto,
      h.skipStructure]
  | other n k => simp only [Decoder.storeScalar, mismatch, h.newError, h.byteStringInto]

end SameBlock

theorem byteStringInto_ne_ok (dec : Dec) (t : TTLV) (ty : GoType) : byteStringInto dec t ty ≠ .ok () := by
  unfold byteStringInto mismatch newError
  split <;> (try split) <;> simp

theorem refuse_ne_ok (dec : Dec) (t : TTLV) (ty : GoType) : refuse dec t ty ≠ .ok () := by
  unfold refuse
  split
  · simp [newError]
  · exact byteStringInto_ne_ok dec t ty
  · simp [mismatch, newError]

section

variable (reg : Registry)

mutual
/-- No field of the type, at any level, has the `any` flag or keeps slices. -/
def Typed : GoType → Prop
  | .scalar s => s ≠ .ttlv
  | .iface => False
  | .ptr e => Typed e
  | .slice _ e => Typed e
  | .struct n fs =>
    ∀ ti, getTypeInfo reg (.struct n fs) = .ok ti →
      (∀ fi, .valueField fi ∈ ti.slots → fi.flags.any = false) ∧ FieldsTyped ti.slots fs
  | .array _ _ | .value | .marshaler _ _ => True
def FieldsTyped : List Slot → Fields → Prop
  | .valueField _ :: slots, .cons _ ty rest => Typed ty ∧ FieldsTyped slots rest
  | _ :: slots, .cons _ _ rest => FieldsTyped slots rest
  | _, _ => True
end

theorem fieldsTyped_tail {slot : Slot} {slots : List Slot} {hdr : FieldHdr} {ty : GoType} {fs : Fields}
    (h : FieldsTyped reg (slot :: slots) (.cons hdr ty fs)) : FieldsTyped reg slots fs := by
  cases slot with
  | valueField f => exact h.2
  | tagField f => exact h
  | skipped => exact h

/-- A destination without raw fields takes only the block of a slice. -/
theorem unmarshal_append (c : Block) (hc : c.Sized) (rest rest' : Bytes) :
    ∀ (ty : GoType), Typed reg ty → ∀ (dec : Dec) (deref : Bool) (v : GoVal ty),
      unmarshal reg dec deref ty v (c.bytes ++ rest) = unmarshal reg dec deref ty v (c.bytes ++ rest')
  | .scalar s, hty, dec, deref, .scalar cur => by
    have h := sameBlock_append c hc rest rest'
    rw [unmarshal, unmarshal, if_neg (bytes_append_length_ne_zero c rest),
      if_neg (bytes_append_length_ne_zero c rest'), unmarshalScalar_of_ne _ _ hty,
      unmarshalScalar_of_ne _ _ hty]
    simp only [h.typ, h.storeScalar _ _ hty, h.newError]
  | .iface, hty, _, _, _ => absurd hty id
  | .ptr e, hty, dec, deref, v => by
    have h := sameBlock_append c hc rest rest'
    have he := unmarshal_append c hc rest rest' e hty
    cases deref <;> cases v <;> rw [unmarshal, unmarshal] <;>
      simp only [if_neg (bytes_append_length_ne_zero c _), he dec false, h.refuse]
  | .slice n e, hty, dec, deref, .slice vs => by
    rw [unmarshal, unmarshal, if_neg (bytes_append_length_ne_zero c _),
      if_neg (bytes_append_length_ne_zero c _), unmarshal_append c hc rest rest' e hty dec true]
  | .array l e, _, dec, deref, v => by
    rw [unmarshal, unmarshal, if_neg (bytes_append_length_ne_zero c _),
      if_neg (bytes_append_length_ne_zero c _), (sameBlock_append c hc rest rest').refuse]
  | .struct n fs, _, dec, deref, .struct vs => by
    have h := sameBlock_append c hc rest rest'
    rw [unmarshal, unmarshal]
    simp only [if_neg (bytes_append_length_ne_zero c _), h.typ, h.newError, TTLV.valueStructure,
      h.valueRaw, h.tag, h.unmarshalChild, h.refuse]
  | .value, _, dec, deref, v => by
    rw [unmarshal, unmarshal, if_neg (bytes_append_length_ne_zero c _),
      if_neg (bytes_append_length_ne_zero c _), valueOf_bytes_append c rest hc,
      valueOf_bytes_append c rest' hc]
  | .marshaler n p, _, dec, deref, v => by
    have h := sameBlock_append c hc rest rest'
    rw [unmarshal, unmarshal]
    simp only [if_neg (bytes_append_length_ne_zero c _), h.typ, h.skipStructure, h.refuse]

/-! ## One field -/

/-- Without `any` flags, the field that is found has the tag that is looked for. -/
theorem findField_slot {tag : Tag} {i : Nat} {fi : FieldInfo} : ∀ {slots : List Slot} {k : Nat},
    (∀ f, .valueField f ∈ slots → f.flags.any = false) → findField tag slots k none = some (i, fi) →
      ∃ j, i = k + j ∧ slots[j]? = some (.valueField fi) ∧ fi.tag = tag
  | [], _, _, h => by cases h
  | .valueField f :: slots, k, hany, h => by
    have hf := hany f (List.mem_cons_self ..)
    simp only [findField, hf, Bool.false_eq_true, if_false] at h
    by_cases htag : f.tag = tag
    · rw [if_pos htag] at h
      cases h
      exact ⟨0, rfl, rfl, htag⟩
    · rw [if_neg htag] at h
      obtain ⟨j, rfl, hslot, ht⟩ := findField_slot (fun g hg => hany g (List.mem_cons_of_mem _ hg)) h
      exact ⟨j + 1, by omega, hslot, ht⟩
  | .tagField f :: slots, k, hany, h => by
    obtain ⟨j, rfl, hslot, ht⟩ := findField_slot (fun g hg => hany g (List.mem_cons_of_mem _ hg)) h
    exact ⟨j + 1, by omega, hslot, ht⟩
  | .skipped :: slots, k, hany, h => by
    obtain ⟨j, rfl, hslot, ht⟩ := findField_slot (fun g hg => hany g (List.mem_cons_of_mem _ hg)) h
    exact ⟨j + 1, by omega, hslot, ht⟩

theorem unmarshalField_zero (d : Dec) {hdr : FieldHdr} {ty : GoType} {rest : Fields} (v : GoVal ty)
    (vs : FieldVals rest) (n : TTLV) :
    unmarshalField reg d (.cons hdr ty rest) 0 (.cons v vs) n =
      (.cons (unmarshal reg d true ty v n).1 vs, (unmarshal reg d true ty v n).2) := by
  rw [unmarshalField]

theorem unmarshalField_succ (d : Dec) {hdr : FieldHdr} {ty : GoType} {rest : Fields} (i : Nat)
    (v : GoVal ty) (vs : FieldVals rest) (n : TTLV) :
    unmarshalField reg d (.cons hdr ty rest) (i + 1) (.cons v vs) n =
      (.cons v (unmarshalField reg d rest i vs n).1, (unmarshalField reg d rest i vs n).2) := by
  rw [unmarshalField]

theorem unmarshalField_append (c : Block) (hc : c.Sized) (rest rest' : Bytes) (d : Dec) {fi : FieldInfo} :
    ∀ {fs : Fields} {slots : List Slot} {i : Nat}, FieldsTyped reg slots fs →
      slots[i]? = some (.valueField fi) → ∀ vs : FieldVals fs,
      unmarshalField reg d fs i vs (c.bytes ++ rest) = unmarshalField reg d fs i vs (c.bytes ++ rest')
  | .nil, _, _, _, _, vs => by rw [unmarshalField, unmarshalField]
  | .cons hdr ty fs, slot :: slots, 0, hty, hslot, .cons v vs => by
    obtain rfl : slot = .valueField fi := Option.some.inj hslot
    rw [unmarshalField_zero, unmarshalField_zero, unmarshal_append reg c hc rest rest' ty hty.1]
  | .cons hdr ty fs, slot :: slots, i + 1, hty, hslot, .cons v vs => by
    rw [unmarshalField_succ, unmarshalField_succ,
      unmarshalField_append c hc rest rest' d (fieldsTyped_tail reg hty) hslot vs]

/-- Different fields are stored independently. -/
theorem unmarshalField_exchange {d d' : Dec} {n n' : TTLV} : ∀ {fs : Fields} {i j : Nat}
    {vs vs₁ vs₂ : FieldVals fs}, i ≠ j → unmarshalField reg d fs i vs n = (vs₁, .ok ()) →
      unmarshalField reg d' fs j vs₁ n' = (vs₂, .ok ()) →
      ∃ us, unmarshalField reg d' fs j vs n' = (us, .ok ()) ∧
        unmarshalField reg d fs i us n = (vs₂, .ok ())
  | .nil, i, j, vs, vs₁, vs₂, _, h, h' => by
    rw [unmarshalField] at h h'
    cases h
    cases h'
    exact ⟨vs, by rw [unmarshalField], by rw [unmarshalField]⟩
  | .cons hdr ty fs, 0, 0, _, _, _, hij, _, _ => absurd rfl hij
  | .cons hdr ty fs, 0, j + 1, .cons v vs, _, _, _, h, h' => by
    rw [unmarshalField_zero] at h
    obtain ⟨rfl, hok⟩ := Prod.mk.inj h
    rw [unmarshalField_succ] at h'
    obtain ⟨rfl, hok'⟩ := Prod.mk.inj h'
    exact ⟨.cons v (unmarshalField reg d' fs j vs n').1, by rw [unmarshalField_succ, hok'],
      by rw [unmarshalField_zero, hok]⟩
  | .cons hdr ty fs, i + 1, 0, .cons v vs, _, _, _, h, h' => by
    rw [unmarshalField_succ] at h
    obtain ⟨rfl, hok⟩ := Prod.mk.inj h
    rw [unmarshalField_zero] at h'
    obtain ⟨rfl, hok'⟩ := Prod.mk.inj h'
    exact ⟨.cons (unmarshal reg d' true ty v n').1 vs, by rw [unmarshalField_zero, hok'],
      by rw [unmarshalField_succ, hok]⟩
  | .cons hdr ty fs, i + 1, j + 1, .cons v vs, _, _, hij, h, h' => by
    rw [unmarshalField_succ] at h
    obtain ⟨rfl, hok⟩ := Prod.mk.inj h
    rw [unmarshalField_succ] at h'
    obtain ⟨rfl, hok'⟩ := Prod.mk.inj h'
    obtain ⟨us, hus, hus'⟩ := unmarshalField_exchange (fun h => hij (congrArg Nat.succ h))
      (Prod.ext rfl hok) (Prod.ext rfl hok')
    exact ⟨.cons v us, by rw [unmarshalField_succ, hus], by rw [unmarshalField_succ, hus']⟩

/-! ## The children of a structure -/

/-- One child, stored with extra values allowed. -/
def childStep (sty : GoType) (slots : List Slot) (fs : Fields) (vs : FieldVals fs) (c : Block) :
    FieldVals fs × Outcome :=
  match findField c.tag slots 0 none with
  | some (i, fi) => unmarshalField reg ⟨false, some sty, fi.name⟩ fs i vs c.bytes
  | none => (vs, .ok ())

theorem childStep_exchangeable (sty : GoType) {slots : List Slot} (fs : Fields)
    (hany : ∀ f, .valueField f ∈ slots → f.flags.any = false) :
    Exchangeable Block.tag (childStep reg sty slots fs) := by
  intro vs vs₁ vs₂ a b htags ha hb
  unfold childStep at ha hb ⊢
  cases hfa : findField a.tag slots 0 none with
  | none =>
    rw [hfa] at ha
    cases ha
    exact ⟨vs₂, hb, rfl⟩
  | some found =>
    obtain ⟨i, fi⟩ := found
    rw [hfa] at ha
    cases hfb : findField b.tag slots 0 none with
    | none =>
      rw [hfb] at hb
      cases hb
      exact ⟨vs, rfl, ha⟩
    | some found' =>
      obtain ⟨j, fj⟩ := found'
      rw [hfb] at hb
      have hij : i ≠ j := by
        rintro rfl
        obtain ⟨p, hp, hslot, hfi⟩ := findField_slot hany hfa
        obtain ⟨q, hq, hslot', hfj⟩ := findField_slot hany hfb
        obtain rfl : p = q := Nat.add_left_cancel (hp.symm.trans hq)
        rw [hslot] at hslot'
        cases hslot'
        exact htags (hfi.symm.trans hfj)
      exact unmarshalField_exchange reg hij ha hb

theorem loop_childStep {dec : Dec} (hdec : dec.disallowExtraValues = false) (parent : TTLV) (sty : GoType)
    {slots : List Slot} {fs : Fields} (hany : ∀ f, .valueField f ∈ slots → f.flags.any = false)
    (hfs : FieldsTyped reg slots fs) (tail : Bytes) : ∀ (cs : List Block) (vs : FieldVals fs),
      (∀ c ∈ cs, c.Sized) →
      loop (unmarshalChild dec parent sty slots fun d i vs c => unmarshalField reg d fs i vs c) vs
        (slices cs tail) = loop (childStep reg sty slots fs) vs cs
  | [], _, _ => rfl
  | c :: cs, vs, hsize => by
    have hstep : unmarshalChild dec parent sty slots (fun d i vs c => unmarshalField reg d fs i vs c) vs
        (c.bytes ++ (blocksBytes cs ++ tail)) = childStep reg sty slots fs vs c := by
      unfold unmarshalChild childStep
      rw [tag_bytes_append, hdec]
      cases hf : findField c.tag slots 0 none with
      | none => rfl
      | some found =>
        obtain ⟨i, fi⟩ := found
        obtain ⟨j, rfl, hslot, -⟩ := findField_slot hany hf
        have happ := unmarshalField_append reg c (hsize c (List.mem_cons_self ..)) (blocksBytes cs ++ tail) []
          ⟨false, some sty, fi.name⟩ hfs hslot vs
        rw [List.append_nil] at happ
        simpa using happ
    have hrest := fun us => loop_childStep hdec parent sty hany hfs tail cs us
      fun d hd => hsize d (List.mem_cons_of_mem c hd)
    rw [slices, loop, loop, hstep]
    simp only [hrest]

theorem unmarshal_struct_append {dec : Dec} (hdec : dec.disallowExtraValues = false) {n : GoString}
    {fs : Fields} {ti : TypeInfo} (hti : getTypeInfo reg (.struct n fs) = .ok ti)
    (hty : Typed reg (.struct n fs)) (deref : Bool) (v : GoVal (.struct n fs)) (t : ValidTag)
    (cs : List Block) (rest : Bytes) (hsize : (blocksBytes cs).length < 2 ^ 32) :
    unmarshal reg dec deref (.struct n fs) v ((Block.struct t cs).bytes ++ rest) =
      (.struct (loop (childStep reg (.struct n fs) ti.slots fs) (setTTLVTag t.1 ti.slots v.fields) cs).1,
        (loop (childStep reg (.struct n fs) ti.slots fs) (setTTLVTag t.1 ti.slots v.fields) cs).2) := by
  obtain ⟨hany, hfs⟩ := hty ti hti
  cases v with
  | struct vs =>
    rw [unmarshal_struct reg dec deref vs (bytes_append_length_ne_zero _ rest)
      (typ_struct_append t cs rest) hti, tag_bytes_append, children_struct_append t cs rest hsize,
      loop_childStep reg hdec _ _ hany hfs [] cs _ fun c hc => Sized.of_mem hc hsize]
    rfl

/-- The fields that the children of a structure are matched with, for the destinations that take
    structures child by child. -/
def slotsOf : GoType → Option (List Slot)
  | .struct n fs =>
    match getTypeInfo reg (.struct n fs) with
    | .ok ti => some ti.slots
    | .error _ => none
  -- struct types without exported fields
  | .scalar .time | .scalar .bigInt | .scalar .dateTimeExtended | .marshaler _ _ => some []
  | _ => none

/-- How a destination takes the children of a structure. -/
structure ByChildren (slots : List Slot) (step : σ → Block → σ × Outcome) : Prop where
  exchange : Exchangeable Block.tag step
  unmatched : ∀ c, findField c.tag slots 0 none = none → ∀ s, step s c = (s, .ok ())

theorem unmarshal_skip {ty : GoType} (hslots : slotsOf reg ty = some []) (hty : ∀ n fs, ty ≠ .struct n fs)
    {dec : Dec} (hdec : dec.disallowExtraValues = false) (deref : Bool) (v : GoVal ty) {t : TTLV}
    (h0 : ¬ t.length = 0) (ht : t.typ = some .Structure) :
    unmarshal reg dec deref ty v t = (v, .ok ()) := by
  have hskip : ∀ ty', skipStructure dec t ty' = .ok () := by
    intro ty'
    rw [skipStructure, hdec]
    rfl
  cases ty with
  | struct n fs => exact absurd rfl (hty n fs)
  | marshaler n p => rw [unmarshal, if_neg h0, ht]; simp only [hskip]
  | scalar s =>
    cases v with
    | scalar cur =>
      rw [unmarshal, if_neg h0]
      cases s with
      | time | bigInt | dateTimeExtended => simp only [unmarshalScalar, ht, storeScalar, hskip]
      | _ => cases hslots
  | _ => cases hslots

/-- Such a destination is filled by a loop over the children. -/
theorem exists_byChildren {ty : GoType} {slots : List Slot} (hslots : slotsOf reg ty = some slots)
    (hty : Typed reg ty) {dec : Dec} (hdec : dec.disallowExtraValues = false) :
    ∃ (σ : Type) (step : σ → Block → σ × Outcome) (start : Tag → GoVal ty → σ) (finish : σ → GoVal ty),
      ByChildren slots step ∧
      ∀ deref v t cs rest, (blocksBytes cs).length < 2 ^ 32 →
        unmarshal reg dec deref ty v ((Block.struct t cs).bytes ++ rest) =
          (finish (loop step (start t.1 v) cs).1, (loop step (start t.1 v) cs).2) := by
  by_cases hstruct : ∃ n fs, ty = .struct n fs
  · obtain ⟨n, fs, rfl⟩ := hstruct
    rw [slotsOf] at hslots
    split at hslots
    · rename_i ti hti
      cases hslots
      obtain ⟨hany, -⟩ := hty ti hti
      refine ⟨FieldVals fs, childStep reg (.struct n fs) ti.slots fs,
        fun tag v => setTTLVTag tag ti.slots v.fields, .struct, ⟨childStep_exchangeable reg _ fs hany, ?_⟩, ?_⟩
      · intro c hc vs
        rw [childStep, hc]
      · intro deref v t cs rest hsize
        exact unmarshal_struct_append reg hdec hti hty deref v t cs rest hsize
    · cases hslots
  · have hnil : slots = [] := by
      unfold slotsOf at hslots
      split at hslots
      · exact absurd ⟨_, _, rfl⟩ hstruct
      all_goals first | exact (Option.some.inj hslots).symm | cases hslots
    subst hnil
    refine ⟨GoVal ty, fun v _ => (v, .ok ()), fun _ v => v, id, ⟨?_, fun _ _ _ => rfl⟩, ?_⟩
    · intro s s₁ s₂ a b _ ha hb
      exact ⟨s, rfl, ha.trans (by rw [← (Prod.mk.inj hb).1])⟩
    · intro deref v t cs rest _
      have hloop : ∀ cs : List Block, loop (fun (v : GoVal ty) (_ : Block) => (v, (.ok () : Outcome))) v cs =
          (v, .ok ()) := by
        intro cs
        induction cs with
        | nil => rfl
        | cons c cs ih => exact ih
      rw [unmarshal_skip reg hslots (fun n fs h => hstruct ⟨n, fs, h⟩) hdec deref v
        (bytes_append_length_ne_zero _ rest) (typ_struct_append t cs rest), hloop]
      rfl

/-! ## Edits that decoding does not see -/

/-- The type of the field at a position. -/
def typeAt : Fields → Nat → Option GoType
  | .nil, _ => none
  | .cons _ ty _, 0 => some ty
  | .cons _ _ rest, i + 1 => typeAt rest i

/-- `b'` comes from `b`, a block that is decoded into the type, by adding children that match no field
    and by reordering children of different tags, at any struct level that decoding reaches. -/
inductive Edited : GoType → Block → Block → Prop
  | refl (ty : GoType) (b : Block) : Edited ty b b
  | trans {ty : GoType} {a b c : Block} (hab : Edited ty a b) (hbc : Edited ty b c) : Edited ty a c
  | ptr {e : GoType} {b b' : Block} (h : Edited e b b') : Edited (.ptr e) b b'
  | elem {n : GoString} {e : GoType} {b b' : Block} (h : Edited e b b') : Edited (.slice n e) b b'
  | insert {ty : GoType} {slots : List Slot} (hslots : slotsOf reg ty = some slots) (t : ValidTag)
      (pre post : List Block) (c : Block) (hc : findField c.tag slots 0 none = none) :
      Edited ty (.struct t (pre ++ post)) (.struct t (pre ++ c :: post))
  | reorder {ty : GoType} {slots : List Slot} (hslots : slotsOf reg ty = some slots) (t : ValidTag)
      {cs cs' : List Block} (h : SameByKey Block.tag cs cs') :
      Edited ty (.struct t cs) (.struct t cs')
  | child {n : GoString} {fs : Fields} {slots : List Slot} (hslots : slotsOf reg (.struct n fs) = some slots)
      (t : ValidTag) (pre post : List Block) {c c' : Block} {i : Nat} {fi : FieldInfo} {ty : GoType}
      (hc : findField c.tag slots 0 none = some (i, fi)) (hty : typeAt fs i = some ty)
      (h : Edited ty c c') :
      Edited (.struct n fs) (.struct t (pre ++ c :: post)) (.struct t (pre ++ c' :: post))

variable {reg}

theorem Edited.tag_eq {ty : GoType} {b b' : Block} (h : Edited reg ty b b') : b'.tag = b.tag := by
  induction h with
  | refl ty b => rfl
  | trans hab hbc ihab ihbc => exact ihbc.trans ihab
  | ptr h ih => exact ih
  | elem h ih => exact ih
  | insert => rfl
  | reorder => rfl
  | child => rfl

/-- An edit never makes a block shorter, so what holds it stays within its length field. -/
theorem Edited.length_le {ty : GoType} {b b' : Block} (h : Edited reg ty b b') :
    b.bytes.length ≤ b'.bytes.length := by
  induction h with
  | refl ty b => exact le_rfl
  | trans hab hbc ihab ihbc => exact ihab.trans ihbc
  | ptr h ih => exact ih
  | elem h ih => exact ih
  | insert hslots t pre post c hc =>
    simp only [length_struct, blocksBytes_append, blocksBytes, List.length_append]
    omega
  | reorder hslots t h =>
    have hperm := (h.perm.map Block.bytes).flatten.length_eq
    rw [length_struct, length_struct, blocksBytes_eq_flatten, blocksBytes_eq_flatten, hperm]
  | child hslots t pre post hc hty h ih =>
    simp only [length_struct, blocksBytes_append, blocksBytes, List.length_append]
    omega

theorem Edited.sized {ty : GoType} {b b' : Block} (h : Edited reg ty b b') (hsize : b'.Sized) :
    b.Sized := by
  induction h with
  | refl ty b => exact hsize
  | trans hab hbc ihab ihbc => exact ihab (ihbc hsize)
  | ptr h ih => exact ih hsize
  | elem h ih => exact ih hsize
  | insert hslots t pre post c hc =>
    have hle := (Edited.insert hslots t pre post c hc).length_le
    rw [length_struct, length_struct] at hle
    simp only [Block.Sized] at hsize ⊢
    omega
  | reorder hslots t h =>
    have hle := (Edited.reorder hslots t h).length_le
    rw [length_struct, length_struct] at hle
    simp only [Block.Sized] at hsize ⊢
    omega
  | child hslots t pre post hc hty h =>
    have hle := (Edited.child hslots t pre post hc hty h).length_le
    rw [length_struct, length_struct] at hle
    simp only [Block.Sized] at hsize ⊢
    omega

theorem typed_of_typeAt {fi : FieldInfo} {ty : GoType} : ∀ {fs : Fields} {slots : List Slot} {i : Nat},
    FieldsTyped reg slots fs → slots[i]? = some (.valueField fi) → typeAt fs i = some ty → Typed reg ty
  | .cons hdr ty' fs, slot :: slots, 0, hfs, hslot, hty => by
    obtain rfl : slot = .valueField fi := Option.some.inj hslot
    obtain rfl : ty' = ty := Option.some.inj hty
    exact hfs.1
  | .cons hdr ty' fs, slot :: slots, i + 1, hfs, hslot, hty => by
    exact typed_of_typeAt (fieldsTyped_tail reg hfs) hslot hty

/-- A block that is decoded as another one, in the field at a position. -/
theorem unmarshalField_replace {d : Dec} {n n' : TTLV} {ty : GoType}
    (h : ∀ v w, unmarshal reg d true ty v n = (w, .ok ()) → unmarshal reg d true ty v n' = (w, .ok ())) :
    ∀ {fs : Fields} {i : Nat} {vs ws : FieldVals fs}, typeAt fs i = some ty →
      unmarshalField reg d fs i vs n = (ws, .ok ()) → unmarshalField reg d fs i vs n' = (ws, .ok ())
  | .cons hdr ty' fs, 0, .cons v vs, ws, hty, hrun => by
    obtain rfl : ty' = ty := Option.some.inj hty
    rw [unmarshalField_zero] at hrun
    obtain ⟨rfl, hok⟩ := Prod.mk.inj hrun
    rw [unmarshalField_zero, h v _ (Prod.ext rfl hok)]
  | .cons hdr ty' fs, i + 1, .cons v vs, ws, hty, hrun => by
    rw [unmarshalField_succ] at hrun
    obtain ⟨rfl, hok⟩ := Prod.mk.inj hrun
    have hfield : unmarshalField reg d fs i vs n = ((unmarshalField reg d fs i vs n).1, .ok ()) :=
      Prod.ext rfl hok
    rw [typeAt] at hty
    rw [unmarshalField_succ, unmarshalField_replace h hty hfield]

/-- What decoding `b` stores, decoding `b'` stores, whatever follows the blocks. -/
def DecodesAs (reg : Registry) (ty : GoType) (b b' : Block) : Prop :=
  ∀ (dec : Dec) (deref : Bool) (v w : GoVal ty) (rest rest' : Bytes), dec.disallowExtraValues = false →
    unmarshal reg dec deref ty v (b.bytes ++ rest) = (w, .ok ()) →
    unmarshal reg dec deref ty v (b'.bytes ++ rest') = (w, .ok ())

theorem decodesAs_ptr {e : GoType} {b b' : Block} (h : DecodesAs reg e b b') :
    DecodesAs reg (.ptr e) b b' := by
  intro dec deref v w rest rest' hdec hrun
  have hpointee : ∀ (u : GoVal e) (w : GoVal (.ptr e)),
      (GoVal.ptr (unmarshal reg dec false e u (b.bytes ++ rest)).1,
        (unmarshal reg dec false e u (b.bytes ++ rest)).2) = (w, .ok ()) →
      (GoVal.ptr (unmarshal reg dec false e u (b'.bytes ++ rest')).1,
        (unmarshal reg dec false e u (b'.bytes ++ rest')).2) = (w, .ok ()) := by
    intro u w hu
    obtain ⟨rfl, hok⟩ := Prod.mk.inj hu
    rw [h dec false u _ rest rest' hdec (Prod.ext rfl hok)]
  have h0 := bytes_append_length_ne_zero b rest
  have h0' := bytes_append_length_ne_zero b' rest'
  cases deref with
  | true =>
    cases v with
    | ptr u =>
      rw [unmarshal, if_neg h0] at hrun
      rw [unmarshal, if_neg h0']
      exact hpointee u w hrun
    | ptrNil =>
      rw [unmarshal, if_neg h0] at hrun
      rw [unmarshal, if_neg h0']
      exact hpointee e.zero w hrun
  | false =>
    by_cases he : ptrIsUnmarshaler e = true
    · cases v with
      | ptr u =>
        rw [unmarshal, if_neg h0, if_pos he] at hrun
        rw [unmarshal, if_neg h0', if_pos he]
        exact hpointee u w hrun
      | ptrNil =>
        rw [unmarshal, if_neg h0, if_pos he] at hrun
        cases hrun
    · -- such a pointer is not followed
      cases v <;> rw [unmarshal, if_neg h0, if_neg he] at hrun <;>
        exact absurd (Prod.mk.inj hrun).2 (refuse_ne_ok dec _ _)

theorem decodesAs_slice {n : GoString} {e : GoType} {b b' : Block} (h : DecodesAs reg e b b') :
    DecodesAs reg (.slice n e) b b' := by
  intro dec deref v w rest rest' hdec hrun
  cases v with
  | slice vs =>
    rw [unmarshal, if_neg (bytes_append_length_ne_zero b rest)] at hrun
    cases he : unmarshal reg dec true e e.zero (b.bytes ++ rest) with
    | mk v r =>
      rw [he] at hrun
      cases r with
      | ok u =>
        rw [unmarshal, if_neg (bytes_append_length_ne_zero b' rest'), h dec true e.zero v rest rest' hdec he]
        exact hrun
      | err e => cases hrun
      | panic => cases hrun

theorem decodesAs_insert {ty : GoType} {slots : List Slot} (hslots : slotsOf reg ty = some slots)
    (hty : Typed reg ty) (t : ValidTag) {pre post : List Block} {c : Block}
    (hc : findField c.tag slots 0 none = none) (hb : (Block.struct t (pre ++ post)).Sized)
    (hb' : (Block.struct t (pre ++ c :: post)).Sized) :
    DecodesAs reg ty (.struct t (pre ++ post)) (.struct t (pre ++ c :: post)) := by
  intro dec deref v w rest rest' hdec hrun
  obtain ⟨σ, step, start, finish, hstep, hloop⟩ := exists_byChildren reg hslots hty hdec
  rw [hloop deref v t _ rest hb] at hrun
  obtain ⟨rfl, hok⟩ := Prod.mk.inj hrun
  rw [hloop deref v t _ rest' hb', loop_insert (hstep.unmatched c hc) (Prod.ext rfl hok)]

theorem decodesAs_reorder {ty : GoType} {slots : List Slot} (hslots : slotsOf reg ty = some slots)
    (hty : Typed reg ty) (t : ValidTag) {cs cs' : List Block} (h : SameByKey Block.tag cs cs')
    (hb : (Block.struct t cs).Sized) (hb' : (Block.struct t cs').Sized) :
    DecodesAs reg ty (.struct t cs) (.struct t cs') := by
  intro dec deref v w rest rest' hdec hrun
  obtain ⟨σ, step, start, finish, hstep, hloop⟩ := exists_byChildren reg hslots hty hdec
  rw [hloop deref v t _ rest hb] at hrun
  obtain ⟨rfl, hok⟩ := Prod.mk.inj hrun
  rw [hloop deref v t _ rest' hb', loop_reorder hstep.exchange h (Prod.ext rfl hok)]

theorem decodesAs_child {n : GoString} {fs : Fields} {ti : TypeInfo}
    (hti : getTypeInfo reg (.struct n fs) = .ok ti) (hty : Typed reg (.struct n fs)) (t : ValidTag)
    {pre post : List Block} {c c' : Block} {i : Nat} {fi : FieldInfo} {ty : GoType}
    (hc : findField c.tag ti.slots 0 none = some (i, fi)) (hi : typeAt fs i = some ty) (htag : c'.tag = c.tag)
    (h : DecodesAs reg ty c c') (hb : (Block.struct t (pre ++ c :: post)).Sized)
    (hb' : (Block.struct t (pre ++ c' :: post)).Sized) :
    DecodesAs reg (.struct n fs) (.struct t (pre ++ c :: post)) (.struct t (pre ++ c' :: post)) := by
  intro dec deref v w rest rest' hdec hrun
  rw [unmarshal_struct_append reg hdec hti hty deref v t _ rest hb] at hrun
  obtain ⟨rfl, hok⟩ := Prod.mk.inj hrun
  have hstep : ∀ s s', childStep reg (.struct n fs) ti.slots fs s c = (s', .ok ()) →
      childStep reg (.struct n fs) ti.slots fs s c' = (s', .ok ()) := by
    intro s s' hs
    rw [childStep, hc] at hs
    rw [childStep, htag, hc]
    refine unmarshalField_replace (fun v w hv => ?_) hi hs
    have hv' := h ⟨false, some (.struct n fs), fi.name⟩ true v w [] [] rfl
    rw [List.append_nil, List.append_nil] at hv'
    exact hv' hv
  rw [unmarshal_struct_append reg hdec hti hty deref v t _ rest' hb', loop_replace hstep (Prod.ext rfl hok)]

theorem edited_decodes {ty : GoType} {b b' : Block} (h : Edited reg ty b b') (hty : Typed reg ty)
    (hsize : b'.Sized) : DecodesAs reg ty b b' := by
  induction h with
  | refl ty b =>
    intro dec deref v w rest rest' _ hrun
    rw [unmarshal_append reg b hsize rest' rest ty hty]
    exact hrun
  | trans hab hbc ihab ihbc =>
    intro dec deref v w rest rest' hdec hrun
    have hmid := ihab hty (hbc.sized hsize) dec deref v w rest [] hdec hrun
    exact ihbc hty hsize dec deref v w [] rest' hdec hmid
  | ptr h ih => exact decodesAs_ptr (ih hty hsize)
  | elem h ih => exact decodesAs_slice (ih hty hsize)
  | insert hslots t pre post c hc =>
    exact decodesAs_insert hslots hty t hc ((Edited.insert hslots t pre post c hc).sized hsize) hsize
  | reorder hslots t h =>
    exact decodesAs_reorder hslots hty t h ((Edited.reorder hslots t h).sized hsize) hsize
  | @child n fs slots hslots t pre post c c' i fi ty hc hi h ih =>
    have hb := (Edited.child hslots t pre post hc hi h).sized hsize
    rw [slotsOf] at hslots
    split at hslots
    · rename_i ti hti
      cases hslots
      obtain ⟨hany, hfs⟩ := hty ti hti
      obtain ⟨j, hj, hslot, -⟩ := findField_slot hany hc
      obtain rfl : i = j := by omega
      have hchild : c'.Sized := Sized.of_mem (List.mem_append_right pre (List.mem_cons_self ..)) hsize
      exact decodesAs_child hti hty t hc hi h.tag_eq (ih (typed_of_typeAt hfs hslot hi) hchild) hb hsize
    · cases hslots

end

end KmipGo.Decoder
