import KmipGo.Encoder.Encode

/-! # A `MarshalTTLV` that panics

`EncodeStructure` counts the structure that it opens, and closes it when its body
returns, with an error or without.  It does not when the body panics.  The package
never recovers from a panic, but its caller may, and may use the encoder again.

The functions here follow `encode` to the error that makes it fail, and give the
encoder as it is then: with the structures around the error still open.  That is
how a user's `MarshalTTLV` leaves the encoder if it panics where the model lets it
return an error.

`encode_unwinds`: what `encode` itself leaves is that state with these structures
closed.
-/

namespace KmipGo.Encoder

open KmipGo.Lib KmipGo.Ttlv KmipGo.Reg KmipGo.Go

/-- The encoder with which the body of a structure starts. -/
def openStructure (tag : Tag) (e : Enc) : Enc :=
  { e with
      encodeDepth := e.encodeDepth + 1
      encBuf := (EncBuf.begin e.encBuf tag .Structure).1 }

/-- `EncodeStructure` once its body has returned; the content of the structure starts at `i`. -/
def closeStructure (i : Nat) (e : Enc) : Enc :=
  { e with
      encodeDepth := e.encodeDepth - 1
      encBuf := EncBuf.endAt e.encBuf i }

theorem encodeStructure_eq (tag : Tag) (f : Enc → EncRes) (e : Enc) :
    encodeStructure tag f e =
      (closeStructure (EncBuf.begin e.encBuf tag .Structure).2 (f (openStructure tag e)).1,
        (f (openStructure tag e)).2) :=
  rfl

/-- Where two calls in a row are interrupted: in the second one, unless the first one fails. -/
def EncRes.orWithin (r : EncRes) (first : Enc) (second : Enc → Enc) : Enc :=
  match r with
  | (e, none) => second e
  | (_, some _) => first

section

variable (reg : Registry)

mutual
/-- `encode`, up to its error. -/
def encodeInterrupted (ctx : Ctx) (d : Deref) (addr : Bool) (tag : Tag) (fi : Option FieldInfo) :
    {ty : GoType} → GoVal ty → Enc → Enc
  -- a scalar fails before anything is written
  | _, .scalar _, e => e
  | _, .ifaceNil, e => e
  | _, .iface v, e =>
    match d with
    | .any => encodeInterrupted ctx .ptr false tag fi v e
    | _ => e
  | _, .ptrNil, e => e
  | .ptr t, .ptr v, e =>
    match d with
    | .done =>
      if ptrIsMarshaler t then
        marshalTTLVInterrupted ctx (tagOr tag (plainInfo reg (.ptr t)) fi (.ptr v)) v e
      else e
    | _ => encodeInterrupted ctx .done true tag fi v e
  | .slice n t, .slice vs, e =>
    encodeElemsInterrupted ctx true
      (tagOr tag (plainInfo reg (.slice n t)) fi (.slice vs : GoVal (.slice n t))) (elemInfo fi) vs e
  | .array l t, .array vs, e =>
    encodeElemsInterrupted ctx addr
      (tagOr tag (plainInfo reg (.array l t)) fi (.array vs : GoVal (.array l t))) (elemInfo fi) vs e
  | .struct n fs, .struct vs, e =>
    match getTypeInfo reg (.struct n fs) with
    | .error _ => e
    | .ok ti =>
      match structCheck ctx fi (tagOr tag ti fi (.struct vs : GoVal (.struct n fs))) (.struct n fs) with
      | some _ => e
      | none =>
        encodeFieldsInterrupted ⟨n, ctx.currField⟩ addr ti.slots vs
          (openStructure (tagOr tag ti fi (.struct vs : GoVal (.struct n fs))) e)
  | _, .value vt v, e =>
    match getTypeInfo reg .value with
    | .error _ => e
    | .ok ti => marshalValueInterrupted ctx (valueTag vt (tagOr tag ti fi (.value vt v))) v e
  | .marshaler n p, .marshaler body, e =>
    if !p || addr then
      runActsInterrupted ctx
        (tagOr tag (plainInfo reg (.marshaler n p)) fi (.marshaler body : GoVal (.marshaler n p))) body e
    else e

/-- `MarshalTTLV`, up to its error. -/
def marshalTTLVInterrupted (ctx : Ctx) (tag : Tag) : {ty : GoType} → GoVal ty → Enc → Enc
  | _, .value vt v, e => marshalValueInterrupted ctx (valueTag vt tag) v e
  | _, .marshaler body, e => runActsInterrupted ctx tag body e
  | _, _, e => e

/-- `Value.MarshalTTLV`, up to its error. -/
def marshalValueInterrupted (ctx : Ctx) (tag : Tag) : {ty : GoType} → GoVal ty → Enc → Enc
  | _, .iface (t := t) v, e =>
    match t, v with
    | .slice n .value, .slice vs =>
      if n = valuesName then encodeEachInterrupted ctx vs (openStructure tag e)
      else encodeInterrupted ctx .ptr false tag none (.slice vs : GoVal (.slice n .value)) e
    | _, v => encodeInterrupted ctx .ptr false tag none v e
  | _, _, e => e

/-- The loop over the elements of a `Values`, up to its error. -/
def encodeEachInterrupted (ctx : Ctx) : {t : GoType} → GoVals t → Enc → Enc
  | _, .nil, e => e
  | _, .cons v vs, e =>
    EncRes.orWithin (EncRes.andThen (encode reg ctx .any false tagNone none v e) flush)
      (encodeInterrupted ctx .any false tagNone none v e) (encodeEachInterrupted ctx vs)

/-- The loop over the elements of a slice or an array, up to its error. -/
def encodeElemsInterrupted (ctx : Ctx) (addr : Bool) (tag : Tag) (fi : Option FieldInfo) :
    {t : GoType} → GoVals t → Enc → Enc
  | _, .nil, e => e
  | _, .cons v vs, e =>
    EncRes.orWithin (encode reg ctx .any addr tag fi v e) (encodeInterrupted ctx .any addr tag fi v e)
      (encodeElemsInterrupted ctx addr tag fi vs)

/-- The loop over the fields of a struct, up to its error. -/
def encodeFieldsInterrupted (ctx : Ctx) (addr : Bool) : List Slot → {fs : Fields} → FieldVals fs → Enc → Enc
  | slots, _, .cons v vs, e =>
    match slots with
    | .valueField fi :: slots =>
      EncRes.orWithin (encode reg ⟨ctx.currStruct, fi.name⟩ .any addr tagNone (some fi) v e)
        (encodeInterrupted ⟨ctx.currStruct, fi.name⟩ .any addr tagNone (some fi) v e)
        (encodeFieldsInterrupted ctx addr slots vs)
    | _ :: slots => encodeFieldsInterrupted ctx addr slots vs e
    | [] => e
  | _, _, .nil, e => e

/-- A user's `MarshalTTLV`, up to its error. -/
def runActsInterrupted (ctx : Ctx) (given : Tag) : Acts → Enc → Enc
  | .done, e => e
  | .fail _, e => e
  | .prim tag p rest, e => runActsInterrupted ctx given rest ((Emit.prim p).run (tag.get given) e)
  | .structure tag body rest, e =>
    EncRes.orWithin (encodeStructure (tag.get given) (runActs reg ctx given body) e)
      (runActsInterrupted ctx given body (openStructure (tag.get given) e))
      (runActsInterrupted ctx given rest)
  | .encodeValue tag v rest, e =>
    EncRes.orWithin (EncRes.andThen (encode reg ctx .any false (tag.get given) none v e) flush)
      (encodeInterrupted ctx .any false (tag.get given) none v e) (runActsInterrupted ctx given rest)
  | .flush rest, e => EncRes.orWithin (flush e) e (runActsInterrupted ctx given rest)
end

/-- `EncodeValue`, up to its error. -/
def encodeValueInterrupted {ty : GoType} (tag : Tag) (v : GoVal ty) (e : Enc) : Enc :=
  encodeInterrupted reg Ctx.top .any false tag none v e

end

/-! ## Unwinding -/

/-- The second encoder is the first one with some structures closed, the last one opened first. -/
inductive Unwinds : Enc → Enc → Prop where
  | refl (e : Enc) : Unwinds e e
  | close {e e' : Enc} (i : Nat) (h : Unwinds e e') : Unwinds e (closeStructure i e')

/-- If the call failed, it left `stopped` with some structures closed. -/
def UnwindsTo (r : EncRes) (stopped : Enc) : Prop := r.2 ≠ none → Unwinds stopped r.1

theorem unwindsTo_self (e : Enc) (err : Option EncErr) : UnwindsTo (e, err) e := fun _ => .refl e

theorem unwindsTo_ok (e stopped : Enc) : UnwindsTo (e, none) stopped := fun h => absurd rfl h

theorem UnwindsTo.andThen {r : EncRes} {first : Enc} {k : Enc → EncRes} {second : Enc → Enc}
    (hr : UnwindsTo r first) (hk : ∀ e, UnwindsTo (k e) (second e)) :
    UnwindsTo (EncRes.andThen r k) (EncRes.orWithin r first second) := by
  cases r with
  | mk e err =>
    cases err with
    | none => exact hk e
    | some x => exact hr

theorem UnwindsTo.andFlush {r : EncRes} {stopped : Enc} (hr : UnwindsTo r stopped) :
    UnwindsTo (EncRes.andThen r flush) stopped := by
  cases r with
  | mk e err =>
    cases err with
    | none =>
      intro h
      refine absurd ?_ h
      show (flush e).2 = none
      rw [flush]
      split <;> rfl
    | some x => exact hr

theorem UnwindsTo.structure {tag : Tag} {f : Enc → EncRes} {e stopped : Enc}
    (hf : UnwindsTo (f (openStructure tag e)) stopped) : UnwindsTo (encodeStructure tag f e) stopped := by
  intro h
  rw [encodeStructure_eq] at h ⊢
  exact .close _ (hf h)

section

variable (reg : Registry)

mutual
/-- What `encode` leaves when it fails is what its error left, with the structures around it closed. -/
theorem encode_unwinds (ctx : Ctx) (d : Deref) (addr : Bool) (tag : Tag) (fi : Option FieldInfo) :
    ∀ {ty : GoType} (v : GoVal ty) (e : Enc),
      UnwindsTo (encode reg ctx d addr tag fi v e) (encodeInterrupted reg ctx d addr tag fi v e)
  | .scalar s, .scalar v, e => by
    rw [encode, encodeInterrupted, encodeScalar]
    split
    · exact unwindsTo_self _ _
    · split
      · exact unwindsTo_ok _ _
      · exact unwindsTo_self _ _
  | _, .ifaceNil, e => unwindsTo_self _ _
  | _, .iface v, e => by
    cases d with
    | any => exact encode_unwinds ctx .ptr false tag fi v e
    | ptr => exact unwindsTo_self _ _
    | done => exact unwindsTo_self _ _
  | _, .ptrNil, e => unwindsTo_self _ _
  | .ptr t, .ptr v, e => by
    cases d with
    | any => exact encode_unwinds ctx .done true tag fi v e
    | ptr => exact encode_unwinds ctx .done true tag fi v e
    | done =>
      rw [encode, encodeInterrupted]
      split
      · exact marshalTTLV_unwinds ctx _ v e
      · exact unwindsTo_self _ _
  | .slice n t, .slice vs, e => by
    rw [encode, encodeInterrupted]
    split
    · exact unwindsTo_ok _ _
    · exact encodeElems_unwinds ctx true _ _ vs e
  | .array l t, .array vs, e => by
    rw [encode, encodeInterrupted]
    split
    · exact unwindsTo_ok _ _
    · exact encodeElems_unwinds ctx addr _ _ vs e
  | .struct n fs, .struct vs, e => by
    rw [encode, encodeInterrupted]
    cases getTypeInfo reg (.struct n fs) with
    | error err => exact unwindsTo_self _ _
    | ok ti =>
      dsimp only
      cases structCheck ctx fi (tagOr tag ti fi (.struct vs : GoVal (.struct n fs))) (.struct n fs) with
      | some err => exact unwindsTo_self _ _
      | none => exact UnwindsTo.structure (encodeFields_unwinds _ addr ti.slots vs _)
  | _, .value vt v, e => by
    rw [encode, encodeInterrupted]
    cases getTypeInfo reg .value with
    | error err => exact unwindsTo_self _ _
    | ok ti => exact marshalValue_unwinds ctx _ v e
  | .marshaler n p, .marshaler body, e => by
    rw [encode, encodeInterrupted]
    split
    · exact runActs_unwinds ctx _ body e
    · split
      · exact unwindsTo_self _ _
      · exact unwindsTo_ok _ _

theorem marshalTTLV_unwinds (ctx : Ctx) (tag : Tag) : ∀ {ty : GoType} (v : GoVal ty) (e : Enc),
    UnwindsTo (marshalTTLV reg ctx tag v e) (marshalTTLVInterrupted reg ctx tag v e)
  | .scalar s, .scalar v, e => by
    rw [marshalTTLV]
    split <;> exact unwindsTo_ok _ _
  | _, .value vt v, e => marshalValue_unwinds ctx _ v e
  | _, .marshaler body, e => runActs_unwinds ctx tag body e
  | _, .ifaceNil, e | _, .iface _, e | _, .ptrNil, e | _, .ptr _, e | _, .slice _, e | _, .array _, e
  | _, .struct _, e => by
    simp only [marshalTTLV, marshalTTLVInterrupted]
    exact unwindsTo_self _ _

theorem marshalValue_unwinds (ctx : Ctx) (tag : Tag) : ∀ {ty : GoType} (v : GoVal ty) (e : Enc),
    UnwindsTo (marshalValue reg ctx tag v e) (marshalValueInterrupted reg ctx tag v e)
  | _, .iface v, e => by
    have hplain := (encode_unwinds ctx .ptr false tag none v e).andFlush
    match v with
    | .slice (n := n) (e := .value) vs =>
      simp only [marshalValue, marshalValueInterrupted]
      split
      · exact UnwindsTo.structure (encodeEach_unwinds ctx vs _)
      · exact hplain
    | .slice (e := .scalar _) _ | .slice (e := .iface) _ | .slice (e := .ptr _) _
    | .slice (e := .slice _ _) _ | .slice (e := .array _ _) _ | .slice (e := .struct _ _) _
    | .slice (e := .marshaler _ _) _ | .scalar _ | .ifaceNil | .iface _ | .ptrNil | .ptr _
    | .array _ | .struct _ | .value _ _ | .marshaler _ =>
      simp only [marshalValue, marshalValueInterrupted]
      exact hplain
  | _, .ifaceNil, e => by
    simp only [marshalValue, marshalValueInterrupted]
    exact (unwindsTo_self e none).andFlush
  | _, .scalar _, e | _, .ptrNil, e | _, .ptr _, e | _, .slice _, e | _, .array _, e | _, .struct _, e
  | _, .value _ _, e | _, .marshaler _, e => by
    simp only [marshalValue, marshalValueInterrupted]
    exact unwindsTo_self _ _

theorem encodeEach_unwinds (ctx : Ctx) : ∀ {t : GoType} (vs : GoVals t) (e : Enc),
    UnwindsTo (encodeEach reg ctx vs e) (encodeEachInterrupted reg ctx vs e)
  | _, .nil, _ => unwindsTo_self _ _
  | _, .cons v vs, e =>
    (encode_unwinds ctx .any false tagNone none v e).andFlush.andThen (encodeEach_unwinds ctx vs)

theorem encodeElems_unwinds (ctx : Ctx) (addr : Bool) (tag : Tag) (fi : Option FieldInfo) :
    ∀ {t : GoType} (vs : GoVals t) (e : Enc),
      UnwindsTo (encodeElems reg ctx addr tag fi vs e) (encodeElemsInterrupted reg ctx addr tag fi vs e)
  | _, .nil, _ => unwindsTo_self _ _
  | _, .cons v vs, e =>
    (encode_unwinds ctx .any addr tag fi v e).andThen (encodeElems_unwinds ctx addr tag fi vs)

theorem encodeFields_unwinds (ctx : Ctx) (addr : Bool) : ∀ (slots : List Slot) {fs : Fields} (vs : FieldVals fs)
    (e : Enc), UnwindsTo (encodeFields reg ctx addr slots vs e) (encodeFieldsInterrupted reg ctx addr slots vs e)
  | slots, _, .cons v vs, e => by
    cases slots with
    | nil => exact unwindsTo_self _ _
    | cons slot slots =>
      cases slot with
      | valueField fi =>
        exact (encode_unwinds ⟨ctx.currStruct, fi.name⟩ .any addr tagNone (some fi) v e).andThen
          (encodeFields_unwinds ctx addr slots vs)
      | tagField fi => exact encodeFields_unwinds ctx addr slots vs e
      | skipped => exact encodeFields_unwinds ctx addr slots vs e
  | slots, _, .nil, e => by
    rw [encodeFields, encodeFieldsInterrupted]
    exact unwindsTo_self _ _

theorem runActs_unwinds (ctx : Ctx) (given : Tag) : ∀ (body : Acts) (e : Enc),
    UnwindsTo (runActs reg ctx given body e) (runActsInterrupted reg ctx given body e)
  | .done, _ => unwindsTo_self _ _
  | .fail _, _ => unwindsTo_self _ _
  | .prim _ _ rest, _ => runActs_unwinds ctx given rest _
  | .structure _ body rest, _ =>
    (UnwindsTo.structure (runActs_unwinds ctx given body _)).andThen (runActs_unwinds ctx given rest)
  | .encodeValue tag v rest, e =>
    (encode_unwinds ctx .any false (tag.get given) none v e).andFlush.andThen (runActs_unwinds ctx given rest)
  | .flush rest, e => UnwindsTo.andThen (unwindsTo_self e none).andFlush (runActs_unwinds ctx given rest)
end

end

end KmipGo.Encoder
