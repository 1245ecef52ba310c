import KmipGo.Encoder.Emission

/-! # Outlines

The outline of a value is what the encoder does with its parts, in order: a part
is written or refused.  It follows the value and the type information, without
writing anything; the part after a refusal is listed although the encoder never
gets there.

`encode_outlines`: the encoder returns an error exactly when some part is refused,
and has emitted nothing exactly when the outline does not begin with a part that
is written.
-/

namespace KmipGo.Encoder

open KmipGo.Lib KmipGo.Ttlv KmipGo.Reg KmipGo.Go

/-- What becomes of a part of a value. -/
inductive Mark where
  | written
  | refused
deriving DecidableEq, Repr

def Emit.marks : Emit → List Mark
  | .nothing => []
  | .raw b => if b.length = 0 then [] else [.written]
  | .prim p => if p.content.isNone then [] else [.written]

section

variable (reg : Registry)

def scalarOutline (ctx : Ctx) (tag : Tag) (fi : Option FieldInfo) (s : Scalar) (v : s.Val) : List Mark :=
  if scalarIsNil s v then []
  else
    match scalarEmit reg ctx (tagOr tag (plainInfo reg (.scalar s)) fi (.scalar v)) fi s v with
    | .ok em => em.marks
    | .error _ => [.refused]

mutual
/-- The outline of a value at a place given by the arguments of `encode`. -/
def outline (ctx : Ctx) (d : Deref) (addr : Bool) (tag : Tag) (fi : Option FieldInfo) :
    {ty : GoType} → GoVal ty → List Mark
  | .scalar s, .scalar v => scalarOutline reg ctx tag fi s v
  | _, .ifaceNil => []
  | _, .iface v =>
    match d with
    | .any => outline ctx .ptr false tag fi v
    | _ => [.refused]
  | _, .ptrNil => []
  | .ptr t, .ptr v =>
    match d with
    | .done =>
      if ptrIsMarshaler t then methodOutline ctx (tagOr tag (plainInfo reg (.ptr t)) fi (.ptr v)) v
      else [.refused]
    | _ => outline ctx .done true tag fi v
  | .slice n t, .slice vs =>
    if (flagsOf fi).omitEmpty && isEmptyValue (.slice vs : GoVal (.slice n t)) then []
    else elemsOutline ctx true
      (tagOr tag (plainInfo reg (.slice n t)) fi (.slice vs : GoVal (.slice n t))) (elemInfo fi) vs
  | .array l t, .array vs =>
    if (flagsOf fi).omitEmpty && isEmptyValue (.array vs : GoVal (.array l t)) then []
    else elemsOutline ctx addr
      (tagOr tag (plainInfo reg (.array l t)) fi (.array vs : GoVal (.array l t))) (elemInfo fi) vs
  | .struct n fs, .struct vs =>
    match getTypeInfo reg (.struct n fs) with
    | .error _ => [.refused]
    | .ok ti =>
      match structCheck ctx fi (tagOr tag ti fi (.struct vs : GoVal (.struct n fs))) (.struct n fs) with
      | some _ => [.refused]
      -- the header is written before the first field
      | none => .written :: fieldsOutline ⟨n, ctx.currField⟩ addr ti.slots vs
  | _, .value vt v =>
    match getTypeInfo reg .value with
    | .error _ => [.refused]
    | .ok ti => valueOutline ctx (valueTag vt (tagOr tag ti fi (.value vt v))) v
  | .marshaler n p, .marshaler body =>
    if !p || addr then
      actsOutline ctx
        (tagOr tag (plainInfo reg (.marshaler n p)) fi (.marshaler body : GoVal (.marshaler n p))) body
    else
      match structCheck ctx fi
          (tagOr tag (plainInfo reg (.marshaler n p)) fi (.marshaler body : GoVal (.marshaler n p)))
          (.marshaler n p) with
      | some _ => [.refused]
      | none => [.written]

def methodOutline (ctx : Ctx) (tag : Tag) : {ty : GoType} → GoVal ty → List Mark
  | .scalar s, .scalar v =>
    match marshalScalar s v with
    | some p => (Emit.prim p).marks
    | none => []
  | _, .value vt v => valueOutline ctx (valueTag vt tag) v
  | _, .marshaler body => actsOutline ctx tag body
  | _, _ => []

def valueOutline (ctx : Ctx) (tag : Tag) : {ty : GoType} → GoVal ty → List Mark
  | _, .iface (t := t) v =>
    match t, v with
    | .slice n .value, .slice vs =>
      if n = valuesName then .written :: eachOutline ctx vs
      else outline ctx .ptr false tag none (.slice vs : GoVal (.slice n .value))
    | _, v => outline ctx .ptr false tag none v
  | _, _ => []

def eachOutline (ctx : Ctx) : {t : GoType} → GoVals t → List Mark
  | _, .nil => []
  | _, .cons v vs => outline ctx .any false tagNone none v ++ eachOutline ctx vs

def elemsOutline (ctx : Ctx) (addr : Bool) (tag : Tag) (fi : Option FieldInfo) :
    {t : GoType} → GoVals t → List Mark
  | _, .nil => []
  | _, .cons v vs => outline ctx .any addr tag fi v ++ elemsOutline ctx addr tag fi vs

def fieldsOutline (ctx : Ctx) (addr : Bool) : List Slot → {fs : Fields} → FieldVals fs → List Mark
  | slots, _, .cons v vs =>
    match slots with
    | .valueField fi :: slots =>
      outline ⟨ctx.currStruct, fi.name⟩ .any addr tagNone (some fi) v ++ fieldsOutline ctx addr slots vs
    | _ :: slots => fieldsOutline ctx addr slots vs
    | [] => []
  | _, _, .nil => []

def actsOutline (ctx : Ctx) (given : Tag) : Acts → List Mark
  | .done => []
  | .fail _ => [.refused]
  | .prim _ p rest => (Emit.prim p).marks ++ actsOutline ctx given rest
  | .structure _ body rest => (.written :: actsOutline ctx given body) ++ actsOutline ctx given rest
  | .encodeValue tag v rest =>
    outline ctx .any false (tag.get given) none v ++ actsOutline ctx given rest
  | .flush rest => actsOutline ctx given rest
end

end

/-! ## Calls that follow an outline -/

/-- `f` emits definite bytes and returns a definite result, as the outline says. -/
def Outlines (f : Enc → EncRes) (marks : List Mark) : Prop :=
  ∃ b err, Writes f b err ∧ (err = none ↔ .refused ∉ marks) ∧ (b = [] ↔ marks.head? ≠ some .written)

namespace Outlines

variable {f g : Enc → EncRes} {ms ns : List Mark}

theorem nothing : Outlines (fun e => (e, none)) [] :=
  ⟨_, _, Writes.nothing none, by simp, by simp⟩

theorem refused (err : EncErr) : Outlines (fun e => (e, some err)) [.refused] :=
  ⟨_, _, Writes.nothing _, by simp, by simp⟩

theorem flush : Outlines flush [] :=
  ⟨_, _, Writes.flush, by simp, by simp⟩

theorem emit (tag : Tag) (em : Emit) : Outlines (fun e => (em.run tag e, none)) em.marks := by
  refine ⟨_, _, Writes.emitRun tag em, ?_, ?_⟩
  · cases em with
    | nothing => simp [Emit.marks]
    | raw b =>
      rw [Emit.marks]
      split <;> simp
    | prim p =>
      rw [Emit.marks]
      split <;> simp
  · cases em with
    | nothing => simp [Emit.marks]
    | raw b =>
      rw [Emit.marks]
      by_cases h : b.length = 0
      · rw [if_pos h]
        simpa using List.length_eq_zero_iff.mp h
      · rw [if_neg h]
        simpa using fun hnil : b = [] => h (by rw [hnil]; rfl)
    | prim p =>
      rw [Emit.marks]
      cases hc : p.content with
      | none => simp [Prim.item, hc]
      | some c => simp [Prim.item, hc, item_ne_nil]

theorem andThen (hf : Outlines f ms) (hg : Outlines g ns) :
    Outlines (fun e => EncRes.andThen (f e) g) (ms ++ ns) := by
  obtain ⟨b, err, hf, herr, hb⟩ := hf
  obtain ⟨c, err', hg, herr', hc⟩ := hg
  cases err with
  | none =>
    have hnot := herr.mp rfl
    refine ⟨_, _, hf.andThen hg, ?_, ?_⟩
    · rw [herr', List.mem_append, not_or, and_iff_right hnot]
    · cases ms with
      | nil =>
        rw [hb.mpr (by simp)]
        exact hc
      | cons m ms =>
        -- without a refusal the first part was written
        have hm : m = .written := by
          cases m with
          | written => rfl
          | refused => exact absurd (List.mem_cons_self ..) hnot
        subst hm
        have hne : b ≠ [] := fun hnil => hb.mp hnil rfl
        simp [hne]
  | some x =>
    have hmem : .refused ∈ ms := by
      by_contra hnot
      cases herr.mpr hnot
    refine ⟨_, _, hf.andThen_error g, ?_, ?_⟩
    · simp [hmem]
    · cases ms with
      | nil => exact absurd hmem List.not_mem_nil
      | cons m ms => exact hb

theorem thenFlush (hf : Outlines f ms) : Outlines (fun e => EncRes.andThen (f e) Encoder.flush) ms := by
  have hboth := hf.andThen flush
  rwa [List.append_nil] at hboth

theorem struct (tag : Tag) (hf : Outlines f ms) : Outlines (encodeStructure tag f) (.written :: ms) := by
  obtain ⟨b, err, hf, herr, -⟩ := hf
  refine ⟨_, _, hf.struct tag, ?_, ?_⟩
  · simp [herr]
  · simp [item_ne_nil]

end Outlines

section

variable (reg : Registry)

theorem encodeScalar_outlines (ctx : Ctx) (tag : Tag) (fi : Option FieldInfo) (s : Scalar)
    (v : s.Val) : Outlines (encodeScalar reg ctx tag fi s v) (scalarOutline reg ctx tag fi s v) := by
  rw [scalarOutline]
  by_cases hnil : scalarIsNil s v = true
  · have heq : encodeScalar reg ctx tag fi s v = fun e => (e, none) := by
      funext e
      rw [encodeScalar, if_pos hnil]
    rw [heq, if_pos hnil]
    exact Outlines.nothing
  · rw [if_neg hnil]
    cases hem : scalarEmit reg ctx (tagOr tag (plainInfo reg (.scalar s)) fi (.scalar v)) fi s v with
    | error err =>
      have heq : encodeScalar reg ctx tag fi s v = fun e => (e, some err) := by
        funext e
        rw [encodeScalar, if_neg hnil, hem]
      rw [heq]
      exact Outlines.refused err
    | ok em =>
      have heq : encodeScalar reg ctx tag fi s v =
          fun e => (em.run (tagOr tag (plainInfo reg (.scalar s)) fi (.scalar v)) e, none) := by
        funext e
        rw [encodeScalar, if_neg hnil, hem]
      rw [heq]
      exact Outlines.emit _ em

mutual
theorem encode_outlines (ctx : Ctx) (d : Deref) (addr : Bool) (tag : Tag) (fi : Option FieldInfo) :
    ∀ {ty : GoType} (v : GoVal ty), Outlines (fun e => encode reg ctx d addr tag fi v e) (outline reg ctx d addr tag fi v)
  | .scalar s, .scalar v => by
    simp only [encode, outline]
    exact encodeScalar_outlines reg ctx tag fi s v
  | _, .ifaceNil => by
    simp only [encode, outline]
    exact Outlines.nothing
  | _, .iface v => by
    cases d with
    | any =>
      simp only [encode, outline]
      exact encode_outlines ctx .ptr false tag fi v
    | ptr =>
      simp only [encode, outline]
      exact Outlines.refused _
    | done =>
      simp only [encode, outline]
      exact Outlines.refused _
  | _, .ptrNil => by
    simp only [encode, outline]
    exact Outlines.nothing
  | .ptr t, .ptr v => by
    cases d with
    | any =>
      simp only [encode, outline]
      exact encode_outlines ctx .done true tag fi v
    | ptr =>
      simp only [encode, outline]
      exact encode_outlines ctx .done true tag fi v
    | done =>
      simp only [encode, outline]
      split
      · exact marshalTTLV_outlines ctx _ v
      · exact Outlines.refused _
  | .slice n t, .slice vs => by
    simp only [encode, outline]
    split
    · exact Outlines.nothing
    · exact encodeElems_outlines ctx true _ (elemInfo fi) vs
  | .array l t, .array vs => by
    simp only [encode, outline]
    split
    · exact Outlines.nothing
    · exact encodeElems_outlines ctx addr _ (elemInfo fi) vs
  | .struct n fs, .struct vs => by
    simp only [encode, outline]
    cases getTypeInfo reg (.struct n fs) with
    | error err => exact Outlines.refused _
    | ok ti =>
      simp only
      cases structCheck ctx fi (tagOr tag ti fi (.struct vs : GoVal (.struct n fs))) (.struct n fs) with
      | some err => exact Outlines.refused _
      | none => exact Outlines.struct _ (encodeFields_outlines ⟨n, ctx.currField⟩ addr ti.slots vs)
  | _, .value vt v => by
    simp only [encode, outline]
    cases getTypeInfo reg .value with
    | error err => exact Outlines.refused _
    | ok ti => exact marshalValue_outlines ctx _ v
  | .marshaler n p, .marshaler body => by
    simp only [encode, outline]
    split
    · exact runActs_outlines ctx _ body
    · cases structCheck ctx fi
          (tagOr tag (plainInfo reg (.marshaler n p)) fi (.marshaler body : GoVal (.marshaler n p)))
          (.marshaler n p) with
      | some err => exact Outlines.refused _
      | none => exact Outlines.struct _ Outlines.nothing

theorem marshalTTLV_outlines (ctx : Ctx) (tag : Tag) :
    ∀ {ty : GoType} (v : GoVal ty), Outlines (fun e => marshalTTLV reg ctx tag v e) (methodOutline reg ctx tag v)
  | .scalar s, .scalar v => by
    simp only [marshalTTLV, methodOutline]
    cases marshalScalar s v with
    | none => exact Outlines.nothing
    | some p => exact Outlines.emit tag (.prim p)
  | _, .value vt v => by
    simp only [marshalTTLV, methodOutline]
    exact marshalValue_outlines ctx _ v
  | _, .marshaler body => by
    simp only [marshalTTLV, methodOutline]
    exact runActs_outlines ctx tag body
  | _, .ifaceNil | _, .iface _ | _, .ptrNil | _, .ptr _ | _, .slice _ | _, .array _
  | _, .struct _ => by
    simp only [marshalTTLV, methodOutline]
    exact Outlines.nothing

theorem marshalValue_outlines (ctx : Ctx) (tag : Tag) :
    ∀ {ty : GoType} (v : GoVal ty), Outlines (fun e => marshalValue reg ctx tag v e) (valueOutline reg ctx tag v)
  | _, .iface v => by
    have hplain := (encode_outlines ctx .ptr false tag none v).thenFlush
    match v with
    | .slice (n := n) (e := .value) vs =>
      simp only [marshalValue, valueOutline]
      split
      · exact Outlines.struct tag (encodeEach_outlines ctx vs)
      · exact hplain
    | .slice (e := .scalar _) _ | .slice (e := .iface) _ | .slice (e := .ptr _) _
    | .slice (e := .slice _ _) _ | .slice (e := .array _ _) _ | .slice (e := .struct _ _) _
    | .slice (e := .marshaler _ _) _ | .scalar _ | .ifaceNil | .iface _ | .ptrNil | .ptr _
    | .array _ | .struct _ | .value _ _ | .marshaler _ =>
      simp only [marshalValue, valueOutline]
      exact hplain
  | _, .ifaceNil => by
    simp only [marshalValue, valueOutline]
    exact Outlines.flush
  | _, .scalar _ | _, .ptrNil | _, .ptr _ | _, .slice _ | _, .array _ | _, .struct _
  | _, .value _ _ | _, .marshaler _ => by
    simp only [marshalValue, valueOutline]
    exact Outlines.nothing

theorem encodeEach_outlines (ctx : Ctx) :
    ∀ {t : GoType} (vs : GoVals t), Outlines (fun e => encodeEach reg ctx vs e) (eachOutline reg ctx vs)
  | _, .nil => by
    simp only [encodeEach, eachOutline]
    exact Outlines.nothing
  | _, .cons v vs => by
    simp only [encodeEach, eachOutline]
    exact ((encode_outlines ctx .any false tagNone none v).thenFlush).andThen
      (encodeEach_outlines ctx vs)

theorem encodeElems_outlines (ctx : Ctx) (addr : Bool) (tag : Tag) (fi : Option FieldInfo) :
    ∀ {t : GoType} (vs : GoVals t), Outlines (fun e => encodeElems reg ctx addr tag fi vs e) (elemsOutline reg ctx addr tag fi vs)
  | _, .nil => by
    simp only [encodeElems, elemsOutline]
    exact Outlines.nothing
  | _, .cons v vs => by
    simp only [encodeElems, elemsOutline]
    exact (encode_outlines ctx .any addr tag fi v).andThen (encodeElems_outlines ctx addr tag fi vs)

theorem encodeFields_outlines (ctx : Ctx) (addr : Bool) :
    ∀ (slots : List Slot) {fs : Fields} (vs : FieldVals fs),
      Outlines (fun e => encodeFields reg ctx addr slots vs e) (fieldsOutline reg ctx addr slots vs)
  | slots, _, .cons v vs => by
    match slots with
    | .valueField fi :: slots =>
      simp only [encodeFields, fieldsOutline]
      exact (encode_outlines ⟨ctx.currStruct, fi.name⟩ .any addr tagNone (some fi) v).andThen
        (encodeFields_outlines ctx addr slots vs)
    | .skipped :: slots =>
      simp only [encodeFields, fieldsOutline]
      exact encodeFields_outlines ctx addr slots vs
    | .tagField _ :: slots =>
      simp only [encodeFields, fieldsOutline]
      exact encodeFields_outlines ctx addr slots vs
    | [] =>
      simp only [encodeFields, fieldsOutline]
      exact Outlines.nothing
  | _, _, .nil => by
    simp only [encodeFields, fieldsOutline]
    exact Outlines.nothing

theorem runActs_outlines (ctx : Ctx) (given : Tag) :
    ∀ acts : Acts, Outlines (fun e => runActs reg ctx given acts e) (actsOutline reg ctx given acts)
  | .done => by
    simp only [runActs, actsOutline]
    exact Outlines.nothing
  | .fail msg => by
    simp only [runActs, actsOutline]
    exact Outlines.refused _
  | .prim tag p rest => by
    simp only [runActs, actsOutline]
    exact (Outlines.emit (tag.get given) (.prim p)).andThen (runActs_outlines ctx given rest)
  | .structure tag body rest => by
    simp only [runActs, actsOutline]
    exact (Outlines.struct _ (runActs_outlines ctx given body)).andThen (runActs_outlines ctx given rest)
  | .encodeValue tag v rest => by
    simp only [runActs, actsOutline]
    exact ((encode_outlines ctx .any false _ none v).thenFlush).andThen
      (runActs_outlines ctx given rest)
  | .flush rest => by
    simp only [runActs, actsOutline]
    exact Outlines.flush.andThen (runActs_outlines ctx given rest)
end

theorem encodeValue_outlines {ty : GoType} (tag : Tag) (v : GoVal ty) :
    Outlines (encodeValue reg tag v) (outline reg Ctx.top .any false tag none v) :=
  (encode_outlines reg Ctx.top .any false tag none v).thenFlush

end

end KmipGo.Encoder
