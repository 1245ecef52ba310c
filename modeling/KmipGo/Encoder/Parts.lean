import KmipGo.Encoder.Outline

/-! # The parts of an encoding

What is written without an error for a struct, its fields or the elements of a
slice is put together from what is written for each part.
-/

namespace KmipGo.Encoder

open KmipGo.Lib KmipGo.Ttlv KmipGo.Reg KmipGo.Go

theorem Outlines.andThen_parts {f g : Enc → EncRes} {ms ns : List Mark} (hf : Outlines f ms)
    (hg : Outlines g ns) {b : Bytes} (h : Writes (fun e => EncRes.andThen (f e) g) b none) :
    ∃ b₁ b₂, b = b₁ ++ b₂ ∧ Writes f b₁ none ∧ Writes g b₂ none := by
  obtain ⟨b₁, err, hf, -, -⟩ := hf
  obtain ⟨b₂, err', hg, -, -⟩ := hg
  cases err with
  | some x =>
    have herr := (h.unique (hf.andThen_error g)).2
    cases herr
  | none =>
    obtain ⟨hb, herr⟩ := h.unique (hf.andThen hg)
    rw [← herr] at hg
    exact ⟨b₁, b₂, hb, hf, hg⟩

section

variable (reg : Registry)

/-- A pointer is written as what it points to. -/
theorem encode_ptr (ctx : Ctx) (addr : Bool) (tag : Tag) (fi : Option FieldInfo) {t : GoType} (v : GoVal t)
    (e : Enc) : encode reg ctx .any addr tag fi (.ptr v) e = encode reg ctx .done true tag fi v e := by
  simp only [encode]

theorem encode_ptr_parts {ctx : Ctx} {addr : Bool} {tag : Tag} {fi : Option FieldInfo} {t : GoType}
    {v : GoVal t} {b : Bytes} {err : Option EncErr}
    (h : Writes (fun e => encode reg ctx .any addr tag fi (.ptr v) e) b err) :
    Writes (fun e => encode reg ctx .done true tag fi v e) b err := by
  simpa only [encode_ptr] using h

/-- A struct is written as one structure around its fields. -/
theorem encode_struct_parts {ctx : Ctx} {d : Deref} {addr : Bool} {tag : Tag} {fi : Option FieldInfo}
    {n : GoString} {fs : Fields} {vs : FieldVals fs} {b : Bytes}
    (h : Writes (fun e => encode reg ctx d addr tag fi (.struct vs : GoVal (.struct n fs)) e) b none) :
    ∃ ti body, getTypeInfo reg (.struct n fs) = .ok ti ∧
      b = item (tagOr tag ti fi (.struct vs : GoVal (.struct n fs))) .Structure body ∧
      Writes (fun e => encodeFields reg ⟨n, ctx.currField⟩ addr ti.slots vs e) body none := by
  cases hti : getTypeInfo reg (.struct n fs) with
  | error err =>
    simp only [encode, hti] at h
    cases (h.unique (Writes.nothing (some (.typeInfo err)))).2
  | ok ti =>
    simp only [encode, hti] at h
    cases hcheck : structCheck ctx fi (tagOr tag ti fi (.struct vs : GoVal (.struct n fs)))
        (.struct n fs) with
    | some err =>
      simp only [hcheck] at h
      cases (h.unique (Writes.nothing (some err))).2
    | none =>
      simp only [hcheck] at h
      obtain ⟨body, err, hw, -, -⟩ := encodeFields_outlines reg ⟨n, ctx.currField⟩ addr ti.slots vs
      obtain ⟨hb, herr⟩ := h.unique (hw.struct _)
      rw [← herr] at hw
      exact ⟨ti, body, rfl, hb, hw⟩

theorem encodeFields_parts {ctx : Ctx} {addr : Bool} {fi : FieldInfo} {slots : List Slot}
    {hdr : FieldHdr} {ty : GoType} {rest : Fields} {v : GoVal ty} {vs : FieldVals rest} {b : Bytes}
    (h : Writes (fun e => encodeFields reg ctx addr (.valueField fi :: slots)
      (.cons v vs : FieldVals (.cons hdr ty rest)) e) b none) :
    ∃ b₁ b₂, b = b₁ ++ b₂ ∧
      Writes (fun e => encode reg ⟨ctx.currStruct, fi.name⟩ .any addr tagNone (some fi) v e) b₁ none ∧
      Writes (fun e => encodeFields reg ctx addr slots vs e) b₂ none := by
  simp only [encodeFields] at h
  exact Outlines.andThen_parts (encode_outlines reg _ .any addr tagNone (some fi) v)
    (encodeFields_outlines reg ctx addr slots vs) h

theorem encodeElems_parts {ctx : Ctx} {addr : Bool} {tag : Tag} {fi : Option FieldInfo} {t : GoType}
    {v : GoVal t} {vs : GoVals t} {b : Bytes}
    (h : Writes (fun e => encodeElems reg ctx addr tag fi (.cons v vs) e) b none) :
    ∃ b₁ b₂, b = b₁ ++ b₂ ∧ Writes (fun e => encode reg ctx .any addr tag fi v e) b₁ none ∧
      Writes (fun e => encodeElems reg ctx addr tag fi vs e) b₂ none := by
  simp only [encodeElems] at h
  exact Outlines.andThen_parts (encode_outlines reg ctx .any addr tag fi v)
    (encodeElems_outlines reg ctx addr tag fi vs) h

end

end KmipGo.Encoder
