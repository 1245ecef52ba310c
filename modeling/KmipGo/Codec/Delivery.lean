import KmipGo.Codec.Reading

/-! # Encoding and decoding again

What the encoder writes for a value is a list of blocks, and decoding these
guarantees something about the result.  `Delivers` leaves open what, since the
steps from the parts of a value to the whole are the same for all of it: that
the value comes back unchanged, that it comes back if its masks are small
enough, or that the receiver can make of it what was sent.

* `Delivers.ptr`, `DeliversElems.cons`, `DeliversElems.slice`,
  `DeliversFields.cons`, `DeliversFields.struct` — from the parts to the whole.
* `Delivers.item` — a scalar that is written as one item.
-/

namespace KmipGo.Codec

open KmipGo.Lib KmipGo.Ttlv KmipGo.Reg KmipGo.Go KmipGo.Encoder KmipGo.Decoder KmipGo.Value

section

variable (reg : Registry)

/-- What is written for `v` are blocks with the tag of the field, one block if `single` holds; decoding them
    succeeds if `must` holds, and then with a result as wanted. -/
def Delivers (d : Deref) (tag : Tag) (fi : FieldInfo) {ty : GoType} (v : GoVal ty) (must : Prop)
    (good : GoVal ty → Prop) (single : Prop) : Prop :=
  ∃ out, WritesOut reg d tag (some fi) v out ∧ (out.length < 2 ^ 32 →
    ∃ bs : List Block, blocksBytes bs = out ∧ (∀ c ∈ bs, c.Sized ∧ c.tag = fi.tag) ∧
      Reads reg d ty bs must good ∧ (single → ∃ c, bs = [c]))

/-- The same for the elements of a slice, one block each. -/
def DeliversElems (tag : Tag) (fi : FieldInfo) {e : GoType} (vs : GoVals e) (must : Prop)
    (good : GoVals e → Prop) : Prop :=
  ∃ out, (∀ ctx addr, Writes (fun en => encodeElems reg ctx addr tag (some fi) vs en) out none) ∧
    (out.length < 2 ^ 32 → ∃ bs : List Block, blocksBytes bs = out ∧
      (∀ c ∈ bs, c.Sized ∧ c.tag = fi.tag) ∧ ReadsElems reg e bs must good)

/-- The same for the fields of a struct from position `k` on. -/
def DeliversFields (all : List Slot) (k : Nat) (slots : List Slot) {fs : Fields} (vs : FieldVals fs) (must : Prop)
    (good : FieldVals fs → Prop) : Prop :=
  ∃ out, (∀ ctx addr, Writes (fun en => encodeFields reg ctx addr slots vs en) out none) ∧
    (out.length < 2 ^ 32 → ∃ cs : List Block, blocksBytes cs = out ∧ (∀ c ∈ cs, c.Sized) ∧
      ReadsFields reg all k slots fs cs must fun _ ws => good ws)

end

variable {reg : Registry} {d : Deref} {tag : Tag} {fi : FieldInfo}

/-! ## Scalars -/

theorem Delivers.mono {ty : GoType} {v : GoVal ty} {must must' single single' : Prop} {good good' : GoVal ty → Prop}
    (h : Delivers reg d tag fi v must good single) (hmust : must' → must) (hgood : ∀ w, good w → good' w)
    (hsingle : single' → single) : Delivers reg d tag fi v must' good' single' := by
  obtain ⟨out, hw, hblocks⟩ := h
  refine ⟨out, hw, fun hsize => ?_⟩
  obtain ⟨bs, hout, htags, hreads, hone⟩ := hblocks hsize
  exact ⟨bs, hout, htags, hreads.mono hmust hgood, fun h => hone (hsingle h)⟩

/-- A value for which nothing is written, and which is the zero value as far as that matters. -/
theorem Delivers.nothing {ty : GoType} {v : GoVal ty} {must single : Prop} {good : GoVal ty → Prop}
    (hw : WritesOut reg d tag (some fi) v []) (hgood : good ty.zero) (hsingle : ¬ single) :
    Delivers reg d tag fi v must good single :=
  ⟨[], hw, fun _ => ⟨[], rfl, fun _ hc => absurd hc List.not_mem_nil, .nil hgood, fun h => absurd h hsingle⟩⟩

/-- The tag that is passed down, if any, is the one of the field. -/
theorem tagOr_field {ty : GoType} (htag : tag = tagNone ∨ tag = fi.tag) {ti : TypeInfo} {v : GoVal ty}
    (hv : intrinsicTag ti v = none) : tagOr tag ti (some fi) v = fi.tag := by
  rw [tagOr]
  split
  · rw [tagForMarshal, hv]
  · next hne => exact htag.resolve_left hne

/-- A scalar that is written as an item is decoded from the block of the item. -/
theorem Delivers.item (hvalid : fi.tag.Valid) {s : Scalar} {v : s.Val} {p : Prim}
    (hw : WritesOut reg d tag (some fi) (.scalar v : GoVal (.scalar s)) (p.item fi.tag)) {typ : Typ} {value : Bytes}
    (hp : p.content = some (typ, value)) {must single : Prop} {good : s.Val → Prop}
    (hread : ∀ (dec : Dec) (t : TTLV), t.typ = some typ → t.raw = value →
      t.valueRaw = (if value.length = 0 then none else some value) →
      Runs must good (unmarshalScalar dec t s s.zero)) :
    Delivers reg d tag fi (.scalar v) must (fun w => good w.get) single := by
  refine ⟨_, hw, fun hsize => ?_⟩
  obtain ⟨l, hty, hvalue, hbytes⟩ := exists_leaf_of_prim ⟨fi.tag, hvalid⟩ hp hsize
  refine ⟨[.leaf ⟨fi.tag, hvalid⟩ l], by rw [blocksBytes_single, hbytes], fun c hc => ?_, fun dec tail _ => ?_,
    fun _ => ⟨_, rfl⟩⟩
  · rw [List.mem_singleton.mp hc]
    exact ⟨trivial, rfl⟩
  · have hleaf := hread dec ((Block.leaf ⟨fi.tag, hvalid⟩ l).bytes ++ tail) (by rw [typ_leaf_append, hty])
      (by rw [raw_leaf_append, hvalue]) (by rw [valueRaw_leaf_append, hvalue])
    rw [decodeAll_single, GoType.zero, unmarshal, if_neg (length_slice_ne _ _)]
    exact hleaf.map GoVal.scalar rfl fun u hu => hu

/-! ## Pointers and slices -/

theorem Delivers.ptr {e : GoType} {v : GoVal e} {must single single' : Prop} {good : GoVal e → Prop}
    (h : Delivers reg .done tag fi v must good single) (hsingle : single) :
    Delivers reg .any tag fi (.ptr v) must (fun w => ∃ u, w = .ptr u ∧ good u) single' := by
  obtain ⟨out, hw, hblocks⟩ := h
  refine ⟨out, fun ctx addr => ?_, fun hsize => ?_⟩
  · simp only [encode_ptr]
    exact hw ctx true
  · obtain ⟨bs, hout, htags, hreads, hone⟩ := hblocks hsize
    obtain ⟨c, rfl⟩ := hone hsingle
    exact ⟨[c], hout, htags, hreads.ptr (List.cons_ne_nil c []), fun _ => ⟨c, rfl⟩⟩

theorem DeliversElems.nil {e : GoType} {must : Prop} {good : GoVals e → Prop} (hgood : good .nil) :
    DeliversElems reg tag fi (.nil : GoVals e) must good :=
  ⟨[], fun _ _ => writes_elems_nil, fun _ =>
    ⟨[], rfl, fun _ hc => absurd hc List.not_mem_nil, .nil hgood⟩⟩

theorem DeliversElems.mono {e : GoType} {vs : GoVals e} {must must' : Prop} {good good' : GoVals e → Prop}
    (h : DeliversElems reg tag fi vs must good) (hmust : must' → must) (hgood : ∀ ws, good ws → good' ws) :
    DeliversElems reg tag fi vs must' good' := by
  obtain ⟨out, hw, hblocks⟩ := h
  refine ⟨out, hw, fun hsize => ?_⟩
  obtain ⟨bs, hout, htags, hreads⟩ := hblocks hsize
  exact ⟨bs, hout, htags, hreads.mono hmust hgood⟩

theorem DeliversElems.cons {e : GoType} {v : GoVal e} {vs : GoVals e} {must more single : Prop}
    {good : GoVal e → Prop} {goods : GoVals e → Prop} (hv : Delivers reg .any tag fi v must good single)
    (hsingle : single) (hvs : DeliversElems reg tag fi vs more goods) :
    DeliversElems reg tag fi (.cons v vs) (must ∧ more)
      fun ws => ∃ w us, ws = .cons w us ∧ good w ∧ goods us := by
  obtain ⟨out, hw, hblocks⟩ := hv
  obtain ⟨outs, hws, hmore⟩ := hvs
  refine ⟨out ++ outs, fun ctx addr => ?_, fun hsize => ?_⟩
  · simp only [encodeElems]
    exact (hw ctx addr).andThen (hws ctx addr)
  · rw [List.length_append] at hsize
    obtain ⟨bs, hout, htags, hreads, hone⟩ := hblocks (by omega)
    obtain ⟨cs, houts, htags', hreads'⟩ := hmore (by omega)
    -- the decoder takes one block for each element
    obtain ⟨c, rfl⟩ := hone hsingle
    refine ⟨c :: cs, ?_, fun b hb => ?_, ReadsElems.cons hreads hreads'⟩
    · rw [blocksBytes, houts, ← hout, blocksBytes_single]
    · cases hb with
      | head => exact htags c (by simp)
      | tail _ hb => exact htags' b hb

/-- The field information that the elements of a slice are encoded with. -/
def elemField (fi : FieldInfo) : FieldInfo := { fi with flags := { fi.flags with omitEmpty := false } }

theorem DeliversElems.slice (htag : tag = tagNone ∨ tag = fi.tag) {n : GoString} {e : GoType} {vs : GoVals e}
    {must single : Prop} {good : GoVals e → Prop} (h : DeliversElems reg fi.tag (elemField fi) vs must good)
    (hsingle : ¬ single) :
    Delivers reg d tag fi (.slice (n := n) vs) must (fun w => ∃ ws, w = .slice ws ∧ good ws) single := by
  obtain ⟨out, hw, hblocks⟩ := h
  have hown : fieldTag reg tag (some fi) (.slice n e) = fi.tag := by
    rw [fieldTag]
    split
    · rfl
    · next hne => exact htag.resolve_left hne
  refine ⟨out, fun ctx addr => ?_, fun hsize => ?_⟩
  · simp only [encode_slice, hown]
    exact hw ctx true
  · obtain ⟨bs, hout, htags, hreads⟩ := hblocks hsize
    exact ⟨bs, hout, htags, hreads.slice d n, fun h => absurd h hsingle⟩

/-! ## Structs -/

theorem DeliversFields.nil {all slots : List Slot} {k : Nat} {must : Prop} {good : FieldVals .nil → Prop}
    (hgood : good .nil) : DeliversFields reg all k slots .nil must good := by
  refine ⟨[], fun _ _ => writes_fields_nil, fun _ =>
    ⟨[], rfl, fun _ hc => absurd hc List.not_mem_nil, .nil fun vs _ => ?_⟩⟩
  cases vs
  exact hgood

theorem DeliversFields.mono {all slots : List Slot} {k : Nat} {fs : Fields} {vs : FieldVals fs}
    {must must' : Prop} {good good' : FieldVals fs → Prop} (h : DeliversFields reg all k slots vs must good)
    (hmust : must' → must) (hgood : ∀ ws, good ws → good' ws) :
    DeliversFields reg all k slots vs must' good' := by
  obtain ⟨out, hw, hblocks⟩ := h
  refine ⟨out, hw, fun hsize => ?_⟩
  obtain ⟨cs, hout, hsized, hreads⟩ := hblocks hsize
  exact ⟨cs, hout, hsized, hreads.mono hmust fun _ ws _ => hgood ws⟩

theorem DeliversFields.cons {all slots : List Slot} {k : Nat} (hdr : FieldHdr) {ty : GoType} {rest : Fields}
    {v : GoVal ty} {vs : FieldVals rest} {must more single : Prop} {good : GoVal ty → Prop}
    {goods : FieldVals rest → Prop} (hown : findField fi.tag all 0 none = some (k, fi))
    (hv : Delivers reg .any tagNone fi v must good single)
    (hvs : DeliversFields reg all (k + 1) slots vs more goods) :
    DeliversFields reg all k (.valueField fi :: slots) (.cons v vs : FieldVals (.cons hdr ty rest)) (must ∧ more)
      fun ws => ∃ w us, ws = .cons w us ∧ good w ∧ goods us := by
  obtain ⟨out, hw, hblocks⟩ := hv
  obtain ⟨outs, hws, hmore⟩ := hvs
  refine ⟨out ++ outs, fun ctx addr => writes_fields_cons (hw ⟨ctx.currStruct, fi.name⟩ addr) (hws ctx addr),
    fun hsize => ?_⟩
  rw [List.length_append] at hsize
  obtain ⟨mine, hout, htags, hreads, -⟩ := hblocks (by omega)
  obtain ⟨others, houts, hsized, hreads'⟩ := hmore (by omega)
  -- the blocks of this field have its tag, by which the decoder finds the field
  have hmine : ∀ c ∈ mine, findField c.tag all 0 none = some (k, fi) := by
    intro c hc
    rw [(htags c hc).2, hown]
  refine ⟨mine ++ others, by rw [blocksBytes_append, hout, houts], fun c hc => ?_,
    ReadsFields.cons hdr hmine hreads hreads'⟩
  exact (List.mem_append.mp hc).elim (fun hc => (htags c hc).1) (hsized c)

/-- A struct is written as one structure with the tag `t`, whatever has been looked through before. -/
theorem DeliversFields.struct {info : Option FieldInfo} {n : GoString} {fs : Fields} {ti : TypeInfo} {t : ValidTag}
    {vs : FieldVals fs} (hti : getTypeInfo reg (.struct n fs) = .ok ti)
    (htag : tagOr tag ti info (.struct vs : GoVal (.struct n fs)) = t.1)
    (henum : (flagsOf info).enum = false) (hmask : (flagsOf info).bitmask = false) {must : Prop}
    {good : FieldVals fs → Prop} (h : DeliversFields reg ti.slots 0 ti.slots vs must good) :
    ∃ out, (∀ d, WritesOut reg d tag info (.struct (n := n) vs) out) ∧ (out.length < 2 ^ 32 →
      ∃ cs : List Block, (Block.struct t cs).bytes = out ∧ (Block.struct t cs).Sized ∧
        ∀ d, Reads reg d (.struct n fs) [.struct t cs] must fun w => ∃ ws, w = .struct ws ∧ good ws) := by
  obtain ⟨out, hw, hblocks⟩ := h
  have hne := ne_none_of_valid t.2
  rw [← htag] at hne
  refine ⟨item t.1 .Structure out, fun d ctx addr => ?_, fun hsize => ?_⟩
  · rw [← htag]
    exact writes_struct hti hne henum hmask (hw ⟨n, ctx.currField⟩ addr)
  · -- the content is shorter than the item
    have hlen := length_item t.1 .Structure out
    obtain ⟨cs, rfl, hsized, hreads⟩ := hblocks (by omega)
    exact ⟨cs, item_structure.symm, by show (blocksBytes cs).length < 2 ^ 32; omega,
      fun d => hreads.struct hti t (by omega) d⟩

/-- A struct in a field. -/
theorem DeliversFields.field {n : GoString} {fs : Fields} {ti : TypeInfo} {vs : FieldVals fs} (hvalid : fi.tag.Valid)
    (hti : getTypeInfo reg (.struct n fs) = .ok ti)
    (htag : tagOr tag ti (some fi) (.struct vs : GoVal (.struct n fs)) = fi.tag)
    (henum : fi.flags.enum = false) (hmask : fi.flags.bitmask = false) {must single : Prop}
    {good : FieldVals fs → Prop} (h : DeliversFields reg ti.slots 0 ti.slots vs must good) :
    Delivers reg d tag fi (.struct (n := n) vs) must (fun w => ∃ ws, w = .struct ws ∧ good ws) single := by
  obtain ⟨out, hw, hblock⟩ := h.struct (t := ⟨fi.tag, hvalid⟩) hti htag henum hmask
  refine ⟨out, hw d, fun hsize => ?_⟩
  obtain ⟨cs, hbytes, hsized, hreads⟩ := hblock hsize
  refine ⟨[.struct ⟨fi.tag, hvalid⟩ cs], by rw [blocksBytes_single, hbytes], fun b hb => ?_, hreads d,
    fun _ => ⟨_, rfl⟩⟩
  rw [List.mem_singleton.mp hb]
  exact ⟨hsized, rfl⟩

end KmipGo.Codec
