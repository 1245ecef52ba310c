import KmipGo.Encoder.Atomic
import KmipGo.Ttlv.Canonical

/-! # What the encoder writes is well formed

The encoder is put together from a few calls: it writes an item or bytes that are
there already, it flushes, it fails, it does one thing after another, and it opens
a structure around what is written inside.  `Program` says that a call is made of
these, and `encode_program` that the encoder is, whatever the value.  What holds of
all programs holds of the encoder.

* `Frame` — a whole item with its children.  Lengths and padding are right, but the
  tag may be any three bytes.
* `encoder_wellFormed` — after any history of calls, failed ones included, the writer
  and the buffer hold whole frames, and a frame is valid exactly if its tags are.
-/

namespace KmipGo.Encoder

open KmipGo.Lib KmipGo.Ttlv KmipGo.Reg KmipGo.Go

/-! ## Programs -/

/-- A call that is made of the calls of an encoder; `R` holds of bytes that are written as they are. -/
inductive Program (R : Bytes → Prop) : (Enc → EncRes) → Prop where
  | nothing : Program R fun e => (e, none)
  | refused (err : EncErr) : Program R fun e => (e, some err)
  | flush : Program R flush
  | prim (tag : Tag) (p : Prim) : Program R fun e => ((Emit.prim p).run tag e, none)
  | raw (tag : Tag) {b : Bytes} (hb : R b) : Program R fun e => ((Emit.raw b).run tag e, none)
  | andThen {f g : Enc → EncRes} (hf : Program R f) (hg : Program R g) :
      Program R fun e => EncRes.andThen (f e) g
  | struct (tag : Tag) {f : Enc → EncRes} (hf : Program R f) : Program R (encodeStructure tag f)

theorem Program.thenFlush {R : Bytes → Prop} {f : Enc → EncRes} (hf : Program R f) :
    Program R fun e => EncRes.andThen (f e) Encoder.flush :=
  .andThen hf .flush

/-- `R` holds of a scalar that is a raw TTLV. -/
def scalarRaw (R : Bytes → Prop) : (s : Scalar) → s.Val → Prop
  | .ttlv, b => R b
  | _, _ => True

mutual
/-- `R` holds of every raw TTLV in a value. -/
def EveryRaw (R : Bytes → Prop) : {ty : GoType} → GoVal ty → Prop
  | _, @GoVal.scalar s v => scalarRaw R s v
  | _, .ifaceNil | _, .ptrNil => True
  | _, .iface v | _, .ptr v | _, .value _ v => EveryRaw R v
  | _, .slice vs | _, .array vs => ElemsRaw R vs
  | _, .struct vs => FieldsRaw R vs
  | _, .marshaler body => ActsRaw R body
def ElemsRaw (R : Bytes → Prop) : {e : GoType} → GoVals e → Prop
  | _, .nil => True
  | _, .cons v vs => EveryRaw R v ∧ ElemsRaw R vs
def FieldsRaw (R : Bytes → Prop) : {fs : Fields} → FieldVals fs → Prop
  | _, .nil => True
  | _, .cons v vs => EveryRaw R v ∧ FieldsRaw R vs
def ActsRaw (R : Bytes → Prop) : Acts → Prop
  | .done | .fail _ => True
  | .prim _ _ rest | .flush rest => ActsRaw R rest
  | .structure _ body rest => ActsRaw R body ∧ ActsRaw R rest
  | .encodeValue _ v rest => EveryRaw R v ∧ ActsRaw R rest
end

section

variable (reg : Registry) {R : Bytes → Prop}

/-- What a scalar is written as. -/
theorem scalarEmit_program {ctx : Ctx} {tag : Tag} {fi : Option FieldInfo} {s : Scalar} {v : s.Val} {em : Emit}
    (h : scalarEmit reg ctx tag fi s v = .ok em) (hraw : scalarRaw R s v) (t : Tag) :
    Program R fun e => (em.run t e, none) := by
  by_cases hs : s = .ttlv
  · subst hs
    cases h
    exact .raw t hraw
  by_cases hother : ∃ n k, s = .other n k
  · obtain ⟨n, k, rfl⟩ := hother
    cases h
  rw [scalarEmit.eq_3 reg ctx tag fi s v (fun b hb _ => hs hb) (fun n k x hk _ => hother ⟨n, k, hk⟩)] at h
  split at h
  · split at h <;> cases h
    · exact .nothing
    · exact .prim t _
  · split at h
    · cases h
      exact .nothing
    · split at h
      · cases h
      · split at h <;> cases h
        exact .prim t _

theorem encodeScalar_program (ctx : Ctx) (tag : Tag) (fi : Option FieldInfo) {s : Scalar} {v : s.Val}
    (hraw : scalarRaw R s v) : Program R (encodeScalar reg ctx tag fi s v) := by
  unfold encodeScalar
  split
  · exact .nothing
  · cases hem : scalarEmit reg ctx (tagOr tag (plainInfo reg (.scalar s)) fi (.scalar v)) fi s v with
    | error err => exact .refused err
    | ok em => exact scalarEmit_program reg hem hraw _

mutual
/-- What the encoder does is the run of a program. -/
theorem encode_program (ctx : Ctx) (d : Deref) (addr : Bool) (tag : Tag) (fi : Option FieldInfo) :
    ∀ {ty : GoType} (v : GoVal ty), EveryRaw R v → Program R fun e => encode reg ctx d addr tag fi v e
  | .scalar s, .scalar v => fun h => by
    simp only [encode]
    exact encodeScalar_program reg ctx tag fi h
  | _, .ifaceNil => fun _ => by
    simp only [encode]
    exact .nothing
  | _, .iface v => fun h => by
    cases d with
    | any =>
      simp only [encode]
      exact encode_program ctx .ptr false tag fi v h
    | ptr | done =>
      simp only [encode]
      exact .refused _
  | _, .ptrNil => fun _ => by
    simp only [encode]
    exact .nothing
  | .ptr t, .ptr v => fun h => by
    cases d with
    | any | ptr =>
      simp only [encode]
      exact encode_program ctx .done true tag fi v h
    | done =>
      simp only [encode]
      split
      · exact marshalTTLV_program ctx _ v h
      · exact .refused _
  | .slice n t, .slice vs => fun h => by
    simp only [encode]
    split
    · exact .nothing
    · exact encodeElems_program ctx true _ (elemInfo fi) vs h
  | .array l t, .array vs => fun h => by
    simp only [encode]
    split
    · exact .nothing
    · exact encodeElems_program ctx addr _ (elemInfo fi) vs h
  | .struct n fs, .struct vs => fun h => by
    simp only [encode]
    cases getTypeInfo reg (.struct n fs) with
    | error err => exact .refused _
    | ok ti =>
      simp only
      cases structCheck ctx fi (tagOr tag ti fi (.struct vs : GoVal (.struct n fs))) (.struct n fs) with
      | some err => exact .refused _
      | none => exact .struct _ (encodeFields_program ⟨n, ctx.currField⟩ addr ti.slots vs h)
  | _, .value vt v => fun h => by
    simp only [encode]
    cases getTypeInfo reg .value with
    | error err => exact .refused _
    | ok ti => exact marshalValue_program ctx _ v h
  | .marshaler n p, .marshaler body => fun h => by
    simp only [encode]
    split
    · exact runActs_program ctx _ body h
    · cases structCheck ctx fi
          (tagOr tag (plainInfo reg (.marshaler n p)) fi (.marshaler body : GoVal (.marshaler n p)))
          (.marshaler n p) with
      | some err => exact .refused _
      | none => exact .struct _ .nothing

theorem marshalTTLV_program (ctx : Ctx) (tag : Tag) :
    ∀ {ty : GoType} (v : GoVal ty), EveryRaw R v → Program R fun e => marshalTTLV reg ctx tag v e
  | .scalar s, .scalar v => fun _ => by
    simp only [marshalTTLV]
    cases marshalScalar s v with
    | none => exact .nothing
    | some p => exact .prim tag p
  | _, .value vt v => fun h => by
    simp only [marshalTTLV]
    exact marshalValue_program ctx _ v h
  | _, .marshaler body => fun h => by
    simp only [marshalTTLV]
    exact runActs_program ctx tag body h
  | _, .ifaceNil | _, .iface _ | _, .ptrNil | _, .ptr _ | _, .slice _ | _, .array _
  | _, .struct _ => fun _ => by
    simp only [marshalTTLV]
    exact .nothing

theorem marshalValue_program (ctx : Ctx) (tag : Tag) :
    ∀ {ty : GoType} (v : GoVal ty), EveryRaw R v → Program R fun e => marshalValue reg ctx tag v e
  | _, .iface v => fun h => by
    have hplain := (encode_program ctx .ptr false tag none v h).thenFlush
    match v with
    | .slice (n := n) (e := .value) vs =>
      simp only [marshalValue]
      split
      · exact .struct tag (encodeEach_program ctx vs h)
      · exact hplain
    | .slice (e := .scalar _) _ | .slice (e := .iface) _ | .slice (e := .ptr _) _
    | .slice (e := .slice _ _) _ | .slice (e := .array _ _) _ | .slice (e := .struct _ _) _
    | .slice (e := .marshaler _ _) _ | .scalar _ | .ifaceNil | .iface _ | .ptrNil | .ptr _
    | .array _ | .struct _ | .value _ _ | .marshaler _ =>
      simp only [marshalValue]
      exact hplain
  | _, .ifaceNil => fun _ => by
    simp only [marshalValue]
    exact .flush
  | _, .scalar _ | _, .ptrNil | _, .ptr _ | _, .slice _ | _, .array _ | _, .struct _
  | _, .value _ _ | _, .marshaler _ => fun _ => by
    simp only [marshalValue]
    exact .nothing

theorem encodeEach_program (ctx : Ctx) :
    ∀ {t : GoType} (vs : GoVals t), ElemsRaw R vs → Program R fun e => encodeEach reg ctx vs e
  | _, .nil => fun _ => by
    simp only [encodeEach]
    exact .nothing
  | _, .cons v vs => fun h => by
    simp only [encodeEach]
    exact .andThen (encode_program ctx .any false tagNone none v h.1).thenFlush (encodeEach_program ctx vs h.2)

theorem encodeElems_program (ctx : Ctx) (addr : Bool) (tag : Tag) (fi : Option FieldInfo) :
    ∀ {t : GoType} (vs : GoVals t), ElemsRaw R vs → Program R fun e => encodeElems reg ctx addr tag fi vs e
  | _, .nil => fun _ => by
    simp only [encodeElems]
    exact .nothing
  | _, .cons v vs => fun h => by
    simp only [encodeElems]
    exact .andThen (encode_program ctx .any addr tag fi v h.1) (encodeElems_program ctx addr tag fi vs h.2)

theorem encodeFields_program (ctx : Ctx) (addr : Bool) :
    ∀ (slots : List Slot) {fs : Fields} (vs : FieldVals fs), FieldsRaw R vs →
      Program R fun e => encodeFields reg ctx addr slots vs e
  | slots, _, .cons v vs => fun h => by
    match slots with
    | .valueField fi :: slots =>
      simp only [encodeFields]
      exact .andThen (encode_program ⟨ctx.currStruct, fi.name⟩ .any addr tagNone (some fi) v h.1)
        (encodeFields_program ctx addr slots vs h.2)
    | .skipped :: slots | .tagField _ :: slots =>
      simp only [encodeFields]
      exact encodeFields_program ctx addr slots vs h.2
    | [] =>
      simp only [encodeFields]
      exact .nothing
  | _, _, .nil => fun _ => by
    simp only [encodeFields]
    exact .nothing

theorem runActs_program (ctx : Ctx) (given : Tag) :
    ∀ acts : Acts, ActsRaw R acts → Program R fun e => runActs reg ctx given acts e
  | .done => fun _ => by
    simp only [runActs]
    exact .nothing
  | .fail msg => fun _ => by
    simp only [runActs]
    exact .refused _
  | .prim tag p rest => fun h => by
    simp only [runActs]
    exact .andThen (.prim (tag.get given) p) (runActs_program ctx given rest h)
  | .structure tag body rest => fun h => by
    simp only [runActs]
    exact .andThen (.struct _ (runActs_program ctx given body h.1)) (runActs_program ctx given rest h.2)
  | .encodeValue tag v rest => fun h => by
    simp only [runActs]
    exact .andThen (encode_program ctx .any false _ none v h.1).thenFlush (runActs_program ctx given rest h.2)
  | .flush rest => fun h => by
    simp only [runActs]
    exact .andThen .flush (runActs_program ctx given rest h)
end

end

/-! ## Frames -/

/-- The type, value and padding of an item without children. -/
structure Content where
  ty : Typ
  value : Bytes
  padding : Bytes
  plain : ty ≠ .Structure
  len : ty.validLen value.length = true
  pad : padding.length = padTo8 value.length

/-- An item with its children.  Its tag is any three bytes. -/
inductive Frame where
  | leaf (tag : BitVec 24) (content : Content)
  | struct (tag : BitVec 24) (children : List Frame)

mutual
def Frame.bytes : Frame → Bytes
  | .leaf tag c => header (tag.setWidth 32) c.ty c.value.length ++ (c.value ++ c.padding)
  | .struct tag children =>
    header (tag.setWidth 32) .Structure (framesBytes children).length ++ framesBytes children
def framesBytes : List Frame → Bytes
  | [] => []
  | f :: fs => f.bytes ++ framesBytes fs
end

mutual
/-- Every tag of a frame is in the standard range or in the custom one. -/
def Frame.TagsValid : Frame → Prop
  | .leaf tag _ => Tag.Valid (tag.setWidth 32)
  | .struct tag children => Tag.Valid (tag.setWidth 32) ∧ framesTagsValid children
def framesTagsValid : List Frame → Prop
  | [] => True
  | f :: fs => f.TagsValid ∧ framesTagsValid fs
end

theorem framesBytes_append (fs gs : List Frame) : framesBytes (fs ++ gs) = framesBytes fs ++ framesBytes gs := by
  induction fs with
  | nil => rfl
  | cons f fs ih => rw [List.cons_append, framesBytes, framesBytes, ih, List.append_assoc]

theorem framesBytes_singleton (f : Frame) : framesBytes [f] = f.bytes := by
  rw [framesBytes, framesBytes, List.append_nil]

mutual
theorem Frame.dvd_length : ∀ f : Frame, 8 ∣ f.bytes.length
  | .leaf tag c => by
    rw [Frame.bytes, List.length_append, List.length_append, length_header, c.pad]
    exact Nat.dvd_add (Nat.dvd_refl 8) (padTo8_add_dvd _)
  | .struct tag children => by
    rw [Frame.bytes, List.length_append, length_header]
    exact Nat.dvd_add (Nat.dvd_refl 8) (framesBytes_dvd children)
theorem framesBytes_dvd : ∀ fs : List Frame, 8 ∣ (framesBytes fs).length
  | [] => by simp [framesBytes]
  | f :: fs => by
    rw [framesBytes, List.length_append]
    exact Nat.dvd_add f.dvd_length (framesBytes_dvd fs)
end

theorem Frame.length_ge (f : Frame) : 8 ≤ f.bytes.length := by
  cases f <;> simp [Frame.bytes]

/-! ## Programs write frames -/

/-- The bytes are a sequence of whole frames. -/
def Framed (b : Bytes) : Prop := ∃ fs : List Frame, b = framesBytes fs

theorem framed_nil : Framed [] := ⟨[], rfl⟩

theorem Framed.append {b c : Bytes} (hb : Framed b) (hc : Framed c) : Framed (b ++ c) := by
  obtain ⟨fs, rfl⟩ := hb
  obtain ⟨gs, rfl⟩ := hc
  exact ⟨fs ++ gs, (framesBytes_append fs gs).symm⟩

theorem header_setWidth (tag : Tag) (ty : Typ) (l : Nat) :
    header ((tag.setWidth 24).setWidth 32) ty l = header tag ty l := by
  have hwire : (tag.setWidth 24).setWidth 32 = wireTag tag := by
    apply BitVec.eq_of_toNat_eq
    simp only [BitVec.toNat_setWidth, toNat_wireTag]
    omega
  rw [hwire, header_wireTag]

theorem content_valid {p : Prim} {ty : Typ} {value : Bytes} (h : p.content = some (ty, value)) :
    ty ≠ .Structure ∧ ty.validLen value.length = true := by
  cases p with
  | bigInteger i =>
    cases i with
    | none => cases h
    | some i =>
      cases h
      have hdvd := (shortest8_bigIntValue i).dvd
      refine ⟨by decide, ?_⟩
      simp only [Typ.validLen, beq_iff_eq]
      omega
  | byteString b =>
    cases b with
    | none => cases h
    | some b =>
      cases h
      exact ⟨by decide, rfl⟩
  | _ =>
    cases h
    exact ⟨by decide, by simp [Typ.validLen]⟩

theorem framed_prim (tag : Tag) (p : Prim) : Framed (p.item tag) := by
  rw [Prim.item]
  cases hp : p.content with
  | none => exact framed_nil
  | some c =>
    obtain ⟨ty, value⟩ := c
    obtain ⟨hplain, hlen⟩ := content_valid hp
    refine ⟨[.leaf (tag.setWidth 24) ⟨ty, value, List.replicate (padTo8 value.length) 0, hplain, hlen,
      List.length_replicate⟩], ?_⟩
    rw [framesBytes_singleton, Frame.bytes, header_setWidth]
    rfl

theorem framed_struct (tag : Tag) {b : Bytes} (hb : Framed b) : Framed (item tag .Structure b) := by
  obtain ⟨fs, rfl⟩ := hb
  refine ⟨[.struct (tag.setWidth 24) fs], ?_⟩
  rw [framesBytes_singleton, Frame.bytes, header_setWidth, item, padTo8_eq_zero (framesBytes_dvd fs),
    List.replicate_zero, List.append_nil]

/-- What a program emits is a sequence of frames, also when it fails. -/
theorem Program.framed {f : Enc → EncRes} (hf : Program Framed f) : ∃ b err, Writes f b err ∧ Framed b := by
  induction hf with
  | nothing => exact ⟨[], none, Writes.nothing none, framed_nil⟩
  | refused err => exact ⟨[], some err, Writes.nothing (some err), framed_nil⟩
  | flush => exact ⟨[], none, Writes.flush, framed_nil⟩
  | prim tag p => exact ⟨_, none, Writes.emitRun tag (.prim p), framed_prim tag p⟩
  | raw tag hb => exact ⟨_, none, Writes.emitRun tag (.raw _), hb⟩
  | andThen hf hg ihf ihg =>
    obtain ⟨b, err, hwf, hb⟩ := ihf
    obtain ⟨c, err', hwg, hc⟩ := ihg
    cases err with
    | none => exact ⟨b ++ c, err', hwf.andThen hwg, hb.append hc⟩
    | some x => exact ⟨b, some x, hwf.andThen_error _, hb⟩
  | struct tag hf ih =>
    obtain ⟨b, err, hw, hb⟩ := ih
    exact ⟨_, err, hw.struct tag, framed_struct tag hb⟩

/-- No structure is open, and nothing in the writer or in the buffer is half an item. -/
structure Tidy (e : Enc) : Prop where
  depth : e.encodeDepth = 0
  w : Framed e.w
  encBuf : Framed e.encBuf

theorem tidy_newEncoder : Tidy newEncoder := ⟨rfl, framed_nil, framed_nil⟩

/-- A structure goes to the buffer as a whole. -/
theorem encodeStructure_tidy {f : Enc → EncRes} {b : Bytes} {err : Option EncErr} (tag : Tag)
    (hw : Writes f b err) (hb : Framed b) {e : Enc} (he : Tidy e) : Tidy (encodeStructure tag f e).1 := by
  have hall := hw.struct tag
  have hsame : (encodeStructure tag f e).1.w = e.w := by
    have hin := hw.inside { e with
      encodeDepth := e.encodeDepth + 1
      encBuf := (EncBuf.begin e.encBuf tag .Structure).1 } (Nat.succ_pos _)
    rw [encodeStructure]
    exact hin
  have htotal := hall.total e
  rw [hsame, List.append_assoc] at htotal
  refine ⟨(hall.depth e).trans he.depth, by rw [hsame]; exact he.w, ?_⟩
  rw [List.append_cancel_left htotal]
  exact he.encBuf.append (framed_struct tag hb)

theorem flush_tidy {e : Enc} (he : Tidy e) : Tidy (flush e).1 := by
  have hopen : ¬ e.encodeDepth > 0 := by
    have hdepth := he.depth
    omega
  rw [flush, if_neg hopen]
  exact ⟨he.depth, he.w.append he.encBuf, framed_nil⟩

/-- A program keeps an encoder tidy, also when it fails. -/
theorem Program.tidy {f : Enc → EncRes} (hf : Program Framed f) : ∀ {e : Enc}, Tidy e → Tidy (f e).1 := by
  induction hf with
  | nothing | refused => exact id
  | flush => exact flush_tidy
  | prim tag p =>
    intro e he
    refine ⟨he.depth, he.w, ?_⟩
    show Framed (encodePrim e.encBuf tag p)
    rw [encodePrim_eq]
    exact he.encBuf.append (framed_prim tag p)
  | raw tag hb => exact fun he => ⟨he.depth, he.w, he.encBuf.append hb⟩
  | @andThen f g _ _ ihf ihg =>
    intro e he
    have hfirst := ihf he
    show Tidy (EncRes.andThen (f e) g).1
    cases hfe : f e with
    | mk e' err =>
      rw [hfe] at hfirst
      cases err with
      | none => exact ihg hfirst
      | some x => exact hfirst
  | struct tag hf _ =>
    intro e he
    obtain ⟨b, err, hw, hb⟩ := hf.framed
    exact encodeStructure_tidy tag hw hb he

theorem call_tidy (reg : Registry) {c : Call} (hraw : EveryRaw Framed c.v) {e : Enc} (he : Tidy e) :
    Tidy (c.run reg e).1 :=
  (encode_program reg Ctx.top .any false c.tag none c.v hraw).thenFlush.tidy he

theorem tidy_runCalls (reg : Registry) {calls : List Call} (hraw : ∀ c ∈ calls, EveryRaw Framed c.v) :
    Tidy (runCalls reg calls) := by
  induction calls using List.reverseRecOn with
  | nil => exact tidy_newEncoder
  | append_singleton calls c ih =>
    rw [runCalls_snoc]
    exact call_tidy reg (hraw c (by simp)) (ih fun d hd => hraw d (by simp [hd]))

/-! ## Frames and blocks -/

theorem Content.leafRule (c : Content) (h : c.value.length < 2 ^ 32) : LeafRule c.ty c.value c.padding := by
  have hlen := c.len
  have hpad := c.pad
  cases hty : c.ty with
  | Structure => exact absurd hty c.plain
  | TextString | ByteString => exact ⟨hpad, h⟩
  | BigInteger =>
    rw [hty] at hlen
    simp only [Typ.validLen, beq_iff_eq] at hlen
    rw [padTo8_eq_zero (Nat.dvd_of_mod_eq_zero hlen)] at hpad
    exact ⟨hlen, hpad, h⟩
  | _ =>
    rw [hty] at hlen
    simp only [Typ.validLen, beq_iff_eq] at hlen
    rw [hlen] at hpad
    exact ⟨hlen, hpad⟩

mutual
/-- A frame with valid tags is a block. -/
theorem Frame.exists_block : ∀ f : Frame, f.bytes.length < 2 ^ 32 → f.TagsValid → ∃ b : Block, b.bytes = f.bytes
  | .leaf tag c, hsize, h => by
    rw [Frame.bytes, List.length_append, List.length_append] at hsize
    exact ⟨.leaf ⟨_, h⟩ ⟨_, _, _, c.leafRule (by omega)⟩, rfl⟩
  | .struct tag children, hsize, h => by
    rw [Frame.bytes, List.length_append] at hsize
    obtain ⟨bs, hbs⟩ := framesBytes_blocks children (by omega) h.2
    refine ⟨.struct ⟨_, h.1⟩ bs, ?_⟩
    rw [Block.bytes, Frame.bytes, hbs]
theorem framesBytes_blocks : ∀ fs : List Frame, (framesBytes fs).length < 2 ^ 32 → framesTagsValid fs →
    ∃ bs, blocksBytes bs = framesBytes fs
  | [], _, _ => ⟨[], rfl⟩
  | f :: fs, hsize, h => by
    rw [framesBytes, List.length_append] at hsize
    obtain ⟨b, hb⟩ := f.exists_block (by omega) h.1
    obtain ⟨bs, hbs⟩ := framesBytes_blocks fs (by omega) h.2
    refine ⟨b :: bs, ?_⟩
    rw [blocksBytes, framesBytes, hb, hbs]
end

theorem toNat_setWidth_lt (tag : BitVec 24) : (tag.setWidth 32 : Tag).toNat < 2 ^ 24 := by
  have hlt := tag.isLt
  rw [BitVec.toNat_setWidth]
  omega

/-- Two items that begin alike have the same header. -/
theorem header_inj {tag : BitVec 24} {t : ValidTag} {ty ty' : Typ} {l l' : Nat} {rest rest' : Bytes}
    (h : header (tag.setWidth 32) ty l ++ rest = header t.1 ty' l' ++ rest') (hl : l < 2 ^ 32)
    (hl' : l' < 2 ^ 32) : tag.setWidth 32 = t.1 ∧ ty = ty' ∧ l = l' ∧ rest = rest' := by
  have htag := tag_header_append (tag.setWidth 32) ty l rest (toNat_setWidth_lt tag)
  have hty := typ_header_append (tag.setWidth 32) ty l rest
  have hlen := len_header_append (tag.setWidth 32) ty l rest hl
  rw [h, tag_header_append _ _ _ _ t.toNat_lt] at htag
  rw [h, typ_header_append, Option.some.injEq] at hty
  rw [h, len_header_append _ _ _ _ hl'] at hlen
  subst hlen hty
  rw [htag] at h
  exact ⟨htag.symm, rfl, rfl, List.append_cancel_left h⟩

mutual
/-- A frame at the beginning of a block has its tags, and so valid ones. -/
theorem Frame.tagsValid_of_block : ∀ (f : Frame) (b : Block) {rest rest' : Bytes}, f.bytes.length < 2 ^ 32 →
    b.Sized → f.bytes ++ rest = b.bytes ++ rest' → f.TagsValid ∧ rest = rest'
  | .leaf tag c, .leaf t l, rest, rest', hf, _, h => by
    rw [Frame.bytes, List.length_append, List.length_append] at hf
    simp only [Frame.bytes, Block.bytes, List.append_assoc] at h
    obtain ⟨htag, hty, hlen, hrest⟩ := header_inj h (by omega) l.rule.length_lt
    have hpad := c.pad.trans ((congrArg padTo8 hlen).trans l.rule.padding_length.symm)
    refine ⟨by rw [Frame.TagsValid, htag]; exact t.2, ?_⟩
    exact (List.append_inj (List.append_inj hrest hlen).2 hpad).2
  | .leaf tag c, .struct t cs, rest, rest', hf, hsize, h => by
    rw [Frame.bytes, List.length_append, List.length_append] at hf
    simp only [Frame.bytes, Block.bytes, List.append_assoc] at h
    obtain ⟨-, hty, -⟩ := header_inj h (by omega) hsize
    exact absurd hty c.plain
  | .struct tag fs, .leaf t l, rest, rest', hf, _, h => by
    rw [Frame.bytes, List.length_append] at hf
    simp only [Frame.bytes, Block.bytes, List.append_assoc] at h
    obtain ⟨-, hty, -⟩ := header_inj h (by omega) l.rule.length_lt
    exact absurd hty.symm (leaf_ty_ne l)
  | .struct tag fs, .struct t cs, rest, rest', hf, hsize, h => by
    rw [Frame.bytes, List.length_append] at hf
    simp only [Frame.bytes, Block.bytes, List.append_assoc] at h
    obtain ⟨htag, -, hlen, hrest⟩ := header_inj h (by omega) hsize
    obtain ⟨hchildren, hrest⟩ := List.append_inj hrest hlen
    refine ⟨⟨by rw [htag]; exact t.2, ?_⟩, hrest⟩
    exact framesTagsValid_of_blocks fs cs (by omega) (fun c hc => Sized.of_mem hc hsize) hchildren
theorem framesTagsValid_of_blocks : ∀ (fs : List Frame) (bs : List Block), (framesBytes fs).length < 2 ^ 32 →
    (∀ b ∈ bs, b.Sized) → framesBytes fs = blocksBytes bs → framesTagsValid fs
  | [], _, _, _, _ => trivial
  | f :: fs, [], _, _, h => by
    have hempty := congrArg List.length h
    have hge := f.length_ge
    rw [framesBytes, List.length_append] at hempty
    simp only [blocksBytes, List.length_nil] at hempty
    omega
  | f :: fs, b :: bs, hsize, hbs, h => by
    rw [framesBytes, List.length_append] at hsize
    rw [framesBytes, blocksBytes] at h
    obtain ⟨hf, hrest⟩ := f.tagsValid_of_block b (by omega) (hbs b (List.mem_cons_self ..)) h
    exact ⟨hf, framesTagsValid_of_blocks fs bs (by omega) (fun c hc => hbs c (List.mem_cons_of_mem b hc)) hrest⟩
end

/-- A frame is valid exactly if its tags are. -/
theorem Frame.isValid_iff {f : Frame} (hsize : f.bytes.length < 2 ^ 32) (rest : Bytes) :
    TTLV.IsValid (f.bytes ++ rest) ↔ f.TagsValid := by
  constructor
  · intro hvalid
    obtain ⟨b, hb, rest', heq⟩ := Ttlv.isValid_iff.mp hvalid
    exact (f.tagsValid_of_block b hsize hb heq).1
  · intro htags
    obtain ⟨b, hb⟩ := f.exists_block hsize htags
    rw [← hb] at hsize ⊢
    have hsized : b.Sized := by
      apply Sized.of_mem (List.mem_singleton_self b)
      rw [blocksBytes, blocksBytes, List.append_nil]
      exact hsize
    exact valid_bytes_append b rest hsized

/-- Let every raw TTLV in the values be a sequence of whole items.  After any history of `EncodeValue`
    calls, of which some may have failed, what was written and what is pending are sequences of whole
    items, with the right lengths and padding at every level.  Each item that its length field can
    measure is valid exactly if all of its tags are. -/
theorem encoder_wellFormed (reg : Registry) {calls : List Call} (hraw : ∀ c ∈ calls, EveryRaw Framed c.v) :
    ∃ written pending : List Frame, (runCalls reg calls).w = framesBytes written ∧
      (runCalls reg calls).encBuf = framesBytes pending ∧
      ∀ f ∈ written ++ pending, f.bytes.length < 2 ^ 32 →
        ∀ rest, TTLV.IsValid (f.bytes ++ rest) ↔ f.TagsValid := by
  obtain ⟨-, ⟨written, hw⟩, pending, hp⟩ := tidy_runCalls reg hraw
  exact ⟨written, pending, hw, hp, fun f _ hsize rest => Frame.isValid_iff hsize rest⟩

/-- A raw TTLV, which is written as it is. -/
def encodeRaw : Call := ⟨tagNone, .scalar .ttlv, .scalar (Prim.item 0x420003 (.enumeration 1))⟩

/-- The first call fails after its first element. -/
theorem encoder_wellFormed_halfEncoded :
    (halfEncoded.fresh Registry.empty).2 ≠ none ∧
    ∃ written pending : List Frame,
      (runCalls Registry.empty [halfEncoded, encodeRaw, halfEncoded]).w = framesBytes written ∧
      (runCalls Registry.empty [halfEncoded, encodeRaw, halfEncoded]).encBuf = framesBytes pending ∧
      ∀ f ∈ written ++ pending, f.bytes.length < 2 ^ 32 →
        ∀ rest, TTLV.IsValid (f.bytes ++ rest) ↔ f.TagsValid := by
  have hhalf : EveryRaw Framed halfEncoded.v := ⟨trivial, trivial, trivial⟩
  have hraw : EveryRaw Framed encodeRaw.v := framed_prim 0x420003 (.enumeration 1)
  refine ⟨by decide +kernel, encoder_wellFormed Registry.empty fun c hc => ?_⟩
  simp only [List.mem_cons, List.not_mem_nil, or_false] at hc
  rcases hc with rfl | rfl | rfl
  · exact hhalf
  · exact hraw
  · exact hhalf

end KmipGo.Encoder
