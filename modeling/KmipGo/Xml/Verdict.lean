import KmipGo.Json.Encode
import KmipGo.Ttlv.Leading
import KmipGo.Xml.Document

/-! # What MarshalXML rejects

`MarshalJSON` asks `Valid` first and `MarshalXML` does not.  It reads whatever is
there: a value that is too short for its accessor panics, a value or a header
that is cut off otherwise is written as far as it goes, and the walk over a
structure ends, without an error, after the first child that is not valid.
The only errors are those of the `xml.Encoder`, about names.

`verdict` says which of the three happens, without the encoder; `endsAs_marshalXML`
is that the encoder follows it.

* `marshalXML_rejects_iff` — `MarshalXML` rejects what `MarshalJSON` rejects on a
  slice iff the slice is valid or a name is refused first.
-/

namespace KmipGo.XmlForm

open KmipGo.Lib KmipGo.Ttlv KmipGo.Reg KmipGo.Text

inductive Verdict where
  | written | refused | panics
deriving DecidableEq, Repr

/-! ## Verdicts -/

/-- The value is long enough for the accessor of its type. -/
def readsValue (t : TTLV) : Bool :=
  match t.typ with
  | some .Integer | some .Enumeration | some .Interval => decide (4 ≤ t.raw.length)
  | some .Boolean | some .LongInteger | some .DateTime | some .DateTimeExtended => decide (8 ≤ t.raw.length)
  | _ => true

/-- Written with the enumeration of an attribute, by a pair of tags. -/
def IsAttributeScalar (n : TTLV) : Prop :=
  n.tag = tagAttributeValue ∧ (n.typ = some .Enumeration ∨ n.typ = some .Integer)

instance (n : TTLV) : Decidable (IsAttributeScalar n) := inferInstanceAs (Decidable (_ ∧ _))

section

variable (reg : Registry)

/-- The verdict on a leaf whose element the encoder takes or not. -/
def leafVerdict (t : TTLV) (named : Prop) [Decidable named] : Verdict :=
  if readsValue t = false then .panics else if named then .written else .refused

/-- The verdict on a child; `other` is the one on a child that is no attribute value. -/
def childVerdict (n : TTLV) (other : Verdict) : Verdict :=
  if IsAttributeScalar n then leafVerdict n (ValueNamed reg) else other

mutual
def verdict (t : TTLV) : Verdict :=
  if _h : t.length = 0 then .written
  else if t.typ = some .Structure then
    if (elementName reg t.tag).1 = [] then .refused else verdictAll t.raw
  else leafVerdict t ((elementName reg t.tag).1 ≠ [])
termination_by 2 * t.length
decreasing_by
  have hraw := raw_length_le t
  simp only [lenHeader] at hraw
  omega

/-- The verdict on the children of a structure: that on the first one that is not written. -/
def verdictAll (n : TTLV) : Verdict :=
  if n.length = 0 then .written
  else match childVerdict reg n (verdict n) with
    | .refused => .refused
    | .panics => .panics
    | .written =>
      match _h : n.next with
      | none => .written
      | some m => verdictAll m
termination_by 2 * n.length + 1
decreasing_by
  · omega
  · have hlt := next_length_lt _h
    omega
end

end

/-! ## The encoder follows the verdict -/

/-- The end of a call on an encoder with these elements open; what is written leaves no other one open. -/
inductive EndsAs (tags : List Bytes) : Verdict → Res XmlTokenErr XmlEncoder → Prop
  | written (out : List XmlToken) : EndsAs tags .written (.ok ⟨tags, out⟩)
  | refused (err : XmlTokenErr) : EndsAs tags .refused (.err err)
  | panics : EndsAs tags .panics .panic

theorem EndsAs.eq_refused {tags : List Bytes} {v : Verdict} {err : XmlTokenErr}
    (h : EndsAs tags v (.err err)) : v = .refused := by
  cases h
  rfl

theorem EndsAs.eq_panics {tags : List Bytes} {v : Verdict} (h : EndsAs tags v .panic) : v = .panics := by
  cases h
  rfl

theorem EndsAs.exists_err {tags : List Bytes} {r : Res XmlTokenErr XmlEncoder}
    (h : EndsAs tags .refused r) : ∃ err, r = .err err := by
  cases h with
  | refused err => exact ⟨err, rfl⟩

section

variable {reg : Registry} {title : Bytes → Bytes} {T : TimeCodec}

theorem isSome_uint32BE (b : Bytes) : (uint32BE b).isSome = decide (4 ≤ b.length) := by
  rw [uint32BE]
  split
  · exact (decide_eq_false (by omega)).symm
  · exact (decide_eq_true (by omega)).symm

theorem isSome_uint64BE (b : Bytes) : (uint64BE b).isSome = decide (8 ≤ b.length) := by
  rw [uint64BE]
  split
  · exact (decide_eq_false (by omega)).symm
  · exact (decide_eq_true (by omega)).symm

theorem isSome_valueDateTime (t : TTLV) : t.valueDateTime.isSome = decide (8 ≤ t.raw.length) := by
  rw [TTLV.valueDateTime, Option.isSome_map, TTLV.valueLongInteger, isSome_uint64BE]

theorem isSome_valueBoolean (t : TTLV) : t.valueBoolean.isSome = decide (8 ≤ t.raw.length) := by
  rw [TTLV.valueBoolean, Option.isSome_map]
  by_cases h : 8 ≤ t.raw.length
  · rw [List.getElem?_eq_getElem h, decide_eq_true h, Option.isSome_some]
  · rw [List.getElem?_eq_none (by omega), decide_eq_false h, Option.isSome_none]

/-- The use of what an accessor returns. -/
theorem ofOption_bind_cases {α : Type} {o : Option α} {b : Bool} (h : o.isSome = b) (f : α → GoString) :
    (b = false ∧ (Res.ofOption o >>= fun v => pure (f v) : Res XmlTokenErr GoString) = .panic) ∨
      b = true ∧ ∃ s, (Res.ofOption o >>= fun v => pure (f v) : Res XmlTokenErr GoString) = .ok s := by
  cases o with
  | none => exact Or.inl ⟨h.symm, rfl⟩
  | some v => exact Or.inr ⟨h.symm, f v, rfl⟩

/-- `out.Value`, whatever the type byte is. -/
def valueOrEmpty (reg : Registry) (T : TimeCodec) (t : TTLV) : Res XmlTokenErr GoString :=
  match t.typ with
  | some ty => valueAttr reg T t ty
  | none => return []

variable (reg T) in
/-- The accessor of the type panics iff the value is too short for it. -/
theorem valueOrEmpty_cases (t : TTLV) :
    (readsValue t = false ∧ valueOrEmpty reg T t = .panic) ∨
      readsValue t = true ∧ ∃ s, valueOrEmpty reg T t = .ok s := by
  cases hty : t.typ with
  | none =>
    rw [readsValue, valueOrEmpty, hty]
    exact Or.inr ⟨rfl, [], rfl⟩
  | some ty =>
    rw [readsValue, valueOrEmpty, hty]
    cases ty with
    | Structure | BigInteger | TextString | ByteString => exact Or.inr ⟨rfl, _, rfl⟩
    | Integer => exact ofOption_bind_cases (isSome_uint32BE t.raw) _
    | Enumeration => exact ofOption_bind_cases (isSome_uint32BE t.raw) _
    | Interval => exact ofOption_bind_cases (isSome_uint32BE t.raw) _
    | LongInteger => exact ofOption_bind_cases (isSome_uint64BE t.raw) _
    | DateTime => exact ofOption_bind_cases (isSome_valueDateTime t) _
    | DateTimeExtended => exact ofOption_bind_cases (isSome_valueDateTime t) _
    | Boolean => exact ofOption_bind_cases (isSome_valueBoolean t) _

theorem endsAs_encodeElement (e : XmlEncoder) (name : GoString) (attrs : List (Bytes × Bytes)) :
    EndsAs e.tags (if name ≠ [] then .written else .refused) (encodeElement e name attrs) := by
  by_cases hname : name = []
  · rw [if_neg (not_not.mpr hname), encodeElement, XmlEncoder.encodeToken, if_pos hname]
    exact .refused _
  · rw [if_pos hname, encodeElement_eq e hname]
    exact .written _

theorem endsAs_encodeAttributeValue (e : XmlEncoder) (typ value : GoString) :
    EndsAs e.tags (if ValueNamed reg then .written else .refused) (encodeAttributeValue reg e typ value) := by
  have hlit : lit "AttributeValue" ≠ [] := by decide
  rw [encodeAttributeValue]
  by_cases hname : reg.formatTag tagAttributeValue = []
  · have hnamed : ¬ ValueNamed reg := by
      rw [ValueNamed, hname]
      exact fun heq => hlit heq.symm
    rw [if_neg hnamed, hname, XmlEncoder.encodeToken, if_pos rfl]
    exact .refused _
  · rw [XmlEncoder.encodeToken_start e hname, ofExcept, Res.ok_bind]
    by_cases hnamed : ValueNamed reg
    · rw [if_pos hnamed]
      rw [ValueNamed] at hnamed
      rw [hnamed, XmlEncoder.encodeToken_stop hlit]
      exact .written _
    · rw [if_neg hnamed, XmlEncoder.encodeToken, if_neg hlit]
      simp only [if_neg hname, ne_eq]
      rw [ValueNamed] at hnamed
      rw [if_pos hnamed]
      exact .refused _

theorem endsAs_encodeMarshaler (marshal : XmlEncoder → Res XmlTokenErr XmlEncoder) {v : Verdict}
    (e : XmlEncoder) (h : EndsAs e.openMarshaler.tags v (marshal e.openMarshaler)) :
    EndsAs e.tags v (encodeMarshaler marshal e) := by
  rw [encodeMarshaler]
  generalize marshal e.openMarshaler = r at h
  cases h with
  | written out =>
    simp only [Res.ok_bind, XmlEncoder.openMarshaler, XmlEncoder.closeMarshaler_openMarshaler, ofExcept]
    exact .written out
  | refused err => exact .refused err
  | panics => exact .panics

/-- A leaf that is read first and then written. -/
theorem endsAs_leaf {e : XmlEncoder} (t : TTLV) {named : Prop} [Decidable named]
    {write : GoString → Res XmlTokenErr XmlEncoder}
    (h : ∀ s, EndsAs e.tags (if named then .written else .refused) (write s)) :
    EndsAs e.tags (leafVerdict t named) (valueOrEmpty reg T t >>= write) := by
  rw [leafVerdict]
  rcases valueOrEmpty_cases reg T t with ⟨hreads, hval⟩ | ⟨hreads, s, hval⟩
  · rw [if_pos hreads, hval]
    exact .panics
  · rw [if_neg (by simp [hreads]), hval]
    exact h s

/-- An attribute value that is read first and then written. -/
theorem endsAs_attributeScalar {e : XmlEncoder} {n : TTLV} (hty : n.typ = some .Enumeration ∨ n.typ = some .Integer)
    (typ : GoString) (text : BitVec 32 → GoString) :
    EndsAs e.tags (leafVerdict n (ValueNamed reg))
      (Res.ofOption (uint32BE n.raw) >>= fun v => encodeAttributeValue reg e typ (text v)) := by
  have hreads : readsValue n = (uint32BE n.raw).isSome := by
    rw [readsValue, isSome_uint32BE]
    rcases hty with hty | hty
    · rw [hty]
    · rw [hty]
  rw [leafVerdict, hreads]
  cases uint32BE n.raw with
  | none => exact .panics
  | some v => exact endsAs_encodeAttributeValue e typ (text v)

variable (reg) in
theorem endsAs_encodeChild (attrTag : Tag) (n : TTLV) {v : Verdict} {other : Res XmlTokenErr XmlEncoder}
    {e : XmlEncoder} (h : EndsAs e.tags v other) :
    EndsAs e.tags (childVerdict reg n v) (encodeChild reg attrTag n other e) := by
  rw [childVerdict, encodeChild]
  by_cases hscalar : IsAttributeScalar n
  · rw [if_pos hscalar, if_pos ⟨hscalar.1, hscalar.2⟩]
    split
    · exact endsAs_attributeScalar hscalar.2 _ _
    · exact endsAs_attributeScalar hscalar.2 _ _
  · rw [if_neg hscalar, if_neg (fun hboth => hscalar ⟨hboth.1, hboth.2⟩)]
    exact h

theorem verdictAll_eq {n : TTLV} (h : ¬ n.length = 0) : verdictAll reg n =
    match childVerdict reg n (verdict reg n) with
    | .refused => .refused
    | .panics => .panics
    | .written => n.next.elim .written (verdictAll reg) := by
  rw [verdictAll, if_neg h]
  cases n.next <;> rfl

theorem marshalXMLChildren_eq {n : TTLV} (h : ¬ n.length = 0) (attrTag : Tag) (e : XmlEncoder) :
    marshalXMLChildren reg title T attrTag n e =
      (encodeChild reg (nextAttr reg title attrTag n) n
        (encodeMarshaler (fun e => marshalXML reg title T n e) e) e >>= fun e =>
        n.next.elim (.ok e) fun m => marshalXMLChildren reg title T (nextAttr reg title attrTag n) m e) := by
  rw [marshalXMLChildren, if_neg h]
  cases n.next <;> rfl

/-- One turn of the loop over children. -/
theorem endsAs_marshalXMLChildren_step {n : TTLV}
    (hchild : ∀ e, EndsAs e.tags (verdict reg n) (marshalXML reg title T n e))
    (hrest : ∀ m, n.next = some m → ∀ attrTag e,
      EndsAs e.tags (verdictAll reg m) (marshalXMLChildren reg title T attrTag m e))
    (attrTag : Tag) (e : XmlEncoder) :
    EndsAs e.tags (verdictAll reg n) (marshalXMLChildren reg title T attrTag n e) := by
  by_cases hnil : n.length = 0
  · rw [verdictAll, marshalXMLChildren, if_pos hnil, if_pos hnil]
    exact .written e.out
  · rw [verdictAll_eq hnil, marshalXMLChildren_eq hnil]
    have hfirst := endsAs_encodeChild reg (nextAttr reg title attrTag n) n
      (endsAs_encodeMarshaler (fun e => marshalXML reg title T n e) e (hchild e.openMarshaler))
    generalize childVerdict reg n (verdict reg n) = v at hfirst ⊢
    generalize encodeChild reg (nextAttr reg title attrTag n) n
      (encodeMarshaler (fun e => marshalXML reg title T n e) e) e = r at hfirst ⊢
    cases hfirst with
    | refused err => exact .refused err
    | panics => exact .panics
    | written out =>
      rw [Res.ok_bind]
      cases hnext : n.next with
      | none => exact .written out
      | some m => exact hrest m hnext _ ⟨e.tags, out⟩

/-- One call, given the loop over the value of a structure. -/
theorem endsAs_marshalXML_step {t : TTLV}
    (hinner : t.length ≠ 0 → ∀ attrTag e,
      EndsAs e.tags (verdictAll reg t.raw) (marshalXMLChildren reg title T attrTag t.raw e))
    (e : XmlEncoder) : EndsAs e.tags (verdict reg t) (marshalXML reg title T t e) := by
  rw [verdict, marshalXML]
  by_cases hnil : t.length = 0
  · rw [dif_pos hnil, dif_pos hnil]
    exact .written e.out
  · rw [dif_neg hnil, dif_neg hnil]
    by_cases hty : t.typ = some .Structure
    · rw [if_pos hty, if_pos hty]
      by_cases hname : (elementName reg t.tag).1 = []
      · rw [if_pos hname, XmlEncoder.encodeToken, if_pos hname]
        exact .refused _
      · -- the children are written inside of the open element, which the end tag closes
        have hends := hinner hnil tagNone
          ⟨(elementName reg t.tag).1 :: e.tags, e.out ++ [.start (elementName reg t.tag).1 []]⟩
        rw [if_neg hname, XmlEncoder.encodeToken_start e hname, ofExcept, Res.ok_bind]
        generalize verdictAll reg t.raw = v at hends ⊢
        generalize marshalXMLChildren reg title T tagNone t.raw _ = r at hends ⊢
        cases hends with
        | refused err => exact .refused err
        | panics => exact .panics
        | written out =>
          rw [Res.ok_bind, XmlEncoder.encodeToken_stop hname]
          exact .written _
    · rw [if_neg hty, if_neg hty]
      exact endsAs_leaf t fun s => endsAs_encodeElement e _ _

variable (reg title T) in
/-- The encoder follows the verdict, whatever has been written to it before. -/
theorem endsAs_marshalXML (t : TTLV) :
    (∀ e, EndsAs e.tags (verdict reg t) (marshalXML reg title T t e)) ∧
    (∀ attrTag e, EndsAs e.tags (verdictAll reg t) (marshalXMLChildren reg title T attrTag t e)) := by
  revert t
  apply walk_induction
  · intro t hinner
    exact endsAs_marshalXML_step hinner
  · intro t hone hrest
    exact endsAs_marshalXMLChildren_step hone hrest

/-! ## Valid blocks are read -/

theorem readsValue_leaf (tag : ValidTag) (l : Leaf) (rest : Bytes) :
    readsValue ((Block.leaf tag l).bytes ++ rest) = true := by
  have hrule := l.rule
  rw [readsValue, typ_leaf_append, raw_leaf_append]
  cases hty : l.ty with
  | Structure => exact absurd hty (leaf_ty_ne l)
  | TextString | ByteString | BigInteger => rfl
  | Integer | Enumeration | Interval =>
    rw [hty] at hrule
    exact decide_eq_true (Nat.le_of_eq hrule.1.symm)
  | LongInteger | Boolean | DateTime | DateTimeExtended =>
    rw [hty] at hrule
    exact decide_eq_true (Nat.le_of_eq hrule.1.symm)

theorem leafVerdict_ne_panics {t : TTLV} (h : readsValue t = true) (named : Prop) [Decidable named] :
    leafVerdict t named ≠ .panics := by
  rw [leafVerdict, if_neg (by simp [h])]
  split
  · exact nofun
  · exact nofun

variable (reg) in
/-- Every accessor that `MarshalXML` calls on a child that is no structure has its bytes. -/
theorem childVerdict_ne_panics (c : Block) (rest : Bytes) {v : Verdict} (h : v ≠ .panics) :
    childVerdict reg (c.bytes ++ rest) v ≠ .panics := by
  rw [childVerdict]
  split
  · rename_i hscalar
    cases c with
    | leaf tag l => exact leafVerdict_ne_panics (readsValue_leaf tag l rest) _
    | struct tag cs =>
      have hty := hscalar.2
      rw [typ_struct_append] at hty
      rcases hty with hty | hty
      · cases hty
      · cases hty
  · exact h

mutual
theorem verdict_ne_panics : ∀ (b : Block) (rest : Bytes), b.Sized → verdict reg (b.bytes ++ rest) ≠ .panics
  | .leaf tag l, rest, _ => by
    rw [verdict, dif_neg (bytes_append_length_ne_zero _ _), if_neg (typ_leaf_append_ne tag l rest)]
    exact leafVerdict_ne_panics (readsValue_leaf tag l rest) _
  | .struct tag cs, rest, hsize => by
    rw [verdict, dif_neg (bytes_append_length_ne_zero _ _), if_pos (typ_struct_append tag cs rest),
      raw_struct_append tag cs rest hsize]
    split
    · exact nofun
    · exact verdictAll_ne_panics cs fun c hc => Sized.of_mem hc hsize

theorem verdictAll_ne_panics : ∀ cs : List Block, (∀ c ∈ cs, c.Sized) →
    verdictAll reg (blocksBytes cs) ≠ .panics
  | [], _ => by
    rw [blocksBytes, verdictAll, if_pos List.length_nil]
    exact nofun
  | c :: cs, hsize => by
    have hc : c.Sized := hsize c (List.mem_cons_self ..)
    have hfirst := childVerdict_ne_panics reg c (blocksBytes cs) (verdict_ne_panics c (blocksBytes cs) hc)
    rw [blocksBytes, verdictAll_eq (bytes_append_length_ne_zero c _), next_bytes_append c _ hc]
    split
    · exact nofun
    · rename_i hpanics
      exact absurd hpanics hfirst
    · split
      · exact nofun
      · exact verdictAll_ne_panics cs fun d hd => hsize d (List.mem_cons_of_mem c hd)
end

/-! ## Names that can be written -/

/-- Every element has a name, and the fixed end tag of attribute values has theirs. -/
structure NamesFit (reg : Registry) : Prop where
  named : ∀ tag, (elementName reg tag).1 ≠ []
  valueNamed : ValueNamed reg

theorem leafVerdict_ne_refused (t : TTLV) {named : Prop} [Decidable named] (h : named) :
    leafVerdict t named ≠ .refused := by
  rw [leafVerdict, if_pos h]
  split
  · exact nofun
  · exact nofun

/-- Nothing is refused then. -/
theorem verdict_ne_refused (h : NamesFit reg) (t : TTLV) :
    verdict reg t ≠ .refused ∧ verdictAll reg t ≠ .refused := by
  revert t
  apply walk_induction
  · intro t hinner
    rw [verdict]
    split
    · exact nofun
    · rename_i hne
      split
      · rw [if_neg (h.named t.tag)]
        exact hinner hne
      · exact leafVerdict_ne_refused t (h.named t.tag)
  · intro t hone hrest
    by_cases hnil : t.length = 0
    · rw [verdictAll, if_pos hnil]
      exact nofun
    · rw [verdictAll_eq hnil]
      have hchild : childVerdict reg t (verdict reg t) ≠ .refused := by
        rw [childVerdict]
        split
        · exact leafVerdict_ne_refused t h.valueNamed
        · exact hone
      split
      · rename_i hrefused
        exact absurd hrefused hchild
      · exact nofun
      · cases hnext : t.next with
        | none => exact nofun
        | some m => exact hrest m hnext

end

/-! ## Rejection -/

/-- `MarshalXML` rejects `t` if `MarshalJSON` does, and reads nothing outside of it. -/
structure RejectsAlike (reg : Registry) (title : Bytes → Bytes) (C : JsonCodec) (T : TimeCodec) (t : TTLV) :
    Prop where
  json : ¬ t.IsValid → ∃ err, JsonForm.marshalJSON reg title C T t = .err err
  xml : ¬ t.IsValid → ∀ e, ∃ err, marshalXML reg title T t e = .err err
  inside : ∀ e, marshalXML reg title T t e ≠ .panic

section

variable (reg : Registry) (title : Bytes → Bytes) (C : JsonCodec) (T : TimeCodec)

theorem marshalJSON_of_invalid {t : TTLV} (hne : t ≠ []) (h : ¬ t.IsValid) :
    ∃ err, JsonForm.marshalJSON reg title C T t = .err err := by
  have hlen : ¬ t.length = 0 := fun h0 => hne (List.length_eq_zero_iff.mp h0)
  rw [JsonForm.marshalJSON, dif_neg hlen]
  cases hv : t.valid with
  | panic => exact absurd hv (valid_ne_panic t).1
  | err e => exact ⟨_, rfl⟩
  | ok u => exact absurd hv h

/-- `MarshalXML` rejects what `MarshalJSON` rejects iff there is nothing to reject or a name is refused
    first; where all names can be written, that is iff the slice is valid. -/
theorem marshalXML_rejects_iff {t : TTLV} (hne : t ≠ []) :
    (RejectsAlike reg title C T t ↔ t.IsValid ∨ verdict reg t = .refused) ∧
    (NamesFit reg → (RejectsAlike reg title C T t ↔ t.IsValid)) := by
  have hends := (endsAs_marshalXML reg title T t).1
  have hiff : RejectsAlike reg title C T t ↔ t.IsValid ∨ verdict reg t = .refused := by
    constructor
    · intro h
      by_cases hv : t.IsValid
      · exact Or.inl hv
      · right
        obtain ⟨err, herr⟩ := h.xml hv ⟨[], []⟩
        have hend := hends ⟨[], []⟩
        rw [herr] at hend
        exact hend.eq_refused
    · intro h
      refine ⟨marshalJSON_of_invalid reg title C T hne, ?_, ?_⟩
      · intro hv e
        have hend := hends e
        rw [h.resolve_left hv] at hend
        exact hend.exists_err
      · intro e hpanic
        have hend := hends e
        rw [hpanic] at hend
        have hpanics := hend.eq_panics
        rcases h with hv | hrefused
        · obtain ⟨b, hsize, rest, rfl⟩ := isValid_iff.mp hv
          exact verdict_ne_panics b rest hsize hpanics
        · rw [hrefused] at hpanics
          cases hpanics
  refine ⟨hiff, fun hnames => hiff.trans ?_⟩
  exact or_iff_left (verdict_ne_refused hnames t).1

end

/-- A text that is cut off and an Integer without a value. -/
def cutText : TTLV := [0x42, 0x00, 0x0a, 0x07, 0, 0, 0, 9, 0x61]
def bareInteger : TTLV := [0x42, 0x00, 0x6a, 0x02, 0, 0, 0, 0]

/-- A tag is registered under a name without a letter, which is normalized to nothing. -/
def namelessRegistry : Registry := Registry.empty.registerTag id 0x42000a (lit "()")

/-- The encoder refuses a cut text where its tag has no name. -/
theorem marshalXML_rejects_emptyName :
    ¬ cutText.IsValid ∧ verdict namelessRegistry cutText = .refused ∧
      RejectsAlike namelessRegistry id compactCodec plainTime cutText := by
  have hrefused : verdict namelessRegistry cutText = .refused := by decide +kernel
  exact ⟨by decide +kernel, hrefused,
    (marshalXML_rejects_iff namelessRegistry id compactCodec plainTime (by decide)).1.mpr (Or.inr hrefused)⟩

/-- An Attribute whose first child is no block; its second one is an AttributeName. -/
def badFirstChild : TTLV :=
  [0x42, 0x00, 0x08, 0x01, 0, 0, 0, 16, 0xde, 0xad, 0xbe, 0xef, 0, 0, 0, 0, 0x42, 0x00, 0x0a, 0x07, 0, 0, 0, 0]

/-- A cut text is written with what is there of it, an Attribute without the name after its bad
    child; an Integer without a value panics. -/
theorem marshalXML_accepts_invalid :
    (∀ t ∈ [cutText, bareInteger, badFirstChild], ¬ TTLV.IsValid t) ∧
      marshalXML attributeRegistry id ⟨fun _ => [], fun _ => none⟩ cutText ⟨[], []⟩ =
        .ok ⟨[], [.start (lit "AttributeName") [(lit "type", lit "TextString"), (lit "value", lit "a")],
          .stop (lit "AttributeName")]⟩ ∧
      marshalXML attributeRegistry id ⟨fun _ => [], fun _ => none⟩ badFirstChild ⟨[], []⟩ =
        .ok ⟨[], [.start (lit "Attribute") [],
          .start (lit "TTLV") [(lit "tag", lit "0xdeadbe"), (lit "type", lit "0xef")],
          .stop (lit "TTLV"), .stop (lit "Attribute")]⟩ ∧
      marshalXML attributeRegistry id ⟨fun _ => [], fun _ => none⟩ bareInteger ⟨[], []⟩ = .panic := by
  decide +kernel

end KmipGo.XmlForm
