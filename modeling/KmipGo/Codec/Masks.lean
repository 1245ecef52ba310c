import KmipGo.Codec.Numbers
import KmipGo.Codec.RoundTrip

/-! # Masks in structs

A generated mask type writes its value as an Integer with the same 32 bits
(`maskTmpl` of `cmd/kmipgen/main.go`), and so does the encoder for any type of
kind `uint32` under a tag that is registered as a mask.  The decoder takes the
Integer for a signed number, which an unsigned field cannot hold if bit 31 is
set.

* `MaskField` — the fields that hold a mask, `MaskFields` — a struct that has
  such fields among others that survive a round trip.
* `mask_struct_iff` — the struct survives if and only if none of its masks has
  bit 31 set.
-/

namespace KmipGo.Codec

open KmipGo.Lib KmipGo.Ttlv KmipGo.Reg KmipGo.Go KmipGo.Encoder KmipGo.Decoder KmipGo.Value
  KmipGo.Message

section

variable (reg : Registry)

/-- The tag is registered as a mask. -/
def RegisteredMask (tag : Tag) : Prop := ∃ e, reg.enumForTag tag = some e ∧ e.bitMask = true

/-- A field that holds the mask `m`: of a generated mask type, or of another type of kind `uint32`
    under a tag registered as a mask. -/
inductive MaskField (fi : FieldInfo) : {ty : GoType} → GoVal ty → BitVec 32 → Prop
  | generated (n : GoString) (m : BitVec 32) :
      MaskField fi (.scalar m : GoVal (.scalar (.enum n true))) m
  | uint32 (n : GoString) (m : BitVec 32) (h : RegisteredMask reg fi.tag) :
      MaskField fi (.scalar m : GoVal (.scalar (.uint n .uint32))) m
  | tag (m : BitVec 32) (h : RegisteredMask reg fi.tag) :
      MaskField fi (.scalar m : GoVal (.scalar .tag)) m

/-- A struct value whose fields hold masks, in order `ms`, or values in range. -/
inductive MaskFields : List Slot → {fs : Fields} → FieldVals fs → List (BitVec 32) → Prop
  | nil : MaskFields [] .nil []
  | mask {fi : FieldInfo} {slots : List Slot} {hdr : FieldHdr} {ty : GoType} {rest : Fields} {v : GoVal ty}
      {m : BitVec 32} {vs : FieldVals rest} {ms : List (BitVec 32)} (hany : fi.flags.any = false)
      (hv : MaskField reg fi v m) (hvs : MaskFields slots vs ms) :
      MaskFields (.valueField fi :: slots) (.cons v vs : FieldVals (.cons hdr ty rest)) (m :: ms)
  | other {fi : FieldInfo} {slots : List Slot} {hdr : FieldHdr} {ty : GoType} {rest : Fields} {v : GoVal ty}
      {vs : FieldVals rest} {ms : List (BitVec 32)} (hany : fi.flags.any = false)
      (hfits : Fits reg .any tagNone fi ty) (hv : InRange reg fi.flags.dateTimeExt v)
      (hvs : MaskFields slots vs ms) :
      MaskFields (.valueField fi :: slots) (.cons v vs : FieldVals (.cons hdr ty rest)) ms

/-! ## One mask -/

/-- The Integer of a mask is read as the mask unless bit 31 is set. -/
theorem runs_of_stores {m : BitVec 32} {cur : BitVec 32} {r : BitVec 32 × Outcome}
    (h : StoresInteger (fun w : BitVec 32 => some (w.toNat : Int)) m.toInt cur r) :
    Runs (m.toNat < 2 ^ 31) (fun w => m.toNat < 2 ^ 31 ∧ w = m) r := by
  have hint := BitVec.toInt_eq_toNat_cond m
  obtain ⟨w, hw, rfl⟩ | ⟨hnone, err, -, rfl⟩ := h
  · have hw := Option.some.inj hw
    have hm := m.isLt
    have hsmall : m.toNat < 2 ^ 31 := by
      split at hint <;> omega
    have hword : w.toNat = m.toNat := by
      split at hint <;> omega
    exact .of_eq rfl ⟨hsmall, BitVec.eq_of_toNat_eq hword⟩
  · refine .of_ne (fun hsmall => ?_) (by simp)
    refine hnone m (congrArg some ?_)
    rw [hint, if_pos (by omega)]

theorem ttlvInteger_word {m : BitVec 32} {t : TTLV} (htyp : t.typ = some .Integer)
    (hraw : t.raw = beBytes 4 m.toNat) : ttlvInteger t = some m.toInt := by
  rw [ttlvInteger, htyp]
  simp only [integerInt, TTLV.valueInteger, hraw, uint32BE_beBytes, Option.map_some]

theorem enumPrim_registered {tag : Tag} (h : RegisteredMask reg tag) (flags : Flags) (m : BitVec 32) :
    enumPrim flags (reg.enumForTag tag) m = .integer m := by
  obtain ⟨e, he, hmask⟩ := h
  simp only [enumPrim, asMask, he, hmask, Bool.or_true, if_true]

/-- A field of kind `uint32` under a tag registered as a mask is written as an Integer. -/
theorem taggedScalar_registered {fi : FieldInfo} (h : RegisteredMask reg fi.tag) {s : Scalar} {v : s.Val}
    {m : BitVec 32} (hnum : enumNumber s v = some m) :
    taggedScalar reg fi.flags fi.tag s v = .ok (.integer m) := by
  have hsome : (reg.enumForTag fi.tag).isSome = true := by
    obtain ⟨e, he, -⟩ := h
    rw [he]
    rfl
  rw [taggedScalar, if_pos (by rw [hsome, Bool.or_true]), hnum]
  simp only [enumPrim_registered reg h]

/-- What is written for a mask is its Integer, unless it is to be omitted, and read back when bit 31 is
    not set. -/
theorem delivers_word {fi : FieldInfo} (hvalid : fi.tag.Valid) {s : Scalar} {v : s.Val} {m : BitVec 32}
    (hnil : scalarIsNil s v = false) (hempty : s.isEmpty v = true → s.zero = v ∧ m = 0)
    (hemit : EmitsItem reg fi s v (.integer m))
    (hread : ∀ (dec : Dec) (t : TTLV), ttlvInteger t = some m.toInt →
      Runs (m.toNat < 2 ^ 31) (fun w => m.toNat < 2 ^ 31 ∧ w = v) (unmarshalScalar dec t s s.zero)) :
    Delivers reg .any tagNone fi (.scalar v) (m.toNat < 2 ^ 31)
      (fun w => m.toNat < 2 ^ 31 ∧ content w = content (.scalar v)) False := by
  have hw : WritesOut reg .any tagNone (some fi) (.scalar v)
      (if fi.flags.omitEmpty && s.isEmpty v then [] else (Prim.integer m).item fi.tag) :=
    writesOut_item reg (Or.inl rfl) hnil hemit
  by_cases homit : (fi.flags.omitEmpty && s.isEmpty v) = true
  · rw [if_pos homit] at hw
    obtain ⟨hzero, rfl⟩ := hempty (Bool.and_eq_true_iff.mp homit).2
    refine .nothing hw ⟨by decide, ?_⟩ id
    rw [GoType.zero, hzero]
  · rw [if_neg homit] at hw
    refine (Delivers.item hvalid hw rfl fun dec t htyp hraw _ =>
      hread dec t (ttlvInteger_word htyp hraw)).mono id (fun w h => ?_) id
    cases w
    exact ⟨h.1, congrArg (fun u => content (.scalar u)) h.2⟩

theorem maskField_delivers {fi : FieldInfo} (hvalid : fi.tag.Valid) {ty : GoType} {v : GoVal ty} {m : BitVec 32}
    (h : MaskField reg fi v m) :
    Delivers reg .any tagNone fi v (m.toNat < 2 ^ 31) (fun w => m.toNat < 2 ^ 31 ∧ content w = content v) False := by
  have hempty : ∀ m : BitVec 32, (m == 0) = true → (0 : BitVec 32) = m ∧ m = 0 := by
    intro m hm
    exact ⟨(eq_of_beq hm).symm, eq_of_beq hm⟩
  cases h with
  | generated n =>
    exact delivers_word reg hvalid rfl (hempty m) (fun ctx => rfl) fun dec t ht =>
      runs_of_stores (storesInteger_unmarshalScalar dec ht (s := .enum n true) rfl (by simp [Scalar.kind]))
  | uint32 n _ hreg =>
    have hself : BitVec.ofNat 32 m.toNat = m := by
      rw [BitVec.ofNat_toNat, BitVec.setWidth_eq]
    refine delivers_word reg hvalid rfl (hempty m)
      (emitsItem_of_tagged reg (ne_none_of_valid hvalid) ⟨by simp, by simp, rfl⟩
        (taggedScalar_registered reg hreg (congrArg some hself))) fun dec t ht => ?_
    exact runs_of_stores (storesInteger_unmarshalScalar dec ht (s := .uint n .uint32) rfl
      (by simp [Scalar.kind, UintKind.kind]))
  | tag _ hreg =>
    exact delivers_word reg hvalid rfl (hempty m)
      (emitsItem_of_tagged reg (ne_none_of_valid hvalid) ⟨by simp, by simp, rfl⟩
        (taggedScalar_registered reg hreg rfl)) fun dec t ht =>
      runs_of_stores (storesInteger_unmarshalScalar dec ht (s := .tag) rfl (by simp [Scalar.kind]))

/-! ## A struct with masks -/

theorem MaskFields.valueFieldsOnly {reg : Registry} {slots : List Slot} {fs : Fields} {vs : FieldVals fs}
    {ms : List (BitVec 32)} (h : MaskFields reg slots vs ms) : ValueFieldsOnly slots := by
  induction h with
  | nil => exact fun fi => List.not_mem_nil
  | mask _ _ _ ih =>
    intro fi hfi
    cases hfi with
    | tail _ hfi => exact ih fi hfi
  | other _ _ _ _ ih =>
    intro fi hfi
    cases hfi with
    | tail _ hfi => exact ih fi hfi

/-- The fields are read back when no mask has bit 31 set: by induction over the fields, with those
    already passed in `pre`. -/
theorem MaskFields.fieldsRead {reg : Registry} {slots : List Slot} {fs : Fields} {vs : FieldVals fs}
    {ms : List (BitVec 32)} (h : MaskFields reg slots vs ms) : ∀ pre : List Slot,
    (TypeInfo.valueFields ⟨tagNone, pre ++ slots⟩).Pairwise TagsDiffer →
    (∀ fi ∈ TypeInfo.valueFields ⟨tagNone, pre ++ slots⟩, fi.tag.Valid) →
    FieldsRead reg (∀ m ∈ ms, m.toNat < 2 ^ 31) (pre ++ slots) pre.length slots vs := by
  have hnext : ∀ (pre slots : List Slot) (fi : FieldInfo),
      pre ++ [.valueField fi] ++ slots = pre ++ .valueField fi :: slots := by
    intro pre slots fi
    simp
  have hmem : ∀ (pre slots : List Slot) (fi : FieldInfo),
      fi ∈ TypeInfo.valueFields ⟨tagNone, pre ++ .valueField fi :: slots⟩ := by
    intro pre slots fi
    exact List.mem_filterMap.mpr ⟨.valueField fi, by simp, rfl⟩
  induction h with
  | nil =>
    intro pre _ _
    exact fieldsRead_nil reg (fun m hm => absurd hm List.not_mem_nil) (pre ++ []) pre.length []
  | @mask fi slots hdr ty rest v m vs ms hany hv hvs ih =>
    intro pre hdiffer hvalid
    have htag := hvalid fi (hmem pre slots fi)
    have hown := findField_own hdiffer hany (ne_none_of_valid htag)
    have hmore := ih (pre ++ [.valueField fi]) (by rw [hnext]; exact hdiffer) (by rw [hnext]; exact hvalid)
    rw [hnext, List.length_append] at hmore
    rw [propext List.forall_mem_cons]
    exact fieldsRead_cons reg hdr hown (maskField_delivers reg htag hv) hmore
  | @other fi slots hdr ty rest v vs ms hany hfits hv hvs ih =>
    intro pre hdiffer hvalid
    have htag := hvalid fi (hmem pre slots fi)
    have hown := findField_own hdiffer hany (ne_none_of_valid htag)
    have hmore := ih (pre ++ [.valueField fi]) (by rw [hnext]; exact hdiffer) (by rw [hnext]; exact hvalid)
    rw [hnext, List.length_append] at hmore
    have hboth := fieldsRead_cons reg hdr hown (val_survives reg v .any tagNone fi hfits hv).always hmore
    rwa [true_and] at hboth

/-- `Marshal` of a struct with mask fields succeeds, and `Unmarshal` gives back the struct if and only if none of
    the masks has bit 31 set. -/
theorem mask_struct_iff {n : GoString} {fs : Fields} {ti : TypeInfo}
    (hti : getTypeInfo reg (.struct n fs) = .ok ti) (htag : ti.inferredTag.Valid)
    (htags : ∀ fi ∈ ti.valueFields, fi.tag.Valid) {vs : FieldVals fs} {ms : List (BitVec 32)}
    (hvs : MaskFields reg ti.slots vs ms) :
    ∃ b, marshal reg (.struct vs : GoVal (.struct n fs)) = .ok b ∧ (b.length < 2 ^ 32 →
      ((∃ w, unmarshalBytes reg (.struct n fs) b = (w, .ok ()) ∧ content w = content (.struct vs)) ↔
        ∀ m ∈ ms, m.toNat < 2 ^ 31)) := by
  have hvalues := hvs.valueFieldsOnly
  have hown : tagOr tagNone ti none (.struct vs : GoVal (.struct n fs)) = ti.inferredTag := by
    rw [tagOr, if_pos rfl, tagForMarshal, intrinsicTag_valueFields hvalues]
  obtain ⟨out, hw, hblock⟩ := (hvs.fieldsRead [] (tagsDiffer_of_getTypeInfo hti :) htags).struct
    (t := ⟨ti.inferredTag, htag⟩) hti hown rfl rfl
  refine ⟨out, marshal_of_writes reg (hw .any Ctx.top false), fun hsize => ?_⟩
  obtain ⟨cs, rfl, hsized, hreads⟩ := hblock hsize
  have hruns := hreads .any newDecoder [] rfl
  rw [unmarshalBytes_block reg n fs hsized]
  constructor
  · rintro ⟨w, hrun, -⟩
    rw [hrun] at hruns
    obtain ⟨ws, -, hsmall, -⟩ := hruns.good rfl
    exact hsmall
  · intro hsmall
    obtain ⟨w, hrun, ws, rfl, -, hcontent⟩ := hruns.result hsmall
    exact ⟨_, hrun, by rw [content, content, hcontent]⟩

end

/-- Two tags registered as masks, as in the generated package, and a struct with a field for each. -/
def maskRegistry : Registry :=
  ((registerTags Registry.empty [(0x42002c, "CryptographicUsageMask"), (0x42008e, "StorageStatusMask"),
      (0x420079, "RequestPayload")]).registerEnum 0x42002c newBitmask).registerEnum 0x42008e newBitmask

def maskFields : Fields :=
  field "CryptographicUsageMask" (.scalar (.enum (lit "CryptographicUsageMask") true))
  (field "StorageStatusMask" (.scalar (.uint (lit "uint32") .uint32)) .nil)

def maskValues (usage status : BitVec 32) : GoVal (.struct (lit "RequestPayload") maskFields) :=
  .struct (.cons (.scalar usage) (.cons (.scalar status) .nil))

theorem mask_struct_small :
    ∃ b w, marshal maskRegistry (maskValues 12 2147483647) = .ok b ∧
      unmarshalBytes maskRegistry (.struct (lit "RequestPayload") maskFields) b = (w, .ok ()) ∧
      content w = content (maskValues 12 2147483647) := by
  have hti : getTypeInfo maskRegistry (.struct (lit "RequestPayload") maskFields) = .ok ⟨0x420079,
      [.valueField (fieldInfo "CryptographicUsageMask" 0x42002c
         (.scalar (.enum (lit "CryptographicUsageMask") true))),
       .valueField (fieldInfo "StorageStatusMask" 0x42008e (.scalar (.uint (lit "uint32") .uint32)))]⟩ :=
    eq_ok_of_toOption (by decide +kernel)
  have hstatus : RegisteredMask maskRegistry 0x42008e := ⟨newBitmask, AList.lookup_insert _, rfl⟩
  obtain ⟨b, hb, hiff⟩ := mask_struct_iff maskRegistry hti (by decide) (by decide)
    (.mask rfl (.generated _ 12) (.mask rfl (.uint32 _ 2147483647 hstatus) .nil))
  have hlen : b.length < 2 ^ 32 := by
    have hmarshal : (marshal maskRegistry (maskValues 12 2147483647)).toOption.map List.length = some 40 := by
      decide +kernel
    rw [show marshal maskRegistry (maskValues 12 2147483647) = .ok b from hb] at hmarshal
    rw [Option.some.inj hmarshal]
    decide
  obtain ⟨w, hw, hcontent⟩ := (hiff hlen).mpr (by simp)
  exact ⟨b, w, hb, hw, hcontent⟩

/-- What is written for the two masks. -/
def maskBytes (usage status : BitVec 32) : Bytes :=
  item 0x420079 .Structure
    (item 0x42002c .Integer (beBytes 4 usage.toNat) ++ item 0x42008e .Integer (beBytes 4 status.toNat))

/-- With bit 31 set in either field, what `Marshal` writes is refused by `Unmarshal`. -/
theorem mask_struct_refused :
    ((marshal maskRegistry (maskValues 0x80000000 0)).toOption = some (maskBytes 0x80000000 0) ∧
      (unmarshalBytes maskRegistry (.struct (lit "RequestPayload") maskFields) (maskBytes 0x80000000 0)).2 =
        .err (.unmarshaler ⟨.scalar (.enum (lit "CryptographicUsageMask") true),
          some (.struct (lit "RequestPayload") maskFields), lit "CryptographicUsageMask", 0x42002c, 0x02,
          .intOverflow⟩)) ∧
    ((marshal maskRegistry (maskValues 0 0x80000000)).toOption = some (maskBytes 0 0x80000000) ∧
      (unmarshalBytes maskRegistry (.struct (lit "RequestPayload") maskFields) (maskBytes 0 0x80000000)).2 =
        .err (.unmarshaler ⟨.scalar (.uint (lit "uint32") .uint32),
          some (.struct (lit "RequestPayload") maskFields), lit "StorageStatusMask", 0x42008e, 0x02,
          .intOverflow⟩)) := by
  decide +kernel

end KmipGo.Codec
