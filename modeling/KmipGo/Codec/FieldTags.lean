import KmipGo.Codec.Tags
import KmipGo.Decoder.Strict
import KmipGo.Encoder.Atomic

/-! # The tag of a field, written and read

The tag of a field is worked out twice.  The decoder matches children with the
tag in the `fieldInfo`, which `getFieldInfo` takes from the type of the field.  The
encoder asks `tagForMarshal` for the tag of each value it gets to, after it has
looked through a pointer and inside a slice.

`field_tags_agree_iff`: when the encoder writes a field that holds structs, it
writes one block for each, all with the tag `emittedTag`; the decoder matches
them with the same field exactly when this tag is the field's own among all
fields.  A pointer to a struct with an intrinsic tag is written with that tag and
looked for with another one.
-/

namespace KmipGo.Codec

open KmipGo.Lib KmipGo.Ttlv KmipGo.Reg KmipGo.Go KmipGo.Encoder KmipGo.Decoder

/-! ## The search for a field -/

def exactSlot (tag : Tag) : Slot × Nat → Option (Nat × FieldInfo)
  | (.valueField fi, i) => if fi.flags.any = false ∧ fi.tag = tag then some (i, fi) else none
  | _ => none

def anySlot : Slot × Nat → Option (Nat × FieldInfo)
  | (.valueField fi, i) => if fi.flags.any = true then some (i, fi) else none
  | _ => none

/-- The first field with the tag, or else the first one with the `any` flag. -/
theorem findField_eq (tag : Tag) : ∀ (slots : List Slot) (i : Nat) (candidate : Option (Nat × FieldInfo)),
    findField tag slots i candidate =
      ((slots.zipIdx i).findSome? (exactSlot tag)).or
        (candidate.or ((slots.zipIdx i).findSome? anySlot))
  | [], i, candidate => by
    simp only [findField, List.zipIdx_nil, List.findSome?_nil, Option.none_or, Option.or_none]
  | .valueField fi :: slots, i, candidate => by
    rw [List.zipIdx_cons, List.findSome?_cons, List.findSome?_cons]
    by_cases hany : fi.flags.any = true
    · cases candidate <;> simp [findField, hany, findField_eq tag slots, exactSlot, anySlot]
    · by_cases htag : fi.tag = tag
      · cases candidate <;> simp [findField, hany, htag, exactSlot]
      · cases candidate <;> simp [findField, hany, htag, findField_eq tag slots, exactSlot, anySlot]
  | .tagField fi :: slots, i, candidate => by
    rw [List.zipIdx_cons, List.findSome?_cons, List.findSome?_cons]
    exact findField_eq tag slots (i + 1) candidate
  | .skipped :: slots, i, candidate => by
    rw [List.zipIdx_cons, List.findSome?_cons, List.findSome?_cons]
    exact findField_eq tag slots (i + 1) candidate

/-- A function that picks out the fields with the property `P`, each with its position. -/
def Selects (f : Slot × Nat → Option (Nat × FieldInfo)) (P : FieldInfo → Prop) : Prop :=
  ∀ p j g, f p = some (j, g) ↔ p = (.valueField g, j) ∧ P g

theorem selects_exactSlot (tag : Tag) :
    Selects (exactSlot tag) fun g => g.flags.any = false ∧ g.tag = tag := by
  rintro ⟨slot, i⟩ j g
  cases slot with
  | valueField fi =>
    by_cases hfi : fi.flags.any = false ∧ fi.tag = tag
    · simp only [exactSlot, if_pos hfi, Option.some.injEq, Prod.mk.injEq, Slot.valueField.injEq]
      exact ⟨fun ⟨hi, hg⟩ => ⟨⟨hg, hi⟩, hg ▸ hfi⟩, fun ⟨⟨hg, hi⟩, _⟩ => ⟨hi, hg⟩⟩
    · simp only [exactSlot, if_neg hfi, Prod.mk.injEq, Slot.valueField.injEq]
      exact ⟨fun h => absurd h (by simp), fun ⟨⟨hg, _⟩, hP⟩ => absurd (hg ▸ hP) hfi⟩
  | tagField fi => simp [exactSlot]
  | skipped => simp [exactSlot]

theorem selects_anySlot : Selects anySlot fun g => g.flags.any = true := by
  rintro ⟨slot, i⟩ j g
  cases slot with
  | valueField fi =>
    by_cases hfi : fi.flags.any = true
    · simp only [anySlot, if_pos hfi, Option.some.injEq, Prod.mk.injEq, Slot.valueField.injEq]
      exact ⟨fun ⟨hi, hg⟩ => ⟨⟨hg, hi⟩, hg ▸ hfi⟩, fun ⟨⟨hg, hi⟩, _⟩ => ⟨hi, hg⟩⟩
    · simp only [anySlot, if_neg hfi, Prod.mk.injEq, Slot.valueField.injEq]
      exact ⟨fun h => absurd h (by simp), fun ⟨⟨hg, _⟩, hP⟩ => absurd (hg ▸ hP) hfi⟩
  | tagField fi => simp [anySlot]
  | skipped => simp [anySlot]

/-- A field that is found among some slots, and its position. -/
theorem Selects.found {f : Slot × Nat → Option (Nat × FieldInfo)} {P : FieldInfo → Prop} (hf : Selects f P)
    {slots : List Slot} {i j : Nat} {g : FieldInfo} (h : (slots.zipIdx i).findSome? f = some (j, g)) :
    i ≤ j ∧ j < i + slots.length ∧ P g := by
  obtain ⟨p, hp, hsome⟩ := List.exists_of_findSome?_eq_some h
  obtain ⟨rfl, hg⟩ := (hf p j g).mp hsome
  obtain ⟨hle, hlt, -⟩ := List.mem_zipIdx hp
  exact ⟨hle, hlt, hg⟩

theorem Selects.none_iff {f : Slot × Nat → Option (Nat × FieldInfo)} {P : FieldInfo → Prop}
    (hf : Selects f P) {slots : List Slot} {i : Nat} :
    (slots.zipIdx i).findSome? f = none ↔ ∀ g, .valueField g ∈ slots → ¬ P g := by
  rw [List.findSome?_eq_none_iff]
  constructor
  · intro h g hg hP
    rw [← List.zipIdx_map_fst i slots] at hg
    obtain ⟨p, hp, hfst⟩ := List.mem_map.mp hg
    have hsome := (hf p p.2 g).mpr ⟨Prod.ext hfst rfl, hP⟩
    cases (h p hp).symm.trans hsome
  · intro h p hp
    cases hfp : f p with
    | none => rfl
    | some r =>
      obtain ⟨rfl, hP⟩ := (hf p r.1 r.2).mp hfp
      exact absurd hP (h r.2 (List.fst_mem_of_mem_zipIdx hp))

theorem findSome_exact_none {tag : Tag} {slots : List Slot} {i : Nat} :
    (slots.zipIdx i).findSome? (exactSlot tag) = none ↔
      ∀ g, .valueField g ∈ slots → g.flags.any = false → g.tag ≠ tag := by
  rw [(selects_exactSlot tag).none_iff]
  simp only [not_and, ne_eq]

theorem findSome_any_none {slots : List Slot} {i : Nat} :
    (slots.zipIdx i).findSome? anySlot = none ↔ ∀ g, .valueField g ∈ slots → g.flags.any = false := by
  rw [selects_anySlot.none_iff]
  simp only [Bool.not_eq_true]

/-- The tag is the field's own: it is that of the field and of no field before it, or else, for a field
    with the `any` flag, of no field without, and no field with the flag comes before. -/
def OwnTag (pre : List Slot) (fi : FieldInfo) (post : List Slot) (tag : Tag) : Prop :=
  if fi.flags.any = true then
    (∀ g, .valueField g ∈ pre ++ post → g.flags.any = false → g.tag ≠ tag) ∧
      ∀ g, .valueField g ∈ pre → g.flags.any = false
  else fi.tag = tag ∧ ∀ g, .valueField g ∈ pre → g.flags.any = false → g.tag ≠ tag

/-- The search, around a field. -/
theorem findField_append (tag : Tag) (pre post : List Slot) (fi : FieldInfo) :
    findField tag (pre ++ .valueField fi :: post) 0 none =
      (((pre.zipIdx 0).findSome? (exactSlot tag)).or ((exactSlot tag (.valueField fi, pre.length)).or
        ((post.zipIdx (pre.length + 1)).findSome? (exactSlot tag)))).or
      (((pre.zipIdx 0).findSome? anySlot).or ((anySlot (.valueField fi, pre.length)).or
        ((post.zipIdx (pre.length + 1)).findSome? anySlot))) := by
  rw [findField_eq, List.zipIdx_append, List.zipIdx_cons, List.findSome?_append, List.findSome?_append,
    List.findSome?_cons, List.findSome?_cons, Nat.zero_add, Option.none_or]
  cases exactSlot tag (.valueField fi, pre.length) <;> cases anySlot (.valueField fi, pre.length) <;> rfl

/-- A field with the `any` flag is found for the tags of no other field, if it is the first with the
    flag. -/
theorem findField_any_iff {pre post : List Slot} {fi : FieldInfo} {tag : Tag} (hany : fi.flags.any = true) :
    findField tag (pre ++ .valueField fi :: post) 0 none = some (pre.length, fi) ↔
      (∀ g, .valueField g ∈ pre ++ post → g.flags.any = false → g.tag ≠ tag) ∧
        ∀ g, .valueField g ∈ pre → g.flags.any = false := by
  have hexact : exactSlot tag (.valueField fi, pre.length) = none := by simp [exactSlot, hany]
  have hself : anySlot (.valueField fi, pre.length) = some (pre.length, fi) := by simp [anySlot, hany]
  rw [findField_append, hexact, hself, Option.none_or, Option.some_or]
  constructor
  · intro h
    have hnone : ∀ {slots : List Slot} {i : Nat},
        (slots.zipIdx i).findSome? (exactSlot tag) ≠ some (pre.length, fi) := by
      intro slots i hfound
      exact absurd ((selects_exactSlot tag).found hfound).2.2.1 (by simp [hany])
    rcases Option.or_eq_some_iff.mp h with hfound | ⟨hexacts, hfound⟩
    · rcases Option.or_eq_some_iff.mp hfound with hfound | ⟨-, hfound⟩
      · exact absurd hfound hnone
      · exact absurd hfound hnone
    · obtain ⟨hpre, hpost⟩ := Option.or_eq_none_iff.mp hexacts
      refine ⟨fun g hg => ?_, (findSome_any_none (i := 0)).mp ?_⟩
      · exact (List.mem_append.mp hg).elim (findSome_exact_none.mp hpre g) (findSome_exact_none.mp hpost g)
      · rcases Option.or_eq_some_iff.mp hfound with hfirst | ⟨hfirst, -⟩
        · have hlt := (selects_anySlot.found hfirst).2.1
          omega
        · exact hfirst
  · rintro ⟨hexacts, hanys⟩
    have hpre := fun g hg => hexacts g (List.mem_append_left post hg)
    have hpost := fun g hg => hexacts g (List.mem_append_right pre hg)
    rw [findSome_exact_none.mpr hpre, findSome_exact_none.mpr hpost, findSome_any_none.mpr hanys]
    rfl

/-- A field without the flag is found for its tag, if it is the first with it. -/
theorem findField_exact_iff {pre post : List Slot} {fi : FieldInfo} {tag : Tag} (hany : fi.flags.any = false) :
    findField tag (pre ++ .valueField fi :: post) 0 none = some (pre.length, fi) ↔
      fi.tag = tag ∧ ∀ g, .valueField g ∈ pre → g.flags.any = false → g.tag ≠ tag := by
  have hself : anySlot (.valueField fi, pre.length) = none := by simp [anySlot, hany]
  rw [findField_append, hself, Option.none_or]
  constructor
  · intro h
    have hpre : (pre.zipIdx 0).findSome? (exactSlot tag) = none := by
      cases hpre : (pre.zipIdx 0).findSome? (exactSlot tag) with
      | none => rfl
      | some found =>
        rw [hpre] at h
        cases h
        have hlt := ((selects_exactSlot tag).found hpre).2.1
        omega
    refine ⟨?_, findSome_exact_none.mp hpre⟩
    by_contra htag
    -- whatever is found then stands at another position
    have hexact : exactSlot tag (.valueField fi, pre.length) = none := by simp [exactSlot, htag]
    rw [hpre, hexact, Option.none_or, Option.none_or] at h
    rcases Option.or_eq_some_iff.mp h with hfound | ⟨-, hfound⟩
    · have hle := ((selects_exactSlot tag).found hfound).1
      omega
    · rcases Option.or_eq_some_iff.mp hfound with hfound | ⟨-, hfound⟩
      · have hlt := (selects_anySlot.found hfound).2.1
        omega
      · have hle := (selects_anySlot.found hfound).1
        omega
  · rintro ⟨rfl, hexacts⟩
    have hexact : exactSlot fi.tag (.valueField fi, pre.length) = some (pre.length, fi) := by
      simp [exactSlot, hany]
    rw [findSome_exact_none.mpr hexacts, hexact]
    rfl

/-- The search for a tag finds the field at a position exactly when the tag is its own. -/
theorem findField_eq_some_iff {pre post : List Slot} {fi : FieldInfo} {tag : Tag} :
    findField tag (pre ++ .valueField fi :: post) 0 none = some (pre.length, fi) ↔
      OwnTag pre fi post tag := by
  rw [OwnTag]
  by_cases hany : fi.flags.any = true
  · rw [if_pos hany]
    exact findField_any_iff hany
  · rw [if_neg hany]
    exact findField_exact_iff (Bool.eq_false_iff.mpr hany)

/-! ## What is written for a field -/

section

variable (reg : Registry)

/-- The explicit tag of the TTLVTag field of a struct type, if it has one. -/
def intrinsicTagOf (ty : GoType) : Tag :=
  match getTypeInfo reg ty with
  | .ok ti =>
    match ti.tagField with
    | some tf => tf.explicitTag
    | none => tagNone
  | .error _ => tagNone

/-- A struct type that the encoder writes without a method of the user: field by field, with no TTLVTag
    field or one with an explicit tag, or as a primitive value. -/
inductive StructType : GoType → Prop where
  | fields {n : GoString} {fs : Fields} (h : ∀ ti tf, getTypeInfo reg (.struct n fs) = .ok ti →
      ti.tagField = some tf → tf.explicitTag ≠ tagNone) : StructType (.struct n fs)
  | primitive {s : Scalar} (h : isBareStruct s = true) : StructType (.scalar s)

/-- A struct, a pointer to a struct, or a slice of structs. -/
inductive HoldsStructs : GoType → Prop where
  | struct {e : GoType} (h : StructType reg e) : HoldsStructs e
  | ptr {e : GoType} (h : StructType reg e) : HoldsStructs (.ptr e)
  | slice {m : GoString} {e : GoType} (h : StructType reg e) : HoldsStructs (.slice m e)

/-- The tag of a struct in a field, where none is given from outside. -/
def structTag (fi : FieldInfo) (e : GoType) : Tag :=
  if intrinsicTagOf reg e = tagNone then fi.tag else intrinsicTagOf reg e

/-- The tag that the encoder gives to the structs of a field. -/
def emittedTag (fi : FieldInfo) : GoType → Tag
  -- the tag is settled for the slice, before its elements are looked at
  | .slice _ e => if fi.tag = tagNone then structTag reg fi e else fi.tag
  | .ptr e => structTag reg fi e
  | e => structTag reg fi e

def valsLength {e : GoType} : GoVals e → Nat
  | .nil => 0
  | .cons _ vs => valsLength vs + 1

/-- The number of structs in a field that the encoder writes. -/
def blockCount (fi : FieldInfo) : {ty : GoType} → GoVal ty → Nat
  | _, .ptrNil => 0
  | _, .ptr v => blockCount fi v
  | _, .slice vs => valsLength vs
  | .scalar s, .scalar v => if (fi.flags.omitEmpty && s.isEmpty v) = true then 0 else 1
  | _, _ => 1

/-- The bytes are blocks with this tag, one after the other. -/
structure Blocks (tag : Tag) (count : Nat) (blocks : List Bytes) (b : Bytes) : Prop where
  flatten : b = blocks.flatten
  length : blocks.length = count
  tagged : ∀ x ∈ blocks, ∃ typ body, x = item tag typ body

theorem blocks_nil (tag : Tag) : Blocks tag 0 [] [] :=
  ⟨rfl, rfl, fun _ hx => absurd hx List.not_mem_nil⟩

theorem blocks_single (tag : Tag) (typ : Typ) (body : Bytes) :
    Blocks tag 1 [item tag typ body] (item tag typ body) :=
  ⟨(List.append_nil _).symm, rfl, fun _ hx => ⟨typ, body, List.mem_singleton.mp hx⟩⟩

theorem Blocks.append {tag : Tag} {m n : Nat} {xs ys : List Bytes} {b c : Bytes} (h : Blocks tag m xs b)
    (h' : Blocks tag n ys c) : Blocks tag (m + n) (xs ++ ys) (b ++ c) := by
  refine ⟨?_, ?_, fun x hx => (List.mem_append.mp hx).elim (h.tagged x) (h'.tagged x)⟩
  · rw [List.flatten_append, h.flatten, h'.flatten]
  · rw [List.length_append, h.length, h'.length]

/-- The tag of one struct, as `tagForMarshal` works it out. -/
theorem tagOr_struct {n : GoString} {fs : Fields} {ti : TypeInfo}
    (hti : getTypeInfo reg (.struct n fs) = .ok ti)
    (hfixed : ∀ ti tf, getTypeInfo reg (.struct n fs) = .ok ti → ti.tagField = some tf →
      tf.explicitTag ≠ tagNone)
    (tag : Tag) (fi : FieldInfo) (vs : FieldVals fs) :
    tagOr tag ti (some fi) (.struct vs : GoVal (.struct n fs)) =
      if tag = tagNone then structTag reg fi (.struct n fs) else tag := by
  rw [tagOr, tagForMarshal, intrinsicTag, structTag, intrinsicTagOf, hti]
  cases htf : ti.tagField with
  | none => simp [htf]
  | some tf => simp [htf, hfixed ti tf hti htf]

theorem tagOr_scalar (s : Scalar) (tag : Tag) (fi : FieldInfo) (v : s.Val) :
    tagOr tag (plainInfo reg (.scalar s)) (some fi) (.scalar v : GoVal (.scalar s)) =
      if tag = tagNone then structTag reg fi (.scalar s) else tag := by
  have hown : intrinsicTagOf reg (.scalar s) = tagNone := rfl
  rw [tagOr, structTag, if_pos hown]
  rfl

/-- Under a tag an instant or a big number becomes one item with a value. -/
theorem taggedScalar_bare {flags : Flags} {tag : Tag} {s : Scalar} (hs : isBareStruct s = true) {v : s.Val}
    {p : Prim} (h : taggedScalar reg flags tag s v = .ok p) : ∃ typ value, p.content = some (typ, value) := by
  have hplain : plainScalar flags.dateTimeExt s v = .ok p := by
    cases s with
    | time | bigInt | dateTimeExtended =>
      simp only [taggedScalar, enumNumber, scalarString] at h
      split at h
      · split at h
        · cases h
        · exact h
      · exact h
    | _ => cases hs
  cases s with
  | time =>
    simp only [plainScalar] at hplain
    split at hplain <;> cases hplain <;> exact ⟨_, _, rfl⟩
  | bigInt =>
    cases hplain
    exact ⟨_, _, rfl⟩
  | dateTimeExtended => cases hplain
  | _ => cases hs

/-- What becomes of such a value: nothing if it is zero and to be omitted, or one item. -/
theorem scalarEmit_bare {ctx : Ctx} {tag : Tag} {fi : FieldInfo} {s : Scalar}
    (hs : isBareStruct s = true) {v : s.Val} {em : Emit} (h : scalarEmit reg ctx tag (some fi) s v = .ok em) :
    if (fi.flags.omitEmpty && s.isEmpty v) = true then em = .nothing
    else ∃ p typ value, em = .prim p ∧ p.content = some (typ, value) := by
  have hflags : flagsOf (some fi) = fi.flags := rfl
  by_cases hempty : (fi.flags.omitEmpty && s.isEmpty v) = true
  · rw [if_pos hempty]
    cases s with
    | time | bigInt | dateTimeExtended =>
      simp only [scalarEmit, marshalScalar, hflags, isEmptyValue, hempty, if_true] at h
      cases h
      rfl
    | _ => cases hs
  · rw [if_neg hempty]
    cases s with
    | dateTimeExtended =>
      simp only [scalarEmit, marshalScalar, hflags, isEmptyValue, hempty] at h
      cases h
      exact ⟨_, _, _, rfl, rfl⟩
    | time | bigInt =>
      simp only [scalarEmit, marshalScalar, hflags, isEmptyValue, hempty, Bool.false_eq_true, if_false] at h
      split at h
      · cases h
      · split at h
        · rename_i p hp
          cases h
          obtain ⟨typ, value, hcontent⟩ := taggedScalar_bare reg hs hp
          exact ⟨p, typ, value, rfl, hcontent⟩
        · cases h
    | _ => cases hs

/-- They are written as one item, unless they are omitted. -/
theorem blocks_scalar {ctx : Ctx} {tag : Tag} {fi : FieldInfo} {s : Scalar} (hs : isBareStruct s = true)
    {v : s.Val} {b : Bytes} (h : Writes (fun e => encodeScalar reg ctx tag (some fi) s v e) b none) :
    ∃ blocks, Blocks (if tag = tagNone then structTag reg fi (.scalar s) else tag)
      (blockCount fi (.scalar v : GoVal (.scalar s))) blocks b := by
  have hnil : scalarIsNil s v = false := by
    cases s <;> first | rfl | cases hs
  rw [← tagOr_scalar reg s tag fi v, blockCount]
  simp only [encodeScalar, hnil, Bool.false_eq_true, if_false] at h
  cases hem : scalarEmit reg ctx (tagOr tag (plainInfo reg (.scalar s)) (some fi)
      (.scalar v : GoVal (.scalar s))) (some fi) s v with
  | error err =>
    simp only [hem] at h
    cases (h.unique (Writes.nothing (some err))).2
  | ok em =>
    simp only [hem] at h
    obtain ⟨rfl, -⟩ := h.unique (Writes.emitRun _ em)
    have hbare := scalarEmit_bare reg hs hem
    by_cases hempty : (fi.flags.omitEmpty && s.isEmpty v) = true
    · rw [if_pos hempty] at hbare ⊢
      rw [hbare]
      exact ⟨[], blocks_nil _⟩
    · rw [if_neg hempty] at hbare ⊢
      obtain ⟨p, typ, value, rfl, hcontent⟩ := hbare
      simp only [Prim.item, hcontent]
      exact ⟨_, blocks_single _ typ value⟩

/-- One struct is written as one block. -/
theorem blocks_structType {ctx : Ctx} {d : Deref} {addr : Bool} {tag : Tag} {fi : FieldInfo} {e : GoType}
    (he : StructType reg e) {v : GoVal e} {b : Bytes}
    (h : Writes (fun en => encode reg ctx d addr tag (some fi) v en) b none) :
    ∃ blocks, Blocks (if tag = tagNone then structTag reg fi e else tag) (blockCount fi v) blocks b := by
  cases he with
  | fields hfixed =>
    cases v with
    | struct vs =>
      obtain ⟨ti, body, hti, rfl, -⟩ := encode_struct_parts reg h
      rw [tagOr_struct reg hti hfixed]
      exact ⟨_, blocks_single _ _ body⟩
  | primitive hs =>
    cases v with
    | scalar v =>
      simp only [encode] at h
      exact blocks_scalar reg hs h

theorem blockCount_elem {fi : FieldInfo} (hfi : fi.flags.omitEmpty = false) {e : GoType}
    (he : StructType reg e) (v : GoVal e) : blockCount fi v = 1 := by
  cases he with
  | fields => cases v with | struct vs => rfl
  | primitive hs => cases v with | scalar v => simp [blockCount, hfi]

theorem blocks_elems {ctx : Ctx} {addr : Bool} {fi : FieldInfo} {tag : Tag} (hfi : fi.flags.omitEmpty = false)
    {e : GoType} (he : StructType reg e) : ∀ {vs : GoVals e} {b : Bytes},
    Writes (fun en => encodeElems reg ctx addr tag (some fi) vs en) b none →
      ∃ blocks, Blocks (if tag = tagNone then structTag reg fi e else tag) (valsLength vs) blocks b
  | .nil, b, h => by
    simp only [encodeElems] at h
    obtain ⟨rfl, -⟩ := h.unique (Writes.nothing none)
    exact ⟨[], blocks_nil _⟩
  | .cons v vs, b, h => by
    obtain ⟨b₁, b₂, rfl, hfirst, hrest⟩ := encodeElems_parts reg h
    obtain ⟨xs, hxs⟩ := blocks_structType reg he hfirst
    obtain ⟨ys, hys⟩ := blocks_elems hfi he hrest
    rw [blockCount_elem reg hfi he v] at hxs
    have hboth := hxs.append hys
    rw [Nat.add_comm] at hboth
    exact ⟨_, hboth⟩

/-- A field that holds structs is written as one block for each, all with the same tag. -/
theorem blocks_field {ctx : Ctx} {addr : Bool} {fi : FieldInfo} {ty : GoType} (hty : HoldsStructs reg ty)
    {v : GoVal ty} {b : Bytes}
    (h : Writes (fun e => encode reg ctx .any addr tagNone (some fi) v e) b none) :
    ∃ blocks, Blocks (emittedTag reg fi ty) (blockCount fi v) blocks b := by
  cases hty with
  | struct he =>
    have hone := blocks_structType reg he h
    rw [if_pos rfl] at hone
    cases he <;> exact hone
  | ptr he =>
    cases v with
    | ptrNil =>
      simp only [encode] at h
      obtain ⟨rfl, -⟩ := h.unique (Writes.nothing none)
      exact ⟨[], blocks_nil _⟩
    | ptr v =>
      have hone := blocks_structType reg he (encode_ptr_parts reg h)
      rwa [if_pos rfl] at hone
  | @slice m e he =>
    cases v with
    | slice vs =>
      simp only [encode] at h
      by_cases hempty : ((flagsOf (some fi)).omitEmpty && isEmptyValue (.slice vs : GoVal (.slice m e))) = true
      · simp only [if_pos hempty] at h
        obtain ⟨rfl, -⟩ := h.unique (Writes.nothing none)
        cases vs with
        | nil => exact ⟨[], blocks_nil _⟩
        | cons v vs =>
          rw [Bool.and_eq_true] at hempty
          cases hempty.2
      · simp only [if_neg hempty] at h
        have htag : tagOr tagNone (plainInfo reg (.slice m e)) (some fi) (.slice vs : GoVal (.slice m e)) =
            fi.tag := rfl
        have hinfo : elemInfo (some fi) = some { fi with flags := { fi.flags with omitEmpty := false } } := rfl
        rw [htag, hinfo] at h
        obtain ⟨blocks, hblocks⟩ := blocks_elems reg (by rfl) he h
        exact ⟨blocks, hblocks⟩

/-! ## The field of a struct value -/

/-- The value of the field at a position. -/
def fieldAt : {fs : Fields} → FieldVals fs → Nat → Option ((ty : GoType) × GoVal ty)
  | .cons _ ty _, .cons v _, 0 => some ⟨ty, v⟩
  | .cons _ _ _, .cons _ vs, i + 1 => fieldAt vs i
  | .nil, _, _ => none

theorem encodeFields_at {fi : FieldInfo} {ty : GoType} {v : GoVal ty} {addr : Bool} {ctx : Ctx}
    {pre post : List Slot} {fs : Fields} {vs : FieldVals fs} {body : Bytes}
    (hv : fieldAt vs pre.length = some ⟨ty, v⟩)
    (h : Writes (fun e => encodeFields reg ctx addr (pre ++ .valueField fi :: post) vs e) body none) :
    ∃ before b after, body = before ++ (b ++ after) ∧
      Writes (fun e => encode reg ⟨ctx.currStruct, fi.name⟩ .any addr tagNone (some fi) v e) b none := by
  induction pre generalizing fs body with
  | nil =>
    cases vs with
    | nil => cases hv
    | cons v' vs =>
      cases hv
      obtain ⟨b, after, rfl, hfield, -⟩ := encodeFields_parts reg h
      exact ⟨[], b, after, rfl, hfield⟩
  | cons slot pre ih =>
    cases vs with
    | nil => cases hv
    | cons v' vs =>
      cases slot with
      | valueField g =>
        obtain ⟨first, rest, rfl, -, hrest⟩ := encodeFields_parts reg h
        obtain ⟨before, b, after, rfl, hfield⟩ := ih hv hrest
        exact ⟨first ++ before, b, after, (List.append_assoc ..).symm, hfield⟩
      | tagField g =>
        simp only [List.cons_append, encodeFields] at h
        exact ih hv h
      | skipped =>
        simp only [List.cons_append, encodeFields] at h
        exact ih hv h

/-- Wherever a struct value is written, a field of it that holds structs is written as one block for
    each.  The decoder matches them all with this field exactly when there are none, or their tag is the
    field's own. -/
theorem field_tags_agree_iff {n : GoString} {fs : Fields} {ti : TypeInfo}
    (hti : getTypeInfo reg (.struct n fs) = .ok ti) {pre post : List Slot} {fi : FieldInfo}
    (hslots : ti.slots = pre ++ .valueField fi :: post) {vs : FieldVals fs} {ty : GoType} {v : GoVal ty}
    (hv : fieldAt vs pre.length = some ⟨ty, v⟩) (hty : HoldsStructs reg ty) {ctx : Ctx} {d : Deref}
    {addr : Bool} {tag : Tag} {outer : Option FieldInfo} {out : Bytes}
    (hout : Writes (fun e => encode reg ctx d addr tag outer (.struct vs : GoVal (.struct n fs)) e) out
      none) :
    ∃ (outerTag : Tag) (before : Bytes) (blocks : List Bytes) (after : Bytes),
      out = item outerTag .Structure (before ++ (blocks.flatten ++ after)) ∧
      blocks.length = blockCount fi v ∧
      (∀ x ∈ blocks, ∃ typ body, x = item (emittedTag reg fi ty) typ body) ∧
      ((∀ x ∈ blocks, ∀ rest, findField (TTLV.tag (x ++ rest)) ti.slots 0 none = some (pre.length, fi)) ↔
        blockCount fi v = 0 ∨ OwnTag pre fi post (wireTag (emittedTag reg fi ty))) := by
  obtain ⟨ti', body, hti', rfl, hbody⟩ := encode_struct_parts reg hout
  cases hti.symm.trans hti'
  rw [hslots] at hbody
  obtain ⟨before, b, after, rfl, hfield⟩ := encodeFields_at reg hv hbody
  obtain ⟨blocks, rfl, hlength, htagged⟩ := blocks_field reg hty hfield
  refine ⟨_, before, blocks, after, rfl, hlength, htagged, ?_⟩
  rw [hslots, ← hlength]
  constructor
  · intro h
    cases blocks with
    | nil => exact .inl rfl
    | cons x blocks =>
      obtain ⟨typ, content, rfl⟩ := htagged x (List.mem_cons_self ..)
      have hfound := h _ (List.mem_cons_self ..) []
      rw [tag_item_append, findField_eq_some_iff] at hfound
      exact .inr hfound
  · rintro (h0 | hown) x hx rest
    · rw [List.length_eq_zero_iff.mp h0] at hx
      exact absurd hx List.not_mem_nil
    · obtain ⟨typ, content, rfl⟩ := htagged x hx
      rw [tag_item_append, findField_eq_some_iff]
      exact hown

end

/-! ## Structs and pointers to structs -/

def shortHeaderValue : GoVal (.struct (lit "RequestHeader") shortHeader) :=
  .struct (.cons (Message.version 1 4) (.cons (.scalar (0 : BitVec 64)) .nil))

/-- The protocol version of a header is written with the tag of its field. -/
theorem field_tags_agree_shortHeader :
    ∃ out, marshal Message.requestRegistry shortHeaderValue = .ok out ∧
    ∃ (outerTag : Tag) (before : Bytes) (blocks : List Bytes) (after : Bytes),
      out = item outerTag .Structure (before ++ (blocks.flatten ++ after)) ∧ blocks.length = 1 ∧
      ∀ x ∈ blocks, ∀ rest, findField (TTLV.tag (x ++ rest))
        [.valueField (Message.fieldInfo "ProtocolVersion" 0x420069 Message.protocolVersion),
         .valueField (Message.fieldInfoOmitempty "MaximumResponseSize" 0x420050 Message.intType)] 0 none =
        some (0, Message.fieldInfo "ProtocolVersion" 0x420069 Message.protocolVersion) := by
  obtain ⟨out, hout⟩ : ∃ out, marshal Message.requestRegistry shortHeaderValue = .ok out := by
    have hsome : (marshal Message.requestRegistry shortHeaderValue).toOption.isSome := by decide +kernel
    obtain ⟨out, hout⟩ := Option.isSome_iff_exists.mp hsome
    exact ⟨out, eq_ok_of_toOption hout⟩
  have hversion : StructType Message.requestRegistry Message.protocolVersion := by
    refine .fields fun ti tf hti htf => ?_
    cases Message.getTypeInfo_protocolVersion.symm.trans hti
    cases htf
  have hslots : TypeInfo.slots ⟨0x420077,
      [.valueField (Message.fieldInfo "ProtocolVersion" 0x420069 Message.protocolVersion),
       .valueField (Message.fieldInfoOmitempty "MaximumResponseSize" 0x420050 Message.intType)]⟩ =
      [] ++ .valueField (Message.fieldInfo "ProtocolVersion" 0x420069 Message.protocolVersion) ::
        [.valueField (Message.fieldInfoOmitempty "MaximumResponseSize" 0x420050 Message.intType)] := rfl
  obtain ⟨outerTag, before, blocks, after, hsplit, hlength, -, hiff⟩ :=
    field_tags_agree_iff Message.requestRegistry getTypeInfo_shortHeader hslots (v := Message.version 1 4)
      rfl (.struct hversion) (writes_of_marshal Message.requestRegistry hout)
  refine ⟨out, hout, outerTag, before, blocks, after, hsplit, hlength, hiff.mpr (.inr ?_)⟩
  have htag : wireTag (emittedTag Message.requestRegistry
      (Message.fieldInfo "ProtocolVersion" 0x420069 Message.protocolVersion) Message.protocolVersion) =
      0x420069 := by
    decide +kernel
  rw [htag]
  exact ⟨rfl, fun g hg => absurd hg List.not_mem_nil⟩

/-- A struct type with an intrinsic tag. -/
def taggedVersion : GoType :=
  .struct (lit "Version")
    (.cons ⟨lit "TTLVTag", lit "RequestHeader", false, false⟩ tagType
      (Message.field "ProtocolVersionMajor" Message.intType .nil))

/-- A struct type with a pointer to it. -/
def pointerMessage : GoType :=
  .struct (lit "RequestMessage") (Message.field "ProtocolVersion" (.ptr taggedVersion) .nil)

def pointerValue : GoVal pointerMessage :=
  .struct (.cons (.ptr (.struct (.cons (.scalar (s := .tag) 0) (.cons (.scalar (1 : BitVec 64)) .nil)))) .nil)

def pointerBytes : Bytes :=
  item 0x420078 .Structure (item 0x420077 .Structure (Prim.item 0x42006a (.integer 1)))

/-- It is written with the intrinsic tag, and no field has that tag when it is read back: the version
    is dropped without an error. -/
theorem pointer_field_dropped :
    HoldsStructs Message.requestRegistry (.ptr taggedVersion) ∧
    marshal Message.requestRegistry pointerValue = .ok pointerBytes ∧
    (getTypeInfo Message.requestRegistry pointerMessage).toOption.map (fun ti =>
      findField 0x420077 ti.slots 0 none) = some none ∧
    (unmarshalBytes Message.requestRegistry pointerMessage pointerBytes).2 = .ok () ∧
    blockCount (Message.fieldInfo "ProtocolVersion" 0x420069 (.ptr taggedVersion))
      (unmarshalBytes Message.requestRegistry pointerMessage pointerBytes).1.fields.head = 0 := by
  have hti : getTypeInfo Message.requestRegistry taggedVersion = .ok ⟨tagNone,
      [.tagField ⟨lit "TTLVTag", 0x420077, 0x420077, noFlags, tagType⟩,
       .valueField (Message.fieldInfo "ProtocolVersionMajor" 0x42006a Message.intType)]⟩ :=
    eq_ok_of_toOption (by decide +kernel)
  refine ⟨.ptr (.fields fun ti tf hti' htf => ?_), eq_ok_of_toOption (by decide +kernel), by decide +kernel,
    by decide +kernel, by decide +kernel⟩
  cases hti.symm.trans hti'
  cases htf
  decide

end KmipGo.Codec
