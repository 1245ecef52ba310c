import KmipGo.Encoder.Atomic

/-! # Trees of `ttlv.Value`

The `ttlv.Value` trees the package maps blocks to: an inner node holds a
`Values`, a leaf one of ten Go types.  `Tree.toVal` is the Go value of a tree,
`Tree.bytes` the bytes it stands for, and `marshal_toVal` says that `Marshal`
writes exactly these bytes.
-/

namespace KmipGo.Value

open KmipGo.Lib KmipGo.Ttlv KmipGo.Reg KmipGo.Go KmipGo.Encoder

/-- The content of a leaf.  A nil `[]byte` is `none`. -/
inductive Item where
  | int32 (i : BitVec 32)
  | int64 (i : BitVec 64)
  | bigInt (i : Int)
  | enumValue (v : BitVec 32)
  | bool (b : Bool)
  | string (s : GoString)
  | bytes (b : Option Bytes)
  | time (t : Time)
  | dateTimeExtended (t : Time)
  | duration (d : BitVec 64)
deriving DecidableEq, Repr

inductive Tree where
  | leaf (tag : Tag) (item : Item)
  | node (tag : Tag) (children : List Tree)

/-- The interface value of a leaf. -/
def Item.iface : Item → GoVal .iface
  | .int32 i => .iface (.scalar (s := .int (lit "int32") .int32) i)
  | .int64 i => .iface (.scalar (s := .int (lit "int64") .int64) i)
  | .bigInt i => .iface (.ptr (.scalar (s := .bigInt) i))
  | .enumValue v => .iface (.scalar (s := Go.enumValue) v)
  | .bool b => .iface (.scalar (s := .bool (lit "bool")) b)
  | .string s => .iface (.scalar (s := .string (lit "string")) s)
  | .bytes b => .iface (.scalar (s := .bytes []) b)
  | .time t => .iface (.scalar (s := .time) t)
  | .dateTimeExtended t => .iface (.scalar (s := .dateTimeExtended) t)
  | .duration d => .iface (.scalar (s := .duration) d)

mutual
def Tree.toVal : Tree → GoVal .value
  | .leaf tag item => .value tag item.iface
  | .node tag children => .value tag (.iface (.slice (n := valuesName) (treesToVals children)))
def treesToVals : List Tree → GoVals .value
  | [] => .nil
  | t :: ts => .cons t.toVal (treesToVals ts)
end

/-- The primitive item a leaf is encoded as. -/
def Item.prim : Item → Prim
  | .int32 i => .integer i
  | .int64 i => .longInteger i
  | .bigInt i => .bigInteger (some i)
  | .enumValue v => .enumeration v
  | .bool b => .boolean b
  | .string s => .textString s
  | .bytes b => .byteString b
  | .time t => .dateTime t
  | .dateTimeExtended t => .dateTimeExtended t
  | .duration d => .interval d

mutual
def Tree.bytes : Tree → Bytes
  | .leaf tag i => i.prim.item tag
  | .node tag children => item tag .Structure (treesBytes children)
def treesBytes : List Tree → Bytes
  | [] => []
  | t :: ts => t.bytes ++ treesBytes ts
end

section

variable (reg : Registry)

/-- An `int32` or a `string` under a tag with a registered enumeration would be taken for one of its
    values. -/
def Item.Plain (tag : Tag) : Item → Prop
  | .int32 _ | .string _ => reg.enumForTag tag = none
  | _ => True

mutual
/-- Every node has a tag, and its leaves are plain. -/
def Tree.Encodable : Tree → Prop
  | .leaf tag item => tag ≠ tagNone ∧ item.Plain reg tag
  | .node tag children => tag ≠ tagNone ∧ TreesEncodable children
def TreesEncodable : List Tree → Prop
  | [] => True
  | t :: ts => t.Encodable ∧ TreesEncodable ts
end

/-- The names of the two fields of the struct type `ttlv.Value` are not registered for the same tag.
    `getTypeInfo` refuses any struct type with such fields. -/
def ValueTypeOk : Prop :=
  reg.parseTagOrNone (lit "Tag") = tagNone ∨
    reg.parseTagOrNone (lit "Value") ≠ reg.parseTagOrNone (lit "Tag")

/-- The check of the two fields of `ttlv.Value`. -/
theorem getTypeInfo_value_iff : (∃ ti, getTypeInfo reg .value = .ok ti) ↔ ValueTypeOk reg := by
  have htag : getFieldInfo reg (lit "Value") valueTagHdr tagType (.ok (plainInfo reg tagType)) =
      .ok (.valueField ⟨lit "Tag", tagNone, reg.parseTagOrNone (lit "Tag"), noFlags, tagType⟩) := rfl
  have hval : getFieldInfo reg (lit "Value") valueValueHdr .iface (.ok (plainInfo reg .iface)) =
      .ok (.valueField ⟨lit "Value", tagNone, reg.parseTagOrNone (lit "Value"), noFlags, .iface⟩) := rfl
  rw [getTypeInfo, valueInfo, htag, hval, structInfo, ValueTypeOk]
  simp only [TypeInfo.valueFields, List.filterMap_cons, List.filterMap_nil, checkTags, noFlags,
    Bool.false_or, beq_iff_eq]
  by_cases h0 : reg.parseTagOrNone (lit "Tag") = tagNone
  · simp [h0]
  · by_cases hsame : reg.parseTagOrNone (lit "Value") = reg.parseTagOrNone (lit "Tag")
    · -- the second field finds the tag of the first one
      have hlookup : List.lookup (reg.parseTagOrNone (lit "Tag"))
          [(reg.parseTagOrNone (lit "Tag"), lit "Tag")] = some (lit "Tag") := by
        rw [List.lookup_cons, beq_self_eq_true]
      simp [h0, hsame, hlookup]
    · have hlookup : List.lookup (reg.parseTagOrNone (lit "Value"))
          [(reg.parseTagOrNone (lit "Tag"), lit "Tag")] = none := by
        rw [List.lookup_cons, beq_eq_false_iff_ne.mpr hsame]
        rfl
      simp only [if_neg h0, List.lookup_nil, hlookup, ite_self]
      exact iff_of_true ⟨_, rfl⟩ (.inr hsame)

theorem getTypeInfo_value (h : ValueTypeOk reg) : ∃ ti, getTypeInfo reg .value = .ok ti :=
  (getTypeInfo_value_iff reg).mpr h

/-! ## What `Marshal` writes for a tree -/

theorem tagOr_of_ne {ty : GoType} {tag : Tag} (h : tag ≠ tagNone) (ti : TypeInfo)
    (fi : Option FieldInfo) (v : GoVal ty) : tagOr tag ti fi v = tag :=
  if_neg h

/-- A scalar that the rules map to one item emits that item. -/
theorem encodeScalar_writes {ctx : Ctx} {tag : Tag} {s : Scalar} {v : s.Val} {p : Prim}
    (htag : tag ≠ tagNone) (hnil : scalarIsNil s v = false)
    (hemit : scalarEmit reg ctx tag none s v = .ok (.prim p)) :
    Writes (fun e => encodeScalar reg ctx tag none s v e) (p.item tag) none := by
  have heq : ∀ e, encodeScalar reg ctx tag none s v e = ((Emit.prim p).run tag e, none) := by
    intro e
    rw [encodeScalar, hnil, tagOr_of_ne htag, hemit]
    rfl
  simp only [heq]
  exact Writes.emitRun tag (.prim p)

theorem taggedScalar_of_none {tag : Tag} (h : reg.enumForTag tag = none) (s : Scalar) (v : s.Val) :
    taggedScalar reg noFlags tag s v = plainScalar false s v := by
  rw [taggedScalar, h]
  rfl

/-- The tag's enumeration does not matter for a scalar that is neither a number nor a string. -/
theorem taggedScalar_other {tag : Tag} {s : Scalar} {v : s.Val} (hnum : enumNumber s v = none)
    (hstr : scalarString s v = none) :
    taggedScalar reg noFlags tag s v = plainScalar false s v := by
  rw [taggedScalar, hnum, hstr]
  cases reg.enumForTag tag <;> rfl

theorem scalarEmit_plain {ctx : Ctx} {tag : Tag} {s : Scalar} {v : s.Val} {p : Prim}
    (htag : tag ≠ tagNone) (hmarshal : marshalScalar s v = none)
    (hkind : s ≠ .ttlv ∧ ∀ n k, s ≠ .other n k)
    (htagged : taggedScalar reg noFlags tag s v = .ok p) :
    scalarEmit reg ctx tag none s v = .ok (.prim p) := by
  have hflags : flagsOf none = noFlags := rfl
  cases s with
  | ttlv => exact absurd rfl hkind.1
  | other n k => exact absurd rfl (hkind.2 n k)
  | _ =>
    simp only [scalarEmit, hmarshal, hflags, htagged]
    rw [if_neg (by simp [noFlags]), if_neg htag]

/-- The content of a leaf, on its way through `EncodeValue`. -/
theorem item_writes (ctx : Ctx) {tag : Tag} (htag : tag ≠ tagNone) (item : Item)
    (hplain : item.Plain reg tag) :
    Writes (fun e => marshalValue reg ctx tag item.iface e) (item.prim.item tag) none := by
  -- every leaf is one scalar, encoded at the tag and flushed
  have hscalar : ∀ {s : Scalar} {v : s.Val} {p : Prim}, scalarIsNil s v = false →
      scalarEmit reg ctx tag none s v = .ok (.prim p) →
      Writes (fun e => EncRes.andThen (encodeScalar reg ctx tag none s v e) flush)
        (p.item tag) none := by
    intro s v p hnil hemit
    have hw := (encodeScalar_writes reg htag hnil hemit).andThen Writes.flush
    rw [List.append_nil] at hw
    exact hw
  cases item with
  | int32 i =>
    simp only [Item.iface, marshalValue]
    refine hscalar rfl (scalarEmit_plain reg htag rfl ⟨by simp, by simp⟩ ?_)
    rw [taggedScalar_of_none reg hplain]
    have hle : ¬ (i : BitVec 32).toInt > 2147483647 := by
      have := BitVec.toInt_lt (x := i)
      omega
    show (if (i : BitVec 32).toInt > 2147483647 then _ else _) = _
    rw [if_neg hle, BitVec.ofInt_toInt]
    rfl
  | int64 i =>
    simp only [Item.iface, marshalValue]
    refine hscalar rfl (scalarEmit_plain reg htag rfl ⟨by simp, by simp⟩ ?_)
    exact taggedScalar_other reg rfl rfl
  | bigInt i =>
    simp only [Item.iface, marshalValue, encode]
    refine hscalar rfl (scalarEmit_plain reg htag rfl ⟨by simp, by simp⟩ ?_)
    exact taggedScalar_other reg rfl rfl
  | enumValue v =>
    simp only [Item.iface, marshalValue]
    exact hscalar rfl rfl
  | bool b =>
    simp only [Item.iface, marshalValue]
    refine hscalar rfl (scalarEmit_plain reg htag rfl ⟨by simp, by simp⟩ ?_)
    exact taggedScalar_other reg rfl rfl
  | string s =>
    simp only [Item.iface, marshalValue]
    refine hscalar rfl (scalarEmit_plain reg htag rfl ⟨by simp, by simp⟩ ?_)
    rw [taggedScalar_of_none reg hplain]
    rfl
  | bytes b =>
    simp only [Item.iface, marshalValue]
    cases b with
    | none =>
      -- `indirect` turns the nil slice into an invalid value
      show Writes (fun e => EncRes.andThen (e, none) flush) [] none
      exact (Writes.nothing none).andThen Writes.flush
    | some b =>
      refine hscalar rfl (scalarEmit_plain reg htag rfl ⟨by simp, by simp⟩ ?_)
      exact taggedScalar_other reg rfl rfl
  | time t =>
    simp only [Item.iface, marshalValue]
    refine hscalar rfl (scalarEmit_plain reg htag rfl ⟨by simp, by simp⟩ ?_)
    exact taggedScalar_other reg rfl rfl
  | dateTimeExtended t =>
    simp only [Item.iface, marshalValue]
    exact hscalar rfl rfl
  | duration d =>
    simp only [Item.iface, marshalValue]
    refine hscalar rfl (scalarEmit_plain reg htag rfl ⟨by simp, by simp⟩ ?_)
    exact taggedScalar_other reg rfl rfl

theorem valueTag_of_ne {own : Tag} (h : own ≠ tagNone) (tag : Tag) : valueTag own tag = own :=
  if_pos h

mutual
theorem tree_writes (hvalue : ValueTypeOk reg) (ctx : Ctx) :
    ∀ t : Tree, t.Encodable reg →
      Writes (fun e => encode reg ctx .any false tagNone none t.toVal e) t.bytes none
  | .leaf tag item, ⟨htag, hplain⟩ => by
    obtain ⟨ti, hti⟩ := getTypeInfo_value reg hvalue
    simp only [Tree.toVal, encode, hti, valueTag_of_ne htag]
    exact item_writes reg ctx htag item hplain
  | .node tag children, ⟨htag, hchildren⟩ => by
    have hbody := trees_writes hvalue ctx children hchildren
    obtain ⟨ti, hti⟩ := getTypeInfo_value reg hvalue
    simp only [Tree.toVal, encode, hti, valueTag_of_ne htag, marshalValue, if_true]
    exact hbody.struct tag

theorem trees_writes (hvalue : ValueTypeOk reg) (ctx : Ctx) :
    ∀ ts : List Tree, TreesEncodable reg ts →
      Writes (fun e => encodeEach reg ctx (treesToVals ts) e) (treesBytes ts) none
  | [], _ => by
    simp only [treesToVals, encodeEach]
    exact Writes.nothing none
  | t :: ts, ⟨ht, hts⟩ => by
    have hhead := (tree_writes hvalue ctx t ht).andThen Writes.flush
    rw [List.append_nil] at hhead
    simp only [treesToVals, encodeEach]
    exact hhead.andThen (trees_writes hvalue ctx ts hts)
end

/-- `Marshal` asks for the type information of `ttlv.Value` first, and fails if there is none. -/
theorem valueTypeOk_of_marshal {t : Tree} {b : Bytes} (h : marshal reg t.toVal = .ok b) : ValueTypeOk reg := by
  rw [← getTypeInfo_value_iff]
  cases hti : getTypeInfo reg .value with
  | ok ti => exact ⟨ti, rfl⟩
  | error err => cases t <;> simp [marshal, encodeValue, Tree.toVal, encode, hti, EncRes.andThen] at h

/-- `Marshal` writes the bytes of a tree. -/
theorem marshal_toVal (hvalue : ValueTypeOk reg) {t : Tree} (h : t.Encodable reg) :
    marshal reg t.toVal = .ok t.bytes :=
  marshal_of_writes reg (tree_writes reg hvalue Ctx.top t h)

end

end KmipGo.Value
