import KmipGo.Go.Types

/-! # Type information

`getTypeInfo`, `getFieldInfo` and `getFieldsInfo` of `ttlv/encoder.go`: how a
struct type, its field names and its `ttlv` struct tags determine the tag of
each field.  `DefaultRegistry` is the parameter `reg`.
-/

namespace KmipGo.Go

open KmipGo.Lib KmipGo.Ttlv KmipGo.Reg

/-- `fieldFlags`. -/
structure Flags where
  omitEmpty : Bool
  enum : Bool
  dateTimeExt : Bool
  any : Bool
  bitmask : Bool
deriving DecidableEq, Repr

def noFlags : Flags := ⟨false, false, false, false, false⟩

/-- `fieldInfo`, with the type of the field for `ti.typ`. -/
structure FieldInfo where
  name : GoString
  explicitTag : Tag
  tag : Tag
  flags : Flags
  typ : GoType
deriving DecidableEq

/-- The role of each field of a struct type, by position. -/
inductive Slot where
  | skipped
  | tagField (fi : FieldInfo)
  | valueField (fi : FieldInfo)
deriving DecidableEq

structure TypeInfo where
  inferredTag : Tag
  slots : List Slot
deriving DecidableEq

/-- `ti.tagField`: the field named TTLVTag. -/
def TypeInfo.tagField (ti : TypeInfo) : Option FieldInfo :=
  ti.slots.findSome? fun
    | .tagField fi => some fi
    | _ => none

/-- `ti.valueFields`. -/
def TypeInfo.valueFields (ti : TypeInfo) : List FieldInfo :=
  ti.slots.filterMap fun
    | .valueField fi => some fi
    | _ => none

inductive TypeErr where
  /-- the struct tag of a field names no tag -/
  | parse (e : ParseErr)
  /-- `ErrTagConflict`: "field S.F may not specify a TTLV tag and the "any" flag" -/
  | anyWithTag (struct field : GoString)
  /-- `ErrTagConflict`: "TTLV tag T in tag of S.F conflicts with TTLV tag U in V.G" -/
  | tagConflict (tag : Tag) (struct field : GoString) (other : Tag) (typ tagField : GoString)
  /-- `ErrTagConflict`: "field resolves to the same tag (T) as other field (F)" -/
  | sameTag (tag : Tag) (other : GoString)
deriving DecidableEq, Repr

/-! ## Fields -/

/-- One comma separated flag of a struct tag; unknown ones are ignored. -/
def Flags.parse (f : Flags) (value : GoString) : Flags :=
  if toLower value = lit "enum" then { f with enum := true }
  else if toLower value = lit "omitempty" then { f with omitEmpty := true }
  else if toLower value = lit "datetimeextended" then { f with dateTimeExt := true }
  else if toLower value = lit "bitmask" then { f with bitmask := true }
  else if toLower value = lit "any" then { f with any := true }
  else f

section

variable (reg : Registry)

/-- The tag and the flags a struct tag spells out; `none` for "-". -/
def parseStructTag (s : GoString) : Except TypeErr (Option (Tag × Flags)) :=
  match splitAt 44 s with
  | [] => .ok (some (tagNone, noFlags))
  | value :: flags =>
    if value = lit "-" then .ok none
    else if value = [] then .ok (some (tagNone, flags.foldl Flags.parse noFlags))
    else match reg.parseTag value with
      | .error e => .error (.parse e)
      | .ok t => .ok (some (t, flags.foldl Flags.parse noFlags))

/-- The last part of `getFieldInfo`, where the type information of the field is there: an intrinsic
    tag comes first, then the one of the struct tag, then the name of the field. -/
def resolveTag (structName : GoString) (hdr : FieldHdr) (ty : GoType) (ti : TypeInfo)
    (explicitTag : Tag) (flags : Flags) : Except TypeErr FieldInfo :=
  match ti.tagField with
  | some tf =>
    if tf.explicitTag ≠ tagNone then
      if explicitTag ≠ tagNone ∧ explicitTag ≠ tf.explicitTag then
        .error (.tagConflict explicitTag structName hdr.name tf.explicitTag ty.name tf.name)
      else .ok ⟨hdr.name, explicitTag, tf.explicitTag, flags, ty⟩
    else if explicitTag ≠ tagNone then .ok ⟨hdr.name, explicitTag, explicitTag, flags, ty⟩
    else .ok ⟨hdr.name, explicitTag, reg.parseTagOrNone hdr.name, flags, ty⟩
  | none =>
    if explicitTag ≠ tagNone then .ok ⟨hdr.name, explicitTag, explicitTag, flags, ty⟩
    else .ok ⟨hdr.name, explicitTag, reg.parseTagOrNone hdr.name, flags, ty⟩

/-- `getFieldInfo`, given the type information of the field's type. -/
def getFieldInfo (structName : GoString) (hdr : FieldHdr) (ty : GoType)
    (fieldTi : Except TypeErr TypeInfo) : Except TypeErr Slot :=
  if hdr.anonymous || hdr.unexported then .ok .skipped
  else match parseStructTag reg hdr.ttlvTag with
    | .error e => .error e
    | .ok none => .ok .skipped
    | .ok (some (explicitTag, flags)) =>
      if flags.any ∧ explicitTag ≠ tagNone then .error (.anyWithTag structName hdr.name)
      else match fieldTi with
        | .error e => .error e
        | .ok ti =>
          match resolveTag reg structName hdr ty ti explicitTag flags with
          | .error e => .error e
          | .ok fi => .ok (if fi.name = lit "TTLVTag" then .tagField fi else .valueField fi)

/-- The check that no two value fields have the same tag; `names` are the tags seen so far. -/
def checkTags : List FieldInfo → List (Tag × GoString) → Except TypeErr Unit
  | [], _ => .ok ()
  | f :: rest, names =>
    if f.flags.any || f.tag == tagNone then checkTags rest names
    else match names.lookup f.tag with
      | some fname => .error (.sameTag f.tag fname)
      | none => checkTags rest ((f.tag, f.name) :: names)

/-- The type information of a struct type, from that of its fields. -/
def structInfo (name : GoString) (slots : Except TypeErr (List Slot)) : Except TypeErr TypeInfo :=
  match slots with
  | .error e => .error e
  | .ok slots =>
    match checkTags (TypeInfo.valueFields ⟨tagNone, slots⟩) [] with
    | .error e => .error e
    | .ok () => .ok ⟨reg.parseTagOrNone name, slots⟩

/-- The fields of `ttlv.Value`: `Tag Tag` and `Value interface{}`. -/
def valueTagHdr : FieldHdr := ⟨lit "Tag", [], false, false⟩
def valueValueHdr : FieldHdr := ⟨lit "Value", [], false, false⟩

/-- The type information of a type without fields. -/
def plainInfo (ty : GoType) : TypeInfo := ⟨reg.parseTagOrNone ty.name, []⟩

/-- `getFieldsInfo` for `ttlv.Value`. -/
def valueInfo : Except TypeErr TypeInfo :=
  structInfo reg (lit "Value")
    (match getFieldInfo reg (lit "Value") valueTagHdr tagType (.ok (plainInfo reg tagType)) with
    | .error e => .error e
    | .ok s =>
      match getFieldInfo reg (lit "Value") valueValueHdr .iface (.ok (plainInfo reg .iface)) with
      | .error e => .error e
      | .ok s' => .ok [s, s'])

mutual
/-- `getTypeInfo`. -/
def getTypeInfo : GoType → Except TypeErr TypeInfo
  | .struct name fs => structInfo reg name (getFieldsInfo name fs)
  | .value => valueInfo reg
  | ty => .ok (plainInfo reg ty)
/-- The loop of `getFieldsInfo` over the fields of a struct type. -/
def getFieldsInfo (structName : GoString) : Fields → Except TypeErr (List Slot)
  | .nil => .ok []
  | .cons hdr ty rest =>
    match getFieldInfo reg structName hdr ty (getTypeInfo ty) with
    | .error e => .error e
    | .ok slot =>
      match getFieldsInfo structName rest with
      | .error e => .error e
      | .ok slots => .ok (slot :: slots)
end

end

/-- The value of the field at the position of a `tagField` slot, if it is of type `Tag`. -/
def ttlvTagValue : {fs : Fields} → List Slot → FieldVals fs → Option Tag
  | .cons _ (.scalar .tag) _, .tagField _ :: _, .cons (.scalar t) _ => some t
  | .cons _ _ _, .tagField _ :: _, .cons _ _ => none
  | .cons _ _ _, _ :: slots, .cons _ vs => ttlvTagValue slots vs
  | _, _, _ => none

/-- The part of `tagForMarshal` that looks at a TTLVTag field: its struct tag, or its value. -/
def intrinsicTag : {ty : GoType} → TypeInfo → GoVal ty → Option Tag
  | _, ti, .struct vs =>
    match ti.tagField with
    | none => none
    | some tf =>
      if tf.explicitTag ≠ tagNone then some tf.explicitTag
      else match ttlvTagValue ti.slots vs with
        | some t => if t ≠ tagNone then some t else none
        | none => none
  | _, _, _ => none

/-- `tagForMarshal`. -/
def tagForMarshal {ty : GoType} (ti : TypeInfo) (fi : Option FieldInfo) (v : GoVal ty) : Tag :=
  match intrinsicTag ti v with
  | some t => t
  | none =>
    match fi with
    | some fi => fi.tag
    | none => ti.inferredTag

end KmipGo.Go
