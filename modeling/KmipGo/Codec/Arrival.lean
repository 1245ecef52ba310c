import KmipGo.Codec.RoundTrip

/-! # Open messages

The messages of KMIP have fields of type `interface{}`: payloads, attribute
values, key material.  What the encoder writes there depends on the value, and
the decoder, which does not know its type, leaves a structure undecoded and
reads anything else as the Go type of the item.

* `Sendable` — the values that arrive: what `Codec.RoundTrip` asks of the fields of
  known type, and structs, pointers to structs and scalars in interfaces.
* `Arrived` — what the decoder has made of a value.  In place of a struct in an
  interface there is a slice of bytes from which `Unmarshal` gets the struct, and
  so on for the interfaces in that struct.
* `arrives` — every sendable value arrives, by induction over the value.
-/

namespace KmipGo.Codec

open KmipGo.Lib KmipGo.Ttlv KmipGo.Reg KmipGo.Go KmipGo.Encoder KmipGo.Decoder KmipGo.Value
  KmipGo.Message

/-! ## What arrives -/

/-- The scalar read for a scalar.  A time may have lost its fraction of a second. -/
def ScalarArrived : (s : Scalar) → s.Val → s.Val → Prop
  | .time, v, w => w = v ∨ w = Time.ofUnix v.unix
  | s, v, w => scalarContent s w = scalarContent s v

/-- The value of a scalar as an interface holds it, once its item has been read. -/
def heldAs : (s : Scalar) → s.Val → Item
  | .bool _, b => .bool b
  | .string _, str => .string str
  | .int _ .int64, i => .int64 i
  | .int _ _, i => .int32 (BitVec.ofInt 32 i.toInt)
  | .uint _ .uint64, u => .int64 u
  | .uint _ _, u => .int32 (BitVec.ofNat 32 u.toNat)
  | .enum _ true, u => .int32 u
  | .enum _ false, u => .enumValue u
  | .bytes _, b => .bytes b
  | .time, t => .time (Time.ofUnix t.unix)
  | .duration, d => .duration d
  | .bigInt, i => .bigInt i
  -- these are not sent in interfaces
  | .tag, _ | .dateTimeExtended, _ | .ttlv, _ | .other _ _, _ => .bytes none

section

variable (reg : Registry)

/-- An interface holds a scalar in the type of its item. -/
def ScalarHeld (s : Scalar) (v : s.Val) (w : GoVal .iface) : Prop :=
  ∃ i : Item, w = i.iface ∧ i.content = (heldAs s v).content

/-- An interface holds bytes from which a value as wanted is read. -/
def Readable (ty : GoType) (good : GoVal ty → Prop) (w : GoVal .iface) : Prop :=
  ∃ t u, w = .iface (.scalar (s := .ttlv) t) ∧ unmarshalBytes reg ty t = (u, .ok ()) ∧ good u

mutual
/-- The second value is what the decoder has made of the first. -/
def Arrived : {ty : GoType} → GoVal ty → GoVal ty → Prop
  | .scalar s, .scalar v, .scalar w => ScalarArrived s v w
  | _, .ptrNil, .ptrNil => True
  | _, .ptr v, .ptr w => Arrived v w
  | _, .slice vs, .slice ws => ElemsArrived vs ws
  | _, .struct vs, .struct ws => FieldsArrived vs ws
  | _, .ifaceNil, .ifaceNil => True
  | _, .iface v, w => InnerArrived v w
  | _, _, _ => False
/-- The same for a value in an interface, as it is or behind a pointer. -/
def InnerArrived : {ty : GoType} → GoVal ty → GoVal .iface → Prop
  | _, @GoVal.scalar s v, w | _, .ptr (@GoVal.scalar s v), w => ScalarHeld s v w
  | _, @GoVal.struct n fs vs, w | _, .ptr (@GoVal.struct n fs vs), w =>
    Readable reg (.struct n fs) (fun u => FieldsArrived vs u.fields) w
  | _, _, _ => False
def ElemsArrived : {e : GoType} → GoVals e → GoVals e → Prop
  | _, .nil, .nil => True
  | _, .cons v vs, .cons w ws => Arrived v w ∧ ElemsArrived vs ws
  | _, _, _ => False
def FieldsArrived : {fs : Fields} → FieldVals fs → FieldVals fs → Prop
  | _, .nil, .nil => True
  | _, .cons v vs, .cons w ws => Arrived v w ∧ FieldsArrived vs ws
end

section

variable {reg : Registry} {hdr : FieldHdr} {ty e : GoType} {rest : Fields} {n : GoString} {fs : Fields}

theorem Arrived.fields {v w : GoVal (.struct n fs)} (h : Arrived reg v w) : FieldsArrived reg v.fields w.fields := by
  cases v
  cases w
  exact h

theorem FieldsArrived.head {vs ws : FieldVals (.cons hdr ty rest)} (h : FieldsArrived reg vs ws) :
    Arrived reg vs.head ws.head := by
  cases vs
  cases ws
  exact h.1

theorem FieldsArrived.tail {vs ws : FieldVals (.cons hdr ty rest)} (h : FieldsArrived reg vs ws) :
    FieldsArrived reg vs.tail ws.tail := by
  cases vs
  cases ws
  exact h.2

theorem Arrived.get {s : Scalar} {v w : GoVal (.scalar s)} (h : Arrived reg v w) : ScalarArrived s v.get w.get := by
  cases v
  cases w
  exact h

end

/-! ## What is sent -/

/-- A scalar that is a field with this information.  The fraction of a second is not sent unless the
    field is flagged. -/
def ScalarSendable (fi : FieldInfo) : (s : Scalar) → s.Val → Prop
  | .time, t =>
    if fi.flags.dateTimeExt then t.MicroExact else fi.flags.omitEmpty = true → t.nanosecond = 0
  | s, v => ScalarPlain reg fi.tag s ∧ ScalarInRange fi.flags.dateTimeExt s v

/-- A scalar or a struct, and so nothing that has to be looked through. -/
def Direct : {ty : GoType} → GoVal ty → Prop
  | _, .scalar _ | _, .struct _ => True
  | _, _ => False

/-- The value is written as one item. -/
def Single (fi : FieldInfo) : {ty : GoType} → GoVal ty → Prop
  | .scalar s, .scalar _ => fi.flags.omitEmpty = false ∧ s.kind ≠ .Slice
  | _, .ptr _ | _, .iface _ | _, .struct _ => True
  | _, _ => False

/-- A scalar in an interface, whose item does not depend on the registry or on the flags. -/
def Untyped (fi : FieldInfo) (s : Scalar) (v : s.Val) : Prop :=
  reg.enumForTag fi.tag = none ∧ fi.flags.dateTimeExt = false ∧ fi.flags.omitEmpty = false ∧
    scalarIsNil s v = false ∧ ScalarSendable reg fi s v

mutual
/-- The values that arrive in a field with this information. -/
def Sendable (fi : FieldInfo) : {ty : GoType} → GoVal ty → Prop
  | .scalar s, .scalar v => ScalarSendable reg fi s v
  | _, .ptrNil | _, .ifaceNil => True
  | _, .ptr v => Direct v ∧ Single fi v ∧ Sendable fi v
  | _, .slice vs => ElemsSendable (elemField fi) vs
  | .struct n fs, .struct vs => ∃ ti, getTypeInfo reg (.struct n fs) = .ok ti ∧ FieldsSendable ti.slots vs
  | _, .iface v => InnerSendable fi v
  | _, _ => False
/-- The same for a value in an interface, as it is or behind a pointer. -/
def InnerSendable (fi : FieldInfo) : {ty : GoType} → GoVal ty → Prop
  | _, @GoVal.scalar s v | _, .ptr (@GoVal.scalar s v) => Untyped reg fi s v
  | _, @GoVal.struct n fs vs | _, .ptr (@GoVal.struct n fs vs) =>
    ∃ ti, getTypeInfo reg (.struct n fs) = .ok ti ∧ FieldsSendable ti.slots vs
  | _, _ => False
def ElemsSendable (fi : FieldInfo) : {e : GoType} → GoVals e → Prop
  | _, .nil => True
  | _, .cons v vs => Single fi v ∧ Sendable fi v ∧ ElemsSendable fi vs
/-- The same for the fields of a struct. -/
def FieldsSendable : List Slot → {fs : Fields} → FieldVals fs → Prop
  | .valueField fi :: slots, _, .cons v vs =>
    (fi.tag.Valid ∧ fi.flags.any = false ∧ fi.flags.enum = false ∧ fi.flags.bitmask = false) ∧
      Sendable fi v ∧ FieldsSendable slots vs
  | [], _, .nil => True
  | _, _, _ => False
end

/-! ## Values that arrive -/

/-- What is written for `v` are blocks with the tag of the field, from which `v` arrives. -/
def Arrives (d : Deref) (tag : Tag) (fi : FieldInfo) {ty : GoType} (v : GoVal ty) : Prop :=
  Delivers reg d tag fi v True (Arrived reg v) (Single fi v)

/-- Where the encoder is called with `tag` for a field with this information. -/
structure Site (tag : Tag) (fi : FieldInfo) : Prop where
  tag : tag = tagNone ∨ tag = fi.tag
  valid : fi.tag.Valid
  enum : fi.flags.enum = false
  bitmask : fi.flags.bitmask = false

theorem WritesOut.unique {reg : Registry} {d : Deref} {tag : Tag} {fi : Option FieldInfo} {ty : GoType}
    {v : GoVal ty} {b b' : Bytes} (h : WritesOut reg d tag fi v b) (h' : WritesOut reg d tag fi v b') :
    b = b' :=
  ((h Ctx.top false).unique (h' Ctx.top false)).1

/-! ## Scalars -/

theorem scalarArrived_of_content {s : Scalar} {v w : s.Val} (h : scalarContent s w = scalarContent s v) :
    ScalarArrived s v w := by
  cases s with
  | time => exact .inl h
  | _ => exact h

theorem scalarContent_of_content {s : Scalar} {v w : s.Val}
    (h : content (.scalar w : GoVal (.scalar s)) = content (.scalar v)) : scalarContent s w = scalarContent s v := by
  simpa only [content, GoVal.scalar.injEq] using h

/-- A scalar that survives arrives. -/
theorem Survives.arrives {reg : Registry} {d : Deref} {tag : Tag} {fi : FieldInfo} {s : Scalar} {v : s.Val}
    (h : Survives reg d tag fi (.scalar v)) : Arrives reg d tag fi (.scalar v) := by
  refine h.mono id (fun w hcontent => ?_) fun hsingle => ⟨rfl, hsingle⟩
  cases w with
  | scalar w => exact scalarArrived_of_content (scalarContent_of_content hcontent)

theorem emits_dateTime {fi : FieldInfo} (h : Site tagNone fi) (hext : fi.flags.dateTimeExt = false) (t : Time) :
    EmitsItem reg fi .time t (.dateTime t) := by
  refine emitsItem_plain reg (ne_none_of_valid h.valid) h.enum h.bitmask ⟨by simp, by simp, rfl⟩
    (.inr ⟨rfl, rfl⟩) ?_
  rw [plainScalar, hext]
  rfl

/-- A time is written without its fraction of a second. -/
theorem time_arrives {d : Deref} {tag : Tag} {fi : FieldInfo} (h : Site tag fi) {t : Time}
    (hext : fi.flags.dateTimeExt = false) (homit : fi.flags.omitEmpty = false) :
    Arrives reg d tag fi (.scalar (s := .time) t) := by
  have hsite : Site tagNone fi := ⟨.inl rfl, h.valid, h.enum, h.bitmask⟩
  have hwrites (u : Time) : WritesOut reg d tag (some fi) (.scalar (s := .time) u)
      ((Prim.dateTime u).item fi.tag) := by
    have hw := writesOut_item reg (d := d) h.tag (s := .time) (v := u) rfl (emits_dateTime reg hsite hext u)
    rwa [homit, Bool.false_and, if_neg Bool.false_ne_true] at hw
  have hrange : ScalarInRange fi.flags.dateTimeExt .time (Time.ofUnix t.unix) := by
    rw [ScalarInRange, hext]
    rfl
  obtain ⟨out, hw, hblocks⟩ :=
    scalar_survives reg (d := d) h.tag h.valid h.enum h.bitmask (s := .time) trivial hrange
  refine ⟨out, ?_, fun hsize => ?_⟩
  · rw [hw.unique (hwrites (Time.ofUnix t.unix))]
    exact hwrites t
  · obtain ⟨bs, hout, htags, hreads, hone⟩ := hblocks hsize
    refine ⟨bs, hout, htags, hreads.mono id fun w hcontent => ?_, fun hsingle => hone ⟨rfl, hsingle⟩⟩
    cases w with
    | scalar w => exact .inr (scalarContent_of_content hcontent)

theorem scalar_arrives {d : Deref} {tag : Tag} {fi : FieldInfo} (h : Site tag fi) {s : Scalar} {v : s.Val}
    (hv : ScalarSendable reg fi s v) : Arrives reg d tag fi (.scalar v) := by
  have survives (hplain : ScalarPlain reg fi.tag s) (hrange : ScalarInRange fi.flags.dateTimeExt s v) :=
    (scalar_survives reg (d := d) h.tag h.valid h.enum h.bitmask hplain hrange).arrives
  cases s with
  | time =>
    cases hext : fi.flags.dateTimeExt with
    | true =>
      rw [ScalarSendable, hext] at hv
      rw [hext] at survives
      exact survives trivial hv
    | false =>
      rw [ScalarSendable, hext] at hv
      rw [hext] at survives
      cases homit : fi.flags.omitEmpty with
      | true => exact survives trivial (hv homit)
      | false => exact time_arrives reg h hext homit
  | _ => exact survives hv.1 hv.2

/-! ## Scalars in interfaces -/

/-- The item of a scalar in an interface. -/
theorem heldAs_item {fi : FieldInfo} (h : Site tagNone fi) {s : Scalar} {v : s.Val} (hv : Untyped reg fi s v) :
    (heldAs s v).Exact ∧ ∃ p, EmitsItem reg fi s v p ∧ p.item fi.tag = (heldAs s v).prim.item fi.tag := by
  obtain ⟨hnone, hext, homit, hnil, hv⟩ := hv
  have emits {s : Scalar} {v : s.Val} {p : Prim} (hs : s ≠ .ttlv ∧ (∀ n k, s ≠ .other n k) ∧ marshalScalar s v = none)
      (hp : plainScalar fi.flags.dateTimeExt s v = .ok p) : EmitsItem reg fi s v p :=
    emitsItem_plain reg (ne_none_of_valid h.valid) h.enum h.bitmask hs (.inl hnone) hp
  cases s with
  | bool n => exact ⟨trivial, _, emits ⟨by simp, by simp, rfl⟩ rfl, rfl⟩
  | string n => exact ⟨trivial, _, emits ⟨by simp, by simp, rfl⟩ rfl, rfl⟩
  | bytes n =>
    refine ⟨?_, _, emits ⟨by simp, by simp, rfl⟩ rfl, rfl⟩
    intro hnone
    rw [show v = none from hnone] at hnil
    cases hnil
  | bigInt => exact ⟨trivial, _, emits ⟨by simp, by simp, rfl⟩ rfl, rfl⟩
  | duration => exact ⟨hv.2, _, emits ⟨by simp, by simp, rfl⟩ rfl, rfl⟩
  | time => exact ⟨rfl, _, emits_dateTime reg h hext v, rfl⟩
  | int n k =>
    cases k with
    | int64 => exact ⟨trivial, _, emits ⟨by simp, by simp, rfl⟩ rfl, rfl⟩
    | int | int32 =>
      have hrange := hv.2.2
      exact ⟨trivial, _, emits ⟨by simp, by simp, rfl⟩ (if_neg (by omega)), rfl⟩
    | int8 | int16 => exact absurd hv.1 id
  | uint n k =>
    cases k with
    | uint64 => exact ⟨trivial, _, emits ⟨by simp, by simp, rfl⟩ rfl, rfl⟩
    | uint32 =>
      have hrange : v.toNat < 2 ^ 31 := hv.2
      exact ⟨trivial, _, emits ⟨by simp, by simp, rfl⟩ (if_neg (by omega)), rfl⟩
    | uint | uint8 | uint16 => exact absurd hv.1 id
  | enum n m =>
    cases m with
    | true => exact ⟨trivial, _, fun ctx => rfl, rfl⟩
    | false => exact ⟨trivial, _, fun ctx => rfl, rfl⟩
  | tag | dateTimeExtended | ttlv | other n k => exact absurd hv.1 id

/-- The value `v` stands in an interface, as it is or behind a pointer: it is written as `v` would be. -/
def InInterface {ty : GoType} (v : GoVal ty) (x : GoVal .iface) : Prop :=
  x = .iface v ∨ x = .iface (.ptr v)

theorem InInterface.writes {reg : Registry} {tag : Tag} {fi : FieldInfo} {ty : GoType} {v : GoVal ty}
    {x : GoVal .iface} {out : Bytes} (hx : InInterface v x)
    (h : ∀ d, WritesOut reg d tag (some fi) v out) : WritesOut reg .any tag (some fi) x out := by
  intro ctx addr
  rcases hx with rfl | rfl
  · simp only [encode]
    exact h .ptr ctx false
  · simp only [encode]
    exact h .done ctx true

theorem scalar_in_interface {tag : Tag} {fi : FieldInfo} (h : Site tag fi) {s : Scalar} {v : s.Val}
    {x : GoVal .iface} (hx : InInterface (.scalar v : GoVal (.scalar s)) x) (hv : Untyped reg fi s v) :
    Arrives reg .any tag fi x := by
  obtain ⟨hexact, p, hemit, hitem⟩ := heldAs_item reg ⟨.inl rfl, h.valid, h.enum, h.bitmask⟩ hv
  obtain ⟨-, -, homit, hnil, -⟩ := hv
  have hwrites (d : Deref) : WritesOut reg d tag (some fi) (.scalar v) ((heldAs s v).prim.item fi.tag) := by
    have hw := writesOut_item reg (d := d) h.tag hnil hemit
    rwa [homit, Bool.false_and, if_neg Bool.false_ne_true, hitem] at hw
  refine ⟨_, hx.writes hwrites, fun hsize => ?_⟩
  obtain ⟨l, hbytes, hcontent⟩ := exists_leaf ⟨fi.tag, h.valid⟩ (heldAs s v) hexact hsize
  refine ⟨[.leaf ⟨fi.tag, h.valid⟩ l], by rw [blocksBytes_single, hbytes], fun c hc => ?_,
    fun dec tail _ => .of_eq (decodeAll_iface dec .any _ tail) ?_, fun _ => ⟨_, rfl⟩⟩
  · rw [List.mem_singleton.mp hc]
    exact ⟨trivial, rfl⟩
  · have hheld : ScalarHeld s v (leafItem l).iface := ⟨leafItem l, rfl, hcontent⟩
    rcases hx with rfl | rfl <;> exact hheld

/-! ## Structs -/

/-- The elements of a slice: one block each, from which they arrive. -/
def ElemsArrive (tag : Tag) (fi : FieldInfo) {e : GoType} (vs : GoVals e) : Prop :=
  DeliversElems reg tag fi vs True (ElemsArrived reg vs)

/-- The fields from position `k` on: their blocks are matched there, and the fields arrive. -/
def FieldsArrive (all : List Slot) (k : Nat) (slots : List Slot) {fs : Fields} (vs : FieldVals fs) : Prop :=
  DeliversFields reg all k slots vs True (FieldsArrived reg vs)

theorem valueFields_of_sendable : ∀ {fs : Fields} (vs : FieldVals fs) (slots : List Slot),
    FieldsSendable reg slots vs → ValueFieldsOnly slots
  | _, _, [] => fun _ _ => List.not_mem_nil
  | _, .cons _ vs, .valueField _ :: slots => by
    intro h fi hfi
    cases hfi with
    | tail _ hfi => exact valueFields_of_sendable vs slots h.2.2 fi hfi
  | _, .nil, .valueField _ :: _ | _, .nil, .skipped :: _ | _, .nil, .tagField _ :: _
  | _, .cons _ _, .skipped :: _ | _, .cons _ _, .tagField _ :: _ => fun h => absurd h id

/-- `Unmarshal` of a structure, whatever follows it. -/
theorem unmarshalBytes_block_append (n : GoString) (fs : Fields) {c : Block} (hsized : c.Sized) (tail : Bytes) :
    unmarshalBytes reg (.struct n fs) (c.bytes ++ tail) =
      decodeAll reg newDecoder .any (.struct n fs) (GoType.struct n fs).zero (slices [c] []) := by
  rw [← unmarshalBytes_block reg n fs hsized, unmarshalBytes, unmarshalBytes, nextTTLV_bytes_append c tail hsized]
  have hnext := nextTTLV_bytes_append c [] hsized
  rw [List.append_nil] at hnext
  rw [hnext]

/-- The fields `slots` of a struct, after the fields `pre`. -/
theorem sendable_own {pre slots : List Slot} {fi : FieldInfo} {hdr : FieldHdr} {ty : GoType} {rest : Fields}
    {v : GoVal ty} {vs : FieldVals rest}
    (hdiffer : (TypeInfo.valueFields ⟨tagNone, pre ++ .valueField fi :: slots⟩).Pairwise TagsDiffer)
    (h : FieldsSendable reg (.valueField fi :: slots) (.cons v vs : FieldVals (.cons hdr ty rest))) :
    findField fi.tag (pre ++ .valueField fi :: slots) 0 none = some (pre.length, fi) ∧ Site tagNone fi := by
  obtain ⟨⟨hvalid, hany, henum, hmask⟩, -, -⟩ := h
  exact ⟨findField_own hdiffer hany (ne_none_of_valid hvalid), .inl rfl, hvalid, henum, hmask⟩

/-- A struct as a value of its own, where its fields arrive. -/
theorem struct_arrives {d : Deref} {tag : Tag} {fi : FieldInfo} (h : Site tag fi) {n : GoString} {fs : Fields}
    {ti : TypeInfo} {vs : FieldVals fs} (hti : getTypeInfo reg (.struct n fs) = .ok ti)
    (hsend : FieldsSendable reg ti.slots vs) (hfields : FieldsArrive reg ti.slots 0 ti.slots vs) :
    Arrives reg d tag fi (.struct (n := n) vs) := by
  have hvalues := valueFields_of_sendable reg vs ti.slots hsend
  have hown := tagOr_field h.tag (intrinsicTag_valueFields hvalues (.struct vs : GoVal (.struct n fs)))
  refine (hfields.field h.valid hti hown h.enum h.bitmask).mono id ?_ id
  rintro _ ⟨ws, rfl, harrived⟩
  exact harrived

/-- A struct in an interface is not decoded, but stored with all that follows it. -/
theorem struct_in_interface {tag : Tag} {fi : FieldInfo} (h : Site tag fi) {n : GoString} {fs : Fields}
    {vs : FieldVals fs} {x : GoVal .iface} (hx : InInterface (.struct vs : GoVal (.struct n fs)) x)
    (hsend : ∃ ti, getTypeInfo reg (.struct n fs) = .ok ti ∧ FieldsSendable reg ti.slots vs)
    (hfields : ∀ ti, getTypeInfo reg (.struct n fs) = .ok ti → FieldsSendable reg ti.slots vs →
      FieldsArrive reg ti.slots 0 ti.slots vs) :
    Arrives reg .any tag fi x := by
  obtain ⟨ti, hti, hsend⟩ := hsend
  have hvalues := valueFields_of_sendable reg vs ti.slots hsend
  have hown := tagOr_field h.tag (intrinsicTag_valueFields hvalues (.struct vs : GoVal (.struct n fs)))
  obtain ⟨out, hw, hblock⟩ := (hfields ti hti hsend).struct (t := ⟨fi.tag, h.valid⟩) hti hown h.enum h.bitmask
  refine ⟨out, hx.writes hw, fun hsize => ?_⟩
  obtain ⟨cs, hbytes, hsized, hreads⟩ := hblock hsize
  refine ⟨[.struct ⟨fi.tag, h.valid⟩ cs], by rw [blocksBytes_single, hbytes], fun b hb => ?_,
    fun dec tail _ => .of_eq (decodeAll_iface dec .any _ tail) ?_, fun _ => ⟨_, rfl⟩⟩
  · rw [List.mem_singleton.mp hb]
    exact ⟨hsized, rfl⟩
  · obtain ⟨u, hrun, ws, rfl, harrived⟩ := (hreads .any newDecoder [] rfl).result trivial
    have hread : Readable reg (.struct n fs) (fun u => FieldsArrived reg vs u.fields)
        (.iface (.scalar (s := .ttlv) ((Block.struct ⟨fi.tag, h.valid⟩ cs).bytes ++ tail))) :=
      ⟨_, .struct ws, rfl, (unmarshalBytes_block_append reg n fs hsized tail).trans hrun, harrived⟩
    rcases hx with rfl | rfl <;> exact hread

mutual
/-- Every sendable value arrives. -/
theorem arrives : ∀ {ty : GoType} (v : GoVal ty) (d : Deref) (tag : Tag) (fi : FieldInfo),
    Site tag fi → (Direct v ∨ d = .any) → Sendable reg fi v → Arrives reg d tag fi v
  | _, .scalar v, d, tag, fi => fun hsite _ hv => scalar_arrives reg hsite hv
  | _, .ptrNil, d, tag, fi => fun _ _ _ => .nothing (.ptrNil _) trivial id
  | _, .ifaceNil, d, tag, fi => fun _ _ _ => .nothing .ifaceNil trivial id
  | _, .ptr v, d, tag, fi => by
    intro hsite hd hv
    obtain rfl := hd.resolve_left id
    refine (Delivers.ptr (arrives v .done tag fi hsite (.inl hv.1) hv.2.2) hv.2.1).mono id ?_ id
    rintro _ ⟨u, rfl, harrived⟩
    exact harrived
  | _, .slice vs, d, tag, fi => by
    intro hsite _ hv
    have helems := elems_arrive vs (elemField fi) ⟨.inr rfl, hsite.valid, hsite.enum, hsite.bitmask⟩ hv
    refine (DeliversElems.slice hsite.tag helems id).mono id ?_ id
    rintro _ ⟨ws, rfl, harrived⟩
    exact harrived
  | _, .struct vs, d, tag, fi => by
    intro hsite _ hv
    obtain ⟨ti, hti, hfields⟩ := hv
    exact struct_arrives reg hsite hti hfields
      (fields_arrive vs [] ti.slots (tagsDiffer_of_getTypeInfo hti :) hfields)
  | _, .iface v, d, tag, fi => by
    intro hsite hd hv
    obtain rfl := hd.resolve_left id
    exact inner_arrives v hsite hv
  | _, .array _, d, tag, fi => fun _ _ hv => absurd hv id
  | _, .value _ _, d, tag, fi => fun _ _ hv => absurd hv id
  | _, .marshaler _, d, tag, fi => fun _ _ hv => absurd hv id
theorem inner_arrives : ∀ {ty : GoType} (v : GoVal ty) {tag : Tag} {fi : FieldInfo}, Site tag fi →
    InnerSendable reg fi v → Arrives reg .any tag fi (.iface v)
  | _, .scalar _ => fun hsite hv => scalar_in_interface reg hsite (.inl rfl) hv
  | _, .ptr (.scalar _) => fun hsite hv => scalar_in_interface reg hsite (.inr rfl) hv
  | _, .struct vs => fun hsite hv =>
    struct_in_interface reg hsite (.inl rfl) hv (fun ti hti hfields =>
      fields_arrive vs [] ti.slots (tagsDiffer_of_getTypeInfo hti :) hfields)
  | _, .ptr (.struct vs) => fun hsite hv =>
    struct_in_interface reg hsite (.inr rfl) hv (fun ti hti hfields =>
      fields_arrive vs [] ti.slots (tagsDiffer_of_getTypeInfo hti :) hfields)
  | _, .ifaceNil | _, .iface _ | _, .ptrNil | _, .slice _ | _, .array _ | _, .value _ _ | _, .marshaler _ =>
    fun _ hv => absurd hv id
  | _, .ptr .ifaceNil | _, .ptr (.iface _) | _, .ptr .ptrNil | _, .ptr (.ptr _) | _, .ptr (.slice _)
  | _, .ptr (.array _) | _, .ptr (.value _ _) | _, .ptr (.marshaler _) => fun _ hv => absurd hv id
theorem elems_arrive : ∀ {e : GoType} (vs : GoVals e) (fi : FieldInfo), Site fi.tag fi →
    ElemsSendable reg fi vs → ElemsArrive reg fi.tag fi vs
  | _, .nil, fi => fun _ _ => .nil trivial
  | _, .cons v vs, fi => by
    intro hsite hvs
    refine (DeliversElems.cons (arrives v .any fi.tag fi hsite (.inr rfl) hvs.2.1) hvs.1
      (elems_arrive vs fi hsite hvs.2.2)).mono (fun _ => ⟨trivial, trivial⟩) ?_
    rintro _ ⟨w, us, rfl, harrived⟩
    exact harrived
theorem fields_arrive : ∀ {fs : Fields} (vs : FieldVals fs) (pre slots : List Slot),
    (TypeInfo.valueFields ⟨tagNone, pre ++ slots⟩).Pairwise TagsDiffer → FieldsSendable reg slots vs →
    FieldsArrive reg (pre ++ slots) pre.length slots vs
  | _, .nil, pre, slots => fun _ _ => .nil trivial
  | .cons hdr _ _, .cons v vs, pre, slots => by
    intro hdiffer hvs
    cases slots with
    | nil => exact absurd hvs id
    | cons slot slots =>
      cases slot with
      | skipped => exact absurd hvs id
      | tagField fi => exact absurd hvs id
      | valueField fi =>
        obtain ⟨hown, hsite⟩ := sendable_own reg hdiffer hvs
        have hlist : pre ++ [.valueField fi] ++ slots = pre ++ .valueField fi :: slots := by simp
        have hmore := fields_arrive vs (pre ++ [.valueField fi]) slots (by rw [hlist]; exact hdiffer) hvs.2.2
        rw [List.length_append, List.append_assoc] at hmore
        refine (DeliversFields.cons hdr hown (arrives v .any tagNone fi hsite (.inr rfl) hvs.2.1) hmore).mono
          (fun _ => ⟨trivial, trivial⟩) ?_
        rintro _ ⟨w, us, rfl, harrived⟩
        exact harrived
end

/-- A message: a struct whose name is registered for a valid tag, with fields that are sendable. -/
def MessageSendable {n : GoString} {fs : Fields} (v : GoVal (.struct n fs)) (tag : Tag) : Prop :=
  ∃ ti, getTypeInfo reg (.struct n fs) = .ok ti ∧ ti.inferredTag = tag ∧ tag.Valid ∧
    FieldsSendable reg ti.slots v.fields

/-- A message is written as one block, from which it arrives. -/
theorem message_written {n : GoString} {fs : Fields} {v : GoVal (.struct n fs)} {tag : Tag}
    (h : MessageSendable reg v tag) :
    ∃ out, (∀ d, WritesOut reg d tagNone none v out) ∧ (out.length < 2 ^ 32 →
      ∃ c : Block, c.bytes = out ∧ c.Sized ∧ c.tag = tag ∧
        ∃ w, unmarshalBytes reg (.struct n fs) out = (w, .ok ()) ∧ Arrived reg v w) := by
  obtain ⟨ti, hti, rfl, hvalid, hsend⟩ := h
  cases v with
  | struct vs =>
    have hvalues := valueFields_of_sendable reg vs ti.slots hsend
    have hown : tagOr tagNone ti none (.struct vs : GoVal (.struct n fs)) = ti.inferredTag := by
      rw [tagOr, if_pos rfl, tagForMarshal, intrinsicTag_valueFields hvalues]
    have hfields := fields_arrive reg vs [] ti.slots (tagsDiffer_of_getTypeInfo hti :) hsend
    obtain ⟨out, hw, hblock⟩ := hfields.struct (t := ⟨ti.inferredTag, hvalid⟩) hti hown rfl rfl
    refine ⟨out, hw, fun hsize => ?_⟩
    obtain ⟨cs, rfl, hsized, hreads⟩ := hblock hsize
    obtain ⟨w, hrun, ws, rfl, harrived⟩ := (hreads .any newDecoder [] rfl).result trivial
    exact ⟨_, rfl, hsized, rfl, .struct ws, (unmarshalBytes_block reg n fs hsized).trans hrun, harrived⟩

end

end KmipGo.Codec
