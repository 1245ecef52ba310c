import KmipGo.Json.RoundTrip
import KmipGo.Text.Numbers

/-! # Instants in JSON

The DateTime and DateTimeExtended branches of `unmarshalJSON`.  An instant is given
as a hex count since the epoch, in seconds or microseconds, or as an RFC 3339 text.
The text goes through `time.Parse` and is counted again by the encoder.  The hex
count is turned into an instant first; for DateTimeExtended it is added to the zero
`time.Time`, which is the year 1.
-/

namespace KmipGo.Text

open KmipGo.Lib KmipGo.Ttlv KmipGo.Reg KmipGo.JsonForm

/-- The unit of the count of a DateTimeExtended or a DateTime, in nanoseconds. -/
def countUnit : Typ → Int
  | .DateTimeExtended => 1000
  | _ => 1000000000

/-- The digits are the sixteen hex digits of the count. -/
structure HexCount (ds : Bytes) (c : BitVec 64) : Prop where
  hex : ∀ d ∈ ds, IsHex d
  length : ds.length = 16
  number : hexNat ds = c.toNat

/-- Both results are the same block, whose eight value bytes are the count. -/
def FormsAgree {ε : Type} (c : BitVec 64) (r r' : Res ε Bytes) : Prop :=
  ∃ t : TTLV, r = .ok t ∧ r' = .ok t ∧ t.raw = beBytes 8 c.toNat

theorem unix_of_nanos {t : Time} {c : BitVec 64} (h : t.nanos = c.toInt * 1000000000) : t.unix = c := by
  have hnano := t.nanosecond.isLt
  rw [Time.nanos] at h
  exact BitVec.eq_of_toInt_eq (by omega)

theorem micros_of_nanos {t : Time} {c : BitVec 64} (h : t.nanos = c.toInt * 1000) : t.micros = c := by
  rw [Time.micros_eq, Time.wholeMicros, h, Int.mul_ediv_cancel _ (by decide), BitVec.ofInt_toInt]

/-- What `%016x` prints for the count. -/
theorem hexCount_hexPad (c : BitVec 64) : HexCount (hexPad 16 c.toNat) c := by
  have hbytes : hexPad (2 * 8) c.toNat = hexEncode (beBytes 8 c.toNat) :=
    hexPad_eq (by have := c.isLt; omega)
  refine ⟨?_, ?_, hexNat_hexPad 16 c.toNat⟩
  · intro d hd
    rw [hbytes] at hd
    exact isHex_of_mem_hexEncode hd
  · rw [hbytes, length_hexEncode, length_beBytes]

section

variable {reg : Registry} (title : Bytes → Bytes) {T : TimeCodec} {tag : Tag} (attr : Tag)

variable (T) in
/-- Each type takes the count from an origin of its own. -/
theorem decodeTime_hex {ds : Bytes} {c : BitVec 64} (h : HexCount ds c) (extended : Bool) :
    decodeTime T extended (lit "0x" ++ ds) =
      .ok (if extended then addDuration zeroTime (c * 1000) else Time.ofUnix c) := by
  have hlt := c.isLt
  have hlen := h.length
  have hnum := h.number
  rcases parseHexValue_cases h.hex (show 0 < 8 by omega) with ⟨hodd, -⟩ | ⟨hbig, -⟩ | ⟨-, bs, hparse, hbs, hval⟩
  · omega
  · omega
  · have hcount : decodeUint64 bs = c := by
      rw [decodeUint64_of_length (by omega), hval, hnum, BitVec.ofNat_toNat, BitVec.setWidth_eq]
    rw [decodeTime, hparse]
    simp only [hcount]
    cases extended with
    | true => rfl
    | false => rfl

theorem decodeJSON_dateTime {j : Json} {s : GoString} {t : Time}
    (h : LeafObject reg j tag .DateTime (.string s)) (ht : decodeTime T false s = .ok t) :
    decodeJSON reg title T attr j = .ok (item tag .DateTime (beBytes 8 t.unix.toNat)) := by
  have hleaf : decodeLeaf reg T tag attr .DateTime (.string s) = .ok (.dateTime t) := by
    rw [decodeLeaf, ht]
    rfl
  rw [h.decodeJSON_eq (by decide), hleaf, leafResult_ok]
  rfl

theorem decodeJSON_dateTimeExtended {j : Json} {s : GoString} {t : Time}
    (h : LeafObject reg j tag .DateTimeExtended (.string s)) (ht : decodeTime T true s = .ok t) :
    decodeJSON reg title T attr j = .ok (item tag .DateTimeExtended (beBytes 8 t.micros.toNat)) := by
  have hleaf : decodeLeaf reg T tag attr .DateTimeExtended (.string s) = .ok (.dateTimeExtended t) := by
    rw [decodeLeaf, ht]
    rfl
  rw [h.decodeJSON_eq (by decide), hleaf, leafResult_ok]
  rfl

/-- Two results of eight bytes each agree on the count iff both hold it. -/
theorem formsAgree_items {ε : Type} (ty : Typ) (c a b : BitVec 64) :
    FormsAgree c (.ok (item tag ty (beBytes 8 a.toNat)) : Res ε Bytes)
        (.ok (item tag ty (beBytes 8 b.toNat))) ↔ a = c ∧ b = c := by
  have hraw : ∀ v : BitVec 64, TTLV.raw (item tag ty (beBytes 8 v.toNat)) = beBytes 8 v.toNat := by
    intro v
    exact raw_item tag ty (by rw [length_beBytes]; norm_num)
  have hinj : ∀ v : BitVec 64, beBytes 8 v.toNat = beBytes 8 c.toNat → v = c := by
    intro v h
    have hword := congrArg uint64BE h
    rw [uint64BE_beBytes, uint64BE_beBytes] at hword
    exact Option.some.inj hword
  constructor
  · rintro ⟨t, ha, hb, ht⟩
    have hfirst := ht
    rw [← Res.ok.inj ha, hraw] at hfirst
    rw [← Res.ok.inj hb, hraw] at ht
    exact ⟨hinj a hfirst, hinj b ht⟩
  · rintro ⟨rfl, rfl⟩
    exact ⟨_, rfl, rfl, hraw _⟩

/-- The RFC 3339 text of an instant is read as its count.  The hex form of the count is read as the same
    block for DateTime, and never for DateTimeExtended. -/
theorem dateTime_forms_agree_iff (hT : T.Lawful) {ty : Typ}
    (hty : ty = .DateTime ∨ ty = .DateTimeExtended) {c : BitVec 64} {t : Time}
    (ht : t.nanos = c.toInt * countUnit ty) (hyears : InYears t) {ds : Bytes} (hds : HexCount ds c)
    {hex text : Json} (hhex : LeafObject reg hex tag ty (.string (lit "0x" ++ ds)))
    (htext : LeafObject reg text tag ty (.string (T.format t))) :
    decodeJSON reg title T attr text = .ok (item tag ty (beBytes 8 c.toNat)) ∧
      (FormsAgree c (decodeJSON reg title T attr hex) (decodeJSON reg title T attr text) ↔
        ty = .DateTime) := by
  rcases hty with rfl | rfl
  · have hread := decodeJSON_dateTime title attr htext (decodeTime_format hT hyears false)
    rw [unix_of_nanos ht] at hread
    rw [hread, decodeJSON_dateTime title attr hhex (decodeTime_hex T hds false), formsAgree_items]
    exact ⟨rfl, iff_of_true ⟨rfl, rfl⟩ rfl⟩
  · have hread := decodeJSON_dateTimeExtended title attr htext
      (decodeTime_format hT hyears true)
    rw [micros_of_nanos ht] at hread
    rw [hread, decodeJSON_dateTimeExtended title attr hhex (decodeTime_hex T hds true), formsAgree_items]
    -- the count is taken from the year 1, and in 64 bits the distance to the epoch does not vanish
    refine ⟨rfl, iff_of_false ?_ nofun⟩
    rintro ⟨hsame, -⟩
    exact micros_addDuration_ne c hsame

end

/-- An object of the Activation Date, with this type and value. -/
def activationJson (ty : Typ) (value : GoString) : Json :=
  .object [(lit "tag", .string (attributeRegistry.formatTag 0x420001)), (lit "type", .string (typeName ty)),
    (lit "value", .string value)]

theorem leafObject_activationJson (ty : Typ) (value : GoString) :
    LeafObject attributeRegistry (activationJson ty value) 0x420001 ty (.string value) :=
  leafObject_object attributeRegistry_standard (attributeRegistry_standard.parseTag_formatTag (by decide)) ty _

/-- The second before the epoch. -/
theorem dateTime_forms_agree_negative :
    FormsAgree (-1)
      (decodeJSON attributeRegistry id plainTime tagNone
        (activationJson .DateTime (lit "0x" ++ hexPad 16 (-1 : BitVec 64).toNat)))
      (decodeJSON attributeRegistry id plainTime tagNone
        (activationJson .DateTime (plainTime.format ⟨-1, 0⟩))) :=
  (dateTime_forms_agree_iff id tagNone plainTime_lawful (Or.inl rfl) (by decide) (by decide) (hexCount_hexPad _)
    (leafObject_activationJson _ _) (leafObject_activationJson _ _)).2.mpr rfl

/-- The hex form of the epoch as a DateTimeExtended is read as the first instant of the year 1. -/
theorem epoch_misread :
    decodeJSON attributeRegistry id plainTime tagNone
        (activationJson .DateTimeExtended (plainTime.format ⟨0, 0⟩)) =
      .ok (item 0x420001 .DateTimeExtended (beBytes 8 0)) ∧
    decodeJSON attributeRegistry id plainTime tagNone
        (activationJson .DateTimeExtended (lit "0x" ++ hexPad 16 0)) =
      .ok (item 0x420001 .DateTimeExtended (beBytes 8 (BitVec.ofInt 64 (-62135596800000000)).toNat)) ∧
    ¬ FormsAgree 0
      (decodeJSON attributeRegistry id plainTime tagNone
        (activationJson .DateTimeExtended (lit "0x" ++ hexPad 16 0)))
      (decodeJSON attributeRegistry id plainTime tagNone
        (activationJson .DateTimeExtended (plainTime.format ⟨0, 0⟩))) := by
  have htext : decodeJSON attributeRegistry id plainTime tagNone
      (activationJson .DateTimeExtended (plainTime.format ⟨0, 0⟩)) = _ :=
    decodeJSON_dateTimeExtended id tagNone (leafObject_activationJson _ _)
      (decodeTime_format plainTime_lawful (by decide) true)
  have hhex : decodeJSON attributeRegistry id plainTime tagNone
      (activationJson .DateTimeExtended (lit "0x" ++ hexPad 16 0)) = _ :=
    decodeJSON_dateTimeExtended id tagNone (leafObject_activationJson _ _)
      (decodeTime_hex plainTime (hexCount_hexPad 0) true)
  have hyear : (addDuration zeroTime (0 * 1000)).micros = BitVec.ofInt 64 (-62135596800000000) := by decide
  rw [if_pos rfl, hyear] at hhex
  refine ⟨htext, hhex, ?_⟩
  rw [htext, hhex, formsAgree_items]
  decide

end KmipGo.Text
