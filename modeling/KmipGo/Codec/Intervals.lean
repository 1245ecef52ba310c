import KmipGo.Encoder.Encode
import KmipGo.Json.RoundTrip
import KmipGo.Xml.RoundTrip

/-! # Intervals

An Interval is a `uint32` of seconds on the wire and a `time.Duration` of `int64`
nanoseconds in the program.  Three paths lead to `encodeInterval`: a numeral in XML,
a number in JSON and a duration that is marshaled.  None of them checks a range: the
numeral is parsed in 64 bits and multiplied by `time.Second`, and the seconds of the
duration are cut to 32 bits.

`HoldsSeconds` is what a reader of the block sees, so that a number outside of the
range of `uint32` is kept by no path that accepts it.
-/

namespace KmipGo.Codec

open KmipGo.Lib KmipGo.Ttlv KmipGo.Reg KmipGo.Text KmipGo.Go KmipGo.Encoder

/-- The block is an Interval that `ValueInterval` reads as that many seconds. -/
def HoldsSeconds (n : Int) (t : TTLV) : Prop :=
  t.typ = some .Interval ∧ ∃ d, t.valueInterval = some d ∧ d.toInt = n * 1000000000

/-- A decoder refuses the number or returns the Interval of that many seconds. -/
def KeepsSeconds {ε : Type} (n : Int) (r : Res ε Bytes) : Prop :=
  (∃ err, r = .err err) ∨ ∃ t, r = .ok t ∧ HoldsSeconds n t

/-- The encoder refuses the duration, omits it as a zero, or, if it is not negative, writes the Interval
    of its whole seconds. -/
def KeepsDuration (d : BitVec 64) (e : Enc) (r : EncRes) : Prop :=
  (∃ err, r = (e, some err)) ∨ (d = 0 ∧ r = (e, none)) ∨
    (0 ≤ d.toInt ∧
      ∃ t, r = ({ e with encBuf := e.encBuf ++ t }, none) ∧ HoldsSeconds (d.toInt.tdiv 1000000000) t)

/-! ## The seconds that are written -/

theorem toInt_seconds (s : BitVec 32) : (s.setWidth 64 * 1000000000).toInt = s.toNat * 1000000000 := by
  have hs := s.isLt
  have hlit : (1000000000 : BitVec 64).toNat = 1000000000 := by decide
  rw [BitVec.toInt_eq_toNat_cond, BitVec.toNat_mul, BitVec.toNat_setWidth, hlit]
  split <;> omega

theorem holdsSeconds_interval (tag : Tag) (d : BitVec 64) (n : Int) :
    HoldsSeconds n ((Prim.interval d).item tag) ↔ ((intervalSeconds d).toNat : Int) = n := by
  have hitem : (Prim.interval d).item tag = item tag .Interval (beBytes 4 (intervalSeconds d).toNat) := rfl
  have hraw : TTLV.raw (item tag .Interval (beBytes 4 (intervalSeconds d).toNat)) =
      beBytes 4 (intervalSeconds d).toNat :=
    raw_item tag .Interval (by rw [length_beBytes]; norm_num)
  have hread : TTLV.valueInterval (item tag .Interval (beBytes 4 (intervalSeconds d).toNat)) =
      some ((intervalSeconds d).setWidth 64 * 1000000000) := by
    rw [TTLV.valueInterval, hraw, uint32BE_beBytes, Option.map_some]
  rw [hitem, HoldsSeconds, hread, typ_item]
  constructor
  · rintro ⟨-, d', hd', hn⟩
    cases hd'
    rw [toInt_seconds] at hn
    omega
  · intro hn
    refine ⟨rfl, _, rfl, ?_⟩
    rw [toInt_seconds, hn]

/-- The seconds of a numeral come back iff they fit. -/
theorem intervalSeconds_ofNat_iff (u : Nat) :
    (intervalSeconds (BitVec.ofNat 64 u * 1000000000)).toNat = u ↔ u < 2 ^ 32 := by
  constructor
  · intro h
    rw [← h]
    exact (intervalSeconds _).isLt
  · intro h
    have hwide : (BitVec.ofNat 32 u).setWidth 64 = BitVec.ofNat 64 u := by
      apply BitVec.eq_of_toNat_eq
      rw [BitVec.toNat_setWidth, BitVec.toNat_ofNat, BitVec.toNat_ofNat]
      omega
    rw [← hwide, intervalSeconds_of_seconds, BitVec.toNat_ofNat, Nat.mod_eq_of_lt h]

theorem intervalSeconds_float_iff (i : Int) :
    ((intervalSeconds (JsonForm.floatToInt64 (i : Rat) * 1000000000)).toNat : Int) = i ↔
      0 ≤ i ∧ i < 2 ^ 32 := by
  constructor
  · intro h
    have hlt := (intervalSeconds (JsonForm.floatToInt64 (i : Rat) * 1000000000)).isLt
    omega
  · rintro ⟨hlo, hhi⟩
    obtain ⟨u, rfl⟩ := Int.eq_ofNat_of_zero_le hlo
    rw [JsonForm.floatToInt64_intCast (by omega) (by omega), BitVec.ofInt_natCast,
      (intervalSeconds_ofNat_iff u).mpr (by omega)]

/-- A duration that is not negative keeps its whole seconds iff they fit. -/
theorem intervalSeconds_duration_iff {d : BitVec 64} (hd : 0 ≤ d.toInt) :
    ((intervalSeconds d).toNat : Int) = d.toInt.tdiv 1000000000 ↔ d.toInt < 2 ^ 32 * 1000000000 := by
  rw [intervalSeconds, Int.tdiv_eq_ediv_of_nonneg hd, BitVec.toNat_ofInt]
  omega

/-! ## The three paths -/

section

variable (reg : Registry) (title : Bytes → Bytes) (T : TimeCodec)

/-- What is read from a numeral: the product wraps in 64 bits, and its seconds are cut to 32. -/
theorem unmarshalXML_interval (X : XmlCodec) {text : Bytes} {x : Xml} (hx : X.read text = some x) {tag : Tag}
    {s : GoString} (hleaf : XmlForm.LeafElement reg x tag .Interval s) {u : Nat} (hs : parseUint 64 s = some u) :
    XmlForm.unmarshalXML reg title X T text = .ok ((Prim.interval (BitVec.ofNat 64 u * 1000000000)).item tag) := by
  rw [XmlForm.unmarshalXML, hx]
  simp only
  rw [hleaf.unmarshalXMLTval_eq (by decide), XmlForm.parseValue, hs, XmlForm.leafResult_ok]

theorem unmarshalJSON_interval (C : JsonCodec) {text : Bytes} {j : Json} (hj : C.parse text = some j) {tag : Tag}
    {i : Int} (hleaf : JsonForm.LeafObject reg j tag .Interval (.number i)) :
    JsonForm.unmarshalJSON reg title C T text =
      .ok ((Prim.interval (JsonForm.floatToInt64 i * 1000000000)).item tag) := by
  rw [JsonForm.unmarshalJSON, hj]
  simp only
  rw [hleaf.decodeJSON_eq (by decide), JsonForm.decodeLeaf, JsonForm.leafResult_ok]

theorem keepsSeconds_ok_iff {ε : Type} (n : Int) (tag : Tag) (d : BitVec 64) :
    KeepsSeconds n (.ok ((Prim.interval d).item tag) : Res ε Bytes) ↔ ((intervalSeconds d).toNat : Int) = n := by
  rw [← holdsSeconds_interval tag]
  constructor
  · rintro (⟨err, h⟩ | ⟨t, h, hholds⟩)
    · cases h
    · cases h
      exact hholds
  · intro hholds
    exact Or.inr ⟨_, rfl, hholds⟩

theorem keepsSeconds_xml_iff (X : XmlCodec) {text : Bytes} {x : Xml} (hx : X.read text = some x) {tag : Tag}
    {s : GoString} (hleaf : XmlForm.LeafElement reg x tag .Interval s) {n : Nat} (hs : s ≠ [])
    (hn : decNat s = some n) :
    KeepsSeconds n (XmlForm.unmarshalXML reg title X T text) ↔ n < 2 ^ 32 ∨ 2 ^ 64 ≤ n := by
  have hparse : parseUint 64 s = if n < 2 ^ 64 then some n else none := by
    rw [parseUint, if_neg hs, hn, Option.bind_some]
  by_cases hbig : n < 2 ^ 64
  · rw [if_pos hbig] at hparse
    rw [unmarshalXML_interval reg title T X hx hleaf hparse, keepsSeconds_ok_iff, Int.natCast_inj,
      intervalSeconds_ofNat_iff]
    omega
  · -- `ParseUint` refuses the numeral
    rw [if_neg hbig] at hparse
    refine iff_of_true (Or.inl ?_) (Or.inr (by omega))
    rw [XmlForm.unmarshalXML, hx]
    simp only
    rw [hleaf.unmarshalXMLTval_eq (by decide), XmlForm.parseValue, hparse]
    exact ⟨_, rfl⟩

theorem keepsSeconds_json_iff (C : JsonCodec) {text : Bytes} {j : Json} (hj : C.parse text = some j) {tag : Tag}
    {i : Int} (hleaf : JsonForm.LeafObject reg j tag .Interval (.number i)) :
    KeepsSeconds i (JsonForm.unmarshalJSON reg title C T text) ↔ 0 ≤ i ∧ i < 2 ^ 32 := by
  rw [unmarshalJSON_interval reg title T C hj hleaf, keepsSeconds_ok_iff, intervalSeconds_float_iff]

/-- A `time.Duration` as a value that is marshaled. -/
def durationValue (d : BitVec 64) : GoVal (.scalar .duration) := .scalar d

/-- What the encoder emits for a duration: there is no check of its range. -/
theorem scalarEmit_duration (ctx : Ctx) (tag : Tag) (fi : Option FieldInfo) (d : BitVec 64) :
    scalarEmit reg ctx tag fi .duration d =
      if (flagsOf fi).omitEmpty && d == 0 then .ok .nothing
      else if tag = tagNone then
        .error (.marshaler (.scalar .duration) ctx.currStruct ctx.currField tag .noTag)
      else if (flagsOf fi).enum || (flagsOf fi).bitmask then
        .error (.marshaler (.scalar .duration) ctx.currStruct ctx.currField tag
          (.unsupportedEnumType (.scalar .duration)))
      else .ok (.prim (.interval d)) := by
  have htagged : taggedScalar reg (flagsOf fi) tag .duration d =
      if (flagsOf fi).enum || (flagsOf fi).bitmask then .error (.unsupportedEnumType (.scalar .duration))
      else .ok (.interval d) := by
    rw [taggedScalar]
    cases (flagsOf fi).enum || (flagsOf fi).bitmask with
    | true => rfl
    | false =>
      cases (reg.enumForTag tag).isSome with
      | true => rfl
      | false => rfl
  rw [scalarEmit, htagged]
  · cases (flagsOf fi).enum || (flagsOf fi).bitmask with
    | true => rfl
    | false => rfl
  · simp
  · simp

/-- What the encoder does with what it emits keeps the duration iff it is refused or in range. -/
theorem keepsDuration_emit (ctx : Ctx) (tag : Tag) (fi : Option FieldInfo) (e : Enc) (d : BitVec 64) :
    KeepsDuration d e
        (match scalarEmit reg ctx tag fi .duration d with
          | .ok em => (em.run tag e, none)
          | .error err => (e, some err)) ↔
      tag = tagNone ∨ (flagsOf fi).enum = true ∨ (flagsOf fi).bitmask = true ∨
        0 ≤ d.toInt ∧ d.toInt < 2 ^ 32 * 1000000000 := by
  rw [scalarEmit_duration]
  by_cases homit : ((flagsOf fi).omitEmpty && d == 0) = true
  · have hzero : d = 0 := beq_iff_eq.mp (Bool.and_eq_true_iff.mp homit).2
    rw [if_pos homit]
    refine iff_of_true (Or.inr (Or.inl ⟨hzero, rfl⟩)) (Or.inr (Or.inr (Or.inr ?_)))
    rw [hzero]
    decide
  · rw [if_neg homit]
    by_cases htag : tag = tagNone
    · rw [if_pos htag]
      exact iff_of_true (Or.inl ⟨_, rfl⟩) (Or.inl htag)
    · rw [if_neg htag]
      by_cases hflags : ((flagsOf fi).enum || (flagsOf fi).bitmask) = true
      · rw [if_pos hflags]
        refine iff_of_true (Or.inl ⟨_, rfl⟩) (Or.inr ?_)
        rw [Bool.or_eq_true_iff] at hflags
        cases hflags with
        | inl henum => exact Or.inl henum
        | inr hmask => exact Or.inr (Or.inl hmask)
      · -- an Interval is written, whatever the duration is
        rw [if_neg hflags]
        rw [Bool.or_eq_true_iff, not_or] at hflags
        simp only [htag, hflags.1, hflags.2, Bool.false_eq_true, false_or]
        have hrun : (Emit.prim (.interval d)).run tag e =
            { e with encBuf := e.encBuf ++ (Prim.interval d).item tag } := by
          rw [Emit.run, encodePrim_eq]
        rw [hrun]
        constructor
        · rintro (⟨err, h⟩ | ⟨-, h⟩ | ⟨hpos, t, h, hholds⟩)
          · cases (Prod.mk.inj h).2
          · -- something is written
            have hbuf : e.encBuf ++ (Prim.interval d).item tag = e.encBuf :=
              congrArg (fun r : EncRes => r.1.encBuf) h
            exact absurd (List.append_right_eq_self.mp hbuf) (item_ne_nil tag .Interval _)
          · have hbuf : e.encBuf ++ (Prim.interval d).item tag = e.encBuf ++ t :=
              congrArg (fun r : EncRes => r.1.encBuf) h
            rw [← List.append_cancel_left hbuf, holdsSeconds_interval] at hholds
            exact ⟨hpos, (intervalSeconds_duration_iff hpos).mp hholds⟩
        · rintro ⟨hpos, hfits⟩
          refine Or.inr (Or.inr ⟨hpos, _, rfl, ?_⟩)
          rw [holdsSeconds_interval]
          exact (intervalSeconds_duration_iff hpos).mpr hfits

theorem keepsDuration_encode_iff (ctx : Ctx) (deref : Deref) (addr : Bool) (tag : Tag) (fi : Option FieldInfo)
    (e : Enc) (d : BitVec 64) :
    KeepsDuration d e (encode reg ctx deref addr tag fi (durationValue d) e) ↔
      tagOr tag (plainInfo reg (.scalar .duration)) fi (durationValue d) = tagNone ∨
        (flagsOf fi).enum = true ∨ (flagsOf fi).bitmask = true ∨
        0 ≤ d.toInt ∧ d.toInt < 2 ^ 32 * 1000000000 := by
  have hscalar : ∀ (s : Scalar) (v : s.Val),
      encode reg ctx deref addr tag fi (.scalar v) e = encodeScalar reg ctx tag fi s v e := by
    intro s v
    rw [encode]
  rw [durationValue, hscalar .duration d, encodeScalar, if_neg (by exact Bool.false_ne_true)]
  exact keepsDuration_emit reg ctx _ fi e d

/-- An XML numeral is kept iff it is below 2³², or too large for 64 bits and refused; an integral JSON
    number iff it is in the range; a duration iff it is not negative and below 2³² seconds, or refused
    for another reason than its value. -/
theorem interval_exact_iff :
    (∀ (X : XmlCodec) (text : Bytes) (x : Xml) (tag : Tag) (s : GoString) (n : Nat),
      X.read text = some x → XmlForm.LeafElement reg x tag .Interval s → s ≠ [] → decNat s = some n →
        (KeepsSeconds n (XmlForm.unmarshalXML reg title X T text) ↔ n < 2 ^ 32 ∨ 2 ^ 64 ≤ n)) ∧
    (∀ (C : JsonCodec) (text : Bytes) (j : Json) (tag : Tag) (i : Int),
      C.parse text = some j → JsonForm.LeafObject reg j tag .Interval (.number i) →
        (KeepsSeconds i (JsonForm.unmarshalJSON reg title C T text) ↔ 0 ≤ i ∧ i < 2 ^ 32)) ∧
    (∀ (ctx : Ctx) (deref : Deref) (addr : Bool) (tag : Tag) (fi : Option FieldInfo) (e : Enc) (d : BitVec 64),
      KeepsDuration d e (encode reg ctx deref addr tag fi (durationValue d) e) ↔
        tagOr tag (plainInfo reg (.scalar .duration)) fi (durationValue d) = tagNone ∨
          (flagsOf fi).enum = true ∨ (flagsOf fi).bitmask = true ∨
          0 ≤ d.toInt ∧ d.toInt < 2 ^ 32 * 1000000000) := by
  refine ⟨?_, ?_, keepsDuration_encode_iff reg⟩
  · intro X text x tag s n hx hleaf hs hn
    exact keepsSeconds_xml_iff reg title T X hx hleaf hs hn
  · intro C text j tag i hj hleaf
    exact keepsSeconds_json_iff reg title T C hj hleaf

end

/-- The element of a Lease Time of that many seconds. -/
def leaseXml (seconds : Nat) : Xml :=
  .element (XmlForm.elementName attributeRegistry 0x420049).1
    (XmlForm.attrIfSet "tag" (XmlForm.elementName attributeRegistry 0x420049).2 ++
      XmlForm.attrIfSet "type" (typeName .Interval) ++ XmlForm.attrIfSet "value" (natDec seconds)) []

def leaseJson (seconds : Int) : Json :=
  .object [(lit "tag", .string (attributeRegistry.formatTag 0x420049)),
    (lit "type", .string (typeName .Interval)), (lit "value", .ofInt seconds)]

theorem leafElement_leaseXml (seconds : Nat) :
    XmlForm.LeafElement attributeRegistry (leaseXml seconds) 0x420049 .Interval (natDec seconds) :=
  XmlForm.leafElement_element attributeRegistry_standard (by decide) .Interval _

theorem leafObject_leaseJson (seconds : Int) :
    JsonForm.LeafObject attributeRegistry (leaseJson seconds) 0x420049 .Interval (.number seconds) :=
  JsonForm.leafObject_object attributeRegistry_standard
    (attributeRegistry_standard.parseTag_formatTag (by decide)) .Interval _

theorem read_leaseXml (seconds : Nat) :
    compactXml.read (compactXml.write (leaseXml seconds).tokens) = some (leaseXml seconds) :=
  compactXml_lawful.read_write _ ⟨XmlForm.worded_leaf attributeRegistry_standard 0x420049 .Interval
    (XmlForm.xmlSafe_of_plain (XmlForm.plain_natDec seconds)), by decide +kernel, trivial⟩

theorem parse_leaseJson {seconds : Int} (h : seconds.natAbs ≤ 2 ^ 53) :
    compactCodec.parse ((leaseJson seconds).render compactCodec.quote) = some (leaseJson seconds) :=
  compactCodec_lawful.parse_render _ (JsonForm.writable_leaf
    (XmlForm.plain_formatTag attributeRegistry_standard _) (plain_typeName _) (Json.writable_ofInt h))

/-- A week, on the three paths. -/
theorem interval_exact_week :
    KeepsSeconds 604800 (XmlForm.unmarshalXML attributeRegistry id compactXml plainTime
        (compactXml.write (leaseXml 604800).tokens)) ∧
      KeepsSeconds 604800 (JsonForm.unmarshalJSON attributeRegistry id compactCodec plainTime
        ((leaseJson 604800).render compactCodec.quote)) ∧
      KeepsDuration 604800000000000 newEncoder
        (encode attributeRegistry Ctx.top .any false 0x420049 none (durationValue 604800000000000) newEncoder) := by
  obtain ⟨hxml, hjson, hmarshal⟩ := interval_exact_iff attributeRegistry id plainTime
  refine ⟨?_, ?_, ?_⟩
  · exact (hxml compactXml _ _ _ _ 604800 (read_leaseXml _) (leafElement_leaseXml _) (natDec_ne_nil _)
      (decNat_natDec _)).mpr (Or.inl (by decide))
  · exact (hjson compactCodec _ _ _ _ (parse_leaseJson (by decide)) (leafObject_leaseJson _)).mpr (by decide)
  · exact (hmarshal Ctx.top .any false 0x420049 none newEncoder _).mpr
      (Or.inr (Or.inr (Or.inr (by decide))))

/-- The number 2³² is read as no time at all, and the seconds of a negative duration as more than a
    century; a nanosecond less than none is written as none. -/
theorem interval_reduced :
    (XmlForm.unmarshalXML attributeRegistry id compactXml plainTime
        (compactXml.write (leaseXml 4294967296).tokens) = .ok (item 0x420049 .Interval (beBytes 4 0)) ∧
      ¬ KeepsSeconds 4294967296 (XmlForm.unmarshalXML attributeRegistry id compactXml plainTime
        (compactXml.write (leaseXml 4294967296).tokens))) ∧
    (JsonForm.unmarshalJSON attributeRegistry id compactCodec plainTime
        ((leaseJson 4294967296).render compactCodec.quote) = .ok (item 0x420049 .Interval (beBytes 4 0)) ∧
      ¬ KeepsSeconds 4294967296 (JsonForm.unmarshalJSON attributeRegistry id compactCodec plainTime
        ((leaseJson 4294967296).render compactCodec.quote))) ∧
    (encode attributeRegistry Ctx.top .any false 0x420049 none (durationValue (-1000000000)) newEncoder =
        ({ newEncoder with encBuf := item 0x420049 .Interval (beBytes 4 4294967295) }, none) ∧
      ¬ KeepsDuration (-1000000000) newEncoder
        (encode attributeRegistry Ctx.top .any false 0x420049 none (durationValue (-1000000000)) newEncoder)) ∧
    (encode attributeRegistry Ctx.top .any false 0x420049 none (durationValue (-1)) newEncoder =
        ({ newEncoder with encBuf := item 0x420049 .Interval (beBytes 4 0) }, none) ∧
      ¬ KeepsDuration (-1) newEncoder
        (encode attributeRegistry Ctx.top .any false 0x420049 none (durationValue (-1)) newEncoder)) := by
  have hxml := unmarshalXML_interval attributeRegistry id plainTime compactXml (read_leaseXml 4294967296)
    (leafElement_leaseXml _) (parseUint_natDec (by decide))
  have hjson := unmarshalJSON_interval attributeRegistry id plainTime compactCodec
    (@parse_leaseJson 4294967296 (by decide)) (leafObject_leaseJson _)
  refine ⟨⟨hxml, ?_⟩, ⟨hjson, ?_⟩, ⟨by decide +kernel, ?_⟩, ⟨by decide +kernel, ?_⟩⟩
  · rw [hxml, keepsSeconds_ok_iff]
    decide
  · rw [hjson, keepsSeconds_ok_iff]
    decide
  · rw [keepsDuration_encode_iff]
    decide
  · rw [keepsDuration_encode_iff]
    decide

end KmipGo.Codec
