import KmipGo.Encoder.Encode
import KmipGo.Decoder.Decode

/-! # Integers on both sides

The integer branches of `encode` (`ttlv/encoder.go`) and `unmarshal`
(`ttlv/decoder.go`): a Go integer of any kind but `int64` and `uint64` is
written as a 32 bit Integer or Enumeration, and an Integer or Enumeration is
stored into such a kind.

* `goInteger` — the number a Go integer stands for.
* `IntegerEmit` — everything the encoder may do with it.  The number is checked
  against the upper limit of an Integer only, and not at all under the
  enumeration rules, so `encode_keeps_integer_iff` has a condition on both ends.
* `ttlvInteger_cases` — the number of a block as the decoder hands it to the
  destination.  The sign is extended to 64 bits before the range is checked, so
  that a negative number passes for a large one in a `uint`: the condition of
  `unmarshal_keeps_integer_iff`.
-/

namespace KmipGo.Codec

open KmipGo.Lib KmipGo.Ttlv KmipGo.Reg KmipGo.Go KmipGo.Encoder KmipGo.Decoder

/-- The number of a value of the kinds int, int8, int16, int32, uint, uint8, uint16 and uint32. -/
def goInteger : (s : Scalar) → s.Val → Option Int
  | .int _ .int64, _ => none
  | .int _ _, i => some i.toInt
  | .uint _ .uint64, _ => none
  | .uint _ _, u => some u.toNat
  | .tag, u | .enum _ _, u => some u.toNat
  | _, _ => none

theorem goInteger_int (n : GoString) {k : IntKind} (hk : k ≠ .int64) (i : BitVec k.bits) :
    goInteger (.int n k) i = some i.toInt := by
  cases k with
  | int64 => exact absurd rfl hk
  | _ => rfl

theorem goInteger_uint (n : GoString) {k : UintKind} (hk : k ≠ .uint64) (u : BitVec k.bits) :
    goInteger (.uint n k) u = some (u.toNat : Int) := by
  cases k with
  | uint64 => exact absurd rfl hk
  | _ => rfl

/-- The generated enumeration and mask types. -/
def isEnumType : Scalar → Bool
  | .enum _ _ => true
  | _ => false

/-! ## The encoder -/

section

variable (reg : Registry)

/-- The number is written as a mask or an enumeration value: because of a flag of the field, of the
    tag, or of the type. -/
def marked (flags : Flags) (tag : Tag) (s : Scalar) : Bool :=
  flags.enum || flags.bitmask || (reg.enumForTag tag).isSome || isEnumType s

/-- The 32 bit word `w` of an item of type `typ` stands for `n`. -/
def Faithful (marked : Bool) (n : Int) (typ : Typ) (w : BitVec 32) : Prop :=
  (typ = .Integer ∧ w.toInt = n) ∨
    (marked = true ∧ (typ = .Integer ∨ typ = .Enumeration) ∧ (w.toInt = n ∨ (w.toNat : Int) = n))

/-- The encoder refuses `n` and writes nothing, or writes an item that stands for `n`. -/
def KeepsInteger (marked : Bool) (n : Int) (tag : Tag) (e : Enc) (r : EncRes) : Prop :=
  (∃ typ struct field t, r = (e, some (.marshaler typ struct field t .intOverflow))) ∨
    (∃ typ w, Faithful marked n typ w ∧
      r = ({ e with encBuf := e.encBuf ++ item tag typ (beBytes 4 w.toNat) }, none))

theorem ofInt_natCast_self (u : BitVec 32) : BitVec.ofInt 32 (u.toNat : Int) = u := by
  rw [BitVec.ofInt_natCast, BitVec.ofNat_toNat, BitVec.setWidth_eq]

theorem isEmpty_of_goInteger {s : Scalar} {v : s.Val} {n : Int} (hn : goInteger s v = some n) :
    s.isEmpty v = decide (n = 0) := by
  have hint : ∀ {b : Nat} (i : BitVec b), (i == 0) = decide (i.toInt = 0) := by
    intro b i
    rw [Bool.eq_iff_iff, beq_iff_eq, decide_eq_true_iff, ← BitVec.toInt_zero (w := b), BitVec.toInt_inj]
    rfl
  have hnat : ∀ {b : Nat} (u : BitVec b), (u == 0) = decide ((u.toNat : Int) = 0) := by
    intro b u
    rw [Bool.eq_iff_iff, beq_iff_eq, decide_eq_true_iff, Int.natCast_eq_zero, ← BitVec.toNat_inj]
    rfl
  cases s with
  | int n k =>
    cases k with
    | int64 => cases hn
    | _ =>
      cases hn
      exact hint _
  | uint n k =>
    cases k with
    | uint64 => cases hn
    | _ =>
      cases hn
      exact hnat _
  | tag | enum n m =>
    cases hn
    exact hnat _
  | _ => cases hn

/-- The plain encoding of an integer checks the upper limit only. -/
theorem plainScalar_goInteger {s : Scalar} {v : s.Val} {n : Int} (hn : goInteger s v = some n)
    (hs : isEnumType s = false) (ext : Bool) :
    plainScalar ext s v =
      if n > 2147483647 then .error .intOverflow else .ok (.integer (BitVec.ofInt 32 n)) := by
  have hnat : ∀ u : Nat, (if u > 2147483647 then .error .intOverflow else .ok (.integer (BitVec.ofNat 32 u)) :
      Except Encoder.Cause Prim) =
      if (u : Int) > 2147483647 then .error .intOverflow else .ok (.integer (BitVec.ofInt 32 u)) := by
    intro u
    rw [BitVec.ofInt_natCast]
    exact if_congr (by omega) rfl rfl
  cases s with
  | int name k =>
    cases k with
    | int64 => cases hn
    | _ =>
      cases hn
      rfl
  | uint name k =>
    cases k with
    | uint64 => cases hn
    | _ =>
      cases hn
      exact hnat _
  | tag =>
    cases hn
    refine Eq.trans ?_ (hnat v.toNat)
    rw [BitVec.ofNat_toNat, BitVec.setWidth_eq]
    rfl
  | enum name m => cases hs
  | _ => cases hn

/-- The enumeration rules take the low 32 bits. -/
theorem enumNumber_goInteger {s : Scalar} {v : s.Val} {n : Int} (hn : goInteger s v = some n)
    (hs : isEnumType s = false) : enumNumber s v = some (BitVec.ofInt 32 n) := by
  cases s with
  | int name k =>
    cases k with
    | int64 => cases hn
    | _ =>
      cases hn
      rfl
  | uint name k =>
    cases k with
    | uint64 => cases hn
    | _ =>
      cases hn
      exact congrArg some (BitVec.ofInt_natCast 32 _).symm
  | tag =>
    cases hn
    exact congrArg some (ofInt_natCast_self v).symm
  | enum name m => cases hs
  | _ => cases hn

/-- An Integer or an Enumeration with the low 32 bits of `n`. -/
def WordItem (marked : Bool) (n : Int) (p : Prim) : Prop :=
  p = .integer (BitVec.ofInt 32 n) ∨ marked = true ∧ p = .enumeration (BitVec.ofInt 32 n)

theorem wordItem_enumPrim (flags : Flags) (enumMap : Option Enum) (n : Int) :
    WordItem true n (enumPrim flags enumMap (BitVec.ofInt 32 n)) := by
  rw [enumPrim]
  split
  · exact Or.inl rfl
  · exact Or.inr ⟨rfl, rfl⟩

theorem taggedScalar_goInteger {s : Scalar} {v : s.Val} {n : Int} (hn : goInteger s v = some n)
    (hs : isEnumType s = false) (flags : Flags) (tag : Tag) :
    (marked reg flags tag s = false ∧ 2 ^ 31 ≤ n ∧ taggedScalar reg flags tag s v = .error .intOverflow) ∨
      ((marked reg flags tag s = false → n < 2 ^ 31) ∧
        ∃ p, WordItem (marked reg flags tag s) n p ∧ taggedScalar reg flags tag s v = .ok p) := by
  have hmarked : marked reg flags tag s = (flags.enum || flags.bitmask || (reg.enumForTag tag).isSome) := by
    rw [marked, hs, Bool.or_false]
  rw [taggedScalar, ← hmarked]
  cases marked reg flags tag s with
  | true =>
    refine Or.inr ⟨fun h => (by cases h), _, wordItem_enumPrim flags (reg.enumForTag tag) n, ?_⟩
    rw [if_pos rfl, enumNumber_goInteger hn hs]
  | false =>
    rw [if_neg Bool.false_ne_true, plainScalar_goInteger hn hs]
    by_cases hbig : n > 2147483647
    · exact Or.inl ⟨rfl, by omega, if_pos hbig⟩
    · exact Or.inr ⟨fun _ => by omega, _, Or.inl rfl, if_neg hbig⟩

theorem scalarEmit_goInteger {s : Scalar} {v : s.Val} {n : Int} (hn : goInteger s v = some n)
    (hs : isEnumType s = false) (ctx : Ctx) (tag : Tag) (fi : Option FieldInfo) :
    scalarEmit reg ctx tag fi s v =
      if (flagsOf fi).omitEmpty && decide (n = 0) then .ok .nothing
      else if tag = tagNone then
        .error (.marshaler (.scalar s) ctx.currStruct ctx.currField tag .noTag)
      else match taggedScalar reg (flagsOf fi) tag s v with
        | .ok p => .ok (.prim p)
        | .error c => .error (.marshaler (.scalar s) ctx.currStruct ctx.currField tag c) := by
  have hempty := isEmpty_of_goInteger hn
  cases s with
  | int _ k | uint _ k =>
    rw [scalarEmit, isEmptyValue, hempty]
    · rfl
    · simp
    · simp
  | tag =>
    rw [scalarEmit, isEmptyValue, hempty]
    · rfl
    · simp
    · simp
  | enum n m => cases hs
  | _ => cases hn

/-- What the encoder emits for an integer. -/
inductive IntegerEmit (tag : Tag) (fi : Option FieldInfo) (s : Scalar) (n : Int) :
    Except EncErr Emit → Prop
  | omitted (homit : (flagsOf fi).omitEmpty = true ∧ n = 0) : IntegerEmit tag fi s n (.ok .nothing)
  | untagged (hkept : ¬ ((flagsOf fi).omitEmpty = true ∧ n = 0))
      (htag : tag = tagNone ∧ isEnumType s = false) (typ : GoType) (struct field : GoString) :
      IntegerEmit tag fi s n (.error (.marshaler typ struct field tag .noTag))
  | overflow (hkept : ¬ ((flagsOf fi).omitEmpty = true ∧ n = 0))
      (htag : tag ≠ tagNone ∨ isEnumType s = true) (hplain : marked reg (flagsOf fi) tag s = false)
      (hbig : 2 ^ 31 ≤ n) (typ : GoType) (struct field : GoString) :
      IntegerEmit tag fi s n (.error (.marshaler typ struct field tag .intOverflow))
  | word (hkept : ¬ ((flagsOf fi).omitEmpty = true ∧ n = 0))
      (htag : tag ≠ tagNone ∨ isEnumType s = true)
      (hsmall : marked reg (flagsOf fi) tag s = false → n < 2 ^ 31) {p : Prim}
      (hp : WordItem (marked reg (flagsOf fi) tag s) n p) : IntegerEmit tag fi s n (.ok (.prim p))

theorem integerEmit_scalarEmit {s : Scalar} {v : s.Val} {n : Int} (hn : goInteger s v = some n)
    (ctx : Ctx) (tag : Tag) (fi : Option FieldInfo) :
    IntegerEmit reg tag fi s n (scalarEmit reg ctx tag fi s v) := by
  have homit : ((flagsOf fi).omitEmpty && decide (n = 0)) = true ↔
      (flagsOf fi).omitEmpty = true ∧ n = 0 := by
    rw [Bool.and_eq_true, decide_eq_true_iff]
  cases hs : isEnumType s with
  | false =>
    rw [scalarEmit_goInteger reg hn hs]
    by_cases hkept : (flagsOf fi).omitEmpty = true ∧ n = 0
    · rw [if_pos (homit.mpr hkept)]
      exact .omitted hkept
    · rw [if_neg (fun h => hkept (homit.mp h))]
      by_cases htag : tag = tagNone
      · rw [if_pos htag]
        exact .untagged hkept ⟨htag, hs⟩ _ _ _
      · rw [if_neg htag]
        obtain ⟨hplain, hbig, herr⟩ | ⟨hsmall, p, hp, hok⟩ :=
          taggedScalar_goInteger reg hn hs (flagsOf fi) tag
        · rw [herr]
          exact .overflow hkept (Or.inl htag) hplain hbig _ _ _
        · rw [hok]
          exact .word hkept (Or.inl htag) hsmall hp
  | true =>
    -- the method of the type writes the number, whatever the tag
    have hempty := isEmpty_of_goInteger hn
    cases s with
    | enum name m =>
      cases hn
      have hmarked : marked reg (flagsOf fi) tag (.enum name m) = true := by
        rw [marked, isEnumType, Bool.or_true]
      obtain ⟨p, hp, hemit⟩ : ∃ p, WordItem true (v.toNat : Int) p ∧
          marshalScalar (.enum name m) v = some p := by
        cases m with
        | true => exact ⟨.integer v, Or.inl (by rw [ofInt_natCast_self]), rfl⟩
        | false => exact ⟨.enumeration v, Or.inr ⟨rfl, by rw [ofInt_natCast_self]⟩, rfl⟩
      rw [scalarEmit, hemit, isEmptyValue, hempty]
      · by_cases hkept : (flagsOf fi).omitEmpty = true ∧ (v.toNat : Int) = 0
        · simp only [if_pos (homit.mpr hkept)]
          exact .omitted hkept
        · simp only [if_neg (fun h => hkept (homit.mp h))]
          exact .word hkept (Or.inr rfl) (by rw [hmarked]; intro h; cases h) (by rw [hmarked]; exact hp)
      · simp
      · simp
    | _ => cases hs

theorem scalarIsNil_goInteger {s : Scalar} {v : s.Val} {n : Int} (hn : goInteger s v = some n) :
    scalarIsNil s v = false := by
  cases s with
  | bytes _ => cases hn
  | other _ _ => cases hn
  | _ => rfl

/-- The item of a word, and what it stands for. -/
theorem faithful_iff {flag : Bool} {n : Int} {p : Prim} (hp : WordItem flag n p) :
    ∃ typ, p.content = some (typ, beBytes 4 (BitVec.ofInt 32 n).toNat) ∧
      (Faithful flag n typ (BitVec.ofInt 32 n) ↔
        -(2 ^ 31) ≤ n ∧ n < (if flag then 2 ^ 32 else 2 ^ 31)) := by
  have hint : (BitVec.ofInt 32 n).toInt = n ↔ -(2 ^ 31) ≤ n ∧ n < 2 ^ 31 := by
    constructor
    · intro h
      have := BitVec.le_toInt (BitVec.ofInt 32 n)
      have := BitVec.toInt_lt (x := BitVec.ofInt 32 n)
      omega
    · intro h
      rw [BitVec.toInt_ofInt]
      exact Int.bmod_eq_of_le (by norm_num; omega) (by norm_num; omega)
  have hnat : ((BitVec.ofInt 32 n).toNat : Int) = n ↔ 0 ≤ n ∧ n < 2 ^ 32 := by
    rw [BitVec.toNat_ofInt]
    omega
  obtain rfl | ⟨rfl, rfl⟩ := hp
  · refine ⟨.Integer, rfl, ?_⟩
    rw [Faithful, hint, hnat]
    cases flag with
    | true =>
      simp
      omega
    | false => simp
  · refine ⟨.Enumeration, rfl, ?_⟩
    rw [Faithful, hint, hnat]
    simp
    omega

/-- An item with a 32 bit word determines its type and the word. -/
theorem item_word_inj {tag : Tag} {typ typ' : Typ} {w w' : BitVec 32}
    (h : item tag typ (beBytes 4 w.toNat) = item tag typ' (beBytes 4 w'.toNat)) : typ = typ' ∧ w = w' := by
  have hlen : ∀ u : BitVec 32, (beBytes 4 u.toNat).length < 2 ^ 32 := by
    intro u
    rw [length_beBytes]
    norm_num
  constructor
  · have htyp := congrArg TTLV.typ h
    rw [typ_item, typ_item] at htyp
    exact Option.some.inj htyp
  · have hraw := congrArg (fun t => uint32BE (TTLV.raw t)) h
    simp only [raw_item tag _ (hlen _), uint32BE_beBytes] at hraw
    exact Option.some.inj hraw

/-- What the encoder does with what it emits for an integer keeps the number, under conditions on
    both ends of the range. -/
theorem keepsInteger_emit {tag : Tag} {fi : Option FieldInfo} {s : Scalar} {n : Int} (e : Enc)
    {em : Except EncErr Emit} :
    IntegerEmit reg tag fi s n em →
      (KeepsInteger (marked reg (flagsOf fi) tag s) n tag e
          (match em with
            | .ok em => (em.run tag e, none)
            | .error err => (e, some err)) ↔
        (tag ≠ tagNone ∨ isEnumType s = true) ∧ ¬ ((flagsOf fi).omitEmpty = true ∧ n = 0) ∧
          -(2 ^ 31) ≤ n ∧ (marked reg (flagsOf fi) tag s = true → n < 2 ^ 32)) := by
  intro hem
  cases hem with
  | omitted homit =>
    constructor
    · rintro (⟨typ, struct, field, t, h⟩ | ⟨typ, w, -, h⟩)
      · cases (Prod.mk.inj h).2
      · -- nothing is written
        have hbuf : e.encBuf = e.encBuf ++ _ := congrArg (fun r : EncRes => r.1.encBuf) h
        exact absurd (List.append_right_eq_self.mp hbuf.symm) (item_ne_nil tag typ _)
    · intro h
      exact absurd homit h.2.1
  | untagged hkept htag typ struct field =>
    constructor
    · rintro (⟨typ, struct, field, t, h⟩ | ⟨typ, w, -, h⟩)
      · cases (Prod.mk.inj h).2
      · cases (Prod.mk.inj h).2
    · rintro ⟨hown | henum, -⟩
      · exact absurd htag.1 hown
      · rw [htag.2] at henum
        cases henum
  | overflow hkept htag hplain hbig typ struct field =>
    constructor
    · intro _
      refine ⟨htag, hkept, by omega, fun hmarked => ?_⟩
      rw [hplain] at hmarked
      cases hmarked
    · intro _
      exact Or.inl ⟨typ, struct, field, tag, rfl⟩
  | @word hkept htag hsmall p hp =>
    obtain ⟨typ, hcontent, hfaithful⟩ := faithful_iff hp
    have hrun : (Emit.prim p).run tag e =
        { e with encBuf := e.encBuf ++ item tag typ (beBytes 4 (BitVec.ofInt 32 n).toNat) } := by
      rw [Emit.run, encodePrim_eq, Prim.item, hcontent]
    simp only [hrun]
    constructor
    · rintro (⟨typ, struct, field, t, h⟩ | ⟨typ', w, hw, h⟩)
      · cases (Prod.mk.inj h).2
      · -- the item that was written is the one that stands for `n`
        have hbuf := congrArg (fun r : EncRes => r.1.encBuf) h
        obtain ⟨rfl, rfl⟩ := item_word_inj (List.append_cancel_left hbuf)
        obtain ⟨hlow, hhigh⟩ := hfaithful.mp hw
        refine ⟨htag, hkept, hlow, fun hmarked => ?_⟩
        rwa [if_pos hmarked] at hhigh
    · rintro ⟨-, -, hlow, hhigh⟩
      refine Or.inr ⟨typ, _, hfaithful.mpr ⟨hlow, ?_⟩, rfl⟩
      split
      · next hmarked => exact hhigh hmarked
      · next hplain => exact hsmall (Bool.eq_false_iff.mpr hplain)

/-- At any place of a value that is marshaled, an integer is either refused as an overflow or written as
    an item that stands for it, if and only if there is something to write (a tag, or a method of the
    type, and no omitted zero), the number is not below the range of an Integer and, where the
    enumeration rules apply, not above 32 bits. -/
theorem encode_keeps_integer_iff {s : Scalar} {v : s.Val} {n : Int} (hn : goInteger s v = some n)
    (ctx : Ctx) (d : Deref) (addr : Bool) (tag : Tag) (fi : Option FieldInfo) (e : Enc) :
    let own := tagOr tag (plainInfo reg (.scalar s)) fi (.scalar v)
    KeepsInteger (marked reg (flagsOf fi) own s) n own e (encode reg ctx d addr tag fi (.scalar v) e) ↔
      (own ≠ tagNone ∨ isEnumType s = true) ∧ ¬ ((flagsOf fi).omitEmpty = true ∧ n = 0) ∧
        -(2 ^ 31) ≤ n ∧ (marked reg (flagsOf fi) own s = true → n < 2 ^ 32) := by
  intro own
  rw [encode, encodeScalar, if_neg (by rw [scalarIsNil_goInteger hn]; exact Bool.false_ne_true)]
  exact keepsInteger_emit reg e (integerEmit_scalarEmit reg hn ctx own fi)

end

@[reducible] def intScalar : Scalar := .int (lit "int") .int
@[reducible] def uintScalar : Scalar := .uint (lit "uint") .uint

/-- A field `MaximumResponseSize`, marked as a bitmask. -/
def maskField : FieldInfo :=
  ⟨lit "MaximumResponseSize", tagNone, 0x420050, { noFlags with bitmask := true }, .scalar uintScalar⟩

theorem encode_keeps_integer_minInt32 :
    KeepsInteger false (-2147483648) 0x420050 newEncoder
      (encode Registry.empty Ctx.top .any false 0x420050 none
        (.scalar (BitVec.ofInt 64 (-2147483648)) : GoVal (.scalar intScalar)) newEncoder) := by
  have hn : goInteger intScalar (BitVec.ofInt 64 (-2147483648)) = some (-2147483648) := by decide
  exact (encode_keeps_integer_iff Registry.empty hn Ctx.top .any false 0x420050 none newEncoder).mpr
    ⟨Or.inl (by decide), by decide, by decide, by decide⟩

/-- An `int` below the range of an Integer is written as the largest Integer, and a `uint` above 32 bits
    as the empty mask. -/
theorem encode_changes_integer :
    (goInteger intScalar (BitVec.ofInt 64 (-2147483649)) = some (-2147483649) ∧
      encode Registry.empty Ctx.top .any false 0x420050 none
          (.scalar (BitVec.ofInt 64 (-2147483649)) : GoVal (.scalar intScalar)) newEncoder =
        ({ newEncoder with encBuf := item 0x420050 .Integer (beBytes 4 2147483647) }, none)) ∧
    (goInteger uintScalar (BitVec.ofNat 64 4294967296) = some 4294967296 ∧
      encode Registry.empty Ctx.top .any false tagNone (some maskField)
          (.scalar (BitVec.ofNat 64 4294967296) : GoVal (.scalar uintScalar)) newEncoder =
        ({ newEncoder with encBuf := item 0x420050 .Integer (beBytes 4 0) }, none)) ∧
    ¬ KeepsInteger false (-2147483649) 0x420050 newEncoder
      (encode Registry.empty Ctx.top .any false 0x420050 none
        (.scalar (BitVec.ofInt 64 (-2147483649)) : GoVal (.scalar intScalar)) newEncoder) ∧
    ¬ KeepsInteger true 4294967296 0x420050 newEncoder
      (encode Registry.empty Ctx.top .any false tagNone (some maskField)
        (.scalar (BitVec.ofNat 64 4294967296) : GoVal (.scalar uintScalar)) newEncoder) := by
  have hint : goInteger intScalar (BitVec.ofInt 64 (-2147483649)) = some (-2147483649) := by decide
  have huint : goInteger uintScalar (BitVec.ofNat 64 4294967296) = some 4294967296 := by decide
  refine ⟨⟨hint, by decide⟩, ⟨huint, by decide⟩, fun h => ?_, fun h => ?_⟩
  · obtain ⟨-, -, hlow, -⟩ := (keepsInteger_emit Registry.empty newEncoder
      (integerEmit_scalarEmit Registry.empty hint Ctx.top 0x420050 none)).mp h
    exact absurd hlow (by decide)
  · obtain ⟨-, -, -, hhigh⟩ := (keepsInteger_emit Registry.empty newEncoder
      (integerEmit_scalarEmit Registry.empty huint Ctx.top 0x420050 (some maskField))).mp h
    exact absurd (hhigh rfl) (by decide)

/-! ## The decoder -/

/-- The number an Integer or an Enumeration holds. -/
def ttlvInteger (t : TTLV) : Option Int :=
  match t.typ with
  | some .Integer => integerInt t
  | some .Enumeration => enumerationInt t
  | _ => none

/-- The destination holds `n` afterwards, or it cannot hold `n`, the call fails with an overflow and
    the destination is as before.  `number` says which number a destination holds. -/
def StoresInteger {α : Type} (number : α → Option Int) (n : Int) (cur : α) (r : α × Outcome) : Prop :=
  (∃ w, number w = some n ∧ r = (w, .ok ())) ∨
    (∀ w, number w ≠ some n) ∧
      ∃ err, err.cause = .intOverflow ∧ r = (cur, .err (.unmarshaler err))

theorem overflowInt_iff {bits : Nat} (hbits : 0 < bits) (n : Int) :
    (overflowInt bits n = false → (BitVec.ofInt bits n).toInt = n) ∧
      (overflowInt bits n = true → ∀ w : BitVec bits, w.toInt ≠ n) := by
  rw [overflowInt, decide_eq_false_iff_not, decide_eq_true_iff]
  constructor
  · intro h
    rw [BitVec.toInt_ofInt]
    have hpow : 2 ^ bits = 2 * 2 ^ (bits - 1) := by
      rw [← Nat.pow_succ', Nat.succ_eq_add_one, Nat.sub_add_cancel hbits]
    apply Int.bmod_eq_of_le_mul_two
    · rw [hpow]
      push_cast
      omega
    · rw [hpow]
      push_cast
      omega
  · intro h w hw
    have := BitVec.le_toInt w
    have := BitVec.toInt_lt (x := w)
    omega

/-- The unsigned destinations get the number modulo `2 ^ 64`: only one of 64 bits cannot tell. -/
theorem overflowUint_iff {bits : Nat} {n : Int} (hn : -(2 ^ 31) ≤ n ∧ n < 2 ^ 32)
    (hbits : bits ≤ 32 ∨ 0 ≤ n) {u : Nat} (hu : (u : Int) = n % 2 ^ 64) :
    (overflowUint bits u = false → ((BitVec.ofNat bits u).toNat : Int) = n) ∧
      (overflowUint bits u = true → ∀ w : BitVec bits, (w.toNat : Int) ≠ n) := by
  rw [overflowUint, decide_eq_false_iff_not, decide_eq_true_iff]
  by_cases h0 : 0 ≤ n
  · have hself : (u : Int) = n := by omega
    constructor
    · intro h
      rw [BitVec.toNat_ofNat, Nat.mod_eq_of_lt (by omega), hself]
    · intro h w hw
      have := w.isLt
      omega
  · -- a negative number has become a large one
    have hpow : 2 ^ bits ≤ 2 ^ 32 := Nat.pow_le_pow_right (by norm_num) (hbits.resolve_right h0)
    constructor
    · intro h
      omega
    · intro h w hw
      omega

section

variable (dec : Dec) {t : TTLV}

theorem storesInteger_storeInt {bits : Nat} (hbits : 0 < bits) (ty : GoType) (cur : BitVec bits) (n : Int) :
    StoresInteger (fun i => some i.toInt) n cur (storeInt dec t ty cur (some n)) := by
  obtain ⟨hfits, hover⟩ := overflowInt_iff hbits n
  rw [storeInt]
  cases hcheck : overflowInt bits n with
  | false => exact Or.inl ⟨_, congrArg some (hfits hcheck), rfl⟩
  | true => exact Or.inr ⟨fun w hw => hover hcheck w (Option.some.inj hw), _, rfl, rfl⟩

theorem storesInteger_storeUint {bits : Nat} {n : Int} (hn : -(2 ^ 31) ≤ n ∧ n < 2 ^ 32)
    (hbits : bits ≤ 32 ∨ 0 ≤ n) {u : Nat} (hu : (u : Int) = n % 2 ^ 64) (ty : GoType) (cur : BitVec bits) :
    StoresInteger (fun w => some (w.toNat : Int)) n cur (storeUint dec t ty cur (some u)) := by
  obtain ⟨hfits, hover⟩ := overflowUint_iff hn hbits hu
  rw [storeUint]
  cases hcheck : overflowUint bits u with
  | false => exact Or.inl ⟨_, congrArg some (hfits hcheck), rfl⟩
  | true => exact Or.inr ⟨fun w hw => hover hcheck w (Option.some.inj hw), _, rfl, rfl⟩

/-- The type of a block that holds a number, and the number as the two kinds of destinations get it. -/
theorem ttlvInteger_cases {n : Int} (h : ttlvInteger t = some n) :
    ∃ typ, t.typ = some typ ∧ typ ≠ .ByteString ∧ -(2 ^ 31) ≤ n ∧ n < 2 ^ 32 ∧
      (∀ (name : GoString) {k : IntKind}, k ≠ .int64 → ∀ cur : BitVec k.bits,
        storeScalar dec t typ (.int name k) cur = storeInt dec t (.scalar (.int name k)) cur (some n)) ∧
      ∃ u : Nat, (u : Int) = n % 2 ^ 64 ∧ ∀ (ty : GoType) {bits : Nat} (cur : BitVec bits),
        storeUintOf dec t ty cur typ = storeUint dec t ty cur (some u) := by
  rw [ttlvInteger] at h
  split at h
  · next htyp =>
    have hint := h
    rw [integerInt, Option.map_eq_some_iff] at h
    obtain ⟨w, hw, rfl⟩ := h
    have hlow := BitVec.le_toInt w
    have hhigh := BitVec.toInt_lt (x := w)
    refine ⟨.Integer, htyp, by simp, by omega, by omega, fun name k hk cur => ?_, (w.signExtend 64).toNat, ?_,
      fun ty bits cur => ?_⟩
    · rw [storeScalar_integer dec t name hk, hint]
    · rw [BitVec.signExtend, BitVec.toNat_ofInt]
      omega
    · rw [storeUintOf, integerUint, hw, Option.map_some]
  · next htyp =>
    have hint := h
    rw [enumerationInt, Option.map_eq_some_iff] at h
    obtain ⟨w, hw, rfl⟩ := h
    have hlt := w.isLt
    refine ⟨.Enumeration, htyp, by simp, by omega, by omega, fun name k hk cur => ?_, w.toNat, by omega,
      fun ty bits cur => ?_⟩
    · rw [storeScalar_enumeration dec t name hk, hint]
    · rw [storeUintOf, enumerationUint, hw, Option.map_some]
  · cases h

/-- The integer branches of `unmarshal`. -/
theorem storesInteger_unmarshalScalar {n : Int} (hn : ttlvInteger t = some n) {s : Scalar} {cur : s.Val}
    (hs : (goInteger s cur).isSome) (hkind : s.kind = .Uint → 0 ≤ n) :
    StoresInteger (goInteger s) n cur (unmarshalScalar dec t s cur) := by
  obtain ⟨typ, htyp, hbytes, hlow, hhigh, hint, u, hu, huint⟩ := ttlvInteger_cases dec hn
  cases s with
  | int name k =>
    have hk : k ≠ .int64 := by
      rintro rfl
      cases hs
    rw [unmarshalScalar_of_typ dec htyp (by simp), hint name hk, funext (goInteger_int name hk)]
    exact storesInteger_storeInt dec (by cases k <;> simp) _ cur n
  | uint name k =>
    have hk : k ≠ .uint64 := by
      rintro rfl
      cases hs
    rw [unmarshalScalar_of_typ dec htyp (by simp), storeScalar_uint dec t name hk hbytes, huint,
      funext (goInteger_uint name hk)]
    refine storesInteger_storeUint dec ⟨hlow, hhigh⟩ ?_ hu _ cur
    cases k with
    | uint => exact Or.inr (hkind rfl)
    | uint64 => exact absurd rfl hk
    | _ => exact Or.inl (by decide)
  | tag =>
    rw [unmarshalScalar_of_typ dec htyp (by simp), storeScalar_tag dec t hbytes, huint]
    exact storesInteger_storeUint dec ⟨hlow, hhigh⟩ (Or.inl (by simp)) hu _ cur
  | enum name m =>
    rw [unmarshalScalar_of_typ dec htyp (by simp), storeScalar_enum dec t name m hbytes, huint]
    exact storesInteger_storeUint dec ⟨hlow, hhigh⟩ (Or.inl (by simp)) hu _ cur
  | _ => cases hs

/-- A `uint` gets the number modulo `2 ^ 64`: the sign of a negative number is lost. -/
theorem unmarshalScalar_uint {n : Int} (hn : ttlvInteger t = some n) (name : GoString) (cur : BitVec 64) :
    unmarshalScalar dec t (.uint name .uint) cur = (BitVec.ofInt 64 n, .ok ()) := by
  obtain ⟨typ, htyp, hbytes, hlow, -, -, u, hu, huint⟩ := ttlvInteger_cases dec hn
  have hfits : overflowUint 64 u = false := by
    rw [overflowUint, decide_eq_false_iff_not]
    omega
  have hself : BitVec.ofNat 64 u = BitVec.ofInt 64 n := by
    rw [← BitVec.ofInt_natCast, hu]
    apply BitVec.eq_of_toInt_eq
    rw [BitVec.toInt_ofInt, BitVec.toInt_ofInt]
    exact Int.emod_bmod n (2 ^ 64)
  rw [unmarshalScalar_of_typ dec htyp (by simp), storeScalar_uint dec t name (by simp) hbytes, huint]
  show storeUint dec t _ cur (some u) = _
  rw [storeUint, hfits, if_neg Bool.false_ne_true, hself]

theorem unmarshal_integer (reg : Registry) {n : Int} (hn : ttlvInteger t = some n) (deref : Bool) {s : Scalar}
    (cur : s.Val) :
    unmarshal reg dec deref (.scalar s) (.scalar cur) t =
      (.scalar (unmarshalScalar dec t s cur).1, (unmarshalScalar dec t s cur).2) := by
  have hlen : ¬ t.length = 0 := by
    intro h0
    obtain ⟨typ, htyp, -⟩ := ttlvInteger_cases dec hn
    rw [List.length_eq_zero_iff.mp h0] at htyp
    cases htyp
  rw [unmarshal, if_neg hlen]

end

/-- The number a Go value holds, if it is of one of the integer kinds. -/
def heldInteger : {ty : GoType} → GoVal ty → Option Int
  | .scalar s, .scalar v => goInteger s v
  | _, _ => none

/-- A block that holds `n` is stored as `n` where the destination can hold `n`, and refused as an
    overflow elsewhere, if and only if `n` is not negative or the destination is not a `uint`. -/
theorem unmarshal_keeps_integer_iff (reg : Registry) (dec : Dec) {t : TTLV} {n : Int}
    (hn : ttlvInteger t = some n) {ty : GoType} {cur : GoVal ty} (hcur : (heldInteger cur).isSome)
    (deref : Bool) :
    StoresInteger heldInteger n cur (unmarshal reg dec deref ty cur t) ↔ (ty.kind = .Uint → 0 ≤ n) := by
  cases cur with
  | @scalar s cur =>
    rw [unmarshal_integer dec reg hn]
    constructor
    · intro h hkind
      by_contra hneg
      cases s with
      | uint name k =>
        cases k with
        | uint =>
          rw [unmarshalScalar_uint dec hn] at h
          obtain ⟨w, hw, -⟩ | ⟨-, err, -, herr⟩ := h
          · cases w with
            | scalar w =>
              have := Option.some.inj hw
              omega
          · cases (Prod.mk.inj herr).2
        | _ => cases hkind
      | int name k => cases k <;> cases hkind
      | other name k => cases k <;> cases hkind
      | _ => cases hkind
    · intro hkind
      obtain ⟨w, hw, hr⟩ | ⟨hnone, err, hcause, hr⟩ := storesInteger_unmarshalScalar dec hn hcur hkind
      · exact Or.inl ⟨.scalar w, hw, by rw [hr]⟩
      · refine Or.inr ⟨fun w => ?_, err, hcause, by rw [hr]⟩
        cases w with
        | scalar w => exact hnone w
  | _ => cases hcur

/-- The Integer -1. -/
def minusOne : TTLV := item 0x420050 .Integer (beBytes 4 4294967295)

theorem unmarshal_keeps_integer_uint8 :
    StoresInteger heldInteger (-1) (.scalar (7 : BitVec 8) : GoVal byteType)
      (unmarshal Registry.empty newDecoder true byteType (.scalar (7 : BitVec 8)) minusOne) :=
  (unmarshal_keeps_integer_iff Registry.empty newDecoder (t := minusOne) (by decide) rfl true).mpr (by decide)

/-- The Integer -1 is stored in a `uint` as the largest number. -/
theorem unmarshal_changes_integer :
    ttlvInteger minusOne = some (-1) ∧
      unmarshal Registry.empty newDecoder true (.scalar uintScalar) (.scalar (0 : BitVec 64)) minusOne =
        (.scalar (BitVec.ofNat 64 18446744073709551615), .ok ()) ∧
      ¬ StoresInteger heldInteger (-1) (.scalar (0 : BitVec 64) : GoVal (.scalar uintScalar))
        (unmarshal Registry.empty newDecoder true (.scalar uintScalar) (.scalar (0 : BitVec 64))
          minusOne) := by
  have hn : ttlvInteger minusOne = some (-1) := by decide
  have hrun : unmarshal Registry.empty newDecoder true (.scalar uintScalar) (.scalar (0 : BitVec 64)) minusOne =
      (.scalar (BitVec.ofNat 64 18446744073709551615), .ok ()) := by
    rw [unmarshal_integer newDecoder Registry.empty hn, unmarshalScalar_uint newDecoder hn]
    rfl
  refine ⟨hn, hrun, fun h => ?_⟩
  rw [hrun] at h
  obtain ⟨w, hw, hr⟩ | ⟨-, err, -, hr⟩ := h
  · rw [← (Prod.mk.inj hr).1] at hw
    exact absurd hw (by decide)
  · cases (Prod.mk.inj hr).2

end KmipGo.Codec
