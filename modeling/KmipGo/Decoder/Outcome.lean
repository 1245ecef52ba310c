import KmipGo.Decoder.Arrivals

/-! # When `Unmarshal` fails

`Unmarshal` reads the leading block and decodes it into a fresh destination.
What it returns is decided by the frame of the block and then by the first
arrival that is not stored.

* `unmarshal_error_iff` — it returns an error exactly when the frame is bad, or
  the first arrival that is not stored is refused.  A malformed child that no
  arrival refuses goes unnoticed, or makes an accessor panic.
* `unmarshal_safe_iff` — on a valid block and a destination of a supported type
  the only panic is a ByteString that arrives where neither `Elem` nor `SetBytes`
  is defined.
-/

namespace KmipGo.Decoder

open KmipGo.Lib KmipGo.Ttlv KmipGo.Reg KmipGo.Go

/-! ## The leading block -/

/-- The header is not valid, or announces more bytes than there are. -/
def BadFrame (b : Bytes) : Prop := TTLV.validHeader b ≠ none ∨ b.length < (TTLV.fullLen b).getD 0

theorem typeByte_take (b : Bytes) : TTLV.typeByte (b.take lenHeader) = TTLV.typeByte b := by
  rw [TTLV.typeByte, TTLV.typeByte, List.getElem?_take_of_lt (by decide)]

theorem len_take {b : Bytes} (h : lenHeader ≤ b.length) : TTLV.len (b.take lenHeader) = TTLV.len b := by
  have hlen : (b.take lenHeader).length = lenHeader := by
    rw [List.length_take]
    omega
  rw [TTLV.len, TTLV.len, hlen, if_neg (Nat.lt_irrefl _), if_neg (by omega), List.drop_take,
    List.take_take]
  rfl

theorem validHeader_take {b : Bytes} (h : lenHeader ≤ b.length) :
    TTLV.validHeader (b.take lenHeader) = TTLV.validHeader b := by
  have hlen : (b.take lenHeader).length = lenHeader := by
    rw [List.length_take]
    omega
  have htag : TTLV.validTag (b.take lenHeader) = TTLV.validTag b := by
    rw [TTLV.validTag, TTLV.validTag, List.getElem?_take_of_lt (by decide)]
  have hne : ¬ b.length < lenHeader := by omega
  rw [TTLV.validHeader, TTLV.validHeader, hlen, if_neg (Nat.lt_irrefl lenHeader), if_neg hne, htag,
    TTLV.typ, TTLV.typ, typeByte_take, len_take h]

theorem fullLen_take {b : Bytes} (h : lenHeader ≤ b.length) :
    TTLV.fullLen (b.take lenHeader) = TTLV.fullLen b := by
  rw [TTLV.fullLen, TTLV.fullLen, TTLV.typ, TTLV.typ, typeByte_take, len_take h]

theorem nextTTLV_of_badFrame {b : Bytes} (h : BadFrame b) : ∃ e, nextTTLV b = .err e := by
  rw [nextTTLV]
  by_cases hshort : b.length < lenHeader
  · exact ⟨_, if_pos hshort⟩
  · rw [if_neg hshort, validHeader_take (by omega), fullLen_take (by omega)]
    cases hhdr : TTLV.validHeader b with
    | some e => exact ⟨_, rfl⟩
    | none =>
      obtain ⟨ty, -, -, hfull⟩ := fullLen_of_validHeader hhdr
      cases h with
      | inl h => exact absurd hhdr h
      | inr h =>
        rw [hfull, Option.getD_some] at h
        simp only [hfull, if_pos h]
        exact ⟨_, rfl⟩

theorem nextTTLV_of_not_badFrame {b : Bytes} (h : ¬ BadFrame b) : nextTTLV b = .ok (TTLV.block b) := by
  rw [BadFrame, not_or, not_not] at h
  obtain ⟨hhdr, hlen⟩ := h
  have h8 := length_of_validHeader hhdr
  obtain ⟨ty, -, -, hfull⟩ := fullLen_of_validHeader hhdr
  rw [hfull, Option.getD_some] at hlen
  rw [nextTTLV, if_neg (by omega), validHeader_take h8, fullLen_take h8, hhdr]
  simp only [hfull, if_neg hlen]
  rw [TTLV.block, hfull, Option.getD_some]

theorem not_badFrame_of_isValid {b : Bytes} (h : TTLV.IsValid b) : ¬ BadFrame b := by
  obtain ⟨blk, hsize, rest, rfl⟩ := isValid_iff.mp h
  rintro (hbad | hbad)
  · exact hbad (validHeader_of_isValid h)
  · rw [fullLen_bytes_append blk rest hsize, Option.getD_some, List.length_append] at hbad
    omega

/-! ## The first arrival that is not stored -/

section

variable (reg : Registry)

/-- What arrives where when the leading block of `b` is decoded into a fresh destination. -/
def topArrivals (ty : GoType) (b : Bytes) : List (GoType × TTLV) :=
  (arrivals reg false ty (Place.zero ty) (TTLV.block b)).1

/-- The first arrival that is not stored satisfies `P`. -/
def FirstUnstored (P : GoType → TTLV → Prop) (as : List (GoType × TTLV)) : Prop :=
  ∃ before ty t after, as = before ++ (ty, t) :: after ∧
    (∀ a ∈ before, verdict reg a = .ok ()) ∧ P ty t

theorem firstFailure_iff_firstUnstored {as : List (GoType × TTLV)} {r : Verdict} (hr : r ≠ .ok ()) :
    firstFailure (verdict reg) as = r ↔ FirstUnstored reg (fun ty t => verdict reg (ty, t) = r) as := by
  rw [firstFailure_eq_iff hr]
  constructor
  · rintro ⟨before, ⟨ty, t⟩, after, heq, hbefore, hr⟩
    exact ⟨before, ty, t, after, heq, hbefore, hr⟩
  · rintro ⟨before, ty, t, after, heq, hbefore, hr⟩
    exact ⟨before, (ty, t), after, heq, hbefore, hr⟩

theorem unmarshalBytes_agrees (ty : GoType) {b : Bytes} (h : ¬ BadFrame b) :
    Agrees HasCause (unmarshalBytes reg ty b).2 (firstFailure (verdict reg) (topArrivals reg ty b)) := by
  have hfollow := unmarshal_follows reg ty newDecoder false ty.zero (TTLV.block b) rfl
  rw [unmarshalBytes, nextTTLV_of_not_badFrame h, topArrivals, ← placeOf_zero]
  exact hfollow.outcome

/-- `Unmarshal` returns an error exactly when the leading block has a bad frame, or the first arrival
    that is not stored is refused. -/
theorem unmarshal_error_iff (ty : GoType) (b : Bytes) :
    (∃ e, (unmarshalBytes reg ty b).2 = .err e) ↔
      BadFrame b ∨
      FirstUnstored reg (fun d t => ∃ c, verdict reg (d, t) = .err c) (topArrivals reg ty b) := by
  by_cases hbad : BadFrame b
  · obtain ⟨e, he⟩ := nextTTLV_of_badFrame hbad
    refine iff_of_true ⟨e, ?_⟩ (Or.inl hbad)
    rw [unmarshalBytes, he]
  · rw [agrees_err_iff (unmarshalBytes_agrees reg ty hbad), or_iff_right hbad]
    constructor
    · rintro ⟨c, hc⟩
      obtain ⟨before, d, t, after, heq, hbefore, hd⟩ :=
        (firstFailure_iff_firstUnstored reg (by simp)).mp hc
      exact ⟨before, d, t, after, heq, hbefore, c, hd⟩
    · rintro ⟨before, d, t, after, heq, hbefore, c, hd⟩
      exact ⟨c, (firstFailure_iff_firstUnstored reg (by simp)).mpr
        ⟨before, d, t, after, heq, hbefore, hd⟩⟩

end

/-- A structure whose only child is cut off after its header. -/
def cutChild : Bytes :=
  [0x42, 0, 0x08, 1, 0, 0, 0, 8, 0x42, 0, 0x0b, 2, 0, 0, 0, 4]

/-- `struct { F int32 }` with the tag of that child. -/
def oneInt32 : GoType :=
  .struct (lit "T") (.cons ⟨lit "F", lit "0x42000b", false, false⟩
    (.scalar (.int (lit "int32") .int32)) .nil)

/-- A `Value` takes it and drops the child; reading it as an `int32` panics. -/
theorem cutChild_accepted :
    TTLV.valid cutChild ≠ .ok () ∧
    (unmarshalBytes Registry.empty .value cutChild).2 = .ok () ∧
    (unmarshalBytes Registry.empty oneInt32 cutChild).2 = .panic := by
  decide +kernel

/-! ## Valid blocks -/

/-- The scalar types among the supported ones. -/
def Scalar.Supported : Scalar → Prop
  | .bool _ | .string _ | .int _ _ | .uint _ _ | .duration | .tag | .enum _ _ | .bytes _ | .time
  | .bigInt => True
  | .dateTimeExtended | .ttlv | .other _ _ => False

section

variable (reg : Registry)

mutual
/-- The types built from numbers, strings, byte slices, times and interfaces by pointers, slices and
    structs whose fields have distinct tags that resolve. -/
def Supported : GoType → Prop
  | .scalar s => Scalar.Supported s
  | .iface => True
  | .ptr e | .slice _ e => Supported e
  | .struct n fs => (∃ ti, getTypeInfo reg (.struct n fs) = .ok ti) ∧ SupportedFields fs
  | .array _ _ | .value | .marshaler _ _ => False
def SupportedFields : Fields → Prop
  | .nil => True
  | .cons _ ty rest => Supported ty ∧ SupportedFields rest
end

/-- The supported types on which `SetBytes` panics, or `Elem` before it: all but byte slices,
    interfaces and pointers to something else than `byte`. -/
def Elemless : GoType → Prop
  | .scalar (.bytes _) | .iface => False
  | .ptr e => e = byteType
  | _ => True

theorem isValid_of_mem_children {t n : TTLV} (hv : t.IsValid) (hs : t.typ = some .Structure)
    (hn : n ∈ t.children) : n.IsValid := by
  obtain ⟨b, hsize, rest, rfl⟩ := isValid_iff.mp hv
  cases b with
  | leaf tag l =>
    rw [typ_leaf_append, Option.some.injEq] at hs
    exact absurd hs (leaf_ty_ne l)
  | struct tag cs =>
    rw [children_struct_append tag cs rest hsize] at hn
    obtain ⟨c, hc, later, rfl⟩ := mem_slices hn
    exact valid_bytes_append c later (Sized.of_mem hc hsize)

mutual
/-- Valid items arrive at destinations of supported types. -/
theorem arrivals_supported : ∀ (ty : GoType) (deref : Bool) (p : Place) (t : TTLV),
    Supported reg ty → t.IsValid →
    ∀ a ∈ (arrivals reg deref ty p t).1, Supported reg a.1 ∧ a.2.IsValid
  | .scalar s, deref, p, t, hty, hv => by
    intro a ha
    rw [arrivals] at ha
    split at ha
    · exact absurd ha List.not_mem_nil
    · obtain rfl := List.mem_singleton.mp ha
      exact ⟨hty, hv⟩
  | .iface, deref, p, t, hty, hv => by
    intro a ha
    unfold arrivals at ha
    split at ha
    · exact absurd ha List.not_mem_nil
    · split at ha
      · obtain rfl := List.mem_singleton.mp ha
        exact ⟨trivial, hv⟩
      · obtain rfl := List.mem_singleton.mp ha
        exact ⟨trivial, hv⟩
  | .ptr e, deref, p, t, hty, hv => by
    intro a ha
    unfold arrivals at ha
    split at ha
    · exact absurd ha List.not_mem_nil
    · split at ha
      · exact arrivals_supported e false _ t hty hv a ha
      · exact arrivals_supported e false _ t hty hv a ha
      · split at ha
        · exact arrivals_supported e false _ t hty hv a ha
        · obtain rfl := List.mem_singleton.mp ha
          exact ⟨hty, hv⟩
      · obtain rfl := List.mem_singleton.mp ha
        exact ⟨hty, hv⟩
  | .slice n e, deref, p, t, hty, hv => by
    intro a ha
    rw [arrivals] at ha
    split at ha
    · exact absurd ha List.not_mem_nil
    · exact arrivals_supported e true _ t hty hv a ha
  | .struct n fs, deref, p, t, hty, hv => by
    intro a ha
    obtain ⟨⟨ti, hti⟩, hfs⟩ := hty
    rw [arrivals] at ha
    split at ha
    · exact absurd ha List.not_mem_nil
    · split at ha
      · rename_i hs
        rw [hti] at ha
        obtain ⟨c, hc, ps, ha⟩ := mem_collect ha
        rw [childArrivals] at ha
        split at ha
        · exact fieldArrivals_supported fs _ _ c hfs (isValid_of_mem_children hv hs hc) a ha
        · exact absurd ha List.not_mem_nil
      · obtain rfl := List.mem_singleton.mp ha
        exact ⟨⟨⟨ti, hti⟩, hfs⟩, hv⟩
theorem fieldArrivals_supported : ∀ (fs : Fields) (i : Nat) (p : Place) (n : TTLV),
    SupportedFields reg fs → n.IsValid →
    ∀ a ∈ (fieldArrivals reg fs i p n).1, Supported reg a.1 ∧ a.2.IsValid
  | .nil, _, _, _, _, _ => fun _ ha => absurd ha List.not_mem_nil
  | .cons _ ty _, 0, p, n, hfs, hv => arrivals_supported ty true p n hfs.1 hv
  | .cons _ _ rest, i + 1, p, n, hfs, hv => fieldArrivals_supported rest i p n hfs.2 hv
end

end

/-- A verdict on a valid item at a destination of a supported type: only a byte string can panic. -/
def SafeVerdict (panics : Prop) : Verdict → Prop
  | .ok () => ¬ panics
  | .err c => ¬ panics ∧ (c = .unsupportedType ∨ c = .intOverflow)
  | .panic => panics

theorem SafeVerdict.panic_iff {panics : Prop} {r : Verdict} (h : SafeVerdict panics r) :
    r = .panic ↔ panics := by
  cases r with
  | ok u => exact iff_of_false (by simp) h
  | err c => exact iff_of_false (by simp) h.1
  | panic => exact iff_of_true rfl h

theorem safe_inRange {α : Type} {overflow : α → Bool} {o : Option α} {panics : Prop}
    (h : o.isSome = true) (hpanics : ¬ panics) : SafeVerdict panics (inRange overflow o) := by
  cases o with
  | none => cases h
  | some i =>
    cases hover : overflow i with
    | true =>
      simp only [inRange, hover]
      exact ⟨hpanics, Or.inr rfl⟩
    | false =>
      simp only [inRange, hover]
      exact hpanics

theorem safe_reads {t : TTLV} {typ : Typ} {panics : Prop} (h : readable t typ = true)
    (hpanics : ¬ panics) : SafeVerdict panics (reads t typ) := by
  rw [reads, if_pos h]
  exact hpanics

theorem safe_unsupported {panics : Prop} (hpanics : ¬ panics) :
    SafeVerdict panics (.err .unsupportedType) :=
  ⟨hpanics, Or.inl rfl⟩

theorem safe_numberVerdict {i : Option Int} {u : Option Nat} {s : Scalar} {panics : Prop}
    (hi : i.isSome = true) (hu : u.isSome = true) (hpanics : ¬ panics) :
    SafeVerdict panics (numberVerdict i u s) := by
  cases s with
  | int n k =>
    cases k with
    | int64 => exact safe_unsupported hpanics
    | _ => exact safe_inRange hi hpanics
  | uint n k =>
    cases k with
    | uint64 => exact safe_unsupported hpanics
    | _ => exact safe_inRange hu hpanics
  | tag | enum _ _ => exact safe_inRange hu hpanics
  | ttlv => exact hpanics
  | _ => exact safe_unsupported hpanics

theorem safe_scalarVerdict {t : TTLV} {typ : Typ} {s : Scalar} (hs : Scalar.Supported s)
    (hread : readable t typ = true) :
    SafeVerdict (typ = .ByteString ∧ Elemless (.scalar s)) (scalarVerdict t s typ) := by
  cases typ with
  | ByteString =>
    cases s with
    | bytes n => exact fun h => h.2
    | other _ _ | ttlv | dateTimeExtended => exact absurd hs id
    | _ => exact ⟨rfl, trivial⟩
  | Integer =>
    have hsome : (uint32BE t.raw).isSome = true := (isSome_uint32BE _).trans hread
    exact safe_numberVerdict (Option.isSome_map.trans hsome) (Option.isSome_map.trans hsome)
      (fun h => by cases h.1)
  | Enumeration =>
    have hsome : (uint32BE t.raw).isSome = true := (isSome_uint32BE _).trans hread
    exact safe_numberVerdict (Option.isSome_map.trans hsome) (Option.isSome_map.trans hsome)
      (fun h => by cases h.1)
  | _ =>
    have hpanics : ∀ x : Typ, x ≠ .ByteString → ¬ (x = .ByteString ∧ Elemless (.scalar s)) :=
      fun x hx h => hx h.1
    cases s with
    | int n k => cases k <;>
        first
        | exact safe_reads hread (hpanics _ (by decide))
        | exact safe_unsupported (hpanics _ (by decide))
    | uint n k => cases k <;>
        first
        | exact safe_reads hread (hpanics _ (by decide))
        | exact safe_unsupported (hpanics _ (by decide))
    | other _ _ | ttlv | dateTimeExtended => exact absurd hs id
    | _ =>
      first
      | exact safe_reads hread (hpanics _ (by decide))
      | exact safe_unsupported (hpanics _ (by decide))

theorem safe_refusal {t : TTLV} {typ : Typ} {ty : GoType} (h : t.typ = some typ)
    (hty : ∀ l e, ty ≠ .array l e) (helem : Elemless ty ∨ ∃ e, ty = .ptr e) :
    SafeVerdict (typ = .ByteString ∧ Elemless ty) (refusal t ty) := by
  unfold refusal
  rw [h]
  cases typ with
  | ByteString =>
    cases ty with
    | ptr e =>
      show SafeVerdict _ (if e = byteType then .panic else .err .unsupportedType)
      by_cases he : e = byteType
      · rw [if_pos he]
        exact ⟨rfl, he⟩
      · rw [if_neg he]
        exact safe_unsupported (fun h => he h.2)
    | array l e => exact absurd rfl (hty l e)
    | _ =>
      cases helem with
      | inl helem => exact ⟨rfl, helem⟩
      | inr helem =>
        obtain ⟨e, he⟩ := helem
        cases he
  | _ => exact safe_unsupported (fun h => by cases h.1)

theorem safe_verdict (reg : Registry) {ty : GoType} {t : TTLV} (hty : Supported reg ty)
    (hv : t.IsValid) :
    SafeVerdict (t.typ = some .ByteString ∧ Elemless ty) (verdict reg (ty, t)) := by
  obtain ⟨typ, htyp⟩ := Option.ne_none_iff_exists'.mp (typ_ne_none_of_isValid hv)
  have hread := readable_of_isValid hv htyp
  rw [htyp, Option.some.injEq]
  cases ty with
  | scalar s =>
    rw [verdict.eq_2 reg s t (fun h => by subst h; exact hty), htyp]
    exact safe_scalarVerdict hty hread
  | iface =>
    rw [verdict, htyp]
    exact safe_reads hread (fun h => h.2)
  | ptr e =>
    have hu : ¬ ptrIsUnmarshaler e := by
      cases e with
      | scalar s =>
        cases s with
        | ttlv | dateTimeExtended => exact absurd hty id
        | _ => simp [ptrIsUnmarshaler]
      | value => exact absurd hty id
      | _ => simp [ptrIsUnmarshaler]
    rw [verdict, if_neg hu]
    exact safe_refusal htyp (fun l e h => by cases h) (Or.inr ⟨e, rfl⟩)
  | slice n e => exact safe_refusal htyp (fun l e h => by cases h) (Or.inl trivial)
  | struct n fs =>
    obtain ⟨⟨ti, hti⟩, -⟩ := hty
    rw [verdict, htyp]
    by_cases hs : typ = .Structure
    · subst hs
      simp only [hti]
      exact fun h => by cases h.1
    · have hrefusal : SafeVerdict (typ = .ByteString ∧ Elemless (.struct n fs)) (refusal t (.struct n fs)) :=
        safe_refusal htyp (fun l e h => by cases h) (Or.inl trivial)
      split
      · rename_i hst
        exact absurd (Option.some.inj hst) hs
      · exact hrefusal
  | array _ _ | value | marshaler _ _ => exact absurd hty id

theorem isValid_block {b : Bytes} (h : TTLV.IsValid b) : TTLV.IsValid (TTLV.block b) := by
  obtain ⟨blk, hsize, rest, rfl⟩ := isValid_iff.mp h
  rw [block_bytes_append blk rest hsize]
  exact isValid_iff.mpr ⟨blk, hsize, [], (List.append_nil _).symm⟩

/-- Decoding a valid block into a destination of a supported type stores it or returns one of the two
    documented errors, unless the first arrival that is not stored is a ByteString where storing a byte
    string is not defined. -/
theorem unmarshal_safe_iff (reg : Registry) (ty : GoType) (hty : Supported reg ty) (b : Bytes)
    (hv : TTLV.IsValid b) :
    ((unmarshalBytes reg ty b).2 = .ok () ∨
      ∃ u, (unmarshalBytes reg ty b).2 = .err (.unmarshaler u) ∧
        (u.cause = .unsupportedType ∨ u.cause = .intOverflow)) ↔
      ¬ FirstUnstored reg (fun d t => t.typ = some .ByteString ∧ Elemless d) (topArrivals reg ty b) := by
  have hsafe : ∀ a ∈ topArrivals reg ty b,
      SafeVerdict (a.2.typ = some .ByteString ∧ Elemless a.1) (verdict reg a) := by
    intro a ha
    obtain ⟨hd, ht⟩ := arrivals_supported reg ty false _ _ hty (isValid_block hv) a ha
    exact safe_verdict reg hd ht
  have hagrees := unmarshalBytes_agrees reg ty (not_badFrame_of_isValid hv)
  have hpanic : FirstUnstored reg (fun d t => t.typ = some .ByteString ∧ Elemless d)
      (topArrivals reg ty b) ↔ firstFailure (verdict reg) (topArrivals reg ty b) = .panic := by
    rw [firstFailure_iff_firstUnstored reg (by simp)]
    constructor
    · rintro ⟨before, d, t, after, heq, hbefore, hd⟩
      exact ⟨before, d, t, after, heq, hbefore, (hsafe (d, t) (by rw [heq]; simp)).panic_iff.mpr hd⟩
    · rintro ⟨before, d, t, after, heq, hbefore, hd⟩
      exact ⟨before, d, t, after, heq, hbefore, (hsafe (d, t) (by rw [heq]; simp)).panic_iff.mp hd⟩
  rw [hpanic]
  cases hff : firstFailure (verdict reg) (topArrivals reg ty b) with
  | ok u => exact iff_of_true (Or.inl ((agrees_ok_iff hagrees).mpr hff)) (by simp)
  | err c =>
    refine iff_of_true (Or.inr ?_) (by simp)
    -- the refusal that decides the outcome has one of the two causes
    obtain ⟨before, d, t, after, heq, -, hd⟩ := (firstFailure_iff_firstUnstored reg (by simp)).mp hff
    have hcause := hsafe (d, t) (by rw [heq]; simp)
    rw [hd] at hcause
    obtain ⟨e, he⟩ := (agrees_err_iff hagrees).mpr ⟨c, hff⟩
    rw [he, hff] at hagrees
    obtain ⟨u, rfl, rfl⟩ := hagrees
    exact ⟨u, he, hcause.2⟩
  | panic =>
    have hp := (agrees_panic_iff hagrees).mpr hff
    rw [hp]
    exact iff_of_false (by simp) (by simp)

/-- `struct { F bool }` under the tag 0x42000b. -/
def oneBool : GoType :=
  .struct (lit "T") (.cons ⟨lit "F", lit "0x42000b", false, false⟩ (.scalar (.bool (lit "bool"))) .nil)

/-- A structure that holds a ByteString under that tag. -/
def oneByteString : Bytes :=
  [0x42, 0, 0x08, 1, 0, 0, 0, 16, 0x42, 0, 0x0b, 8, 0, 0, 0, 1, 7, 0, 0, 0, 0, 0, 0, 0]

theorem supported_oneBool : Supported Registry.empty oneBool := by
  refine ⟨?_, trivial, trivial⟩
  cases h : getTypeInfo Registry.empty oneBool with
  | error e =>
    have hok : (getTypeInfo Registry.empty oneBool).toOption.isSome = true := by decide +kernel
    rw [h] at hok
    cases hok
  | ok ti => exact ⟨ti, h⟩

theorem unmarshal_safe_oneBool :
    ((unmarshalBytes Registry.empty oneBool oneByteString).2 = .ok () ∨
      ∃ u, (unmarshalBytes Registry.empty oneBool oneByteString).2 = .err (.unmarshaler u) ∧
        (u.cause = .unsupportedType ∨ u.cause = .intOverflow)) ↔
      ¬ FirstUnstored Registry.empty (fun d t => t.typ = some .ByteString ∧ Elemless d)
        (topArrivals Registry.empty oneBool oneByteString) :=
  unmarshal_safe_iff Registry.empty oneBool supported_oneBool oneByteString (by decide +kernel)

theorem oneByteString_panics :
    TTLV.valid oneByteString = .ok () ∧
    (unmarshalBytes Registry.empty oneBool oneByteString).2 = .panic := by
  decide +kernel

end KmipGo.Decoder
