import KmipGo.Decoder.Verdict

/-! # Where the decoder takes each item

Decoding follows slices, pointers and struct fields until an item arrives at a
destination that either stores it or does not.  Which items arrive where is a
matter of types and tags alone (`arrivals`), apart from one thing: an interface
that a BigInteger has been stored in holds a pointer, which the next item
follows.  `Place` is what has to be known of a destination for this, together
with the slices that have been stored in it as they are.

`unmarshal_follows`: a decode does what the first arrival that is not stored
decides, and leaves the destination in the place that `arrivals` computes.
-/

namespace KmipGo.Decoder

open KmipGo.Lib KmipGo.Ttlv KmipGo.Reg KmipGo.Go

/-! ## Places -/

/-- What decoding depends on in a destination, and the slices it holds as they came. -/
inductive Place where
  | plain
  /-- an interface that holds a `*big.Int` -/
  | bigInt
  /-- a stored slice -/
  | raw (t : TTLV)
  /-- a pointer that is not nil -/
  | ptr (p : Place)
  /-- the fields of a struct, or the elements of a slice -/
  | tuple (ps : List Place)

def Place.parts : Place → List Place
  | .tuple ps => ps
  | _ => []

mutual
def Place.zero : GoType → Place
  | .scalar .ttlv => .raw []
  | .slice _ _ => .tuple []
  | .struct _ fs => .tuple (Place.zeros fs)
  | _ => .plain
def Place.zeros : Fields → List Place
  | .nil => []
  | .cons _ ty rest => Place.zero ty :: Place.zeros rest
end

/-- The place of a value that an interface holds. -/
def heldPlace : {ty : GoType} → GoVal ty → Place
  | .scalar .ttlv, .scalar t => .raw t
  | _, v =>
    match bigIntAt v with
    | some _ => .bigInt
    | none => .plain

mutual
def placeOf : {ty : GoType} → GoVal ty → Place
  | .scalar .ttlv, .scalar t => .raw t
  | _, .iface v => heldPlace v
  | _, .ptr v => .ptr (placeOf v)
  | _, .slice vs => .tuple (placesOf vs)
  | _, .struct vs => .tuple (fieldPlaces vs)
  | _, _ => .plain
def placesOf : {e : GoType} → GoVals e → List Place
  | _, .nil => []
  | _, .cons v vs => placeOf v :: placesOf vs
def fieldPlaces : {fs : Fields} → FieldVals fs → List Place
  | _, .nil => []
  | _, .cons v vs => placeOf v :: fieldPlaces vs
end

/-! ## Arrivals -/

/-- The arrivals of one child of a structure; `field` gives those at a field. -/
def childArrivals (slots : List Slot)
    (field : Nat → Place → TTLV → List (GoType × TTLV) × Place) (ps : List Place) (n : TTLV) :
    List (GoType × TTLV) × List Place :=
  match findField n.tag slots 0 none with
  | some (i, _) =>
    match field i ((ps[i]?).getD .plain) n with
    | (as, p) => (as, ps.set i p)
  | none => ([], ps)

section

variable (reg : Registry)

mutual
/-- The destinations that the items of a slice arrive at, in order, and the place afterwards. -/
def arrivals (deref : Bool) : GoType → Place → TTLV → List (GoType × TTLV) × Place
  | .scalar s, p, t =>
    if t.length = 0 then ([], p)
    else ([(.scalar s, t)], if s = .ttlv then .raw t else p)
  | .iface, p, t =>
    if t.length = 0 then ([], p)
    else match deref, p with
      | true, .bigInt => ([(.scalar .bigInt, t)], .bigInt)
      | _, _ =>
        ([(.iface, t)], match t.typ with
          | some .Structure => .raw t
          | some .BigInteger => .bigInt
          | _ => .plain)
  | .ptr e, p, t =>
    if t.length = 0 then ([], p)
    else match deref, p with
      | true, .ptr q =>
        match arrivals false e q t with
        | (as, q') => (as, .ptr q')
      | true, _ =>
        match arrivals false e (Place.zero e) t with
        | (as, q') => (as, .ptr q')
      | false, .ptr q =>
        if ptrIsUnmarshaler e then
          match arrivals false e q t with
          | (as, q') => (as, .ptr q')
        else ([(.ptr e, t)], p)
      | false, _ => ([(.ptr e, t)], p)
  | .slice _ e, p, t =>
    if t.length = 0 then ([], p)
    else match arrivals true e (Place.zero e) t with
      | (as, q) => (as, .tuple (p.parts ++ [q]))
  | .struct n fs, p, t =>
    if t.length = 0 then ([], p)
    else match t.typ with
      | some .Structure =>
        match getTypeInfo reg (.struct n fs) with
        | .error _ => ([(.struct n fs, t)], p)
        | .ok ti =>
          match collect (childArrivals ti.slots fun i p c => fieldArrivals fs i p c) p.parts
            t.children with
          | (as, ps) => (as, .tuple ps)
      | _ => ([(.struct n fs, t)], p)
  | .array l e, p, t => if t.length = 0 then ([], p) else ([(.array l e, t)], p)
  | .value, p, t => if t.length = 0 then ([], p) else ([(.value, t)], p)
  | .marshaler n r, p, t => if t.length = 0 then ([], p) else ([(.marshaler n r, t)], p)
def fieldArrivals : Fields → Nat → Place → TTLV → List (GoType × TTLV) × Place
  | .nil, _, p, _ => ([], p)
  | .cons _ ty _, 0, p, n => arrivals true ty p n
  | .cons _ _ rest, i + 1, p, n => fieldArrivals rest i p n
end

end

/-! ## Places of values -/

theorem placeOf_scalar {s : Scalar} (hs : s ≠ .ttlv) (v : s.Val) : placeOf (.scalar v) = .plain := by
  cases s with
  | ttlv => exact absurd rfl hs
  | _ => rfl

mutual
theorem placeOf_zero : ∀ ty : GoType, placeOf ty.zero = Place.zero ty
  | .scalar s => by
    cases s with
    | ttlv => rfl
    | _ => rfl
  | .iface => rfl
  | .ptr _ => rfl
  | .slice _ _ => rfl
  | .array _ _ => rfl
  | .struct _ fs => congrArg Place.tuple (fieldPlaces_zero fs)
  | .value => rfl
  | .marshaler _ _ => rfl
theorem fieldPlaces_zero : ∀ fs : Fields, fieldPlaces fs.zero = Place.zeros fs
  | .nil => rfl
  | .cons _ ty rest => by
    rw [Fields.zero, fieldPlaces, Place.zeros, placeOf_zero ty, fieldPlaces_zero rest]
end

theorem placesOf_append {e : GoType} : ∀ vs ws : GoVals e,
    placesOf (vs.append ws) = placesOf vs ++ placesOf ws
  | .nil, _ => rfl
  | .cons v vs, ws => by
    rw [GoVals.append, placesOf, placesOf, placesOf_append vs ws]
    rfl

theorem fieldPlaces_setTTLVTag (tag : Tag) : ∀ {fs : Fields} (slots : List Slot) (vs : FieldVals fs),
    fieldPlaces (setTTLVTag tag slots vs) = fieldPlaces vs
  | .nil, slots, .nil => by
    cases slots with
    | nil => rfl
    | cons slot slots => cases slot <;> rfl
  | .cons hdr ty rest, [], .cons v vs => by
    cases ty with
    | scalar s => cases s <;> rfl
    | _ => rfl
  | .cons hdr ty rest, slot :: slots, .cons v vs => by
    cases slot with
    | tagField fi =>
      cases ty with
      | scalar s =>
        cases s with
        | tag => cases v with | scalar cur => rfl
        | _ => rfl
      | _ => rfl
    | skipped | valueField fi =>
      have ih := fieldPlaces_setTTLVTag tag slots vs
      cases ty with
      | scalar s => cases s <;> exact congrArg (placeOf v :: ·) ih
      | _ => exact congrArg (placeOf v :: ·) ih

/-- An interface has the place `bigInt` exactly when it holds a `*big.Int`. -/
theorem placeOf_iface {v : GoVal .iface} :
    (∃ i, heldBigInt v = some i) ↔ placeOf v = .bigInt := by
  cases v with
  | ifaceNil => exact ⟨fun ⟨_, h⟩ => (by cases h), fun h => (by cases h)⟩
  | iface w =>
    cases w with
    | scalar x =>
      rename_i s
      cases s <;> exact ⟨fun ⟨_, h⟩ => (by cases h), fun h => (by cases h)⟩
    | ptr w =>
      cases hw : bigIntOf w with
      | none => simp [heldBigInt, placeOf, heldPlace, bigIntAt, hw]
      | some i => simp [heldBigInt, placeOf, heldPlace, bigIntAt, hw]
    | _ => exact ⟨fun ⟨_, h⟩ => (by cases h), fun h => (by cases h)⟩

/-- The place of an interface that an item other than a Structure has been stored in. -/
theorem placeOf_value {t : TTLV} {v : GoVal .iface} (hs : t.typ ≠ some .Structure)
    (h : value t = some v) :
    placeOf v = match t.typ with
      | some .Structure => .raw t
      | some .BigInteger => .bigInt
      | _ => .plain := by
  rw [value] at h
  cases htyp : t.typ with
  | none =>
    rw [htyp] at h
    cases h
  | some typ =>
    rw [htyp] at h hs
    cases typ with
    | Structure => exact absurd rfl hs
    | BigInteger | ByteString | TextString =>
      cases h
      rfl
    | _ =>
      obtain ⟨x, -, rfl⟩ := Option.map_eq_some_iff.mp h
      rfl

/-! ## Decoding follows the arrivals -/

/-- The loop over the children of a structure, as a loop over the slices that the walk visits. -/
theorem eachChild_eq_loop {σ : Type} (step : σ → TTLV → σ × Outcome) (s : σ) (n : TTLV) :
    eachChild step s n = loop step s n.walk := by
  induction hl : n.length using Nat.strong_induction_on generalizing s n with
  | _ k ih =>
    subst hl
    rw [eachChild]
    cases hs : step s n with
    | mk s' r =>
      cases r with
      | err e => rw [TTLV.walk, loop, hs]
      | panic => rw [TTLV.walk, loop, hs]
      | ok u =>
        simp only
        split
        · rename_i hn
          rw [walk_of_none hn, loop, hs]
          rfl
        · rename_i m hm
          have hlt := next_length_lt hm
          rw [walk_of_some hm, loop, hs]
          exact ih m.length (by omega) s' m rfl

section

variable (reg : Registry)

abbrev FollowsVal {ty : GoType} : GoVal ty × Outcome → List (GoType × TTLV) × Place → Prop :=
  Follows (fun v p => placeOf v = p) HasCause (verdict reg)

abbrev FollowsFields {fs : Fields} :
    FieldVals fs × Outcome → List (GoType × TTLV) × List Place → Prop :=
  Follows (fun vs ps => fieldPlaces vs = ps) HasCause (verdict reg)

theorem followsVal_nothing {ty : GoType} (v : GoVal ty) : FollowsVal reg (v, .ok ()) ([], placeOf v) :=
  ⟨trivial, fun _ => rfl⟩

theorem scalar_follows {dec : Dec} (hdec : dec.disallowExtraValues = false) (deref : Bool)
    (s : Scalar) (cur : s.Val) (t : TTLV) :
    FollowsVal reg (unmarshal reg dec deref (.scalar s) (.scalar cur) t)
      (arrivals reg deref (.scalar s) (placeOf (.scalar cur)) t) := by
  rw [unmarshal, arrivals]
  by_cases h0 : t.length = 0
  · rw [if_pos h0, if_pos h0]
    exact followsVal_nothing reg _
  · rw [if_neg h0, if_neg h0]
    refine Follows.one (agrees_unmarshalScalar hdec t reg s cur) (fun _ => ?_)
    by_cases hs : s = .ttlv
    · subst hs
      rfl
    · rw [if_neg hs, placeOf_scalar hs, placeOf_scalar hs]

/-- An interface that is overwritten, whatever it held. -/
theorem overwrite_follows (cur : GoVal .iface) (t : TTLV) :
    FollowsVal reg
      (match t.typ with
      | some .Structure => (.iface (.scalar (s := .ttlv) t), .ok ())
      | _ => store cur (value t))
      ([(.iface, t)], match t.typ with
        | some .Structure => .raw t
        | some .BigInteger => .bigInt
        | _ => .plain) := by
  by_cases hs : t.typ = some .Structure
  · rw [hs]
    refine Follows.one ?_ (fun _ => rfl)
    rw [verdict, hs]
    trivial
  · have hplace := fun v => placeOf_value (v := v) hs
    cases htyp : t.typ with
    | none =>
      have hnone : value t = none := by rw [value, htyp]
      rw [hnone]
      refine Follows.one ?_ (fun h => by cases h)
      rw [verdict, htyp]
      trivial
    | some typ =>
      rw [htyp, Option.some.injEq] at hs
      rw [htyp] at hplace
      have hread := isSome_value htyp hs
      have hrun : (match some typ with
          | some .Structure => ((.iface (.scalar (s := .ttlv) t), .ok ()) : GoVal .iface × Outcome)
          | _ => store cur (value t)) = store cur (value t) := by
        cases typ with
        | Structure => exact absurd rfl hs
        | _ => rfl
      rw [hrun]
      refine Follows.one ?_ (fun hok => ?_)
      · rw [verdict, htyp]
        exact agrees_store cur hread
      · cases hv : value t with
        | none =>
          rw [hv] at hok
          cases hok
        | some v => exact hplace v hv

theorem iface_follows {dec : Dec} (hdec : dec.disallowExtraValues = false) (deref : Bool)
    (cur : GoVal .iface) (t : TTLV) :
    FollowsVal reg (unmarshal reg dec deref .iface cur t)
      (arrivals reg deref .iface (placeOf cur) t) := by
  by_cases hheld : deref = true ∧ ∃ i, heldBigInt cur = some i
  · obtain ⟨rfl, i, hi⟩ := hheld
    have hplace := placeOf_iface.mp ⟨i, hi⟩
    rw [unmarshal.eq_2 reg dec t cur i hi, hplace, arrivals.eq_2]
    by_cases h0 : t.length = 0
    · rw [if_pos h0, if_pos h0, ← hplace]
      exact followsVal_nothing reg cur
    · rw [if_neg h0, if_neg h0]
      exact Follows.one (agrees_unmarshalScalar hdec t reg .bigInt i) (fun _ => rfl)
  · have hplain : deref = true → placeOf cur = .bigInt → False :=
      fun hd hp => hheld ⟨hd, placeOf_iface.mpr hp⟩
    rw [unmarshal.eq_3 reg dec t cur deref (fun i hd hi => hheld ⟨hd, i, hi⟩),
      arrivals.eq_3 reg deref _ t hplain]
    by_cases h0 : t.length = 0
    · rw [if_pos h0, if_pos h0]
      exact followsVal_nothing reg cur
    · rw [if_neg h0, if_neg h0]
      exact overwrite_follows reg cur t

/-- A destination of a kind that takes no item. -/
theorem refuse_follows {ty : GoType} (dec : Dec) (v : GoVal ty) (t : TTLV) (p : Place)
    (hty : ∀ s, ty ≠ .scalar s) (hverdict : verdict reg (ty, t) = refusal t ty) (hp : placeOf v = p) :
    FollowsVal reg (v, refuse dec t ty) ([(ty, t)], p) := by
  refine Follows.one ?_ (fun _ => hp)
  rw [hverdict]
  exact agrees_refuse dec t ty hty

theorem placeOf_ttlvValue (v : GoVal .value) : placeOf v = .plain := by
  cases v
  rfl

theorem value_follows (cur : GoVal .value) (t : TTLV) :
    FollowsVal reg (store cur (valueOf t)) ([(.value, t)], placeOf cur) := by
  refine Follows.one ?_ (fun _ => by rw [placeOf_ttlvValue, placeOf_ttlvValue])
  rw [verdict]
  cases htyp : t.typ with
  | none =>
    have hnone : valueOf t = none := by
      rw [valueOf]
      split
      · rename_i hst
        rw [htyp] at hst
        cases hst
      · rw [value, htyp]
        rfl
    rw [hnone]
    trivial
  | some typ => exact agrees_store cur (isSome_valueOf htyp (isSome_valuesOf t.raw))

theorem followsVal_ptr {e : GoType} {run : GoVal e × Outcome} {plan : List (GoType × TTLV) × Place}
    (h : FollowsVal reg run plan) : FollowsVal reg (.ptr run.1, run.2) (plan.1, .ptr plan.2) :=
  h.map fun _ _ hp => congrArg Place.ptr hp

/-- A structure into a struct: a loop over the slices of its children. -/
theorem unmarshal_struct (dec : Dec) (deref : Bool) {n : GoString} {fs : Fields} (vs : FieldVals fs)
    {t : TTLV} {ti : TypeInfo} (h0 : ¬ t.length = 0) (hs : t.typ = some .Structure)
    (hti : getTypeInfo reg (.struct n fs) = .ok ti) :
    unmarshal reg dec deref (.struct n fs) (.struct vs) t =
      (.struct (loop (unmarshalChild dec t (.struct n fs) ti.slots fun d i vs c =>
          unmarshalField reg d fs i vs c) (setTTLVTag t.tag ti.slots vs) t.children).1,
        (loop (unmarshalChild dec t (.struct n fs) ti.slots fun d i vs c =>
          unmarshalField reg d fs i vs c) (setTTLVTag t.tag ti.slots vs) t.children).2) := by
  rw [unmarshal, if_neg h0, hs, TTLV.children]
  simp only [hti, TTLV.valueStructure]
  cases t.valueRaw with
  | none => rfl
  | some inner =>
    simp only [eachChild_eq_loop]

theorem followsVal_struct {n : GoString} {fs : Fields} {run : FieldVals fs × Outcome}
    {plan : List (GoType × TTLV) × List Place} (h : FollowsFields reg run plan) :
    FollowsVal reg (.struct (n := n) run.1, run.2) (plan.1, .tuple plan.2) :=
  h.map fun _ _ hp => congrArg Place.tuple hp

/-- The loop over the children of a structure, when decoding into each field follows. -/
theorem children_follow {dec : Dec} (hdec : dec.disallowExtraValues = false) (parent : TTLV)
    (ty : GoType) (slots : List Slot) (fs : Fields)
    (hfield : ∀ (d : Dec) (i : Nat) (vs : FieldVals fs) (n : TTLV), d.disallowExtraValues = false →
      FollowsFields reg (unmarshalField reg d fs i vs n)
        ((fieldArrivals reg fs i ((fieldPlaces vs)[i]?.getD .plain) n).1,
          (fieldPlaces vs).set i (fieldArrivals reg fs i ((fieldPlaces vs)[i]?.getD .plain) n).2))
    (vs : FieldVals fs) (ns : List TTLV) :
    FollowsFields reg
      (loop (unmarshalChild dec parent ty slots fun d i vs c => unmarshalField reg d fs i vs c) vs ns)
      (collect (childArrivals slots fun i p c => fieldArrivals reg fs i p c) (fieldPlaces vs) ns) := by
  refine Follows.loop ?_ ns vs (fieldPlaces vs) rfl
  rintro vs ps n rfl
  rw [unmarshalChild, childArrivals]
  cases findField n.tag slots 0 none with
  | none =>
    simp only [hdec]
    exact ⟨trivial, fun _ => rfl⟩
  | some found => exact hfield _ found.1 vs n hdec

mutual
/-- A decode does what the first arrival that is not stored decides, and leaves its destination in the
    place that the arrivals say. -/
theorem unmarshal_follows : ∀ (ty : GoType) (dec : Dec) (deref : Bool) (v : GoVal ty) (t : TTLV),
    dec.disallowExtraValues = false →
    FollowsVal reg (unmarshal reg dec deref ty v t) (arrivals reg deref ty (placeOf v) t)
  | .scalar s, dec, deref, .scalar cur, t, hdec => scalar_follows reg hdec deref s cur t
  | .iface, dec, deref, cur, t, hdec => iface_follows reg hdec deref cur t
  | .ptr e, dec, true, .ptr v, t, hdec => by
    rw [unmarshal, placeOf, arrivals]
    by_cases h0 : t.length = 0
    · rw [if_pos h0, if_pos h0]
      exact followsVal_nothing reg (.ptr v)
    · rw [if_neg h0, if_neg h0]
      exact followsVal_ptr reg (unmarshal_follows e dec false v t hdec)
  | .ptr e, dec, true, .ptrNil, t, hdec => by
    rw [unmarshal, arrivals.eq_5 reg _ t e (fun q hq => by cases hq)]
    by_cases h0 : t.length = 0
    · rw [if_pos h0, if_pos h0]
      exact followsVal_nothing reg .ptrNil
    · rw [if_neg h0, if_neg h0, ← placeOf_zero e]
      exact followsVal_ptr reg (unmarshal_follows e dec false e.zero t hdec)
  | .ptr e, dec, false, .ptr v, t, hdec => by
    rw [unmarshal, placeOf, arrivals]
    by_cases h0 : t.length = 0
    · rw [if_pos h0, if_pos h0]
      exact followsVal_nothing reg (.ptr v)
    · rw [if_neg h0, if_neg h0]
      by_cases hu : ptrIsUnmarshaler e
      · rw [if_pos hu, if_pos hu]
        exact followsVal_ptr reg (unmarshal_follows e dec false v t hdec)
      · rw [if_neg hu, if_neg hu]
        exact refuse_follows reg dec (.ptr v) t _ (fun s h => by cases h) (by rw [verdict, if_neg hu]) rfl
  | .ptr e, dec, false, .ptrNil, t, hdec => by
    rw [unmarshal, arrivals.eq_7 reg _ t e (fun q hq => by cases hq)]
    by_cases h0 : t.length = 0
    · rw [if_pos h0, if_pos h0]
      exact followsVal_nothing reg .ptrNil
    · rw [if_neg h0, if_neg h0]
      by_cases hu : ptrIsUnmarshaler e
      · rw [if_pos hu]
        refine Follows.one ?_ (fun h => by cases h)
        rw [verdict, if_pos hu]
        trivial
      · rw [if_neg hu]
        exact refuse_follows reg dec .ptrNil t _ (fun s h => by cases h) (by rw [verdict, if_neg hu]) rfl
  | .slice n e, dec, deref, .slice vs, t, hdec => by
    rw [unmarshal, placeOf, arrivals]
    by_cases h0 : t.length = 0
    · rw [if_pos h0, if_pos h0]
      exact followsVal_nothing reg (.slice vs)
    · rw [if_neg h0, if_neg h0, ← placeOf_zero e]
      have ih := unmarshal_follows e dec true e.zero t hdec
      -- the element is kept only if it was decoded
      cases hrun : unmarshal reg dec true e e.zero t with
      | mk v r =>
        rw [hrun] at ih
        cases r with
        | err er => exact ⟨ih.outcome, fun h => by cases h⟩
        | panic => exact ⟨ih.outcome, fun h => by cases h⟩
        | ok u =>
          refine ⟨ih.outcome, fun _ => ?_⟩
          show Place.tuple (placesOf (vs.append (.cons v .nil))) = _
          have hplace : placeOf v = _ := ih.state rfl
          rw [placesOf_append, placesOf, hplace]
          rfl
  | .array l e, dec, deref, cur, t, hdec => by
    rw [unmarshal, arrivals]
    by_cases h0 : t.length = 0
    · rw [if_pos h0, if_pos h0]
      exact followsVal_nothing reg cur
    · rw [if_neg h0, if_neg h0]
      exact refuse_follows reg dec cur t _ (fun s h => by cases h) rfl rfl
  | .struct n fs, dec, deref, .struct vs, t, hdec => by
    by_cases h0 : t.length = 0
    · rw [unmarshal, placeOf, arrivals, if_pos h0, if_pos h0]
      exact followsVal_nothing reg (.struct vs)
    · by_cases hs : t.typ = some .Structure
      · cases hti : getTypeInfo reg (.struct n fs) with
        | error e =>
          rw [unmarshal, placeOf, arrivals, if_neg h0, if_neg h0, hs]
          simp only [hti]
          refine Follows.one ?_ (fun h => by cases h)
          rw [verdict, hs]
          simp only [hti]
          exact agrees_newError dec t _ _
        | ok ti =>
          have hloop := children_follow reg hdec t (.struct n fs) ti.slots fs
            (fun d i vs n hd => unmarshalField_follows fs d i vs n hd)
            (setTTLVTag t.tag ti.slots vs) t.children
          rw [fieldPlaces_setTTLVTag] at hloop
          rw [unmarshal_struct reg dec deref vs h0 hs hti, placeOf, arrivals, if_neg h0, hs]
          simp only [hti]
          exact followsVal_struct reg hloop
      · have hverdict : verdict reg (.struct n fs, t) = refusal t (.struct n fs) := by
          rw [verdict]
          split
          · rename_i hst
            exact absurd hst hs
          · rfl
        have hrefuse := refuse_follows reg dec (.struct (n := n) vs) t _ (fun s h => by cases h)
          hverdict rfl
        rw [unmarshal, placeOf, arrivals, if_neg h0, if_neg h0]
        cases htyp : t.typ with
        | none => exact hrefuse
        | some ty =>
          cases ty with
          | Structure => exact absurd htyp hs
          | _ => exact hrefuse
  | .value, dec, deref, cur, t, hdec => by
    rw [unmarshal, arrivals]
    by_cases h0 : t.length = 0
    · rw [if_pos h0, if_pos h0]
      exact followsVal_nothing reg cur
    · rw [if_neg h0, if_neg h0]
      exact value_follows reg cur t
  | .marshaler n p, dec, deref, cur, t, hdec => by
    rw [unmarshal, arrivals]
    by_cases h0 : t.length = 0
    · rw [if_pos h0, if_pos h0]
      exact followsVal_nothing reg cur
    · rw [if_neg h0, if_neg h0]
      split
      · rename_i hst
        refine Follows.one ?_ (fun _ => rfl)
        rw [verdict, hst]
        exact agrees_skipStructure hdec t _
      · rename_i hs
        refine refuse_follows reg dec cur t _ (fun s h => by cases h) ?_ rfl
        rw [verdict]
        split
        · rename_i hst
          exact absurd hst hs
        · rfl
theorem unmarshalField_follows : ∀ (fs : Fields) (dec : Dec) (i : Nat) (vs : FieldVals fs) (n : TTLV),
    dec.disallowExtraValues = false →
    FollowsFields reg (unmarshalField reg dec fs i vs n)
      ((fieldArrivals reg fs i ((fieldPlaces vs)[i]?.getD .plain) n).1,
        (fieldPlaces vs).set i (fieldArrivals reg fs i ((fieldPlaces vs)[i]?.getD .plain) n).2)
  | .nil, _, _, .nil, _, _ => ⟨trivial, fun _ => rfl⟩
  | .cons _ ty _, dec, 0, .cons v vs, n, hdec =>
    (unmarshal_follows ty dec true v n hdec).map (f := fun w => FieldVals.cons w vs)
      (g := fun p => p :: fieldPlaces vs) (fun _ _ h => congrArg (· :: fieldPlaces vs) h)
  | .cons _ _ rest, dec, i + 1, .cons v vs, n, hdec =>
    (unmarshalField_follows rest dec i vs n hdec).map (f := fun ws => FieldVals.cons v ws)
      (g := fun ps => placeOf v :: ps) (fun _ _ h => congrArg (placeOf v :: ·) h)
end

end

end KmipGo.Decoder
