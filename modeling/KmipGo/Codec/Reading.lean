import KmipGo.Decoder.Captured
import KmipGo.Encoder.Parts
import KmipGo.Value.RoundTrip

/-! # Destinations and their blocks

What a sequence of blocks does to a destination, and what the encoder then writes
for it, is put together from the parts of the destination in the same way for
every property of the values: pointers, slices, the fields of a struct.

* `Reads` — what decoding some blocks into a fresh destination guarantees: when it
  succeeds, and what holds of the result.
* `Reads.ptr`, `ReadsElems.cons`, `ReadsElems.slice`, `ReadsFields.cons`,
  `ReadsFields.struct` — from the parts of a destination to the whole.
* `encode_slice`, `writes_fields_cons`, `writes_struct` — the same for the encoder.
-/

namespace KmipGo.Codec

open KmipGo.Lib KmipGo.Ttlv KmipGo.Reg KmipGo.Go KmipGo.Encoder KmipGo.Decoder KmipGo.Value

/-! ## Runs of the decoder -/

/-- A run succeeds if `must` holds, and whenever it succeeds its result is as wanted. -/
structure Runs (must : Prop) {α : Type} (good : α → Prop) (r : α × Outcome) : Prop where
  ok : must → r.2 = .ok ()
  good : r.2 = .ok () → good r.1

namespace Runs

variable {α β : Type} {must must' : Prop} {good : α → Prop} {good' : β → Prop}

theorem of_eq {r : α × Outcome} {w : α} (h : r = (w, .ok ())) (hgood : good w) : Runs must good r := by
  rw [h]
  exact ⟨fun _ => rfl, fun _ => hgood⟩

theorem of_ne {r : α × Outcome} (hmust : ¬ must) (h : r.2 ≠ .ok ()) : Runs must good r :=
  ⟨fun hm => absurd hm hmust, fun hok => absurd hok h⟩

theorem result {r : α × Outcome} (h : Runs must good r) (hmust : must) : ∃ w, r = (w, .ok ()) ∧ good w :=
  ⟨r.1, Prod.ext rfl (h.ok hmust), h.good (h.ok hmust)⟩

theorem mono {good' : α → Prop} {r : α × Outcome} (h : Runs must good r) (hmust : must' → must)
    (hgood : ∀ w, good w → good' w) : Runs must' good' r :=
  ⟨fun hm => h.ok (hmust hm), fun hok => hgood _ (h.good hok)⟩

/-- A run whose result is put into something else. -/
theorem map {r : α × Outcome} {r' : β × Outcome} (f : α → β) (h : Runs must good r)
    (hr : r' = (f r.1, r.2)) (hgood : ∀ w, good w → good' (f w)) : Runs must good' r' := by
  rw [hr]
  exact ⟨h.ok, fun hok => hgood _ (h.good hok)⟩

end Runs

section

variable (reg : Registry)

/-- A destination that takes the blocks one after the other. -/
abbrev decodeAll (dec : Dec) (d : Deref) (ty : GoType) (v : GoVal ty) (ns : List TTLV) :
    GoVal ty × Outcome :=
  loop (fun v n => unmarshal reg dec (decide (d = .any)) ty v n) v ns

/-- What decoding the blocks into a fresh destination guarantees, whatever follows them. -/
def Reads (d : Deref) (ty : GoType) (bs : List Block) (must : Prop) (good : GoVal ty → Prop) : Prop :=
  ∀ (dec : Dec) (tail : Bytes), dec.disallowExtraValues = false →
    Runs must good (decodeAll reg dec d ty ty.zero (slices bs tail))

theorem length_slice_ne (c : Block) (tail : Bytes) : ¬ (c.bytes ++ tail).length = 0 := by
  have hge := c.length_ge
  rw [List.length_append]
  omega

theorem blocksBytes_single (c : Block) : blocksBytes [c] = c.bytes :=
  List.append_nil c.bytes

theorem decodeAll_single (dec : Dec) (d : Deref) (ty : GoType) (v : GoVal ty) (c : Block) (tail : Bytes) :
    decodeAll reg dec d ty v (slices [c] tail) = unmarshal reg dec (decide (d = .any)) ty v (c.bytes ++ tail) := by
  rw [slices, slices, decodeAll, loop_single, blocksBytes, List.nil_append]

/-- A destination that refuses every block refuses the first one. -/
theorem decodeAll_ne {dec : Dec} {d : Deref} {ty : GoType} {v : GoVal ty}
    (h : ∀ n : TTLV, n.length ≠ 0 → (unmarshal reg dec (decide (d = .any)) ty v n).2 ≠ .ok ())
    (c : Block) (cs : List Block) (tail : Bytes) : (decodeAll reg dec d ty v (slices (c :: cs) tail)).2 ≠ .ok () := by
  intro hok
  obtain ⟨w, hstep, -⟩ := loop_cons_ok.mp (Prod.ext rfl hok)
  exact h _ (length_slice_ne c _) (by rw [hstep])

variable {reg}

theorem Reads.mono {d : Deref} {ty : GoType} {bs : List Block} {must must' : Prop} {good good' : GoVal ty → Prop}
    (h : Reads reg d ty bs must good) (hmust : must' → must) (hgood : ∀ w, good w → good' w) :
    Reads reg d ty bs must' good' :=
  fun dec tail hdec => (h dec tail hdec).mono hmust hgood

/-- Without a block the destination is as it was. -/
theorem Reads.nil {d : Deref} {ty : GoType} {must : Prop} {good : GoVal ty → Prop} (h : good ty.zero) :
    Reads reg d ty [] must good :=
  fun _ _ _ => .of_eq rfl h

/-! ## Interfaces -/

/-- A block in an empty interface: a structure stays a slice, a leaf becomes a Go value. -/
def heldBlock (tail : Bytes) : Block → GoVal .iface
  | .struct t cs => .iface (.scalar (s := .ttlv) ((Block.struct t cs).bytes ++ tail))
  | .leaf _ l => (leafItem l).iface

theorem decodeAll_iface (dec : Dec) (d : Deref) (c : Block) (tail : Bytes) :
    decodeAll reg dec d .iface .ifaceNil (slices [c] tail) = (heldBlock tail c, .ok ()) := by
  rw [decodeAll_single, unmarshal.eq_3 reg dec _ .ifaceNil (decide (d = .any)) (fun i _ hi => by cases hi),
    if_neg (length_slice_ne _ _)]
  cases c with
  | struct t cs =>
    rw [typ_struct_append]
    rfl
  | leaf t l =>
    rw [typ_leaf_append, value_leaf_append]
    split
    · next hst => exact absurd (Option.some.inj hst) (leaf_ty_ne l)
    · rfl

/-! ## Pointers -/

/-- The first block makes a pointer to a fresh destination. -/
theorem decodeAll_ptr (dec : Dec) (e : GoType) {bs : List Block} (hne : bs ≠ []) (tail : Bytes) :
    decodeAll reg dec .any (.ptr e) .ptrNil (slices bs tail) =
      (.ptr (decodeAll reg dec .done e e.zero (slices bs tail)).1,
        (decodeAll reg dec .done e e.zero (slices bs tail)).2) := by
  have hstep : ∀ (v : GoVal e) (n : TTLV), n ∈ slices bs tail →
      unmarshal reg dec (decide (Deref.any = .any)) (.ptr e) (.ptr v) n =
        (.ptr (unmarshal reg dec (decide (Deref.done = .any)) e v n).1,
          (unmarshal reg dec (decide (Deref.done = .any)) e v n).2) := by
    intro v n hn
    obtain ⟨c, -, r, rfl⟩ := mem_slices hn
    rw [decide_eq_true rfl, decide_eq_false (by decide), unmarshal, if_neg (length_slice_ne c r)]
  rw [← loop_map GoVal.ptr hstep e.zero]
  cases bs with
  | nil => exact absurd rfl hne
  | cons c cs =>
    have hfirst : ∀ n : TTLV, n.length ≠ 0 → unmarshal reg dec (decide (Deref.any = .any)) (.ptr e) .ptrNil n =
        unmarshal reg dec (decide (Deref.any = .any)) (.ptr e) (.ptr e.zero) n := by
      intro n hn
      rw [decide_eq_true rfl, unmarshal, unmarshal, if_neg hn, if_neg hn]
    rw [slices, decodeAll, loop, loop, hfirst _ (length_slice_ne c _)]

theorem Reads.ptr {e : GoType} {bs : List Block} {must : Prop} {good : GoVal e → Prop} (hne : bs ≠ [])
    (h : Reads reg .done e bs must good) : Reads reg .any (.ptr e) bs must fun w => ∃ v, w = .ptr v ∧ good v := by
  intro dec tail hdec
  exact (h dec tail hdec).map GoVal.ptr (decodeAll_ptr dec e hne tail) fun v hv => ⟨v, rfl, hv⟩

/-! ## Slices -/

variable (reg)

/-- What decoding the blocks as further elements of a slice guarantees. -/
def ReadsElems (e : GoType) (bs : List Block) (must : Prop) (good : GoVals e → Prop) : Prop :=
  ∀ (d : Deref) (n : GoString) (dec : Dec) (tail : Bytes) (us : GoVals e), dec.disallowExtraValues = false →
    Runs must (fun w => ∃ ws, w = .slice (us.append ws) ∧ good ws)
      (decodeAll reg dec d (.slice n e) (.slice us) (slices bs tail))

variable {reg}

theorem ReadsElems.nil {e : GoType} {must : Prop} {good : GoVals e → Prop} (h : good .nil) :
    ReadsElems reg e [] must good :=
  fun _ _ _ _ us _ => .of_eq rfl ⟨.nil, by rw [GoVals.append_nil], h⟩

theorem ReadsElems.mono {e : GoType} {bs : List Block} {must must' : Prop} {good good' : GoVals e → Prop}
    (h : ReadsElems reg e bs must good) (hmust : must' → must) (hgood : ∀ ws, good ws → good' ws) :
    ReadsElems reg e bs must' good' := by
  intro d n dec tail us hdec
  refine (h d n dec tail us hdec).mono hmust ?_
  rintro _ ⟨ws, rfl, hws⟩
  exact ⟨ws, rfl, hgood ws hws⟩

/-- One element more. -/
theorem ReadsElems.cons {e : GoType} {c : Block} {cs : List Block} {must more : Prop} {good : GoVal e → Prop}
    {goods : GoVals e → Prop} (hv : Reads reg .any e [c] must good) (hvs : ReadsElems reg e cs more goods) :
    ReadsElems reg e (c :: cs) (must ∧ more) fun ws => ∃ w vs, ws = .cons w vs ∧ good w ∧ goods vs := by
  intro d n dec tail us hdec
  have hone := hv dec (blocksBytes cs ++ tail) hdec
  rw [decodeAll_single, decide_eq_true rfl] at hone
  rw [slices, decodeAll, loop, unmarshal, if_neg (length_slice_ne _ _)]
  cases hrun : unmarshal reg dec true e e.zero (c.bytes ++ (blocksBytes cs ++ tail)) with
  | mk v r =>
    rw [hrun] at hone
    cases r with
    | ok u =>
      refine (hvs d n dec tail (us.append (.cons v .nil)) hdec).mono And.right ?_
      rintro w ⟨ws, rfl, hws⟩
      refine ⟨.cons v ws, ?_, v, ws, rfl, hone.good rfl, hws⟩
      rw [GoVals.append_assoc]
      rfl
    | err err => exact .of_ne (fun h => (by cases hone.ok h.1)) (by simp)
    | panic => exact .of_ne (fun h => (by cases hone.ok h.1)) (by simp)

theorem ReadsElems.slice {e : GoType} {bs : List Block} {must : Prop} {good : GoVals e → Prop}
    (h : ReadsElems reg e bs must good) (d : Deref) (n : GoString) :
    Reads reg d (.slice n e) bs must fun w => ∃ ws, w = .slice ws ∧ good ws :=
  fun dec tail hdec => h d n dec tail .nil hdec

/-! ## The fields of a struct -/

/-- The fields before any child is decoded: value fields are zero and nothing is stored. -/
def Blank : {fs : Fields} → List Slot → FieldVals fs → Prop
  | .cons _ ty _, .valueField _ :: slots, .cons v vs => v = ty.zero ∧ Blank slots vs
  | .cons _ _ _, _ :: slots, .cons v vs => (placeOf v).raws = [] ∧ Blank slots vs
  | _, _, vs => placesRaws (fieldPlaces vs) = []

theorem blank_zero : ∀ (fs : Fields) (slots : List Slot), Blank slots fs.zero
  | .nil, [] => rfl
  | .nil, _ :: _ => rfl
  | .cons hdr ty rest, [] => by
    show placesRaws (fieldPlaces (Fields.cons hdr ty rest).zero) = []
    rw [fieldPlaces_zero, placesRaws_zeros]
  | .cons hdr ty rest, slot :: slots => by
    have ih := blank_zero rest slots
    have hraws : (placeOf ty.zero).raws = [] := by rw [placeOf_zero, raws_zero]
    cases slot with
    | valueField fi => exact ⟨rfl, ih⟩
    | skipped => exact ⟨hraws, ih⟩
    | tagField fi => exact ⟨hraws, ih⟩

theorem setTTLVTag_cons_skip {slot : Slot} (hslot : ∀ fi, slot ≠ .tagField fi) (tag : Tag)
    {hdr : FieldHdr} {ty : GoType} {rest : Fields} (slots : List Slot) (v : GoVal ty)
    (vs : FieldVals rest) :
    setTTLVTag tag (slot :: slots) (.cons v vs : FieldVals (.cons hdr ty rest)) =
      .cons v (setTTLVTag tag slots vs) := by
  cases slot with
  | tagField fi => exact absurd rfl (hslot fi)
  | skipped | valueField fi =>
    cases ty with
    | scalar s => cases s <;> rfl
    | _ => rfl

theorem blank_setTTLVTag (tag : Tag) : ∀ {fs : Fields} (slots : List Slot) (vs : FieldVals fs),
    Blank slots vs → Blank slots (setTTLVTag tag slots vs)
  | .nil, [], .nil, h => h
  | .nil, .skipped :: _, .nil, h => h
  | .nil, .tagField _ :: _, .nil, h => h
  | .nil, .valueField _ :: _, .nil, h => h
  | .cons hdr ty rest, [], .cons v vs, h => by
    have hset : setTTLVTag tag [] (.cons v vs : FieldVals (.cons hdr ty rest)) = .cons v vs := by
      cases ty with
      | scalar s => cases s <;> rfl
      | _ => rfl
    rw [hset]
    exact h
  | .cons hdr ty rest, .tagField fi :: slots, .cons v vs, ⟨hv, hvs⟩ => by
    cases ty with
    | scalar s =>
      cases s with
      | tag =>
        cases v
        exact ⟨rfl, hvs⟩
      | _ => exact ⟨hv, hvs⟩
    | _ => exact ⟨hv, hvs⟩
  | .cons hdr ty rest, .skipped :: slots, .cons v vs, ⟨hv, hvs⟩ => by
    rw [setTTLVTag_cons_skip (fun fi h => by cases h)]
    exact ⟨hv, blank_setTTLVTag tag slots vs hvs⟩
  | .cons hdr ty rest, .valueField fi :: slots, .cons v vs, ⟨hv, hvs⟩ => by
    rw [setTTLVTag_cons_skip (fun fi h => by cases h)]
    exact ⟨hv, blank_setTTLVTag tag slots vs hvs⟩

variable (reg)

/-- One child of a structure, among the fields from position `k` on. -/
def fieldStep (all : List Slot) (ty : GoType) (k : Nat) (fs : Fields) (vs : FieldVals fs) (n : TTLV) :
    FieldVals fs × Outcome :=
  match findField n.tag all 0 none with
  | some (i, fi) => unmarshalField reg ⟨false, some ty, fi.name⟩ fs (i - k) vs n
  | none => (vs, .ok ())

/-- The children are matched by fields from position `k` on. -/
def MatchedFrom (all : List Slot) (k : Nat) (cs : List Block) : Prop :=
  ∀ c ∈ cs, ∃ i fi, findField c.tag all 0 none = some (i, fi) ∧ k ≤ i

/-- A child that is matched at the first of the fields changes only that one. -/
theorem loop_fieldStep_head {all : List Slot} (sty : GoType) {k : Nat} {fi : FieldInfo}
    (hdr : FieldHdr) {ty : GoType} {rest : Fields} {mine : List Block} (tail : Bytes)
    (hmatch : ∀ c ∈ mine, findField c.tag all 0 none = some (k, fi)) (v : GoVal ty)
    (vs : FieldVals rest) :
    loop (fieldStep reg all sty k (.cons hdr ty rest)) (.cons v vs) (slices mine tail) =
      (.cons (decodeAll reg ⟨false, some sty, fi.name⟩ .any ty v (slices mine tail)).1 vs,
        (decodeAll reg ⟨false, some sty, fi.name⟩ .any ty v (slices mine tail)).2) := by
  refine loop_map (fun v => FieldVals.cons v vs) (fun v n hn => ?_) v
  obtain ⟨c, hc, r, rfl⟩ := mem_slices hn
  rw [fieldStep, tag_bytes_append, hmatch c hc]
  simp only [Nat.sub_self]
  rfl

/-- A child that is matched further on leaves the first of the fields alone. -/
theorem loop_fieldStep_tail {all : List Slot} {sty : GoType} {k : Nat} {hdr : FieldHdr} {ty : GoType}
    {rest : Fields} {others : List Block} {tail : Bytes} (hmatch : MatchedFrom all (k + 1) others)
    (v : GoVal ty) (vs : FieldVals rest) :
    loop (fieldStep reg all sty k (.cons hdr ty rest)) (.cons v vs) (slices others tail) =
      (.cons v (loop (fieldStep reg all sty (k + 1) rest) vs (slices others tail)).1,
        (loop (fieldStep reg all sty (k + 1) rest) vs (slices others tail)).2) := by
  refine loop_map (fun vs => FieldVals.cons v vs) (fun vs n hn => ?_) vs
  obtain ⟨c, hc, r, rfl⟩ := mem_slices hn
  obtain ⟨i, fi, hi, hk⟩ := hmatch c hc
  rw [fieldStep, fieldStep, tag_bytes_append, hi]
  obtain ⟨j, rfl⟩ := Nat.exists_eq_add_of_le hk
  simp only [show k + 1 + j - k = j + 1 by omega, show k + 1 + j - (k + 1) = j by omega]
  rfl

/-- What decoding the children into the fields from position `k` on guarantees; `good` relates the fields
    before and after. -/
def ReadsFields (all : List Slot) (k : Nat) (slots : List Slot) (fs : Fields) (cs : List Block) (must : Prop)
    (good : FieldVals fs → FieldVals fs → Prop) : Prop :=
  MatchedFrom all k cs ∧ ∀ (sty : GoType) (tail : Bytes) (vs : FieldVals fs), Blank slots vs →
    Runs must (good vs) (loop (fieldStep reg all sty k fs) vs (slices cs tail))

variable {reg}

theorem ReadsFields.mono {all slots : List Slot} {k : Nat} {fs : Fields} {cs : List Block} {must must' : Prop}
    {good good' : FieldVals fs → FieldVals fs → Prop} (h : ReadsFields reg all k slots fs cs must good)
    (hmust : must' → must) (hgood : ∀ vs ws, Blank slots vs → good vs ws → good' vs ws) :
    ReadsFields reg all k slots fs cs must' good' :=
  ⟨h.1, fun sty tail vs hblank => (h.2 sty tail vs hblank).mono hmust fun ws => hgood vs ws hblank⟩

theorem ReadsFields.nil {all slots : List Slot} {k : Nat} {fs : Fields} {must : Prop}
    {good : FieldVals fs → FieldVals fs → Prop} (h : ∀ vs, Blank slots vs → good vs vs) :
    ReadsFields reg all k slots fs [] must good :=
  ⟨fun _ hc => absurd hc List.not_mem_nil, fun _ _ vs hblank => .of_eq rfl (h vs hblank)⟩

/-- The blocks of one field, and then those of the fields after it. -/
theorem ReadsFields.cons {all slots : List Slot} {k : Nat} {fi : FieldInfo} (hdr : FieldHdr) {ty : GoType}
    {rest : Fields} {mine others : List Block} {must more : Prop} {good : GoVal ty → Prop}
    {goods : FieldVals rest → FieldVals rest → Prop}
    (hmine : ∀ c ∈ mine, findField c.tag all 0 none = some (k, fi)) (hv : Reads reg .any ty mine must good)
    (hvs : ReadsFields reg all (k + 1) slots rest others more goods) :
    ReadsFields reg all k (.valueField fi :: slots) (.cons hdr ty rest) (mine ++ others) (must ∧ more)
      fun vs ws => ∃ w us, ws = .cons w us ∧ good w ∧ goods vs.tail us := by
  refine ⟨fun c hc => ?_, fun sty tail vs hblank => ?_⟩
  · cases List.mem_append.mp hc with
    | inl hc => exact ⟨k, fi, hmine c hc, Nat.le_refl k⟩
    | inr hc =>
      obtain ⟨i, gi, hi, hk⟩ := hvs.1 c hc
      exact ⟨i, gi, hi, by omega⟩
  · cases vs with
    | cons v vs =>
      obtain ⟨rfl, hblank⟩ := hblank
      have hfirst := hv ⟨false, some sty, fi.name⟩ (blocksBytes others ++ tail) rfl
      have hlater := hvs.2 sty tail vs hblank
      have hhead := loop_fieldStep_head reg sty hdr (blocksBytes others ++ tail) hmine ty.zero vs
      rw [slices_append]
      cases hrun : decodeAll reg ⟨false, some sty, fi.name⟩ .any ty ty.zero
          (slices mine (blocksBytes others ++ tail)) with
      | mk w r =>
        rw [hrun] at hfirst hhead
        by_cases hok : r = .ok ()
        · -- the blocks of the first field are read, and those of the others into the other fields
          subst hok
          rw [loop_append _ hhead, loop_fieldStep_tail reg hvs.1]
          exact ⟨fun h => hlater.ok h.2, fun h => ⟨w, _, rfl, hfirst.good rfl, hlater.good h⟩⟩
        · -- the loop ends at the first field
          have hstop : (loop (fieldStep reg all sty k (.cons hdr ty rest)) (.cons ty.zero vs)
              (slices mine (blocksBytes others ++ tail))).2 ≠ .ok () := by
            rw [hhead]
            exact hok
          rw [loop_append_of_ne _ hstop]
          exact .of_ne (fun h => hok (hfirst.ok h.1)) hstop

/-- A field that takes no children. -/
theorem ReadsFields.skip {all slots : List Slot} {k : Nat} {slot : Slot} (hslot : ∀ fi, slot ≠ .valueField fi)
    (hdr : FieldHdr) {ty : GoType} {rest : Fields} {cs : List Block} {must : Prop}
    {goods : FieldVals rest → FieldVals rest → Prop}
    (hvs : ReadsFields reg all (k + 1) slots rest cs must goods) :
    ReadsFields reg all k (slot :: slots) (.cons hdr ty rest) cs must
      fun vs ws => ∃ us, ws = .cons vs.head us ∧ goods vs.tail us := by
  refine ⟨fun c hc => ?_, fun sty tail vs hblank => ?_⟩
  · obtain ⟨i, gi, hi, hk⟩ := hvs.1 c hc
    exact ⟨i, gi, hi, by omega⟩
  · cases vs with
    | cons v vs =>
      have hrest : Blank slots vs := by
        cases slot with
        | valueField fi => exact absurd rfl (hslot fi)
        | skipped | tagField fi => exact hblank.2
      exact (hvs.2 sty tail vs hrest).map (FieldVals.cons v) (loop_fieldStep_tail reg hvs.1 v vs)
        fun us hus => ⟨us, rfl, hus⟩

/-- A structure is decoded by its children, one after the other, into the fields from position 0 on. -/
theorem decodeAll_struct {dec : Dec} (hdec : dec.disallowExtraValues = false) (d : Deref) {n : GoString}
    {fs : Fields} {ti : TypeInfo} (hti : getTypeInfo reg (.struct n fs) = .ok ti) (t : ValidTag)
    {cs : List Block} (hcs : (blocksBytes cs).length < 2 ^ 32) (vs : FieldVals fs) (tail : Bytes) :
    decodeAll reg dec d (.struct n fs) (.struct vs) (slices [.struct t cs] tail) =
      (.struct (loop (fieldStep reg ti.slots (.struct n fs) 0 fs) (setTTLVTag t.1 ti.slots vs)
          (slices cs [])).1,
        (loop (fieldStep reg ti.slots (.struct n fs) 0 fs) (setTTLVTag t.1 ti.slots vs)
          (slices cs [])).2) := by
  have hstep : ∀ parent, (unmarshalChild dec parent (.struct n fs) ti.slots fun d i vs c =>
      unmarshalField reg d fs i vs c) = fieldStep reg ti.slots (.struct n fs) 0 fs := by
    intro parent
    funext vs c
    rw [unmarshalChild, fieldStep]
    cases findField c.tag ti.slots 0 none with
    | none => simp only [hdec, Bool.false_eq_true, if_false]
    | some found => simp only [hdec, Nat.sub_zero]
  rw [decodeAll_single, unmarshal_struct reg dec _ vs (length_slice_ne _ _) (typ_struct_append t cs _) hti,
    tag_bytes_append, children_struct_append t cs _ hcs, hstep]
  rfl

theorem ReadsFields.struct {n : GoString} {fs : Fields} {ti : TypeInfo}
    (hti : getTypeInfo reg (.struct n fs) = .ok ti) (t : ValidTag) {cs : List Block}
    (hcs : (blocksBytes cs).length < 2 ^ 32) {must : Prop} {good : FieldVals fs → FieldVals fs → Prop}
    (h : ReadsFields reg ti.slots 0 ti.slots fs cs must good) (d : Deref) :
    Reads reg d (.struct n fs) [.struct t cs] must
      fun w => ∃ ws, w = .struct ws ∧ good (setTTLVTag t.1 ti.slots fs.zero) ws := by
  intro dec tail hdec
  exact (h.2 (.struct n fs) [] _ (blank_setTTLVTag t.1 ti.slots _ (blank_zero fs ti.slots))).map GoVal.struct
    (decodeAll_struct hdec d hti t hcs fs.zero tail) fun ws hws => ⟨ws, rfl, hws⟩

variable (reg)

/-- Decoding into a struct does not depend on what has been looked through before. -/
theorem unmarshal_struct_deref (dec : Dec) (d : Deref) {n : GoString} {fs : Fields} (v : GoVal (.struct n fs))
    (t : TTLV) : unmarshal reg dec (decide (d = .any)) (.struct n fs) v t =
      unmarshal reg dec false (.struct n fs) v t := by
  cases v
  rw [unmarshal, unmarshal]

/-- `Unmarshal` of a structure decodes its one block. -/
theorem unmarshalBytes_block (n : GoString) (fs : Fields) {c : Block} (hsized : c.Sized) :
    unmarshalBytes reg (.struct n fs) c.bytes =
      decodeAll reg newDecoder .any (.struct n fs) (GoType.struct n fs).zero (slices [c] []) := by
  have hnext := nextTTLV_bytes_append c [] hsized
  rw [List.append_nil] at hnext
  rw [decodeAll_single, unmarshal_struct_deref, unmarshalBytes, hnext, List.append_nil]

/-! ## What is written for them -/

/-- The encoder writes `b` for `v`, wherever it stands. -/
def WritesOut (d : Deref) (tag : Tag) (fi : Option FieldInfo) {ty : GoType} (v : GoVal ty)
    (b : Bytes) : Prop :=
  ∀ ctx addr, Writes (fun e => encode reg ctx d addr tag fi v e) b none

/-- The tag that a value of a type without fields is written with. -/
def fieldTag (tag : Tag) (fi : Option FieldInfo) (ty : GoType) : Tag :=
  if tag = tagNone then
    match fi with
    | some fi => fi.tag
    | none => reg.parseTagOrNone ty.name
  else tag

variable {reg} {ctx : Ctx} {addr : Bool} {tag : Tag} {fi : Option FieldInfo} {b : Bytes} {err : Option EncErr}

theorem tagOr_plainInfo {ty : GoType} {v : GoVal ty} (hv : intrinsicTag (plainInfo reg ty) v = none) :
    tagOr tag (plainInfo reg ty) fi v = fieldTag reg tag fi ty := by
  simp only [tagOr, tagForMarshal, hv, fieldTag]
  rfl

/-- A slice is written as its elements, also when it is omitted because there are none. -/
theorem encode_slice (d : Deref) {n : GoString} {e : GoType} (vs : GoVals e) (en : Enc) :
    encode reg ctx d addr tag fi (.slice vs : GoVal (.slice n e)) en =
      encodeElems reg ctx true (fieldTag reg tag fi (.slice n e)) (elemInfo fi) vs en := by
  simp only [encode]
  rw [tagOr_plainInfo rfl]
  by_cases hempty : ((flagsOf fi).omitEmpty && isEmptyValue (.slice vs : GoVal (.slice n e))) = true
  · rw [if_pos hempty]
    cases vs with
    | nil => simp only [encodeElems]
    | cons v vs =>
      rw [Bool.and_eq_true] at hempty
      cases hempty.2
  · rw [if_neg hempty]

theorem WritesOut.ptrNil (e : GoType) : WritesOut reg d tag fi (.ptrNil : GoVal (.ptr e)) [] := by
  intro ctx addr
  simp only [encode]
  exact Writes.nothing none

theorem WritesOut.ifaceNil : WritesOut reg d tag fi .ifaceNil [] := by
  intro ctx addr
  simp only [encode]
  exact Writes.nothing none

theorem writes_elems_nil {e : GoType} :
    Writes (fun en => encodeElems reg ctx addr tag fi (.nil : GoVals e) en) [] none := by
  simp only [encodeElems]
  exact Writes.nothing none

theorem writes_fields_nil {slots : List Slot} :
    Writes (fun en => encodeFields reg ctx addr slots (.nil : FieldVals .nil) en) [] none := by
  simp only [encodeFields]
  exact Writes.nothing none

theorem writes_fields_cons {info : FieldInfo} {slots : List Slot} {hdr : FieldHdr} {ty : GoType} {rest : Fields}
    {v : GoVal ty} {vs : FieldVals rest} {bs : Bytes}
    (hv : Writes (fun en => encode reg ⟨ctx.currStruct, info.name⟩ .any addr tagNone (some info) v en) b none)
    (hvs : Writes (fun en => encodeFields reg ctx addr slots vs en) bs err) :
    Writes (fun en => encodeFields reg ctx addr (.valueField info :: slots)
      (.cons v vs : FieldVals (.cons hdr ty rest)) en) (b ++ bs) err := by
  simp only [encodeFields]
  exact hv.andThen hvs

/-- A struct is written as one structure around its fields. -/
theorem writes_struct {d : Deref} {n : GoString} {fs : Fields} {ti : TypeInfo} {vs : FieldVals fs}
    (hti : getTypeInfo reg (.struct n fs) = .ok ti)
    (htag : tagOr tag ti fi (.struct vs : GoVal (.struct n fs)) ≠ tagNone)
    (henum : (flagsOf fi).enum = false) (hmask : (flagsOf fi).bitmask = false)
    (h : Writes (fun en => encodeFields reg ⟨n, ctx.currField⟩ addr ti.slots vs en) b err) :
    Writes (fun en => encode reg ctx d addr tag fi (.struct vs : GoVal (.struct n fs)) en)
      (item (tagOr tag ti fi (.struct vs : GoVal (.struct n fs))) .Structure b) err := by
  simp only [encode, hti, structCheck, if_neg htag, henum, hmask, Bool.or_self, Bool.false_eq_true, if_false]
  exact h.struct _

end

end KmipGo.Codec
