import Mathlib.Data.List.TakeWhile
import KmipGo.Codec.Forms
import KmipGo.Codec.Recoding
import KmipGo.Decoder.Fields
import KmipGo.Message.Types

/-! # Messages with raw fields

Whether decoding a message into a struct and encoding it again gives back the
message.  `Canonical` describes the messages in question, without reference to the
encoder: the children are in the order of the fields and each is matched by its
field, a field has the blocks that its Go type calls for, and every leaf that is not
part of a raw slice has the one form that its value has.

* `Kept` — no part of the message gets lost or changed on the way through the Go
  values.  Byte strings of length zero do, and so do leaves in interfaces that are
  written under another tag or type than they were read.
* `canonical_reads` — a canonical message that is kept is decoded, and written back
  up to the slices that were stored; one that is not kept is refused or changed.
* `captured_iff` — both laws about raw fields hold exactly when every slice that
  remains stored is the last child of its structure and the message is kept.
-/

namespace KmipGo.Codec

open KmipGo.Lib KmipGo.Ttlv KmipGo.Reg KmipGo.Go KmipGo.Encoder KmipGo.Decoder KmipGo.Value
  KmipGo.Message

/-! ## Canonical messages -/

mutual
/-- Every leaf is in canonical form. -/
def BlockExact : Block → Prop
  | .leaf _ l => LeafExact l
  | .struct _ cs => BlocksExact cs
def BlocksExact : List Block → Prop
  | [] => True
  | c :: cs => BlockExact c ∧ BlocksExact cs
end

/-- The zero value is left out of a message: it is nil, or empty and to be omitted. -/
def ScalarAbsent (flags : Flags) (s : Scalar) : Prop :=
  scalarIsNil s s.zero = true ∨ (∀ n k, s ≠ .other n k) ∧ (flags.omitEmpty && s.isEmpty s.zero) = true

/-- The blocks of a scalar field: one leaf of its form, or none if the value is left out. -/
def ScalarCanonical (flags : Flags) (enumMap : Option Enum) (s : Scalar) : List Block → Prop
  | [] => ScalarAbsent flags s
  | [.leaf _ l] =>
    LeafExact l ∧ ScalarForm flags enumMap l s ∧ ¬ (flags.omitEmpty && s.isEmpty (scalarOf l s)) = true
  | _ => False

/-- The children that come first and are matched by the field at position `k`, and those after them. -/
def ownBlocks (all : List Slot) (k : Nat) (fi : FieldInfo) (cs : List Block) : List Block :=
  cs.takeWhile fun c => decide (findField c.tag all 0 none = some (k, fi))

def otherBlocks (all : List Slot) (k : Nat) (fi : FieldInfo) (cs : List Block) : List Block :=
  cs.dropWhile fun c => decide (findField c.tag all 0 none = some (k, fi))

section

variable (reg : Registry)

mutual
/-- The blocks are a canonical encoding of a value of the type, in a field with this information; `tag` is the
    tag that is passed down to the elements of a slice. -/
def Canonical (tag : Tag) (fi : Option FieldInfo) : GoType → List Block → Prop
  -- stored as it is
  | .scalar .ttlv, bs => bs = [] ∨ ∃ c, bs = [c]
  | .scalar s, bs =>
    ScalarCanonical (flagsOf fi) (reg.enumForTag (fieldTag reg tag fi (.scalar s))) s bs
  -- an interface may hold anything
  | .iface, bs => bs = [] ∨ (∃ t cs, bs = [.struct t cs]) ∨ ∃ t l, bs = [.leaf t l] ∧ LeafExact l
  | .ptr e, bs => bs = [] ∨ Canonical tag fi e bs
  | .slice n e, bs => ∀ c ∈ bs, Canonical (fieldTag reg tag fi (.slice n e)) (elemInfo fi) e [c]
  | .array l e, bs => bs.length = l ∧ ∀ c ∈ bs, Canonical (fieldTag reg tag fi (.array l e)) (elemInfo fi) e [c]
  | .struct n fs, bs =>
    ∃ ti t cs, getTypeInfo reg (.struct n fs) = .ok ti ∧ bs = [.struct t cs] ∧
      FieldsCanonical ti.slots 0 ti.slots fs cs
  | .value, bs => bs = [] ∨ ∃ c, bs = [c] ∧ BlockExact c
  -- what a method of the user's writes has no form of its own
  | .marshaler _ _, _ => False
/-- The children of a structure, field by field from position `k` on. -/
def FieldsCanonical (all : List Slot) : Nat → List Slot → Fields → List Block → Prop
  | k, .valueField fi :: slots, .cons _ ty rest, cs =>
    Canonical tagNone (some fi) ty (ownBlocks all k fi cs) ∧
      FieldsCanonical all (k + 1) slots rest (otherBlocks all k fi cs)
  | k, _ :: slots, .cons _ _ rest, cs => FieldsCanonical all (k + 1) slots rest cs
  | _, _, _, cs => cs = []
end

/-! ## What is kept -/

/-- A leaf is written back: it is of the form that its value is written in, which is not omitted, and none of
    what changes such a leaf applies. -/
def LeafKept (flags : Flags) (tag : Tag) (l : Leaf) (s : Scalar) : Prop :=
  ScalarForm flags (reg.enumForTag tag) l s ∧ ¬ (flags.omitEmpty && s.isEmpty (scalarOf l s)) = true ∧
    LeafBack flags (reg.enumForTag tag) l s

mutual
/-- The leaves of a block that is read as a `ttlv.Value` are kept. -/
def TreeKept : Block → Prop
  | .leaf t l => LeafKept reg noFlags t.1 l (heldScalar l.ty)
  | .struct _ cs => TreesKept cs
def TreesKept : List Block → Prop
  | [] => True
  | c :: cs => TreeKept c ∧ TreesKept cs
end

mutual
/-- Nothing in the blocks is lost or changed on the way through a value of the type; `d` and `tag` are what the
    encoder is called with. -/
def Kept (d : Deref) (tag : Tag) (fi : Option FieldInfo) : GoType → List Block → Prop
  | .scalar .ttlv, _ => True
  | .scalar s, bs => ∀ t l, bs = [.leaf t l] →
    wireTag (fieldTag reg tag fi (.scalar s)) = t.1 ∧ LeafRead l s ∧
      LeafBack (flagsOf fi) (reg.enumForTag (fieldTag reg tag fi (.scalar s))) l s
  -- an interface behind a pointer is not looked through
  | .iface, bs => bs = [] ∨ d = .any ∧ ∀ t l, bs = [.leaf t l] →
    wireTag (fieldTag reg tag fi (.scalar (heldScalar l.ty))) = t.1 ∧
      LeafKept reg (flagsOf fi) (fieldTag reg tag fi (.scalar (heldScalar l.ty))) l (heldScalar l.ty)
  | .ptr e, bs => bs = [] ∨ d = .any ∧ Kept .done tag fi e bs
  | .slice n e, bs => ∀ c ∈ bs, Kept .any (fieldTag reg tag fi (.slice n e)) (elemInfo fi) e [c]
  -- the decoder has no arrays
  | .array l _, _ => l = 0
  | .struct n fs, bs => ∀ ti t cs, getTypeInfo reg (.struct n fs) = .ok ti → bs = [.struct t cs] →
    wireTag (tagOr tag ti fi (.struct (setTTLVTag t.1 ti.slots fs.zero) : GoVal (.struct n fs))) = t.1 ∧
      flagged (flagsOf fi) = false ∧ FieldsKept ti.slots 0 ti.slots fs cs
  | .value, bs => ValueTypeOk reg ∧ TreesKept reg bs
  | .marshaler _ _, _ => False
def FieldsKept (all : List Slot) : Nat → List Slot → Fields → List Block → Prop
  | k, .valueField fi :: slots, .cons _ ty rest, cs =>
    Kept .any tagNone (some fi) ty (ownBlocks all k fi cs) ∧
      FieldsKept all (k + 1) slots rest (otherBlocks all k fi cs)
  | k, _ :: slots, .cons _ _ rest, cs => FieldsKept all (k + 1) slots rest cs
  | _, _, _, _ => True
end

end

/-! ## Leaves and raw slices -/

section

variable (reg : Registry)

/-- A leaf that is written back has a time in range, if it has one. -/
theorem nanosFit_of_back {flags : Flags} {enumMap : Option Enum} {l : Leaf} {s : Scalar}
    (hform : ScalarForm flags enumMap l s) (hback : LeafBack flags enumMap l s) (hty : l.ty = .DateTimeExtended) :
    NanosFit l.uint64 := by
  have hword : ∀ {ty : Typ}, ty = .Integer ∨ ty = .Enumeration → l.ty = ty → NanosFit l.uint64 := by
    rintro _ (rfl | rfl) h <;> rw [hty] at h <;> cases h
  cases s with
  | time | dateTimeExtended => exact hback hty
  | bool n | bytes n | bigInt | duration =>
    have h := hform.2
    rw [hty] at h
    cases h
  | int n k =>
    cases k with
    | int64 =>
      have h := hform.2
      rw [hty] at h
      cases h
    | _ => exact hword (enumerated_typ hform) rfl
  | uint n k =>
    cases k with
    | uint64 =>
      have h := hform.2
      rw [hty] at h
      cases h
    | _ => exact hword (enumerated_typ hform) rfl
  | tag => exact hword (enumerated_typ hform) rfl
  | enum n m =>
    cases m with
    | true => exact hword (.inl hform) rfl
    | false => exact hword (.inr hform) rfl
  | string n =>
    rw [ScalarForm] at hform
    split at hform
    · obtain h | ⟨h, -⟩ := hform
      · rw [wordTyp] at h
        split at h
        · exact hword (.inl h) rfl
        · exact hword (.inr h) rfl
      · rw [hty] at h
        cases h
    · rw [hty] at hform
      cases hform
  | ttlv | other n k => exact absurd hform id

/-- What is made of a leaf that has been read as a scalar. -/
theorem recoded_leaf {ctx : Ctx} {tag : Tag} {fi : Option FieldInfo} {t : ValidTag} {l : Leaf} {s : Scalar}
    (hs : s ≠ .ttlv ∧ ∀ n k, s ≠ .other n k) (hexact : LeafExact l) (hread : LeafRead l s)
    (hother : ¬ ScalarForm (flagsOf fi) (reg.enumForTag (fieldTag reg tag fi (.scalar s))) l s → ∀ p,
      Codes reg (flagsOf fi) (fieldTag reg tag fi (.scalar s)) s (scalarOf l s) p →
        p.content ≠ some (l.ty, l.value)) :
    Recoded (wireTag (fieldTag reg tag fi (.scalar s)) = t.1 ∧
        LeafKept reg (flagsOf fi) (fieldTag reg tag fi (.scalar s)) l s) [.leaf t l] []
      fun e => encodeScalar reg ctx tag fi s (scalarOf l s) e := by
  refine ⟨?_, fun _ out hw => ?_⟩
  · rintro ⟨htag, hform, hkept, hback⟩
    obtain ⟨hcodes, hnil⟩ := codes_leaf reg hform hread hback
    have hne : fieldTag reg tag fi (.scalar s) ≠ tagNone := by
      intro h
      rw [h] at htag
      exact ne_none_of_valid t.2 htag.symm
    refine ⟨_, writes_scalar reg hs hnil hkept hne hcodes, ?_⟩
    have hcontent := content_prim (hexact.canonical (nanosFit_of_back hform hback))
    rw [blocksBytes_single, ← item_prim t (hexact.canonical (nanosFit_of_back hform hback)), Prim.item, Prim.item,
      hcontent]
    simp only [item_wireTag htag]
    exact Reproduces.of_nil _
  · obtain rfl | ⟨hnil, hkept, p, hcodes, rfl⟩ := writes_scalar_parts reg hs hw
    · -- nothing is written, and the leaf is missing
      exact Recodes.nothing (List.cons_ne_nil _ _)
    · rw [Prim.item]
      cases hcontent : p.content with
      | none => exact Recodes.nothing (List.cons_ne_nil _ _)
      | some content =>
        refine Recodes.item fun heq => ?_
        obtain ⟨htag, hty, hvalue⟩ := item_eq_leaf heq
        have hsame : p.content = some (l.ty, l.value) := by rw [hcontent, ← hty, ← hvalue]
        have hform : ScalarForm (flagsOf fi) (reg.enumForTag (fieldTag reg tag fi (.scalar s))) l s := by
          by_contra hform
          exact hother hform p hcodes hsame
        refine ⟨htag, hform, hkept, ?_⟩
        by_contra hback
        exact codes_other reg hform hread hback hnil hcodes hsame

/-- A leaf in an interface is written as the Go value it has been read as. -/
theorem recoded_held (ctx : Ctx) (addr : Bool) (tag : Tag) (fi : Option FieldInfo) (t : ValidTag) {l : Leaf}
    (hexact : LeafExact l) :
    Recoded (wireTag (fieldTag reg tag fi (.scalar (heldScalar l.ty))) = t.1 ∧
        LeafKept reg (flagsOf fi) (fieldTag reg tag fi (.scalar (heldScalar l.ty))) l (heldScalar l.ty))
      [.leaf t l] [] fun e => encode reg ctx .any addr tag fi (leafItem l).iface e := by
  simp only [encode_held]
  exact recoded_leaf reg (heldScalar_ne l) hexact (leafRead_held l) fun hform p hp => codes_held reg hform hp

/-- A stored slice is written as it is. -/
theorem recoded_raw {ctx : Ctx} {tag : Tag} {fi : Option FieldInfo} {kept : Prop} (hkept : kept) {c : Block}
    (hsize : c.Sized) (tail : Bytes) :
    Recoded kept [c] (Place.raw (c.bytes ++ tail)).raws
      fun e => encodeScalar reg ctx tag fi .ttlv (c.bytes ++ tail) e := by
  refine .of_kept hkept (Writes.emitRun tag (.raw (c.bytes ++ tail))) ?_
  rw [blocksBytes_single]
  exact Reproduces.slice c hsize tail

/-! ## Trees of values -/

theorem marshalValue_held (ctx : Ctx) (tag : Tag) (l : Leaf) (e : Enc) :
    marshalValue reg ctx tag (leafItem l).iface e =
      EncRes.andThen (encode reg ctx .any false tag none (leafItem l).iface e) flush := by
  generalize leafItem l = i
  cases i <;> simp only [Item.iface, marshalValue, encode]

mutual
/-- What is made of a block that has been read as a `ttlv.Value`. -/
theorem recoded_tree (hvalue : ValueTypeOk reg) (ctx : Ctx) (d : Deref) (addr : Bool) (tag : Tag)
    (fi : Option FieldInfo) : ∀ c : Block, BlockExact c → c.Sized →
      Recoded (TreeKept reg c) [c] [] fun e => encode reg ctx d addr tag fi (blockTree c).toVal e
  | .leaf t l, hexact, _ => by
    obtain ⟨ti, hti⟩ := getTypeInfo_value reg hvalue
    have hne := ne_none_of_valid t.2
    have htag : fieldTag reg t.1 none (.scalar (heldScalar l.ty)) = t.1 := if_neg hne
    have hleaf := recoded_held reg ctx false t.1 none t hexact
    rw [htag] at hleaf
    simp only [blockTree, Tree.toVal, encode, hti, valueTag_of_ne hne, marshalValue_held]
    refine (hleaf.thenFlush (encode_outlines reg ctx .any false t.1 none _)).of_iff ?_
    rw [and_iff_right (wireTag_valid t), TreeKept]
    rfl
  | .struct t cs, hexact, hsize => by
    obtain ⟨ti, hti⟩ := getTypeInfo_value reg hvalue
    have hbody := recoded_trees hvalue ctx cs hexact fun c hc => Sized.of_mem hc hsize
    simp only [blockTree, Tree.toVal, encode, hti, valueTag_of_ne (ne_none_of_valid t.2), marshalValue, if_true]
    refine (hbody.struct (encodeEach_outlines reg ctx _) hsize).of_iff ?_
    rw [and_iff_right (wireTag_valid t), TreeKept]

theorem recoded_trees (hvalue : ValueTypeOk reg) (ctx : Ctx) : ∀ cs : List Block, BlocksExact cs →
    (∀ c ∈ cs, c.Sized) →
      Recoded (TreesKept reg cs) cs [] fun e => encodeEach reg ctx (treesToVals (blocksTrees cs)) e
  | [], _, _ => by
    simp only [blocksTrees, treesToVals, encodeEach]
    exact .nothing trivial (Writes.nothing none)
  | c :: cs, hexact, hsize => by
    have hhead := recoded_tree hvalue ctx .any false tagNone none c hexact.1 (hsize c (by simp))
    have htail := recoded_trees hvalue ctx cs hexact.2 fun b hb => hsize b (List.mem_cons_of_mem c hb)
    have houtlines := encode_outlines reg ctx .any false tagNone none (blockTree c).toVal
    simp only [blocksTrees, treesToVals, encodeEach]
    exact (hhead.thenFlush houtlines).append htail houtlines.thenFlush (encodeEach_outlines reg ctx _)
end

/-! ## Destinations -/

/-- What is made of the blocks that a destination has been read from. -/
def Back (kept : Prop) (d : Deref) (tag : Tag) (fi : Option FieldInfo) {ty : GoType} (bs : List Block)
    (v : GoVal ty) : Prop :=
  ∀ ctx addr, Recoded kept bs (captured v) fun e => encode reg ctx d addr tag fi v e

variable {reg} {d : Deref} {tag : Tag} {fi : Option FieldInfo} {bs : List Block}

theorem captured_scalar {s : Scalar} (hs : s ≠ .ttlv) (v : s.Val) : captured (.scalar v : GoVal (.scalar s)) = [] := by
  rw [captured, placeOf_scalar hs]
  rfl

theorem reads_scalar {s : Scalar} (h : Canonical reg tag fi (.scalar s) bs) (hsize : ∀ c ∈ bs, c.Sized) :
    Reads reg d (.scalar s) bs (Kept reg d tag fi (.scalar s) bs)
      (Back reg (Kept reg d tag fi (.scalar s) bs) d tag fi bs) := by
  by_cases hs : s = .ttlv
  · subst hs
    rcases h with rfl | ⟨c, rfl⟩
    · exact .nil fun ctx addr => .nothing trivial (Writes.emitRun tag (.raw []))
    · intro dec tail _
      rw [decodeAll_single, GoType.zero, unmarshal]
      exact .of_eq (if_neg (length_slice_ne c tail)) fun ctx addr =>
        recoded_raw reg trivial (hsize c (by simp)) tail
  · rw [Canonical.eq_2 reg tag fi bs s hs] at h
    have hkept := Kept.eq_2 reg d tag fi bs s hs
    cases bs with
    | nil =>
      refine .nil fun ctx addr => ?_
      rw [GoType.zero, captured_scalar hs]
      refine .nothing ?_ (writes_scalar_nothing reg hs h)
      rw [hkept]
      exact fun t l hnil => absurd hnil.symm (List.cons_ne_nil _ _)
    | cons c cs =>
      cases cs with
      | cons _ _ => cases c <;> exact absurd h id
      | nil =>
        cases c with
        | struct t cs => exact absurd h id
        | leaf t l =>
          obtain ⟨hexact, hform, homit⟩ := h
          have hother : ∀ n k, s ≠ .other n k := by
            rintro n k rfl
            exact hform
          have hiff : Kept reg d tag fi (.scalar s) [.leaf t l] ↔
              wireTag (fieldTag reg tag fi (.scalar s)) = t.1 ∧ LeafRead l s ∧
                LeafBack (flagsOf fi) (reg.enumForTag (fieldTag reg tag fi (.scalar s))) l s := by
            rw [hkept]
            refine ⟨fun h => h t l rfl, fun h t' l' heq => ?_⟩
            cases heq
            exact h
          intro dec tail _
          rw [decodeAll_single, GoType.zero, unmarshal, if_neg (length_slice_ne _ _)]
          refine (unmarshal_leaf dec t tail hform).map GoVal.scalar rfl ?_ |>.mono (fun h => (hiff.mp h).2.1) fun _ h => h
          rintro v ⟨rfl, hread⟩ ctx addr
          rw [captured_scalar hs]
          refine (recoded_leaf reg ⟨hs, hother⟩ hexact hread fun hnot => absurd hform hnot).of_iff ?_
          rw [hiff]
          exact ⟨fun h => ⟨h.1, hform, homit, h.2.2⟩, fun h => ⟨h.1, hread, h.2.2.2⟩⟩

theorem captured_item (i : Item) : captured i.iface = [] := by
  cases i <;> rfl

/-- An interface behind a pointer is refused by the encoder. -/
theorem writes_iface_refused (ctx : Ctx) (addr : Bool) (tag : Tag) (fi : Option FieldInfo) (hd : d ≠ .any)
    {e : GoType} (v : GoVal e) :
    ∃ err, Writes (fun en => encode reg ctx d addr tag fi (.iface v) en) [] (some err) := by
  cases d with
  | any => exact absurd rfl hd
  | ptr | done =>
    simp only [encode]
    exact ⟨_, Writes.nothing _⟩

theorem heldBlock_eq_iface (tail : Bytes) (c : Block) : ∃ (e : GoType) (v : GoVal e), heldBlock tail c = .iface v := by
  cases c with
  | struct t cs => exact ⟨_, _, rfl⟩
  | leaf t l =>
    rw [heldBlock]
    cases leafItem l <;> exact ⟨_, _, rfl⟩

theorem reads_iface (h : Canonical reg tag fi .iface bs) (hsize : ∀ c ∈ bs, c.Sized) :
    Reads reg d .iface bs (Kept reg d tag fi .iface bs) (Back reg (Kept reg d tag fi .iface bs) d tag fi bs) := by
  by_cases hd : d = .any
  · subst hd
    rcases h with rfl | ⟨t, cs, rfl⟩ | ⟨t, l, rfl, hexact⟩
    · exact .nil fun ctx addr => .nothing (.inl rfl) (WritesOut.ifaceNil ctx addr)
    · intro dec tail _
      refine .of_eq (decodeAll_iface dec .any _ tail) fun ctx addr => ?_
      simp only [heldBlock, encode]
      exact recoded_raw reg (.inr ⟨rfl, fun t l heq => by cases heq⟩) (hsize _ (by simp)) tail
    · intro dec tail _
      refine .of_eq (decodeAll_iface dec .any _ tail) fun ctx addr => ?_
      rw [heldBlock, captured_item]
      refine (recoded_held reg ctx addr tag fi t hexact).of_iff
        ⟨fun h => ?_, fun h => .inr ⟨rfl, fun t' l' heq => ?_⟩⟩
      · exact (h.resolve_left (List.cons_ne_nil _ _)).2 t l rfl
      · cases heq
        exact h
  · -- the decoder fills the interface, but the encoder does not look into it again
    cases bs with
    | nil => exact .nil fun ctx addr => .nothing (.inl rfl) (WritesOut.ifaceNil ctx addr)
    | cons c cs =>
      obtain rfl : cs = [] := by
        rcases h with h | ⟨_, _, h⟩ | ⟨_, _, h, _⟩ <;> cases h
        · rfl
        · rfl
      intro dec tail _
      refine .of_eq (decodeAll_iface dec d c tail) fun ctx addr => ?_
      obtain ⟨e, v, hv⟩ := heldBlock_eq_iface tail c
      rw [hv]
      obtain ⟨err, hw⟩ := writes_iface_refused ctx addr tag fi hd v
      exact .refused (fun h => hd (h.resolve_left (List.cons_ne_nil _ _)).1) hw

theorem reads_value (h : Canonical reg tag fi .value bs) (hsize : ∀ c ∈ bs, c.Sized) :
    Reads reg d .value bs (Kept reg d tag fi .value bs) (Back reg (Kept reg d tag fi .value bs) d tag fi bs) := by
  have hrefused : ∀ ctx addr (v : GoVal .value), ¬ ValueTypeOk reg →
      Recoded (Kept reg d tag fi .value bs) bs (captured v) fun e => encode reg ctx d addr tag fi v e := by
    intro ctx addr v hvalue
    cases v with
    | value vt v =>
      cases hti : getTypeInfo reg .value with
      | ok ti => exact absurd ((getTypeInfo_value_iff reg).mp ⟨ti, hti⟩) hvalue
      | error err =>
        simp only [encode, hti]
        exact .refused (fun h => hvalue h.1) (Writes.nothing _)
  by_cases hvalue : ValueTypeOk reg
  · rcases h with rfl | ⟨c, rfl, hexact⟩
    · refine .nil fun ctx addr => .nothing ⟨hvalue, trivial⟩ ?_
      obtain ⟨ti, hti⟩ := getTypeInfo_value reg hvalue
      simp only [GoType.zero, encode, hti, marshalValue]
      exact Writes.flush
    · intro dec tail _
      have hrun : decodeAll reg dec d .value GoType.value.zero (slices [c] tail) = ((blockTree c).toVal, .ok ()) := by
        rw [decodeAll_single, unmarshal, if_neg (length_slice_ne _ _), valueOf_bytes_append c _ (hsize c (by simp))]
        rfl
      refine .of_eq hrun fun ctx addr => ?_
      rw [captured, placeOf_ttlvValue]
      refine (recoded_tree reg hvalue ctx d addr tag fi c hexact (hsize c (by simp))).of_iff ?_
      rw [Kept, and_iff_right hvalue, TreesKept, TreesKept, and_true]
  · intro dec tail _
    exact ⟨fun h => absurd h.1 hvalue, fun _ ctx addr => hrefused ctx addr _ hvalue⟩

/-! ## Composite destinations -/

theorem reads_ptr {e : GoType}
    (he : bs ≠ [] → Reads reg .done e bs (Kept reg .done tag fi e bs)
      (Back reg (Kept reg .done tag fi e bs) .done tag fi bs)) :
    Reads reg d (.ptr e) bs (Kept reg d tag fi (.ptr e) bs)
      (Back reg (Kept reg d tag fi (.ptr e) bs) d tag fi bs) := by
  cases bs with
  | nil => exact .nil fun ctx addr => .nothing (.inl rfl) (WritesOut.ptrNil e ctx addr)
  | cons c cs =>
    have hkept : Kept reg d tag fi (.ptr e) (c :: cs) ↔ d = .any ∧ Kept reg .done tag fi e (c :: cs) :=
      or_iff_right (List.cons_ne_nil c cs)
    by_cases hd : d = .any
    · subst hd
      refine (Reads.ptr (List.cons_ne_nil c cs) (he (List.cons_ne_nil c cs))).mono (fun h => (hkept.mp h).2) ?_
      rintro _ ⟨v, rfl, hv⟩ ctx addr
      simp only [encode_ptr]
      exact (hv ctx true).of_iff (hkept.trans (and_iff_right rfl))
    · -- a pointer to a pointer
      intro dec tail _
      refine .of_ne (fun h => hd (hkept.mp h).1) ?_
      refine decodeAll_ne reg (fun n hn => ?_) c cs tail
      rw [decide_eq_false hd, GoType.zero, unmarshal, if_neg hn]
      simp only
      split
      · simp
      · exact refuse_ne_ok dec n _

theorem reads_elems {e : GoType} (hone : ∀ c ∈ bs,
      Reads reg .any e [c] (Kept reg .any tag fi e [c]) (Back reg (Kept reg .any tag fi e [c]) .any tag fi [c])) :
    ReadsElems reg e bs (∀ c ∈ bs, Kept reg .any tag fi e [c]) fun ws => ∀ ctx addr,
      Recoded (∀ c ∈ bs, Kept reg .any tag fi e [c]) bs (placesRaws (placesOf ws))
        fun en => encodeElems reg ctx addr tag fi ws en := by
  induction bs with
  | nil => exact .nil fun ctx addr => .nothing (fun c hc => absurd hc List.not_mem_nil) writes_elems_nil
  | cons c cs ih =>
    have hsplit : (∀ b ∈ c :: cs, Kept reg .any tag fi e [b]) ↔
        Kept reg .any tag fi e [c] ∧ ∀ b ∈ cs, Kept reg .any tag fi e [b] := List.forall_mem_cons
    refine (ReadsElems.cons (hone c (by simp)) (ih fun b hb => hone b (List.mem_cons_of_mem c hb))).mono
      hsplit.mp ?_
    rintro _ ⟨w, ws, rfl, hw, hws⟩ ctx addr
    simp only [encodeElems]
    exact ((hw ctx addr).append (hws ctx addr) (encode_outlines reg ctx .any addr tag fi w)
      (encodeElems_outlines reg ctx addr tag fi ws)).of_iff hsplit

theorem reads_array {l : Nat} {e : GoType} (h : bs.length = l) :
    Reads reg d (.array l e) bs (Kept reg d tag fi (.array l e) bs)
      (Back reg (Kept reg d tag fi (.array l e) bs) d tag fi bs) := by
  subst h
  cases bs with
  | nil =>
    refine .nil fun ctx addr => .nothing rfl ?_
    simp only [GoType.zero, List.length_nil, GoVals.replicate, encode, encodeElems, ite_self]
    exact Writes.nothing none
  | cons c cs =>
    -- the first block is refused
    intro dec tail _
    refine .of_ne (fun h => absurd h (Nat.succ_ne_zero _)) ?_
    refine decodeAll_ne reg (fun n hn => ?_) c cs tail
    rw [unmarshal, if_neg hn]
    exact refuse_ne_ok dec n _

theorem structCheck_eq_none {ctx : Ctx} {ty : GoType} :
    structCheck ctx fi tag ty = none ↔ tag ≠ tagNone ∧ flagged (flagsOf fi) = false := by
  rw [structCheck, flagged]
  by_cases htag : tag = tagNone
  · simp [htag]
  · cases hflag : ((flagsOf fi).enum || (flagsOf fi).bitmask) <;> simp [htag]

theorem ttlvTagValue_cons_skip {slot : Slot} (hslot : ∀ fi, slot ≠ .tagField fi)
    {hdr : FieldHdr} {ty : GoType} {rest : Fields} (slots : List Slot) (v : GoVal ty)
    (vs : FieldVals rest) :
    ttlvTagValue (slot :: slots) (.cons v vs : FieldVals (.cons hdr ty rest)) =
      ttlvTagValue slots vs := by
  cases slot with
  | tagField fi => exact absurd rfl (hslot fi)
  | skipped | valueField fi =>
    cases ty with
    | scalar s => cases s <;> cases v <;> rfl
    | _ => rfl

/-- The value of a TTLVTag field does not depend on the fields after it. -/
theorem ttlvTagValue_cons_tag (fi : FieldInfo) {hdr : FieldHdr} {ty : GoType} {rest : Fields}
    (slots : List Slot) (v : GoVal ty) (vs ws : FieldVals rest) :
    ttlvTagValue (.tagField fi :: slots) (.cons v vs : FieldVals (.cons hdr ty rest)) =
      ttlvTagValue (.tagField fi :: slots) (.cons v ws : FieldVals (.cons hdr ty rest)) := by
  cases ty with
  | scalar s => cases s <;> cases v <;> rfl
  | _ => rfl

theorem tagOr_congr {n : GoString} {fs : Fields} (ti : TypeInfo) {vs ws : FieldVals fs}
    (h : ttlvTagValue ti.slots ws = ttlvTagValue ti.slots vs) :
    tagOr tag ti fi (.struct (n := n) ws) = tagOr tag ti fi (.struct (n := n) vs) := by
  have hintrinsic : intrinsicTag ti (.struct (n := n) ws) = intrinsicTag ti (.struct (n := n) vs) := by
    rw [intrinsicTag, intrinsicTag]
    cases ti.tagField with
    | none => rfl
    | some tf => simp only [h]
  unfold tagOr tagForMarshal
  rw [hintrinsic]

variable (reg)

/-- What is made of the children that the fields have been read from; their own tag stays. -/
def FieldsBack (kept : Prop) (slots : List Slot) (cs : List Block) {fs : Fields} (vs ws : FieldVals fs) : Prop :=
  ttlvTagValue slots ws = ttlvTagValue slots vs ∧ ∀ ctx addr,
    Recoded kept cs (placesRaws (fieldPlaces ws)) fun en => encodeFields reg ctx addr slots ws en

variable {reg}

theorem reads_struct {n : GoString} {fs : Fields} {ti : TypeInfo} {t : ValidTag} {cs : List Block}
    (hti : getTypeInfo reg (.struct n fs) = .ok ti) (hsize : (Block.struct t cs).Sized)
    (hfields : ReadsFields reg ti.slots 0 ti.slots fs cs (FieldsKept reg ti.slots 0 ti.slots fs cs)
      (FieldsBack reg (FieldsKept reg ti.slots 0 ti.slots fs cs) ti.slots cs)) :
    Reads reg d (.struct n fs) [.struct t cs] (Kept reg d tag fi (.struct n fs) [.struct t cs])
      (Back reg (Kept reg d tag fi (.struct n fs) [.struct t cs]) d tag fi [.struct t cs]) := by
  have hkept : Kept reg d tag fi (.struct n fs) [.struct t cs] ↔
      wireTag (tagOr tag ti fi (.struct (setTTLVTag t.1 ti.slots fs.zero) : GoVal (.struct n fs))) = t.1 ∧
        flagged (flagsOf fi) = false ∧ FieldsKept reg ti.slots 0 ti.slots fs cs := by
    refine ⟨fun h => h ti t cs hti rfl, fun h ti' t' cs' hti' heq => ?_⟩
    rw [hti] at hti'
    cases hti'
    cases heq
    exact h
  refine (hfields.struct hti t hsize d).mono (fun h => (hkept.mp h).2.2) ?_
  rintro _ ⟨ws, rfl, htag, hws⟩ ctx addr
  rw [← tagOr_congr ti htag] at hkept
  cases hcheck : structCheck ctx fi (tagOr tag ti fi (.struct ws : GoVal (.struct n fs))) (.struct n fs) with
  | some err =>
    simp only [encode, hti, hcheck]
    refine .refused (fun h => ?_) (Writes.nothing _)
    -- the tag and the flags are those of a structure that is kept
    obtain ⟨hwire, hflags, -⟩ := hkept.mp h
    have hne : tagOr tag ti fi (.struct ws : GoVal (.struct n fs)) ≠ tagNone := by
      intro h0
      rw [h0] at hwire
      exact ne_none_of_valid t.2 hwire.symm
    rw [structCheck_eq_none.mpr ⟨hne, hflags⟩] at hcheck
    cases hcheck
  | none =>
    simp only [encode, hti, hcheck]
    refine ((hws ⟨n, ctx.currField⟩ addr).struct (encodeFields_outlines reg _ addr ti.slots ws) hsize).of_iff ?_
    rw [hkept, and_iff_right (structCheck_eq_none.mp hcheck).2]

theorem ownBlocks_append (all : List Slot) (k : Nat) (fi : FieldInfo) (cs : List Block) :
    ownBlocks all k fi cs ++ otherBlocks all k fi cs = cs :=
  List.takeWhile_append_dropWhile

theorem findField_of_mem_ownBlocks {all : List Slot} {k : Nat} {fi : FieldInfo} {cs : List Block} {c : Block}
    (h : c ∈ ownBlocks all k fi cs) : findField c.tag all 0 none = some (k, fi) := by
  have hmatch := List.mem_takeWhile_imp h
  exact of_decide_eq_true hmatch

theorem fields_nil {all slots : List Slot} {k : Nat} {fs : Fields} {kept : Prop} (hkept : kept)
    (hw : ∀ ctx addr (vs : FieldVals fs), Writes (fun en => encodeFields reg ctx addr slots vs en) [] none)
    (hraws : ∀ vs : FieldVals fs, Blank slots vs → placesRaws (fieldPlaces vs) = []) :
    ReadsFields reg all k slots fs [] kept (FieldsBack reg kept slots []) := by
  refine .nil fun vs hblank => ⟨rfl, fun ctx addr => ?_⟩
  rw [hraws vs hblank]
  exact .nothing hkept (hw ctx addr vs)

mutual
/-- A canonical message is decoded if it is kept.  What is decoded is written back, up to stored slices, just
    if it is kept. -/
theorem canonical_reads : ∀ (ty : GoType) (d : Deref) (tag : Tag) (fi : Option FieldInfo) (bs : List Block),
    Canonical reg tag fi ty bs → (∀ c ∈ bs, c.Sized) →
      Reads reg d ty bs (Kept reg d tag fi ty bs) (Back reg (Kept reg d tag fi ty bs) d tag fi bs)
  | .scalar s, d, tag, fi, bs, h, hsize => reads_scalar h hsize
  | .iface, d, tag, fi, bs, h, hsize => reads_iface h hsize
  | .value, d, tag, fi, bs, h, hsize => reads_value h hsize
  | .ptr e, d, tag, fi, bs, h, hsize =>
    reads_ptr fun hne => canonical_reads e .done tag fi bs (h.resolve_left hne) hsize
  | .slice n e, d, tag, fi, bs, h, hsize => by
    have helems := reads_elems fun c hc => canonical_reads e .any (fieldTag reg tag fi (.slice n e)) (elemInfo fi) [c]
      (h c hc) fun b hb => by rw [List.mem_singleton.mp hb]; exact hsize c hc
    refine (helems.slice d n).mono id ?_
    rintro _ ⟨ws, rfl, hws⟩ ctx addr
    simp only [encode_slice]
    exact hws ctx true
  | .array l e, d, tag, fi, bs, h, hsize => reads_array h.1
  | .struct n fs, d, tag, fi, bs, h, hsize => by
    obtain ⟨ti, t, cs, hti, rfl, hfields⟩ := h
    have hsized : (Block.struct t cs).Sized := hsize _ (by simp)
    exact reads_struct hti hsized (fieldsCanonical_reads fs ti.slots ti.slots 0 cs hfields
      fun c hc => Sized.of_mem hc hsized)
  | .marshaler n p, d, tag, fi, bs, h, hsize => absurd h id
theorem fieldsCanonical_reads : ∀ (fs : Fields) (all slots : List Slot) (k : Nat) (cs : List Block),
    FieldsCanonical reg all k slots fs cs → (∀ c ∈ cs, c.Sized) →
      ReadsFields reg all k slots fs cs (FieldsKept reg all k slots fs cs)
        (FieldsBack reg (FieldsKept reg all k slots fs cs) slots cs)
  | .nil, all, slots, k, cs, h, _ => by
    obtain ⟨rfl, hkept⟩ : cs = [] ∧ FieldsKept reg all k slots .nil cs := by
      cases slots with
      | nil => exact ⟨h, trivial⟩
      | cons slot slots => cases slot <;> exact ⟨h, trivial⟩
    refine fields_nil hkept (fun ctx addr vs => ?_) fun vs _ => ?_
    · cases vs
      exact writes_fields_nil
    · cases vs
      rfl
  | .cons hdr ty rest, all, [], k, cs, h, _ => by
    obtain rfl : cs = [] := h
    refine fields_nil trivial (fun ctx addr vs => ?_) fun vs hblank => hblank
    cases vs
    simp only [encodeFields]
    exact Writes.nothing none
  -- the children come in the order of the fields: first those of this one
  | .cons hdr ty rest, all, .valueField fi :: slots, k, cs, h, hsize => by
    have hcs := ownBlocks_append all k fi cs
    have hmem : ∀ c ∈ ownBlocks all k fi cs ++ otherBlocks all k fi cs, c.Sized := by
      rw [hcs]
      exact hsize
    have hv := canonical_reads ty .any tagNone (some fi) _ h.1 fun c hc => hmem c (List.mem_append_left _ hc)
    have hvs := fieldsCanonical_reads rest all slots (k + 1) _ h.2 fun c hc => hmem c (List.mem_append_right _ hc)
    have hcons := ReadsFields.cons hdr (fun c hc => findField_of_mem_ownBlocks hc) hv hvs
    rw [hcs] at hcons
    refine hcons.mono id ?_
    rintro (_ | ⟨v, vs⟩) _ - ⟨w, us, rfl, hw, htag, hus⟩
    refine ⟨?_, fun ctx addr => ?_⟩
    · rw [ttlvTagValue_cons_skip (fun fi h => by cases h), htag,
        ttlvTagValue_cons_skip (fun fi h => by cases h)]
      rfl
    · simp only [encodeFields]
      have happend := (hw ⟨ctx.currStruct, fi.name⟩ addr).append (hus ctx addr)
        (encode_outlines reg _ .any addr tagNone (some fi) w) (encodeFields_outlines reg ctx addr slots us)
      rw [hcs] at happend
      exact happend
  -- the two other kinds of fields take no children, and hold no slices
  | .cons hdr ty rest, all, .skipped :: slots, k, cs, h, hsize => by
    have hvs := fieldsCanonical_reads rest all slots (k + 1) cs h hsize
    refine (hvs.skip (fun fi h => by cases h) hdr).mono id ?_
    rintro (_ | ⟨v, vs⟩) _ ⟨hv, -⟩ ⟨us, rfl, htag, hus⟩
    refine ⟨?_, fun ctx addr => ?_⟩
    · rw [ttlvTagValue_cons_skip (fun fi h => by cases h), htag,
        ttlvTagValue_cons_skip (fun fi h => by cases h)]
      rfl
    · simp only [encodeFields]
      rw [fieldPlaces, placesRaws, FieldVals.head, hv]
      exact hus ctx addr
  | .cons hdr ty rest, all, .tagField fi :: slots, k, cs, h, hsize => by
    have hvs := fieldsCanonical_reads rest all slots (k + 1) cs h hsize
    refine (hvs.skip (fun fi h => by cases h) hdr).mono id ?_
    rintro (_ | ⟨v, vs⟩) _ ⟨hv, -⟩ ⟨us, rfl, -, hus⟩
    refine ⟨ttlvTagValue_cons_tag fi slots _ us vs, fun ctx addr => ?_⟩
    simp only [encodeFields]
    rw [fieldPlaces, placesRaws, FieldVals.head, hv]
    exact hus ctx addr
end

/-! ## The laws about raw fields -/

variable (reg)

/-- What `Unmarshal` and then `Marshal` make of a canonical message. -/
theorem canonical_runs {n : GoString} {fs : Fields} {b : Block} (hsize : b.Sized)
    (h : Canonical reg tagNone none (.struct n fs) [b]) :
    Runs (Kept reg .any tagNone none (.struct n fs) [b])
      (fun v => Back reg (Kept reg .any tagNone none (.struct n fs) [b]) .any tagNone none [b] v)
      (unmarshalBytes reg (.struct n fs) b.bytes) := by
  rw [unmarshalBytes_block reg n fs hsize]
  exact canonical_reads (.struct n fs) .any tagNone none [b] h
    (fun c hc => by rw [List.mem_singleton.mp hc]; exact hsize) newDecoder [] rfl

/-- After `Unmarshal`, every captured TTLV is exactly its own block if and only if every slice that is stored is
    the last child of its structure.  A canonical message comes through `Unmarshal` and `Marshal` with both laws
    intact if and only if, moreover, everything in it is kept; and one that is kept comes back just if its stored
    slices are last. -/
theorem captured_iff (n : GoString) (fs : Fields) (b : Block) (hsize : b.Sized) :
    (∀ v, unmarshalBytes reg (.struct n fs) b.bytes = (v, .ok ()) →
      ((∀ c ∈ captured v, c.block = c) ↔ ∀ c ∈ stored reg (.struct n fs) b.bytes, c.next = none)) ∧
    (Canonical reg tagNone none (.struct n fs) [b] →
      ((∃ v, unmarshalBytes reg (.struct n fs) b.bytes = (v, .ok ()) ∧ (∀ c ∈ captured v, c.block = c) ∧
          marshal reg v = .ok b.bytes) ↔
        (∀ c ∈ stored reg (.struct n fs) b.bytes, c.next = none) ∧
          Kept reg .any tagNone none (.struct n fs) [b])) ∧
    (Canonical reg tagNone none (.struct n fs) [b] → Kept reg .any tagNone none (.struct n fs) [b] →
      ((∃ v, unmarshalBytes reg (.struct n fs) b.bytes = (v, .ok ()) ∧ marshal reg v = .ok b.bytes) ↔
        ∀ c ∈ stored reg (.struct n fs) b.bytes, c.next = none)) := by
  have hvalid : TTLV.IsValid b.bytes := isValid_iff.mpr ⟨b, hsize, [], (List.append_nil _).symm⟩
  have hblocks : ∀ v, unmarshalBytes reg (.struct n fs) b.bytes = (v, .ok ()) →
      ((∀ c ∈ captured v, c.block = c) ↔ ∀ c ∈ stored reg (.struct n fs) b.bytes, c.next = none) := by
    intro v hv
    rw [captured_eq_stored reg hv]
    constructor
    · exact fun h c hc => (block_eq_iff_next (isValid_of_mem_stored reg hvalid hc)).mp (h c hc)
    · exact fun h c hc => (block_eq_iff_next (isValid_of_mem_stored reg hvalid hc)).mpr (h c hc)
  -- a message that is kept is decoded, and written with everything that has been stored
  have hkept : Canonical reg tagNone none (.struct n fs) [b] → Kept reg .any tagNone none (.struct n fs) [b] →
      ∃ v out, unmarshalBytes reg (.struct n fs) b.bytes = (v, .ok ()) ∧ marshal reg v = .ok out ∧
        Reproduces (stored reg (.struct n fs) b.bytes) b.bytes out := by
    intro hcanon hkept
    obtain ⟨v, hv, hback⟩ := (canonical_runs reg hsize hcanon).result hkept
    obtain ⟨out, hw, hout⟩ := (hback Ctx.top false).back hkept
    rw [blocksBytes_single, captured_eq_stored reg hv] at hout
    exact ⟨v, out, hv, marshal_of_writes reg hw, hout⟩
  refine ⟨hblocks, fun hcanon => ⟨?_, ?_⟩, fun hcanon hk => ⟨?_, fun hlast => ?_⟩⟩
  · rintro ⟨v, hv, hown, hmarshal⟩
    have hlast := (hblocks v hv).mp hown
    refine ⟨hlast, ?_⟩
    have hruns := canonical_runs reg hsize hcanon
    rw [hv] at hruns
    refine Recodes.kept_of_single ((hruns.good rfl Ctx.top false).only ?_ b.bytes (writes_of_marshal reg hmarshal))
    rw [captured_eq_stored reg hv]
    exact hlast
  · rintro ⟨hlast, hk⟩
    obtain ⟨v, out, hv, hmarshal, hout⟩ := hkept hcanon hk
    rw [hout.same hlast] at hmarshal
    exact ⟨v, hv, (hblocks v hv).mpr hlast, hmarshal⟩
  · rintro ⟨w, hw, hback⟩
    obtain ⟨v, out, hv, hmarshal, hout⟩ := hkept hcanon hk
    rw [hv, Prod.mk.injEq] at hw
    rw [← hw.1, hmarshal, Except.ok.injEq] at hback
    by_contra hnot
    have hlonger := hout.longer hnot
    rw [hback] at hlonger
    exact Nat.lt_irrefl _ hlonger
  · obtain ⟨v, out, hv, hmarshal, hout⟩ := hkept hcanon hk
    rw [hout.same hlast] at hmarshal
    exact ⟨v, hv, hmarshal⟩

end

/-- A message with a single raw field, and a block for it. -/
def payloadFields : Fields := field "RequestPayload" .iface .nil

theorem requestMessageTag_valid : Tag.Valid 0x420078 := by decide

theorem requestPayloadTag_valid : Tag.Valid 0x420079 := by decide

def payloadBlock : Block :=
  .struct ⟨0x420078, requestMessageTag_valid⟩ [.struct ⟨0x420079, requestPayloadTag_valid⟩ []]

def payloadInfo : TypeInfo :=
  ⟨0x420078, [.valueField ⟨lit "RequestPayload", tagNone, 0x420079, noFlags, .iface⟩]⟩

theorem getTypeInfo_payload :
    getTypeInfo requestRegistry (.struct (lit "RequestMessage") payloadFields) = .ok payloadInfo := by
  have hti : (getTypeInfo requestRegistry (.struct (lit "RequestMessage") payloadFields)).toOption =
      some payloadInfo := by
    decide +kernel
  cases h : getTypeInfo requestRegistry (.struct (lit "RequestMessage") payloadFields) with
  | error e =>
    rw [h] at hti
    cases hti
  | ok ti =>
    rw [h] at hti
    cases hti
    rfl

theorem canonical_payloadBlock :
    Canonical requestRegistry tagNone none (.struct (lit "RequestMessage") payloadFields) [payloadBlock] :=
  ⟨_, _, _, getTypeInfo_payload, rfl, .inr (.inl ⟨_, _, rfl⟩), rfl⟩

theorem kept_payloadBlock :
    Kept requestRegistry .any tagNone none (.struct (lit "RequestMessage") payloadFields) [payloadBlock] := by
  intro ti t cs hti hcs
  rw [getTypeInfo_payload] at hti
  cases hti
  cases hcs
  exact ⟨rfl, rfl, .inr ⟨rfl, fun t l h => by cases h⟩, trivial⟩

theorem stored_payloadBlock :
    stored requestRegistry (.struct (lit "RequestMessage") payloadFields) payloadBlock.bytes =
      [item 0x420079 .Structure []] := by
  decide +kernel

theorem captured_iff_payloadBlock :
    ∃ v, unmarshalBytes requestRegistry (.struct (lit "RequestMessage") payloadFields) payloadBlock.bytes =
        (v, .ok ()) ∧
      (∀ c ∈ captured v, c.block = c) ∧ marshal requestRegistry v = .ok payloadBlock.bytes := by
  have h := captured_iff requestRegistry (lit "RequestMessage") payloadFields payloadBlock
    (show (blocksBytes _).length < 2 ^ 32 by decide)
  refine (h.2.1 canonical_payloadBlock).mpr ⟨?_, kept_payloadBlock⟩
  rw [stored_payloadBlock]
  intro c hc
  rw [List.mem_singleton.mp hc]
  decide +kernel

/-- The payload may also be a ByteString of length zero.  Nothing is stored then, and it is lost. -/
def emptyPayload : Bytes := item 0x420078 .Structure (item 0x420079 .ByteString [])

example :
    (unmarshalBytes requestRegistry (.struct (lit "RequestMessage") payloadFields) emptyPayload).2 = .ok () ∧
    stored requestRegistry (.struct (lit "RequestMessage") payloadFields) emptyPayload = [] ∧
    (marshal requestRegistry (unmarshalBytes requestRegistry (.struct (lit "RequestMessage") payloadFields)
      emptyPayload).1).toOption = some (item 0x420078 .Structure []) := by
  decide +kernel

/-- A request with one batch item, whose empty payload is followed by a message extension. -/
def extendedRequest : Bytes :=
  item 0x420078 .Structure
    (item 0x420077 .Structure
      (item 0x420069 .Structure
        ((Prim.integer 1).item 0x42006a ++ (Prim.integer 4).item 0x42006b) ++
        (Prim.integer 1).item 0x42000d) ++
    item 0x42000f .Structure
      ((Prim.enumeration 1).item 0x42005c ++ item 0x420079 .Structure [] ++
        item 0x420051 .Structure
          ((Prim.textString []).item 0x42009d ++ (Prim.boolean false).item 0x420026)))

/-- The payload is captured together with the extension, which is then encoded twice. -/
theorem extendedRequest_overread :
    (unmarshalBytes requestRegistry requestMessage extendedRequest).2 = .ok () ∧
    (captured (unmarshalBytes requestRegistry requestMessage extendedRequest).1).map List.length = [40] ∧
    (captured (unmarshalBytes requestRegistry requestMessage extendedRequest).1).map
      (fun c => c.block.length) = [8] ∧
    (marshal requestRegistry (unmarshalBytes requestRegistry requestMessage extendedRequest).1).toOption ≠
      some extendedRequest := by
  decide +kernel

end KmipGo.Codec
