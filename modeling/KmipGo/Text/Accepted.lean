import KmipGo.Text.Form

/-! # What a text decoder accepts

The decoders of both text forms read the tag and the type of a document, and
then a leaf or the children of a structure.  A `View` is what they see in a
document.  A type may also be one that the switch over the types has no case for;
then nothing is written at all.

* `Mirrors` — the bytes are one valid block, and in a structure, at each level, there
  is one block for each child of the document, in the same order.
* `Representable` — each type in the document has a case, and each tag is valid.
* `Accepts.mirrors_iff` — what was accepted mirrors its document iff the document is
  representable.
-/

namespace KmipGo.Text

open KmipGo.Lib KmipGo.Ttlv KmipGo.Reg

/-- What a decoder sees in a document. -/
inductive View (D : Type) where
  /-- a type without a case -/
  | unknown
  | leaf (tag : Tag) (ty : Typ)
  | struct (tag : Tag) (children : List D)

def View.children {D : Type} : View D → List D
  | .struct _ ds => ds
  | _ => []

/-- The slice is one block and nothing else. -/
structure OneBlock (t : TTLV) : Prop where
  ne_nil : t ≠ []
  valid : t.IsValid
  fullLen : t.fullLen = some t.length

section

variable {D : Type}

/-- The slice is one block that was read from the document, and the blocks in it were read from the
    children of the document. -/
inductive Mirrors (dec : Tag → D → Option Bytes) (view : D → View D) : D → TTLV → Prop where
  | mk {d : D} {t : TTLV} (hdec : ∃ attr, dec attr d = some t) (hblock : OneBlock t)
      (hchildren : t.typ = some .Structure →
        List.Forall₂ (Mirrors dec view) (view d).children (t.children.map TTLV.block)) :
      Mirrors dec view d t

/-- Every type has a case, and every tag is valid on the wire. -/
inductive Representable (view : D → View D) : D → Prop where
  | leaf {d : D} {tag : Tag} {ty : Typ} (hview : view d = .leaf tag ty) (htag : (wireTag tag).Valid) :
      Representable view d
  | struct {d : D} {tag : Tag} {ds : List D} (hview : view d = .struct tag ds)
      (htag : (wireTag tag).Valid) (hchildren : ∀ c ∈ ds, Representable view c) : Representable view d

/-- What a decoder writes for a document, as seen through the view. -/
def Written (reg : Registry) (title : Bytes → Bytes) (dec : Tag → D → Option Bytes) (out : Bytes) :
    View D → Prop
  | .unknown => out = []
  | .leaf tag ty => ∃ p value, Prim.content p = some (ty, value) ∧ out = p.item tag
  | .struct tag ds =>
    ∃ body, decodeChildren reg title dec tagNone ds = some body ∧ out = item tag .Structure body

def Accepts (reg : Registry) (title : Bytes → Bytes) (dec : Tag → D → Option Bytes)
    (view : D → View D) : Prop :=
  ∀ attr d out, dec attr d = some out → Written reg title dec out (view d)

/-! ## Blocks -/

theorem oneBlock_iff {t : TTLV} : OneBlock t ↔ ∃ b : Block, b.Sized ∧ t = b.bytes := by
  constructor
  · intro h
    obtain ⟨b, hsize, rest, rfl⟩ := isValid_iff.mp h.valid
    have hlen := h.fullLen
    rw [fullLen_bytes_append b rest hsize, Option.some.injEq, List.length_append] at hlen
    have hrest : rest = [] := List.eq_nil_of_length_eq_zero (by omega)
    exact ⟨b, hsize, by rw [hrest, List.append_nil]⟩
  · rintro ⟨b, hsize, rfl⟩
    have hge := b.length_ge
    refine ⟨fun hnil => ?_, isValid_iff.mpr ⟨b, hsize, [], (List.append_nil _).symm⟩, ?_⟩
    · rw [hnil] at hge
      cases hge
    · have hlen := fullLen_bytes_append b [] hsize
      rwa [List.append_nil] at hlen

theorem item_wireTag (tag : Tag) (ty : Typ) (value : Bytes) :
    item (wireTag tag) ty value = item tag ty value := by
  apply (item_eq_iff rfl).mpr
  refine ⟨?_, rfl⟩
  rw [wireTag, BitVec.toNat_ofNat]
  omega

theorem prim_item_wireTag (tag : Tag) (p : Prim) : p.item (wireTag tag) = p.item tag := by
  rw [Prim.item, Prim.item]
  cases p.content with
  | none => rfl
  | some c => exact item_wireTag tag c.1 c.2

/-- An item in a valid slice has a valid tag. -/
theorem OneBlock.wireTag_valid {tag : Tag} {ty : Typ} {value : Bytes}
    (h : OneBlock (item tag ty value)) : (wireTag tag).Valid := by
  have hvalid := tag_valid_of_validHeader (validHeader_of_isValid h.valid)
  have htag := tag_item_append tag ty value []
  rw [List.append_nil] at htag
  rwa [htag] at hvalid

theorem map_block_children {tag : ValidTag} {bs : List Block} (hsize : (Block.struct tag bs).Sized) :
    (TTLV.children (Block.struct tag bs).bytes).map TTLV.block = bs.map Block.bytes := by
  have hslices := children_struct_append tag bs [] hsize
  rw [List.append_nil] at hslices
  rw [hslices]
  exact map_block_slices (fun c hc => Sized.of_mem hc hsize) []

/-- The blocks in a structure are shorter than it. -/
theorem OneBlock.length_lt {t o : TTLV} (h : OneBlock t) (hstruct : t.typ = some .Structure)
    (ho : o ∈ t.children.map TTLV.block) : o.length < t.length := by
  obtain ⟨b, hsize, rfl⟩ := oneBlock_iff.mp h
  cases b with
  | leaf tag l =>
    have htyp := typ_leaf_append tag l []
    rw [List.append_nil, hstruct] at htyp
    exact absurd (Option.some.inj htyp).symm (leaf_ty_ne l)
  | struct tag bs =>
    rw [map_block_children hsize, List.mem_map] at ho
    obtain ⟨b, hb, rfl⟩ := ho
    have hle := length_le_of_mem hb
    rw [length_struct]
    omega

/-! ## The loop over the children -/

variable {reg : Registry} {title : Bytes → Bytes} {dec : Tag → D → Option Bytes} {view : D → View D}

theorem decodeChildren_eq_some {ds : List D} {attr : Tag} {body : Bytes}
    (h : decodeChildren reg title dec attr ds = some body) :
    ∃ outs : List Bytes, List.Forall₂ (fun d out => ∃ attr, dec attr d = some out) ds outs ∧
      body = outs.flatten := by
  induction ds generalizing attr body with
  | nil =>
    cases h
    exact ⟨[], .nil, rfl⟩
  | cons d ds ih =>
    rw [decodeChildren, Option.bind_eq_some_iff] at h
    obtain ⟨out, hd, hrest⟩ := h
    obtain ⟨rest, hds, rfl⟩ := Option.map_eq_some_iff.mp hrest
    obtain ⟨outs, houts, rfl⟩ := ih hds
    exact ⟨out :: outs, .cons ⟨attr, hd⟩ houts, rfl⟩

theorem mirrors_children {ds : List D} {outs : List Bytes}
    (h : List.Forall₂ (fun d out => ∃ attr, dec attr d = some out) ds outs)
    (hlen : outs.flatten.length < 2 ^ 32)
    (ih : ∀ c ∈ ds, ∀ attr out, dec attr c = some out → out.length < 2 ^ 32 → Mirrors dec view c out) :
    List.Forall₂ (Mirrors dec view) ds outs := by
  induction h with
  | nil => exact .nil
  | @cons d out ds outs hd _ ihs =>
    obtain ⟨attr, hd⟩ := hd
    rw [List.flatten_cons, List.length_append] at hlen
    refine .cons (ih d (List.mem_cons_self ..) attr out hd (by omega)) ?_
    exact ihs (by omega) (fun c hc => ih c (List.mem_cons_of_mem d hc))

theorem Mirrors.oneBlock {d : D} {t : TTLV} (h : Mirrors dec view d t) : OneBlock t := by
  cases h with
  | mk _ hblock _ => exact hblock

theorem exists_blocks_of_mirrors {ds : List D} {outs : List Bytes}
    (h : List.Forall₂ (Mirrors dec view) ds outs) : ∃ bs : List Block, outs = bs.map Block.bytes := by
  induction h with
  | nil => exact ⟨[], rfl⟩
  | cons hd _ ih =>
    obtain ⟨b, -, rfl⟩ := oneBlock_iff.mp hd.oneBlock
    obtain ⟨bs, rfl⟩ := ih
    exact ⟨b :: bs, rfl⟩

theorem exists_mirror_of_mem {ds : List D} {outs : List Bytes}
    (h : List.Forall₂ (Mirrors dec view) ds outs) {c : D} (hc : c ∈ ds) :
    ∃ out ∈ outs, Mirrors dec view c out := by
  induction h with
  | nil => cases hc
  | @cons d out ds outs hd _ ih =>
    cases hc with
    | head => exact ⟨out, List.mem_cons_self .., hd⟩
    | tail _ hc =>
      obtain ⟨o, ho, hm⟩ := ih hc
      exact ⟨o, List.mem_cons_of_mem _ ho, hm⟩

/-! ## Documents -/

theorem Accepts.mirrors_leaf (ha : Accepts reg title dec view) {d : D} {tag : Tag} {ty : Typ}
    (hview : view d = .leaf tag ty) (htag : (wireTag tag).Valid) {attr : Tag} {out : Bytes}
    (hdec : dec attr d = some out) (hlen : out.length < 2 ^ 32) : Mirrors dec view d out := by
  have hwritten := ha attr d out hdec
  rw [hview] at hwritten
  obtain ⟨p, value, hp, rfl⟩ := hwritten
  rw [← prim_item_wireTag] at hlen
  obtain ⟨l, -, -, hbytes⟩ := exists_leaf_of_prim ⟨wireTag tag, htag⟩ hp hlen
  have hitem : p.item tag = (Block.leaf ⟨wireTag tag, htag⟩ l).bytes := by
    rw [hbytes, prim_item_wireTag]
  refine .mk ⟨attr, hdec⟩ (oneBlock_iff.mpr ⟨.leaf ⟨wireTag tag, htag⟩ l, trivial, hitem⟩) fun hstruct => ?_
  have htyp := typ_leaf_append ⟨wireTag tag, htag⟩ l []
  rw [List.append_nil, ← hitem, hstruct] at htyp
  exact absurd (Option.some.inj htyp).symm (leaf_ty_ne l)

theorem Accepts.mirrors_struct (ha : Accepts reg title dec view) {d : D} {tag : Tag} {ds : List D}
    (hview : view d = .struct tag ds) (htag : (wireTag tag).Valid)
    (ih : ∀ c ∈ ds, ∀ attr out, dec attr c = some out → out.length < 2 ^ 32 → Mirrors dec view c out)
    {attr : Tag} {out : Bytes} (hdec : dec attr d = some out) (hlen : out.length < 2 ^ 32) :
    Mirrors dec view d out := by
  have hwritten := ha attr d out hdec
  rw [hview] at hwritten
  obtain ⟨body, hbody, rfl⟩ := hwritten
  obtain ⟨outs, houts, rfl⟩ := decodeChildren_eq_some hbody
  rw [length_item] at hlen
  have hmirrors := mirrors_children houts (by omega) ih
  obtain ⟨bs, rfl⟩ := exists_blocks_of_mirrors hmirrors
  rw [← blocksBytes_eq_flatten] at hlen
  have hsize : (Block.struct ⟨wireTag tag, htag⟩ bs).Sized := by
    show (blocksBytes bs).length < 2 ^ 32
    omega
  have hitem : item tag .Structure (bs.map Block.bytes).flatten =
      (Block.struct ⟨wireTag tag, htag⟩ bs).bytes := by
    rw [← blocksBytes_eq_flatten, ← item_wireTag, item_structure, Block.bytes]
  refine .mk ⟨attr, hdec⟩ (oneBlock_iff.mpr ⟨_, hsize, hitem⟩) fun _ => ?_
  rw [hview, hitem, map_block_children hsize]
  exact hmirrors

theorem Accepts.mirrors (ha : Accepts reg title dec view) {d : D} (h : Representable view d) :
    ∀ attr out, dec attr d = some out → out.length < 2 ^ 32 → Mirrors dec view d out := by
  induction h with
  | leaf hview htag => exact fun _ _ => ha.mirrors_leaf hview htag
  | struct hview htag _ ih => exact fun _ _ => ha.mirrors_struct hview htag ih

theorem Accepts.representable (ha : Accepts reg title dec view) {t : TTLV} {d : D}
    (h : Mirrors dec view d t) : Representable view d := by
  -- the blocks of the children are shorter
  induction hn : t.length using Nat.strongRecOn generalizing t d with
  | ind n ih =>
    cases h with
    | mk hdec hblock hchildren =>
      obtain ⟨attr, hdec⟩ := hdec
      have hwritten := ha attr d t hdec
      cases hview : view d with
      | unknown =>
        rw [hview] at hwritten
        exact absurd hwritten hblock.ne_nil
      | leaf tag ty =>
        rw [hview] at hwritten
        obtain ⟨p, value, hp, rfl⟩ := hwritten
        rw [Prim.item, hp] at hblock
        exact .leaf hview hblock.wireTag_valid
      | struct tag ds =>
        rw [hview] at hwritten
        obtain ⟨body, -, rfl⟩ := hwritten
        have hall := hchildren (typ_item tag .Structure body)
        rw [hview] at hall
        refine .struct hview hblock.wireTag_valid fun c hc => ?_
        obtain ⟨out, hout, hmirror⟩ := exists_mirror_of_mem hall hc
        exact ih out.length (hn ▸ hblock.length_lt (typ_item ..) hout) hmirror rfl

/-- What was accepted mirrors its document iff the document is representable. -/
theorem Accepts.mirrors_iff (ha : Accepts reg title dec view) {d : D} {attr : Tag} {out : Bytes}
    (hdec : dec attr d = some out) (hlen : out.length < 2 ^ 32) :
    Mirrors dec view d out ↔ Representable view d :=
  ⟨ha.representable, fun h => ha.mirrors h attr out hdec hlen⟩

end

end KmipGo.Text
