import KmipGo.Registry.Consistent
import KmipGo.Ttlv.Canonical

/-! # Text forms of blocks

The JSON and XML encoders of `ttlv/ttlv.go` walk a block the same way.  A leaf is
written by itself.  In a structure, the text of an AttributeName names a tag, and
the Enumeration and Integer values under AttributeValue that follow are written
with the enumeration of that tag; the decoders keep the same running tag.

A `Form` is the three kinds of documents that such an encoder writes, over an
arbitrary type of documents.  `Reads` says what a decoder has to do with each
kind, and under which conditions it gets the leaf, the value or the tag right.
`Reads.decode_encode_iff`: the decoder undoes the encoder on a block iff these
conditions hold at each of its structures and attribute values.
-/

namespace KmipGo.Text

open KmipGo.Lib KmipGo.Ttlv KmipGo.Reg

/-- The type and tag of a leaf that is written with the enumeration of an attribute. -/
def Block.attributeScalar : Block → Option Leaf
  | .leaf tag l =>
    if tag.1 = tagAttributeValue ∧ (l.ty = .Enumeration ∨ l.ty = .Integer) then some l else none
  | .struct _ _ => none

/-- The documents an encoder writes. -/
structure Form (D : Type) where
  leaf : ValidTag → Leaf → D
  /-- an attribute value, under the tag its attribute name stands for -/
  attributeValue : Tag → Leaf → D
  struct : ValidTag → List D → D

section

variable (reg : Registry) (title : Bytes → Bytes)

/-- The running tag of a loop over children, after the child `t`. -/
def nextAttr (attr : Tag) (t : TTLV) : Tag :=
  if t.tag = tagAttributeName then reg.parseTagOrNone (normalizeName title t.valueTextString) else attr

/-- The tag whose enumeration the names of a value are looked up in. -/
def enumTag (tag attrTag : Tag) : Tag :=
  if tag = tagAttributeValue ∧ attrTag ≠ tagNone then attrTag else tag

variable {D : Type} (F : Form D)

mutual
def Form.encode : Block → D
  | .leaf tag l => F.leaf tag l
  | .struct tag cs => F.struct tag (Form.encodeChildren tagNone cs)

def Form.encodeChildren (attr : Tag) : List Block → List D
  | [] => []
  | c :: cs =>
    (match Block.attributeScalar c with
      | some l => F.attributeValue (nextAttr reg title attr c.bytes) l
      | none => Form.encode c) :: Form.encodeChildren (nextAttr reg title attr c.bytes) cs
end

/-- The loop of a decoder over the children of a structure. -/
def decodeChildren (dec : Tag → D → Option Bytes) (attr : Tag) : List D → Option Bytes
  | [] => some []
  | d :: ds =>
    (dec attr d).bind fun out =>
      (decodeChildren dec (nextAttr reg title attr out) ds).map fun rest => out ++ rest

section

variable (canon : ValidTag → Leaf → Prop) (governed : Tag → Leaf → Prop)

mutual
/-- Every leaf is canonical, and every attribute value is one that its attribute allows. -/
def Canonical : Block → Prop
  | .leaf tag l => canon tag l
  | .struct _ cs => ChildrenCanonical tagNone cs

def ChildrenCanonical (attr : Tag) : List Block → Prop
  | [] => True
  | c :: cs =>
    Canonical c ∧ (∀ l, Block.attributeScalar c = some l → governed (nextAttr reg title attr c.bytes) l) ∧
      ChildrenCanonical (nextAttr reg title attr c.bytes) cs
end

end

section

variable (tagOk : ValidTag → Prop) (valueOk : Tag → Leaf → Prop)

mutual
/-- The conditions of a decoder hold at every structure and at every attribute value. -/
def Faithful : Block → Prop
  | .leaf _ _ => True
  | .struct tag cs => tagOk tag ∧ ChildrenFaithful tagNone cs

def ChildrenFaithful (attr : Tag) : List Block → Prop
  | [] => True
  | c :: cs =>
    (match Block.attributeScalar c with
      | some l => valueOk (nextAttr reg title attr c.bytes) l
      | none => Faithful c) ∧ ChildrenFaithful (nextAttr reg title attr c.bytes) cs
end

end

/-- What a decoder does with the documents of a form. -/
structure Reads (dec : Tag → D → Option Bytes) (readTag : ValidTag → Option Tag)
    (canon : ValidTag → Leaf → Prop) (governed : Tag → Leaf → Prop)
    (tagOk : ValidTag → Prop) (valueOk : Tag → Leaf → Prop) : Prop where
  leaf : ∀ attr tag l, canon tag l → (Block.attributeScalar (.leaf tag l) = none ∨ attr = tagNone) →
    dec attr (F.leaf tag l) = some (Block.leaf tag l).bytes
  value_length : ∀ attr attr' l out, dec attr (F.attributeValue attr' l) = some out →
    (l.ty = .Enumeration ∨ l.ty = .Integer) → out.length = 16
  value_iff : ∀ attr tag l, canon tag l → Block.attributeScalar (.leaf tag l) = some l → governed attr l →
    (dec attr (F.attributeValue attr l) = some (Block.leaf tag l).bytes ↔ valueOk attr l)
  struct : ∀ attr tag ds out, dec attr (F.struct tag ds) = some out ↔
    ∃ t body, readTag tag = some t ∧ decodeChildren reg title dec tagNone ds = some body ∧
      out = item t .Structure body
  tag_iff : ∀ tag, (∃ t, readTag tag = some t ∧ t.toNat % 2 ^ 24 = tag.1.toNat) ↔ tagOk tag

/-! ## Attribute values -/

theorem attributeScalar_eq_some {c : Block} {l : Leaf} (h : Block.attributeScalar c = some l) :
    ∃ tag : ValidTag, c = .leaf tag l ∧ tag.1 = tagAttributeValue ∧
      (l.ty = .Enumeration ∨ l.ty = .Integer) := by
  cases c with
  | struct tag cs => cases h
  | leaf tag l' =>
    rw [Block.attributeScalar] at h
    split at h
    · rename_i hcond
      cases h
      exact ⟨tag, rfl, hcond.1, hcond.2⟩
    · cases h

/-- An attribute value does not change the running tag. -/
theorem nextAttr_attributeScalar {c : Block} {l : Leaf} (h : Block.attributeScalar c = some l)
    (attr : Tag) : nextAttr reg title attr c.bytes = attr := by
  obtain ⟨tag, rfl, htag, -⟩ := attributeScalar_eq_some h
  have hb := tag_bytes_append (.leaf tag l) []
  rw [List.append_nil] at hb
  rw [nextAttr, hb, Block.tag, htag, if_neg (by decide)]

/-- The running tag depends on the child only, not on what follows it. -/
theorem nextAttr_bytes_append {c : Block} (h : c.Sized) (attr : Tag) (rest : Bytes) :
    nextAttr reg title attr (c.bytes ++ rest) = nextAttr reg title attr c.bytes := by
  have htag : TTLV.tag (c.bytes ++ rest) = TTLV.tag (c.bytes ++ []) := by
    rw [tag_bytes_append, tag_bytes_append]
  have hraw : TTLV.raw (c.bytes ++ rest) = TTLV.raw (c.bytes ++ []) := by
    cases c with
    | leaf tag l => rw [raw_leaf_append, raw_leaf_append]
    | struct tag cs => rw [raw_struct_append tag cs _ h, raw_struct_append tag cs _ h]
  rw [List.append_nil] at htag hraw
  rw [nextAttr, nextAttr, TTLV.valueTextString, TTLV.valueTextString, htag, hraw]

/-- The test of the encoders for an attribute value. -/
theorem attributeScalar_eq_none_iff (c : Block) (rest : Bytes) :
    Block.attributeScalar c = none ↔
      ¬ (TTLV.tag (c.bytes ++ rest) = tagAttributeValue ∧
        (TTLV.typ (c.bytes ++ rest) = some .Enumeration ∨ TTLV.typ (c.bytes ++ rest) = some .Integer)) := by
  rw [tag_bytes_append]
  cases c with
  | leaf tag l =>
    rw [typ_leaf_append, Block.attributeScalar, Block.tag]
    simp only [Option.some.injEq, ite_eq_right_iff, reduceCtorEq, imp_false]
  | struct tag cs =>
    rw [typ_struct_append, Block.attributeScalar]
    simp

theorem length_attributeScalar {c : Block} {l : Leaf} (h : Block.attributeScalar c = some l) :
    c.bytes.length = 16 := by
  obtain ⟨tag, rfl, -, hty⟩ := attributeScalar_eq_some h
  have hrule := l.rule
  rw [length_leaf]
  rcases hty with hty | hty
  · rw [hty] at hrule
    rw [hrule.1, hrule.2]
  · rw [hty] at hrule
    rw [hrule.1, hrule.2]

/-- The names of a value are looked up where they were written. -/
theorem enumTag_of_plain {tag : ValidTag} {l : Leaf} {attr : Tag} (hty : l.ty = .Enumeration)
    (h : Block.attributeScalar (.leaf tag l) = none ∨ attr = tagNone) :
    enumTag tag.1 attr = tag.1 := by
  rw [enumTag]
  split
  · rename_i hcond
    rcases h with h | h
    · rw [Block.attributeScalar, if_pos ⟨hcond.1, Or.inl hty⟩] at h
      cases h
    · exact absurd h hcond.2
  · rfl

/-- Where the names of an attribute value are looked up. -/
theorem sharesName_enumTag {reg : Registry} {title : Bytes → Bytes} (h : reg.Standard title) (attr t : Tag) (v : BitVec 32) :
    reg.SharesName attr (enumTag t attr) v ↔ t = tagAttributeValue ∨ reg.SharesName attr t v := by
  rw [enumTag]
  by_cases ht : t = tagAttributeValue
  · by_cases hattr : attr = tagNone
    · rw [if_neg (fun hc => hc.2 hattr), hattr]
      exact iff_of_true (h.sharesName_none t v) (Or.inl ht)
    · rw [if_pos ⟨ht, hattr⟩]
      exact iff_of_true (h.sharesName_self attr v) (Or.inl ht)
  · rw [if_neg (fun hc => ht hc.1)]
    exact (or_iff_right ht).symm

/-! ## Structures -/

theorem length_item_of_dvd {tag : Tag} {ty : Typ} {body : Bytes} (h : 8 ∣ body.length) :
    (item tag ty body).length = 8 + body.length := by
  rw [length_item, padTo8_eq_zero h, Nat.add_zero]

theorem beBytes_three_eq_iff (m n : Nat) : beBytes 3 m = beBytes 3 n ↔ m % 2 ^ 24 = n % 2 ^ 24 := by
  constructor
  · intro h
    have hnat := congrArg beNat h
    rw [beNat_beBytes, beNat_beBytes] at hnat
    exact hnat
  · intro h
    apply beNat_inj
    · rw [length_beBytes, length_beBytes]
    · rw [beNat_beBytes, beNat_beBytes]
      exact h

/-- Items of one type and length are equal iff the low three bytes of their tags and their values
    are. -/
theorem item_eq_iff {t u : Tag} {ty : Typ} {value other : Bytes} (hlen : value.length = other.length) :
    item t ty value = item u ty other ↔ t.toNat % 2 ^ 24 = u.toNat % 2 ^ 24 ∧ value = other := by
  rw [item, item, hlen, header, header]
  constructor
  · intro h
    obtain ⟨hhead, hbody⟩ := List.append_inj h rfl
    obtain ⟨hstart, -⟩ := List.append_inj' hhead rfl
    obtain ⟨htag, -⟩ := List.append_inj' hstart rfl
    exact ⟨(beBytes_three_eq_iff _ _).mp htag, (List.append_inj hbody hlen).1⟩
  · rintro ⟨htag, rfl⟩
    rw [(beBytes_three_eq_iff _ _).mpr htag]

theorem item_eq_struct_iff {t : Tag} {tag : ValidTag} {cs : List Block} {body : Bytes}
    (hlen : body.length = (blocksBytes cs).length) :
    item t .Structure body = (Block.struct tag cs).bytes ↔
      t.toNat % 2 ^ 24 = tag.1.toNat ∧ body = blocksBytes cs := by
  have hsmall : tag.1.toNat % 2 ^ 24 = tag.1.toNat := Nat.mod_eq_of_lt tag.toNat_lt
  rw [Block.bytes, ← item_structure, item_eq_iff hlen, hsmall]

/-- The encoding of a value under a tag with the same low three bytes. -/
theorem item_prim_iff {t : Tag} {tag : ValidTag} {l : Leaf} (h : l.Canonical) :
    l.prim.item t = (Block.leaf tag l).bytes ↔ t.toNat % 2 ^ 24 = tag.1.toNat := by
  have hsmall : tag.1.toNat % 2 ^ 24 = tag.1.toNat := Nat.mod_eq_of_lt tag.toNat_lt
  rw [← item_prim tag h, Prim.item, Prim.item, content_prim h, item_eq_iff rfl, hsmall]
  exact and_iff_left rfl

/-- Different values of an enumeration have different encodings. -/
theorem enumeration_of_item_eq {t : Tag} {tag : ValidTag} {l : Leaf} (h : l.Canonical)
    (hty : l.ty = .Enumeration) {v : BitVec 32}
    (heq : (Prim.enumeration v).item t = (Block.leaf tag l).bytes) : v = l.uint32 := by
  have hprim : l.prim = .enumeration l.uint32 := by
    rw [Leaf.prim, hty]
  rw [← item_prim tag h, hprim, Prim.item, Prim.item, Prim.content, Prim.content,
    item_eq_iff (by rw [length_beBytes, length_beBytes])] at heq
  have hv := v.isLt
  have hl := l.uint32.isLt
  have hnat := congrArg beNat heq.2
  rw [beNat_beBytes_of_lt (by omega), beNat_beBytes_of_lt (by omega)] at hnat
  exact BitVec.eq_of_toNat_eq hnat

/-! ## Conditions on blocks -/

mutual
/-- Two sets of conditions hold together iff each of them does. -/
theorem faithful_and_iff {tagOk tagOk' : ValidTag → Prop} {valueOk valueOk' : Tag → Leaf → Prop} :
    ∀ c : Block, Faithful reg title (fun t => tagOk t ∧ tagOk' t)
      (fun attr l => valueOk attr l ∧ valueOk' attr l) c ↔
      Faithful reg title tagOk valueOk c ∧ Faithful reg title tagOk' valueOk' c
  | .leaf tag l => (and_iff_left trivial).symm
  | .struct tag cs => by
    rw [Faithful, Faithful, Faithful, childrenFaithful_and_iff cs tagNone, and_and_and_comm]

theorem childrenFaithful_and_iff {tagOk tagOk' : ValidTag → Prop}
    {valueOk valueOk' : Tag → Leaf → Prop} : ∀ (cs : List Block) (attr : Tag),
    ChildrenFaithful reg title (fun t => tagOk t ∧ tagOk' t)
      (fun attr l => valueOk attr l ∧ valueOk' attr l) attr cs ↔
      ChildrenFaithful reg title tagOk valueOk attr cs ∧
        ChildrenFaithful reg title tagOk' valueOk' attr cs
  | [], attr => (and_iff_left trivial).symm
  | c :: cs, attr => by
    rw [ChildrenFaithful, ChildrenFaithful, ChildrenFaithful, childrenFaithful_and_iff cs,
      and_and_and_comm]
    cases Block.attributeScalar c with
    | none => simp only [faithful_and_iff c]
    | some l => rfl
end

/-! ## Decoding what was encoded -/

namespace Reads

variable {reg title F}
variable {dec : Tag → D → Option Bytes} {readTag : ValidTag → Option Tag}
  {canon : ValidTag → Leaf → Prop} {governed : Tag → Leaf → Prop} {tagOk : ValidTag → Prop}
  {valueOk : Tag → Leaf → Prop}
variable (h : Reads reg title F dec readTag canon governed tagOk valueOk)

include h

-- A decoder that goes wrong still writes as many bytes as the block has.  So a wrong result is wrong
-- at the place of the child that was misread, and cannot be made up for by the next one.
mutual
theorem length_decode : ∀ (c : Block) (attr : Tag) (out : Bytes),
    Canonical reg title canon governed c → Block.attributeScalar c = none →
    dec attr (F.encode reg title c) = some out → out.length = c.bytes.length
  | .leaf tag l, attr, out, hcanon, hplain, hdec => by
    rw [Form.encode, h.leaf attr tag l hcanon (Or.inl hplain)] at hdec
    rw [← Option.some.inj hdec]
  | .struct tag cs, attr, out, hcanon, _, hdec => by
    rw [Form.encode, h.struct] at hdec
    obtain ⟨t, body, -, hbody, rfl⟩ := hdec
    have hlen := length_decodeChildren cs tagNone tagNone body hcanon hbody
    have hdvd : 8 ∣ body.length := by
      rw [hlen]
      exact blocksBytes_dvd cs
    rw [length_item_of_dvd hdvd, length_struct, hlen]

theorem length_decodeChildren : ∀ (cs : List Block) (attr attr' : Tag) (out : Bytes),
    ChildrenCanonical reg title canon governed attr' cs →
    decodeChildren reg title dec attr (F.encodeChildren reg title attr' cs) = some out →
    out.length = (blocksBytes cs).length
  | [], attr, attr', out, _, hdec => by
    rw [Form.encodeChildren, decodeChildren] at hdec
    rw [← Option.some.inj hdec]
    rfl
  | c :: cs, attr, attr', out, hcanon, hdec => by
    obtain ⟨hc, -, hcs⟩ := hcanon
    rw [Form.encodeChildren, decodeChildren, Option.bind_eq_some_iff] at hdec
    obtain ⟨first, hfirst, hrest⟩ := hdec
    rw [Option.map_eq_some_iff] at hrest
    obtain ⟨rest, hrest, rfl⟩ := hrest
    have hlen : first.length = c.bytes.length := by
      cases hscalar : Block.attributeScalar c with
      | some l =>
        rw [hscalar] at hfirst
        obtain ⟨-, -, -, hty⟩ := attributeScalar_eq_some hscalar
        rw [length_attributeScalar hscalar]
        exact h.value_length _ _ l first hfirst hty
      | none =>
        rw [hscalar] at hfirst
        exact length_decode c attr first hc hscalar hfirst
    rw [List.length_append, blocksBytes, List.length_append, hlen,
      length_decodeChildren cs _ _ rest hcs hrest]
end

mutual
theorem decode_iff : ∀ (c : Block) (attr : Tag), Canonical reg title canon governed c →
    (Block.attributeScalar c = none ∨ attr = tagNone) →
    (dec attr (F.encode reg title c) = some c.bytes ↔ Faithful reg title tagOk valueOk c)
  | .leaf tag l, attr, hcanon, hplain => by
    rw [Form.encode, h.leaf attr tag l hcanon hplain]
    exact iff_of_true rfl trivial
  | .struct tag cs, attr, hcanon, _ => by
    rw [Form.encode, h.struct]
    constructor
    · rintro ⟨t, body, htag, hbody, heq⟩
      have hlen := h.length_decodeChildren cs tagNone tagNone body hcanon hbody
      obtain ⟨hlow, rfl⟩ := (item_eq_struct_iff hlen).mp heq.symm
      exact ⟨(h.tag_iff tag).mp ⟨t, htag, hlow⟩, (decodeChildren_iff cs tagNone hcanon).mp hbody⟩
    · rintro ⟨htag, hcs⟩
      obtain ⟨t, hread, hlow⟩ := (h.tag_iff tag).mpr htag
      exact ⟨t, _, hread, (decodeChildren_iff cs tagNone hcanon).mpr hcs,
        ((item_eq_struct_iff rfl).mpr ⟨hlow, rfl⟩).symm⟩

theorem decodeChildren_iff : ∀ (cs : List Block) (attr : Tag),
    ChildrenCanonical reg title canon governed attr cs →
    (decodeChildren reg title dec attr (F.encodeChildren reg title attr cs) = some (blocksBytes cs) ↔
      ChildrenFaithful reg title tagOk valueOk attr cs)
  | [], attr, _ => by
    rw [Form.encodeChildren, decodeChildren]
    exact iff_of_true rfl trivial
  | c :: cs, attr, hcanon => by
    obtain ⟨hc, hgov, hcs⟩ := hcanon
    -- the first child alone
    have hchild : dec attr (match Block.attributeScalar c with
          | some l => F.attributeValue (nextAttr reg title attr c.bytes) l
          | none => F.encode reg title c) = some c.bytes ↔
        (match Block.attributeScalar c with
          | some l => valueOk (nextAttr reg title attr c.bytes) l
          | none => Faithful reg title tagOk valueOk c) := by
      cases hscalar : Block.attributeScalar c with
      | none => exact decode_iff c attr hc (Or.inl hscalar)
      | some l =>
        have hnext := nextAttr_attributeScalar reg title hscalar attr
        have hallowed := hgov l hscalar
        obtain ⟨tag, rfl, -, -⟩ := attributeScalar_eq_some hscalar
        rw [hnext] at hallowed ⊢
        exact h.value_iff attr tag l hc hscalar hallowed
    have hrest := decodeChildren_iff cs (nextAttr reg title attr c.bytes) hcs
    rw [Form.encodeChildren, decodeChildren, ChildrenFaithful, ← hchild, ← hrest,
      Option.bind_eq_some_iff]
    constructor
    · rintro ⟨first, hfirst, hmap⟩
      rw [Option.map_eq_some_iff] at hmap
      obtain ⟨rest, hdecode, heq⟩ := hmap
      have hlen := h.length_decodeChildren cs _ _ rest hcs hdecode
      rw [blocksBytes] at heq
      obtain ⟨rfl, rfl⟩ := List.append_inj' heq hlen
      exact ⟨hfirst, hdecode⟩
    · rintro ⟨hfirst, hdecode⟩
      refine ⟨c.bytes, hfirst, ?_⟩
      rw [hdecode]
      rfl
end

/-- The decoder undoes the encoder on a block iff its conditions hold throughout the block. -/
theorem decode_encode_iff {b : Block} (hcanon : Canonical reg title canon governed b) :
    dec tagNone (F.encode reg title b) = some b.bytes ↔ Faithful reg title tagOk valueOk b :=
  h.decode_iff b tagNone hcanon (Or.inr rfl)

end Reads

end

end KmipGo.Text
