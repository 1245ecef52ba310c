import KmipGo.Value.Tree
import KmipGo.Ttlv.Canonical
import KmipGo.Decoder.Decode

/-! # Blocks and trees

`Block.tree` reads a derivation of the grammar as a tree of `ttlv.Value`; the
decoder computes it (`unmarshalBytes_block`).  With `marshal_toVal` this gives
both round trips: decoding undoes encoding, and encoding undoes decoding on
canonical blocks, up to the byte strings of length zero that decode to nil.
-/

namespace KmipGo.Value

open KmipGo.Lib KmipGo.Ttlv KmipGo.Reg KmipGo.Go KmipGo.Encoder KmipGo.Decoder

/-- The content of a leaf block. -/
def leafItem (l : Leaf) : Item :=
  match l.ty with
  | .Integer => .int32 (BitVec.ofNat 32 (beNat l.value))
  | .LongInteger => .int64 (BitVec.ofNat 64 (beNat l.value))
  | .BigInteger => .bigInt (twosValue l.value)
  | .Enumeration => .enumValue (BitVec.ofNat 32 (beNat l.value))
  | .Boolean => .bool ((l.value[7]?).getD 0 != 0)
  | .TextString => .string l.value
  | .ByteString => .bytes (if l.value.length = 0 then none else some l.value)
  | .DateTime => .time (Time.ofUnix (BitVec.ofNat 64 (beNat l.value)))
  | .Interval => .duration ((BitVec.ofNat 32 (beNat l.value)).setWidth 64 * 1000000000)
  | .DateTimeExtended => .dateTimeExtended (Time.ofUnixNano (BitVec.ofNat 64 (beNat l.value) * 1000))
  -- no leaf is a structure
  | .Structure => .bytes none

mutual
def blockTree : Block → Tree
  | .leaf tag l => .leaf tag.1 (leafItem l)
  | .struct tag children => .node tag.1 (blocksTrees children)
def blocksTrees : List Block → List Tree
  | [] => []
  | b :: bs => blockTree b :: blocksTrees bs
end

/-! ## The decoder computes the tree of a block -/

theorem valueRaw_leaf_append (tag : ValidTag) (l : Leaf) (rest : Bytes) :
    TTLV.valueRaw ((Block.leaf tag l).bytes ++ rest) =
      if l.value.length = 0 then none else some l.value := by
  rw [Block.bytes, List.append_assoc, List.append_assoc]
  exact valueRaw_header_append _ _ _ _ l.rule.length_lt

theorem value_leaf_append (tag : ValidTag) (l : Leaf) (rest : Bytes) :
    Decoder.value ((Block.leaf tag l).bytes ++ rest) = some (leafItem l).iface := by
  have htyp := typ_leaf_append tag l rest
  have hraw := raw_leaf_append tag l rest
  have hraw' := valueRaw_leaf_append tag l rest
  have hrule := l.rule
  rw [Decoder.value, htyp, leafItem]
  cases hty : l.ty with
  | Structure =>
    rw [hty] at hrule
    exact absurd hrule id
  | Integer =>
    rw [hty] at hrule
    simp only [TTLV.valueInteger, hraw, uint32BE_of_length hrule.1]
    rfl
  | LongInteger =>
    rw [hty] at hrule
    simp only [TTLV.valueLongInteger, hraw, uint64BE_of_length hrule.1]
    rfl
  | BigInteger =>
    simp only [TTLV.valueBigInteger, hraw, valueBigInteger_eq]
    rfl
  | Enumeration =>
    rw [hty] at hrule
    simp only [TTLV.valueEnumeration, hraw, uint32BE_of_length hrule.1]
    rfl
  | Boolean =>
    rw [hty] at hrule
    have hlen : 7 < l.value.length := by
      have := hrule.1
      omega
    have hget : l.value[7]? = some ((l.value[7]?).getD 0) := by
      rw [List.getElem?_eq_getElem hlen, Option.getD_some]
    simp only [TTLV.valueBoolean, hraw]
    rw [hget]
    rfl
  | TextString =>
    simp only [TTLV.valueTextString, hraw]
    rfl
  | ByteString =>
    simp only [TTLV.valueByteString, hraw']
    rfl
  | DateTime =>
    rw [hty] at hrule htyp
    simp only [TTLV.valueDateTime, TTLV.valueLongInteger, hraw, uint64BE_of_length hrule.1, htyp]
    rfl
  | Interval =>
    rw [hty] at hrule
    simp only [TTLV.valueInterval, hraw, uint32BE_of_length hrule.1]
    rfl
  | DateTimeExtended =>
    rw [hty] at hrule htyp
    simp only [TTLV.valueDateTimeExtended, TTLV.valueLongInteger, hraw,
      uint64BE_of_length hrule.1, htyp]
    rfl

theorem not_isValid_nil : ¬ TTLV.IsValid [] := by
  intro h
  have hhdr := validHeader_of_isValid h
  cases hhdr

mutual
theorem valueOf_bytes_append : ∀ (b : Block) (rest : Bytes), b.Sized →
    valueOf (b.bytes ++ rest) = some (blockTree b).toVal
  | .leaf tag l, rest, _ => by
    have htyp := typ_leaf_append tag l rest
    have htag := tag_bytes_append (.leaf tag l) rest
    have hne := leaf_ty_ne l
    rw [valueOf]
    split
    · rename_i hstruct
      rw [htyp, Option.some.injEq] at hstruct
      exact absurd hstruct hne
    · rw [value_leaf_append, htag]
      rfl
  | .struct tag children, rest, hsize => by
    have htyp := typ_struct_append tag children rest
    have htag := tag_bytes_append (.struct tag children) rest
    have hchildren := valuesOf_blocksBytes children (fun c hc => Sized.of_mem hc hsize)
    rw [valueOf]
    split
    · rw [raw_struct_append tag children rest hsize, hchildren, htag]
      rfl
    · rename_i hother
      exact absurd htyp hother

theorem valuesOf_blocksBytes : ∀ bs : List Block, (∀ b ∈ bs, b.Sized) →
    valuesOf (blocksBytes bs) = some (treesToVals (blocksTrees bs))
  | [], _ => by
    rw [valuesOf, blocksBytes, if_neg not_isValid_nil]
    rfl
  | b :: bs, hsize => by
    have hb : b.Sized := hsize b (by simp)
    have hvalid : TTLV.IsValid (b.bytes ++ blocksBytes bs) := valid_bytes_append b _ hb
    have hrest := valuesOf_blocksBytes bs (fun c hc => hsize c (by simp [hc]))
    have hnext := next_bytes_append b (blocksBytes bs) hb
    rw [valuesOf, blocksBytes, if_pos hvalid, valueOf_bytes_append b _ hb]
    simp only
    split
    · rename_i hnone
      -- nothing follows the block, so it is the last one
      have hempty : (blocksBytes bs).length = 0 := by
        by_contra hlen
        rw [hnext, if_neg hlen] at hnone
        cases hnone
      cases bs with
      | nil => rfl
      | cons c cs =>
        have := c.length_ge
        rw [blocksBytes, List.length_append] at hempty
        omega
    · rename_i n hsome
      by_cases hlen : (blocksBytes bs).length = 0
      · rw [hnext, if_pos hlen] at hsome
        cases hsome
      · rw [hnext, if_neg hlen, Option.some.injEq] at hsome
        rw [← hsome, hrest]
        rfl
end

/-- `NextTTLV` takes one block off a reader. -/
theorem nextTTLV_bytes_append (b : Block) (rest : Bytes) (h : b.Sized) :
    nextTTLV (b.bytes ++ rest) = .ok b.bytes := by
  obtain ⟨ty, l, body, hbytes, hl, hvalid, hfull⟩ : ∃ ty l body,
      b.bytes = header b.tag ty l ++ body ∧ l < 2 ^ 32 ∧ ty.validLen l = true ∧
      ty.blockLen l = b.bytes.length := by
    cases b with
    | leaf tag item =>
      exact ⟨item.ty, item.value.length, _, rfl, item.rule.length_lt, item.rule.validLen,
        by rw [length_leaf]; exact item.rule.blockLen⟩
    | struct tag children =>
      exact ⟨.Structure, (blocksBytes children).length, _, rfl, h, rfl,
        by rw [length_struct]; exact Nat.add_comm _ _⟩
  have hvt : b.tag.Valid := by
    cases b with
    | leaf tag item => exact tag.2
    | struct tag children => exact tag.2
  have htake : (b.bytes ++ rest).take lenHeader = header b.tag ty l ++ [] := by
    rw [hbytes, List.append_assoc, List.append_nil]
    exact List.take_left' (length_header _ _ _)
  have hlong : ¬ (b.bytes ++ rest).length < lenHeader := by
    have := b.length_ge
    simp only [List.length_append, lenHeader]
    omega
  have hhdr := validHeader_header_append ⟨b.tag, hvt⟩ [] hl hvalid
  have hfl : TTLV.fullLen (header b.tag ty l ++ []) = some b.bytes.length := by
    rw [TTLV.fullLen, typ_header_append, len_header_append _ _ _ _ hl, Option.map_some, hfull]
  rw [nextTTLV, if_neg hlong, htake, hhdr, hfl]
  simp only
  rw [if_neg (by rw [List.length_append]; omega), List.take_left' rfl]

theorem unmarshalBytes_block (reg : Registry) (b : Block) (h : b.Sized) :
    unmarshalBytes reg .value b.bytes = ((blockTree b).toVal, .ok ()) := by
  have hnext := nextTTLV_bytes_append b [] h
  have hval := valueOf_bytes_append b [] h
  rw [List.append_nil] at hnext hval
  have hne : ¬ b.bytes.length = 0 := by
    have := b.length_ge
    omega
  rw [unmarshalBytes, hnext]
  simp only [unmarshal]
  rw [if_neg hne, hval]
  rfl

/-! ## Decoding undoes encoding -/

/-- Byte strings compared by content: nil and empty are the same. -/
def Item.content : Item → Item
  | .bytes b => .bytes (some (b.getD []))
  | i => i

mutual
def Tree.content : Tree → Tree
  | .leaf tag i => .leaf tag i.content
  | .node tag children => .node tag (treesContent children)
def treesContent : List Tree → List Tree
  | [] => []
  | t :: ts => t.content :: treesContent ts
end

/-- The values of each leaf type that a block can hold exactly. -/
def Item.Exact : Item → Prop
  | .bytes b => b ≠ none
  | .time t => t.nanosecond = 0
  | .dateTimeExtended t => t.MicroExact
  | .duration d => IntervalExact d
  | _ => True

section

variable (reg : Registry)

mutual
/-- Valid tags throughout, and leaves that are plain and exact. -/
def Tree.Ok : Tree → Prop
  | .leaf tag item => tag.Valid ∧ item.Plain reg tag ∧ item.Exact
  | .node tag children => tag.Valid ∧ TreesOk children
def TreesOk : List Tree → Prop
  | [] => True
  | t :: ts => t.Ok ∧ TreesOk ts
end

theorem ne_none_of_valid {tag : Tag} (h : tag.Valid) : tag ≠ tagNone := by
  rintro rfl
  revert h
  decide

mutual
theorem Tree.Ok.encodable : ∀ t : Tree, t.Ok reg → t.Encodable reg
  | .leaf _ _, ⟨htag, hplain, _⟩ => ⟨ne_none_of_valid htag, hplain⟩
  | .node _ children, ⟨htag, hchildren⟩ => ⟨ne_none_of_valid htag, TreesOk.encodable children hchildren⟩
theorem TreesOk.encodable : ∀ ts : List Tree, TreesOk reg ts → TreesEncodable reg ts
  | [], _ => trivial
  | t :: ts, ⟨ht, hts⟩ => ⟨Tree.Ok.encodable t ht, TreesOk.encodable ts hts⟩
end

end

theorem ofNat_beBytes_four (v : BitVec 32) : BitVec.ofNat 32 (beNat (beBytes 4 v.toNat)) = v := by
  have h := uint32BE_beBytes v
  rw [uint32BE_of_length (length_beBytes 4 _)] at h
  exact Option.some.inj h

theorem ofNat_beBytes_eight (v : BitVec 64) : BitVec.ofNat 64 (beNat (beBytes 8 v.toNat)) = v := by
  have h := uint64BE_beBytes v
  rw [uint64BE_of_length (length_beBytes 8 _)] at h
  exact Option.some.inj h

theorem exists_leaf (tag : ValidTag) (i : Item) (hexact : i.Exact)
    (hsize : (i.prim.item tag.1).length < 2 ^ 32) :
    ∃ l : Leaf, (Block.leaf tag l).bytes = i.prim.item tag.1 ∧ (leafItem l).content = i.content := by
  cases i with
  | int32 i =>
    obtain ⟨l, hty, hval, hbytes⟩ := exists_leaf_of_value tag .Integer
      (beBytes 4 i.toNat) (by simp [LeafRule, padTo8])
    refine ⟨l, hbytes, ?_⟩
    rw [leafItem, hty, hval]
    simp only [ofNat_beBytes_four]
  | int64 i =>
    obtain ⟨l, hty, hval, hbytes⟩ := exists_leaf_of_value tag .LongInteger
      (beBytes 8 i.toNat) (by simp [LeafRule, padTo8])
    refine ⟨l, hbytes, ?_⟩
    rw [leafItem, hty, hval]
    simp only [ofNat_beBytes_eight]
  | bigInt i =>
    have hdvd := (shortest8_bigIntValue i).dvd
    have hpad : padTo8 (bigIntValue i).length = 0 := padTo8_eq_zero hdvd
    have hlen : (bigIntValue i).length < 2 ^ 32 := by
      have := length_item tag.1 .BigInteger (bigIntValue i)
      simp only [Item.prim, Prim.item, Prim.content, Option.map_some] at hsize
      omega
    obtain ⟨l, hty, hval, hbytes⟩ := exists_leaf_of_value tag .BigInteger
      (bigIntValue i) (by simp [LeafRule, hpad]; omega)
    refine ⟨l, hbytes, ?_⟩
    rw [leafItem, hty, hval]
    simp only [twosValue_bigIntValue]
  | enumValue v =>
    obtain ⟨l, hty, hval, hbytes⟩ := exists_leaf_of_value tag .Enumeration
      (beBytes 4 v.toNat) (by simp [LeafRule, padTo8])
    refine ⟨l, hbytes, ?_⟩
    rw [leafItem, hty, hval]
    simp only [ofNat_beBytes_four]
  | bool b =>
    obtain ⟨l, hty, hval, hbytes⟩ := exists_leaf_of_value tag .Boolean
      (beBytes 8 (if b then 1 else 0)) (by simp [LeafRule, padTo8])
    refine ⟨l, hbytes, ?_⟩
    rw [leafItem, hty, hval]
    cases b <;> rfl
  | string s =>
    have hlen : s.length < 2 ^ 32 := by
      have := length_item tag.1 .TextString s
      simp only [Item.prim, Prim.item, Prim.content] at hsize
      omega
    obtain ⟨l, hty, hval, hbytes⟩ := exists_leaf_of_value tag .TextString
      (s) ⟨List.length_replicate .., hlen⟩
    refine ⟨l, hbytes, ?_⟩
    rw [leafItem, hty, hval]
  | bytes b =>
    obtain ⟨b, rfl⟩ := Option.ne_none_iff_exists'.mp hexact
    have hlen : b.length < 2 ^ 32 := by
      have := length_item tag.1 .ByteString b
      simp only [Item.prim, Prim.item, Prim.content, Option.map_some] at hsize
      omega
    obtain ⟨l, hty, hval, hbytes⟩ := exists_leaf_of_value tag .ByteString
      (b) ⟨List.length_replicate .., hlen⟩
    refine ⟨l, hbytes, ?_⟩
    rw [leafItem, hty, hval]
    -- a byte string of length zero is read as nil, which has the same content
    by_cases h0 : b.length = 0
    · simp only [Item.content, List.length_eq_zero_iff.mp h0]
      rfl
    · simp only [if_neg h0]
  | time t =>
    obtain ⟨l, hty, hval, hbytes⟩ := exists_leaf_of_value tag .DateTime
      (beBytes 8 t.unix.toNat) (by simp [LeafRule, padTo8])
    refine ⟨l, hbytes, ?_⟩
    have hwhole : t = Time.ofUnix t.unix := by
      have h0 : t.nanosecond = 0 := hexact
      cases t
      simp only at h0
      rw [h0]
      rfl
    rw [leafItem, hty, hval]
    simp only [ofNat_beBytes_eight]
    rw [← hwhole]
  | dateTimeExtended t =>
    obtain ⟨l, hty, hval, hbytes⟩ := exists_leaf_of_value tag .DateTimeExtended
      (beBytes 8 t.micros.toNat) (by simp [LeafRule, padTo8])
    refine ⟨l, hbytes, ?_⟩
    rw [leafItem, hty, hval]
    simp only [ofNat_beBytes_eight, Time.ofUnixNano_micros hexact]
  | duration d =>
    obtain ⟨l, hty, hval, hbytes⟩ := exists_leaf_of_value tag .Interval
      (beBytes 4 (intervalSeconds d).toNat) (by simp [LeafRule, padTo8])
    refine ⟨l, hbytes, ?_⟩
    rw [leafItem, hty, hval]
    simp only [ofNat_beBytes_four, intervalSeconds_read hexact]

mutual
/-- The bytes of a tree are those of a block with the same content. -/
theorem exists_block (reg : Registry) : ∀ t : Tree, t.Ok reg → t.bytes.length < 2 ^ 32 →
    ∃ b : Block, b.Sized ∧ b.bytes = t.bytes ∧ (blockTree b).content = t.content
  | .leaf tag i, ⟨htag, _, hexact⟩, hsize => by
    obtain ⟨l, hbytes, hcontent⟩ := exists_leaf ⟨tag, htag⟩ i hexact hsize
    refine ⟨.leaf ⟨tag, htag⟩ l, trivial, hbytes, ?_⟩
    rw [blockTree, Tree.content, hcontent]
    rfl
  | .node tag children, ⟨htag, hchildren⟩, hsize => by
    have hlen := length_item tag .Structure (treesBytes children)
    rw [Tree.bytes] at hsize
    obtain ⟨bs, hbytes, hcontent⟩ := exists_blocks reg children hchildren (by omega)
    refine ⟨.struct ⟨tag, htag⟩ bs, ?_, ?_, ?_⟩
    · show (blocksBytes bs).length < 2 ^ 32
      rw [hbytes]
      omega
    · rw [Tree.bytes, ← hbytes, item_structure]
      rfl
    · rw [blockTree, Tree.content, hcontent]
      rfl

theorem exists_blocks (reg : Registry) : ∀ ts : List Tree, TreesOk reg ts →
    (treesBytes ts).length < 2 ^ 32 →
    ∃ bs : List Block, blocksBytes bs = treesBytes ts ∧ treesContent (blocksTrees bs) = treesContent ts
  | [], _, _ => ⟨[], rfl, rfl⟩
  | t :: ts, ⟨ht, hts⟩, hsize => by
    rw [treesBytes, List.length_append] at hsize
    obtain ⟨b, -, hb, hbc⟩ := exists_block reg t ht (by omega)
    obtain ⟨bs, hbs, hbsc⟩ := exists_blocks reg ts hts (by omega)
    refine ⟨b :: bs, ?_, ?_⟩
    · rw [blocksBytes, treesBytes, hb, hbs]
    · rw [blocksTrees, treesContent, treesContent, hbc, hbsc]
end

/-- `Marshal` of a tree succeeds with one valid block, and `Unmarshal` of it into a `Value` returns a tree
    with the same content, exactly if the type `ttlv.Value` passes the check of its fields. -/
theorem unmarshal_marshal (reg : Registry) (t : Tree) (hok : t.Ok reg) (hsize : t.bytes.length < 2 ^ 32) :
    (∃ b, marshal reg t.toVal = .ok b ∧
      TTLV.valid b = .ok () ∧ TTLV.fullLen b = some b.length ∧ 8 ∣ b.length ∧
      ∃ t' : Tree, unmarshalBytes reg .value b = (t'.toVal, .ok ()) ∧ t'.content = t.content) ↔
    ValueTypeOk reg := by
  constructor
  · rintro ⟨b, hmarshal, -⟩
    exact valueTypeOk_of_marshal reg hmarshal
  · intro hvalue
    obtain ⟨b, hsized, hbytes, hcontent⟩ := exists_block reg t hok hsize
    have hvalid := valid_bytes_append b [] hsized
    have hfull := fullLen_bytes_append b [] hsized
    rw [List.append_nil] at hvalid hfull
    refine ⟨b.bytes, ?_, hvalid, hfull, b.dvd_length, blockTree b,
      unmarshalBytes_block reg b hsized, hcontent⟩
    rw [hbytes]
    exact marshal_toVal reg hvalue (Tree.Ok.encodable reg t hok)

/-- A structure with a number, an empty byte string and a nested structure. -/
def sampleTree : Tree :=
  .node 0x420008 [.leaf 0x42000a (.string (lit "State")), .leaf 0x540001 (.bytes (some [])),
    .node 0x42000b [.leaf 0x42000c (.bigInt (-129)), .leaf 0x42000d (.dateTimeExtended ⟨5, 7000⟩)]]

/-- Without enumerations, whatever tags are registered. -/
theorem sampleTree_ok {reg : Registry} (henums : ∀ t, reg.enumForTag t = none) : sampleTree.Ok reg :=
  ⟨by decide, ⟨by decide, henums _, trivial⟩, ⟨by decide, trivial, by simp [Item.Exact]⟩,
    ⟨by decide, ⟨by decide, trivial, trivial⟩,
      ⟨by decide, trivial, by simp only [Item.Exact]; decide⟩, trivial⟩, trivial⟩

theorem sampleTree_size : sampleTree.bytes.length < 2 ^ 32 := by decide +kernel

theorem unmarshal_marshal_sampleTree :
    ∃ b, marshal Registry.empty sampleTree.toVal = .ok b ∧
      TTLV.valid b = .ok () ∧ TTLV.fullLen b = some b.length ∧ 8 ∣ b.length ∧
      ∃ t' : Tree, unmarshalBytes Registry.empty .value b = (t'.toVal, .ok ()) ∧
        t'.content = sampleTree.content :=
  (unmarshal_marshal Registry.empty sampleTree (sampleTree_ok fun _ => rfl) sampleTree_size).mpr (Or.inl rfl)

/-- One tag under the names of both fields of `ttlv.Value`. -/
def clashingRegistry : Registry :=
  (Registry.empty.registerTag id 0x540001 (lit "Tag")).registerTag id 0x540001 (lit "Value")

/-- With that registry the same tree cannot be marshalled, because the field `Value` resolves to the same
    tag as the field `Tag`. -/
theorem sampleTree_refused :
    sampleTree.Ok clashingRegistry ∧ sampleTree.bytes.length < 2 ^ 32 ∧
    (marshal clashingRegistry sampleTree.toVal).toOption = none ∧
    (match marshal clashingRegistry sampleTree.toVal with
      | .error err => decide (err = .typeInfo (.sameTag 0x540001 (lit "Tag")))
      | .ok _ => false) = true :=
  ⟨sampleTree_ok fun _ => rfl, sampleTree_size, by decide +kernel, by decide +kernel⟩

/-! ## Encoding undoes decoding -/

section

variable (reg : Registry)

/-- A leaf in the form the encoder writes: zero padding, and for each type the values that are
    written back as they were read. -/
def LeafCanonical (tag : Tag) (l : Leaf) : Prop :=
  l.padding = List.replicate l.padding.length 0 ∧
    match l.ty with
    | .Boolean => beNat l.value ≤ 1
    | .BigInteger => Shortest8 l.value
    | .Integer | .TextString => reg.enumForTag tag = none
    | .DateTimeExtended => NanosFit (BitVec.ofNat 64 (beNat l.value))
    | _ => True

mutual
def BlockCanonical : Block → Prop
  | .leaf tag l => LeafCanonical reg tag.1 l
  | .struct _ children => BlocksCanonical children
def BlocksCanonical : List Block → Prop
  | [] => True
  | b :: bs => BlockCanonical b ∧ BlocksCanonical bs
end

mutual
/-- No ByteString of length zero anywhere. -/
def NoEmptyByteString : Block → Prop
  | .leaf _ l => ¬ (l.ty = .ByteString ∧ l.value.length = 0)
  | .struct _ children => NoEmptyByteStrings children
def NoEmptyByteStrings : List Block → Prop
  | [] => True
  | b :: bs => NoEmptyByteString b ∧ NoEmptyByteStrings bs
end

mutual
theorem blockTree_encodable : ∀ b : Block, BlockCanonical reg b → (blockTree b).Encodable reg
  | .leaf tag l, h => by
    refine ⟨ne_none_of_valid tag.2, ?_⟩
    obtain ⟨-, hty⟩ := h
    rw [leafItem]
    cases hl : l.ty with
    | Integer =>
      rw [hl] at hty
      exact hty
    | TextString =>
      rw [hl] at hty
      exact hty
    | _ => trivial
  | .struct tag children, h => ⟨ne_none_of_valid tag.2, blocksTrees_encodable children h⟩
theorem blocksTrees_encodable : ∀ bs : List Block, BlocksCanonical reg bs →
    TreesEncodable reg (blocksTrees bs)
  | [], _ => trivial
  | b :: bs, ⟨hb, hbs⟩ => ⟨blockTree_encodable b hb, blocksTrees_encodable bs hbs⟩
end

end

theorem LeafCanonical.canonical {reg : Registry} {tag : Tag} {l : Leaf} (h : LeafCanonical reg tag l) :
    l.Canonical := by
  obtain ⟨hpad, hcanon⟩ := h
  refine ⟨hpad, ?_⟩
  cases hty : l.ty with
  | Boolean | BigInteger | DateTimeExtended =>
    rw [hty] at hcanon
    exact hcanon
  | _ => trivial

/-- A leaf is encoded as it was read, apart from the ByteString that was read as nil. -/
theorem prim_leafItem {l : Leaf} (hne : ¬ (l.ty = .ByteString ∧ l.value.length = 0)) :
    (leafItem l).prim = l.prim := by
  rw [leafItem, Leaf.prim]
  cases hty : l.ty with
  | ByteString =>
    have hlen : ¬ l.value.length = 0 := fun h0 => hne ⟨hty, h0⟩
    simp only [if_neg hlen]
    rfl
  | Structure => exact absurd hty (leaf_ty_ne l)
  | _ => rfl

theorem content_leafItem_empty {l : Leaf} (h : l.ty = .ByteString ∧ l.value.length = 0) :
    (leafItem l).prim.content = none := by
  rw [leafItem, h.1]
  simp only [if_pos h.2]
  rfl

theorem item_leafItem {reg : Registry} (tag : ValidTag) {l : Leaf}
    (h : LeafCanonical reg tag.1 l) (hne : ¬ (l.ty = .ByteString ∧ l.value.length = 0)) :
    (leafItem l).prim.item tag.1 = (Block.leaf tag l).bytes := by
  rw [prim_leafItem hne]
  exact item_prim tag h.canonical

mutual
theorem bytes_blockTree (reg : Registry) : ∀ b : Block, BlockCanonical reg b →
    NoEmptyByteString b → (blockTree b).bytes = b.bytes
  | .leaf tag l, hcanon, hne => by
    rw [blockTree, Tree.bytes]
    exact item_leafItem tag hcanon hne
  | .struct tag children, hcanon, hne => by
    rw [blockTree, Tree.bytes, bytes_blocksTrees reg children hcanon hne, item_structure]
    rfl
theorem bytes_blocksTrees (reg : Registry) : ∀ bs : List Block, BlocksCanonical reg bs →
    NoEmptyByteStrings bs → treesBytes (blocksTrees bs) = blocksBytes bs
  | [], _, _ => rfl
  | b :: bs, ⟨hb, hbs⟩, ⟨hne, hnes⟩ => by
    rw [blocksTrees, treesBytes, blocksBytes, bytes_blockTree reg b hb hne,
      bytes_blocksTrees reg bs hbs hnes]
end

mutual
/-- Every empty ByteString makes the encoding shorter, at any depth. -/
theorem length_blockTree (reg : Registry) : ∀ b : Block, BlockCanonical reg b →
    8 ∣ (blockTree b).bytes.length ∧ (blockTree b).bytes.length ≤ b.bytes.length ∧
      ((blockTree b).bytes.length = b.bytes.length → NoEmptyByteString b)
  | .leaf tag l, hcanon => by
    rw [blockTree, Tree.bytes]
    by_cases hempty : l.ty = .ByteString ∧ l.value.length = 0
    · have hitem : (leafItem l).prim.item tag.1 = [] := by
        rw [Prim.item, content_leafItem_empty hempty]
      have hge := (Block.leaf tag l).length_ge
      rw [hitem, List.length_nil]
      refine ⟨Nat.dvd_zero 8, Nat.zero_le _, fun heq => ?_⟩
      omega
    · rw [item_leafItem tag hcanon hempty]
      exact ⟨(Block.leaf tag l).dvd_length, Nat.le_refl _, fun _ => hempty⟩
  | .struct tag children, hcanon => by
    obtain ⟨hdvd, hle, hstrict⟩ := length_blocksTrees reg children hcanon
    have hlen := length_item tag.1 .Structure (treesBytes (blocksTrees children))
    rw [padTo8_eq_zero hdvd, Nat.add_zero] at hlen
    rw [blockTree, Tree.bytes, hlen, length_struct]
    refine ⟨Nat.dvd_add (Nat.dvd_refl 8) hdvd, by omega, fun heq => ?_⟩
    exact hstrict (by omega)
theorem length_blocksTrees (reg : Registry) : ∀ bs : List Block, BlocksCanonical reg bs →
    8 ∣ (treesBytes (blocksTrees bs)).length ∧
      (treesBytes (blocksTrees bs)).length ≤ (blocksBytes bs).length ∧
      ((treesBytes (blocksTrees bs)).length = (blocksBytes bs).length → NoEmptyByteStrings bs)
  | [], _ => ⟨Nat.dvd_zero 8, Nat.le_refl _, fun _ => trivial⟩
  | b :: bs, ⟨hb, hbs⟩ => by
    obtain ⟨hdvd, hle, hstrict⟩ := length_blockTree reg b hb
    obtain ⟨hdvds, hles, hstricts⟩ := length_blocksTrees reg bs hbs
    rw [blocksTrees, treesBytes, blocksBytes, List.length_append, List.length_append]
    refine ⟨Nat.dvd_add hdvd hdvds, by omega, fun heq => ?_⟩
    exact ⟨hstrict (by omega), hstricts (by omega)⟩
end

/-- Encoding undoes decoding on a canonical block iff it has no ByteString of length zero and the type
    `ttlv.Value` passes the check of its fields.  Such a string decodes to a nil slice, which the encoder
    skips. -/
theorem marshal_unmarshal_iff (reg : Registry) (b : Block) (hsize : b.Sized) (hcanon : BlockCanonical reg b) :
    (∃ v, unmarshalBytes reg .value b.bytes = (v, .ok ()) ∧ marshal reg v = .ok b.bytes) ↔
      NoEmptyByteString b ∧ ValueTypeOk reg := by
  have hdecode := unmarshalBytes_block reg b hsize
  have hencodable := blockTree_encodable reg b hcanon
  constructor
  · rintro ⟨v, hv, hm⟩
    rw [hdecode, Prod.mk.injEq] at hv
    rw [← hv.1] at hm
    have hvalue := valueTypeOk_of_marshal reg hm
    rw [marshal_toVal reg hvalue hencodable, Except.ok.injEq] at hm
    exact ⟨(length_blockTree reg b hcanon).2.2 (congrArg List.length hm), hvalue⟩
  · rintro ⟨hne, hvalue⟩
    refine ⟨_, hdecode, ?_⟩
    rw [marshal_toVal reg hvalue hencodable, bytes_blockTree reg b hcanon hne]

theorem attributeTag_valid : Tag.Valid 0x420008 := by decide

theorem attributeValueTag_valid : Tag.Valid 0x42000b := by decide

/-- A structure that holds one ByteString of length zero. -/
def emptyStringBlock : Block :=
  .struct ⟨0x420008, attributeTag_valid⟩
    [.leaf ⟨0x42000b, attributeValueTag_valid⟩ ⟨.ByteString, [], [], ⟨rfl, by decide⟩⟩]

/-- A structure that holds an empty TextString. -/
def emptyTextBlock : Block :=
  .struct ⟨0x420008, attributeTag_valid⟩
    [.leaf ⟨0x42000b, attributeValueTag_valid⟩ ⟨.TextString, [], [], ⟨rfl, by decide⟩⟩]

theorem marshal_unmarshal_emptyTextBlock :
    ∃ v, unmarshalBytes Registry.empty .value emptyTextBlock.bytes = (v, .ok ()) ∧
      marshal Registry.empty v = .ok emptyTextBlock.bytes :=
  (marshal_unmarshal_iff Registry.empty emptyTextBlock (show (blocksBytes _).length < 2 ^ 32 by decide)
    ⟨⟨rfl, rfl⟩, trivial⟩).mpr ⟨⟨fun h => absurd h.1 (by decide), trivial⟩, Or.inl rfl⟩

/-- The block is canonical and valid; it decodes, and encodes to the empty structure. -/
theorem emptyStringBlock_dropped :
    BlockCanonical Registry.empty emptyStringBlock ∧
    TTLV.valid emptyStringBlock.bytes = .ok () ∧
    (unmarshalBytes Registry.empty .value emptyStringBlock.bytes).2 = .ok () ∧
    (marshal Registry.empty (unmarshalBytes Registry.empty .value emptyStringBlock.bytes).1).toOption =
      some [0x42, 0x00, 0x08, 0x01, 0, 0, 0, 0] :=
  ⟨⟨⟨rfl, trivial⟩, trivial⟩, by decide +kernel, by decide +kernel, by decide +kernel⟩

end KmipGo.Value
