import KmipGo.Ttlv.Valid

/-! # The TTLV grammar

`Block` is the type of derivation trees of the encoding: a leaf holds a value
and its padding, with the length rule of its type as a field, and a structure
holds the blocks its value is made of.  `Block.bytes` is the byte string a tree
derives.  The only rule that is not local to a node is that the length of a
structure's value fits the four byte length field (`Block.Sized`); it holds
below a node when it holds at the node (`Sized.of_mem`).

The module shows that the checks of `ttlv.go` decide exactly this grammar, and
that the walk with `Next` visits exactly the children of a derivation.
-/

namespace KmipGo.Ttlv

open KmipGo.Lib

abbrev ValidTag := { t : Tag // t.Valid }

/-- What a leaf of each type looks like after its header: `L` value bytes, then padding. -/
def LeafRule : Typ → Bytes → Bytes → Prop
  | .Structure, _, _ => False
  | .Integer, value, padding | .Enumeration, value, padding | .Interval, value, padding =>
    value.length = 4 ∧ padding.length = 4
  | .LongInteger, value, padding | .Boolean, value, padding | .DateTime, value, padding
  | .DateTimeExtended, value, padding =>
    value.length = 8 ∧ padding.length = 0
  | .BigInteger, value, padding =>
    value.length % 8 = 0 ∧ padding.length = 0 ∧ value.length < 2 ^ 32
  | .TextString, value, padding | .ByteString, value, padding =>
    padding.length = padTo8 value.length ∧ value.length < 2 ^ 32

structure Leaf where
  ty : Typ
  value : Bytes
  padding : Bytes
  rule : LeafRule ty value padding

inductive Block where
  | leaf (tag : ValidTag) (item : Leaf)
  | struct (tag : ValidTag) (children : List Block)

mutual
def Block.bytes : Block → Bytes
  | .leaf tag item => header tag.1 item.ty item.value.length ++ (item.value ++ item.padding)
  | .struct tag children =>
    header tag.1 .Structure (blocksBytes children).length ++ blocksBytes children

def blocksBytes : List Block → Bytes
  | [] => []
  | b :: bs => b.bytes ++ blocksBytes bs
end

def Block.tag : Block → Tag
  | .leaf tag _ | .struct tag _ => tag.1

def Block.Sized : Block → Prop
  | .leaf _ _ => True
  | .struct _ children => (blocksBytes children).length < 2 ^ 32

theorem blocksBytes_eq_flatten (bs : List Block) : blocksBytes bs = (bs.map Block.bytes).flatten := by
  induction bs with
  | nil => rfl
  | cons b bs ih => simp only [blocksBytes, List.map_cons, List.flatten_cons, ih]

theorem blocksBytes_append (as bs : List Block) :
    blocksBytes (as ++ bs) = blocksBytes as ++ blocksBytes bs := by
  simp [blocksBytes_eq_flatten]

theorem ValidTag.toNat_lt (tag : ValidTag) : tag.1.toNat < 2 ^ 24 := by
  rcases tag.2 with h | h <;> omega

/-! ## Lengths -/

theorem LeafRule.length_lt {ty : Typ} {value padding : Bytes} (h : LeafRule ty value padding) :
    value.length < 2 ^ 32 := by
  cases ty <;> simp only [LeafRule] at h <;> omega

theorem LeafRule.validLen {ty : Typ} {value padding : Bytes} (h : LeafRule ty value padding) :
    ty.validLen value.length = true := by
  cases ty <;> simp_all [LeafRule, Typ.validLen]

theorem LeafRule.blockLen {ty : Typ} {value padding : Bytes} (h : LeafRule ty value padding) :
    ty.blockLen value.length = 8 + (value.length + padding.length) := by
  cases ty with
  | Structure => exact absurd h id
  | TextString =>
    obtain ⟨hpad, -⟩ := h
    rw [blockLen_textString, hpad, Nat.add_assoc]
  | ByteString =>
    obtain ⟨hpad, -⟩ := h
    rw [blockLen_byteString, hpad, Nat.add_assoc]
  | BigInteger =>
    obtain ⟨-, hpad, -⟩ := h
    simp only [Typ.blockLen, lenHeader, hpad]
    omega
  | _ =>
    obtain ⟨hval, hpad⟩ := h
    simp only [Typ.blockLen, lenHeader, hval, hpad]

theorem LeafRule.dvd {ty : Typ} {value padding : Bytes} (h : LeafRule ty value padding) :
    8 ∣ value.length + padding.length := by
  cases ty with
  | Structure => exact absurd h id
  | TextString | ByteString =>
    obtain ⟨hpad, -⟩ := h
    rw [hpad]
    exact padTo8_add_dvd _
  | BigInteger =>
    obtain ⟨hval, hpad, -⟩ := h
    omega
  | _ =>
    obtain ⟨hval, hpad⟩ := h
    omega

theorem length_leaf (tag : ValidTag) (item : Leaf) :
    (Block.leaf tag item).bytes.length = 8 + (item.value.length + item.padding.length) := by
  simp [Block.bytes]

theorem length_struct (tag : ValidTag) (children : List Block) :
    (Block.struct tag children).bytes.length = 8 + (blocksBytes children).length := by
  simp [Block.bytes]

mutual
theorem Block.dvd_length : ∀ b : Block, 8 ∣ b.bytes.length
  | .leaf tag item => by
    rw [length_leaf]
    exact Nat.dvd_add (Nat.dvd_refl 8) item.rule.dvd
  | .struct tag children => by
    rw [length_struct]
    exact Nat.dvd_add (Nat.dvd_refl 8) (blocksBytes_dvd children)

theorem blocksBytes_dvd : ∀ bs : List Block, 8 ∣ (blocksBytes bs).length
  | [] => by simp [blocksBytes]
  | b :: bs => by
    rw [blocksBytes, List.length_append]
    exact Nat.dvd_add b.dvd_length (blocksBytes_dvd bs)
end

theorem Block.length_ge (b : Block) : 8 ≤ b.bytes.length := by
  cases b with
  | leaf tag item => rw [length_leaf]; omega
  | struct tag children => rw [length_struct]; omega

theorem bytes_append_length_ne_zero (b : Block) (rest : Bytes) : (b.bytes ++ rest).length ≠ 0 := by
  have hb := b.length_ge
  rw [List.length_append]
  omega

theorem length_le_of_mem {b : Block} {bs : List Block} (h : b ∈ bs) :
    b.bytes.length ≤ (blocksBytes bs).length := by
  induction bs with
  | nil => cases h
  | cons c cs ih =>
    rw [blocksBytes, List.length_append]
    cases h with
    | head => omega
    | tail _ h => have := ih h; omega

theorem Sized.of_mem {b : Block} {bs : List Block} (h : b ∈ bs)
    (hsize : (blocksBytes bs).length < 2 ^ 32) : b.Sized := by
  cases b with
  | leaf tag item => trivial
  | struct tag children =>
    have hle := length_le_of_mem h
    rw [length_struct] at hle
    show (blocksBytes children).length < 2 ^ 32
    omega

/-! ## Reading the header of a derivation -/

section Access

variable (b : Block) (rest : Bytes)

theorem tag_bytes_append : TTLV.tag (b.bytes ++ rest) = b.tag := by
  cases b with
  | leaf tag item =>
    rw [Block.bytes, List.append_assoc]
    exact tag_header_append _ _ _ _ tag.toNat_lt
  | struct tag children =>
    rw [Block.bytes, List.append_assoc]
    exact tag_header_append _ _ _ _ tag.toNat_lt

theorem fullLen_bytes_append (h : b.Sized) :
    TTLV.fullLen (b.bytes ++ rest) = some b.bytes.length := by
  cases b with
  | leaf tag item =>
    rw [length_leaf, Block.bytes, List.append_assoc, TTLV.fullLen, typ_header_append,
      len_header_append _ _ _ _ item.rule.length_lt, Option.map_some, item.rule.blockLen]
  | struct tag children =>
    rw [length_struct, Block.bytes, List.append_assoc, TTLV.fullLen, typ_header_append,
      len_header_append _ _ _ _ h, Option.map_some]
    simp only [Typ.blockLen, lenHeader, Nat.add_comm]

end Access

theorem leaf_ty_ne (l : Leaf) : l.ty ≠ .Structure := by
  intro hty
  have hrule := l.rule
  rw [hty] at hrule
  exact hrule

theorem typ_leaf_append (tag : ValidTag) (item : Leaf) (rest : Bytes) :
    TTLV.typ ((Block.leaf tag item).bytes ++ rest) = some item.ty := by
  rw [Block.bytes, List.append_assoc, typ_header_append]

theorem typ_leaf_append_ne (tag : ValidTag) (item : Leaf) (rest : Bytes) :
    TTLV.typ ((Block.leaf tag item).bytes ++ rest) ≠ some .Structure := by
  rw [typ_leaf_append, Ne, Option.some.injEq]
  exact leaf_ty_ne item

theorem typ_struct_append (tag : ValidTag) (children : List Block) (rest : Bytes) :
    TTLV.typ ((Block.struct tag children).bytes ++ rest) = some .Structure := by
  rw [Block.bytes, List.append_assoc, typ_header_append]

theorem valueRaw_header_append (tag : Tag) (ty : Typ) (value rest : Bytes)
    (h : value.length < 2 ^ 32) :
    TTLV.valueRaw (header tag ty value.length ++ (value ++ rest)) =
      if value.length = 0 then none else some value := by
  have hlen := len_header_append tag ty value.length (value ++ rest) h
  have hdrop : (header tag ty value.length ++ (value ++ rest)).drop lenHeader = value ++ rest :=
    List.drop_left' (length_header _ _ _)
  rw [TTLV.valueRaw, hlen, hdrop]
  by_cases h0 : value.length = 0
  · rw [if_pos h0, if_pos h0]
  · have hroom : ¬ (header tag ty value.length ++ (value ++ rest)).length <
        lenHeader + value.length := by
      simp [lenHeader]
    rw [if_neg h0, if_neg h0, if_neg hroom, List.take_left' rfl]

theorem raw_header_append (tag : Tag) (ty : Typ) (value rest : Bytes) (h : value.length < 2 ^ 32) :
    TTLV.raw (header tag ty value.length ++ (value ++ rest)) = value := by
  rw [TTLV.raw, valueRaw_header_append tag ty value rest h]
  by_cases h0 : value.length = 0
  · rw [if_pos h0, List.length_eq_zero_iff.mp h0, Option.getD_none]
  · rw [if_neg h0, Option.getD_some]

theorem raw_leaf_append (tag : ValidTag) (item : Leaf) (rest : Bytes) :
    TTLV.raw ((Block.leaf tag item).bytes ++ rest) = item.value := by
  rw [Block.bytes, List.append_assoc, List.append_assoc]
  exact raw_header_append _ _ _ _ item.rule.length_lt

theorem raw_struct_append (tag : ValidTag) (children : List Block) (rest : Bytes)
    (h : (blocksBytes children).length < 2 ^ 32) :
    TTLV.raw ((Block.struct tag children).bytes ++ rest) = blocksBytes children := by
  rw [Block.bytes, List.append_assoc]
  exact raw_header_append _ _ _ _ h

theorem valueRaw_struct_append (tag : ValidTag) (children : List Block) (rest : Bytes)
    (h : (blocksBytes children).length < 2 ^ 32) :
    TTLV.valueRaw ((Block.struct tag children).bytes ++ rest) =
      if (blocksBytes children).length = 0 then none else some (blocksBytes children) := by
  rw [Block.bytes, List.append_assoc]
  exact valueRaw_header_append _ _ _ _ h

/-! ## Derivations are valid -/

theorem validTag_header_append (tag : ValidTag) (ty : Typ) (l : Nat) (rest : Bytes) :
    TTLV.validTag (header tag.1 ty l ++ rest) = true := by
  have hfirst : (header tag.1 ty l ++ rest)[0]? = some (UInt8.ofNat (tag.1.toNat / 256 / 256)) := by
    simp [header, beBytes]
  rw [TTLV.validTag, hfirst]
  rcases tag.2 with h | h
  · have : tag.1.toNat / 256 / 256 = 0x42 := by omega
    simp [this]
  · have : tag.1.toNat / 256 / 256 = 0x54 := by omega
    simp [this]

theorem validHeader_header_append (tag : ValidTag) {ty : Typ} {l : Nat} (rest : Bytes)
    (hl : l < 2 ^ 32) (h : ty.validLen l = true) :
    TTLV.validHeader (header tag.1 ty l ++ rest) = none := by
  have hlen : ¬ (header tag.1 ty l ++ rest).length < lenHeader := by simp [lenHeader]
  rw [TTLV.validHeader, if_neg hlen, validTag_header_append, typ_header_append]
  simp only [len_header_append _ _ _ _ hl, h]
  rfl

mutual
theorem valid_bytes_append : ∀ (b : Block) (rest : Bytes), b.Sized →
    TTLV.valid (b.bytes ++ rest) = .ok ()
  | .leaf tag item, rest, hsize => by
    have hhdr : TTLV.validHeader ((Block.leaf tag item).bytes ++ rest) = none := by
      rw [Block.bytes, List.append_assoc]
      exact validHeader_header_append tag _ item.rule.length_lt item.rule.validLen
    have hty := leaf_ty_ne item
    rw [TTLV.valid]
    split
    · simp_all
    · rw [fullLen_bytes_append _ _ hsize, typ_leaf_append]
      simp [hty]
  | .struct tag children, rest, hsize => by
    have hhdr : TTLV.validHeader ((Block.struct tag children).bytes ++ rest) = none := by
      rw [Block.bytes, List.append_assoc]
      exact validHeader_header_append tag _ hsize rfl
    rw [TTLV.valid]
    split
    · simp_all
    · rw [fullLen_bytes_append _ _ hsize, typ_struct_append, raw_struct_append _ _ _ hsize]
      simp only [List.length_append, if_true, validInner_blocksBytes _ children
        (fun c hc => Sized.of_mem hc hsize)]
      rw [if_neg (by omega)]

theorem validInner_blocksBytes (tag : Tag) : ∀ bs : List Block, (∀ b ∈ bs, b.Sized) →
    TTLV.validInner tag (blocksBytes bs) = .ok ()
  | [], _ => by
    rw [TTLV.validInner]
    simp [blocksBytes]
  | b :: bs, hsize => by
    have hb : b.Sized := hsize b (by simp)
    have hge := b.length_ge
    have hne : ¬ (b.bytes ++ blocksBytes bs).length = 0 := by
      simp only [List.length_append]
      omega
    have hrest := validInner_blocksBytes tag bs (fun c hc => hsize c (by simp [hc]))
    have hfull := fullLen_bytes_append b (blocksBytes bs) hb
    rw [blocksBytes, TTLV.validInner, dif_neg hne, valid_bytes_append b _ hb]
    simp only
    split
    · simp_all
    · rename_i n hn
      rw [hfull, Option.some.injEq] at hn
      rw [← hn, List.drop_left' rfl]
      exact hrest
end

/-! ## Valid slices begin with a derivation -/

theorem tag_valid_of_validTag {t : TTLV} (hlen : lenHeader ≤ t.length) (h : t.validTag = true) :
    t.tag.Valid := by
  match t, hlen with
  | b0 :: b1 :: b2 :: rest, hlen =>
    have hlt := beNat_lt [b1, b2]
    simp only [List.length_cons, List.length_nil] at hlt
    have htag : (TTLV.tag (b0 :: b1 :: b2 :: rest)).toNat = b0.toNat * 65536 + beNat [b1, b2] := by
      have hb := b0.toNat_lt
      simp only [TTLV.tag, List.length_cons, List.take_succ_cons, List.take_zero]
      rw [if_neg (by omega), beNat_cons, BitVec.toNat_ofNat]
      simp only [List.length_cons, List.length_nil]
      omega
    simp only [TTLV.validTag, List.getElem?_cons_zero, Bool.or_eq_true, beq_iff_eq] at h
    rcases h with rfl | rfl
    · left
      rw [htag]
      simp only [UInt8.reduceToNat]
      omega
    · right
      rw [htag]
      simp only [UInt8.reduceToNat]
      omega

theorem tag_valid_of_validHeader {t : TTLV} (h : t.validHeader = none) : t.tag.Valid := by
  have hlen := length_of_validHeader h
  apply tag_valid_of_validTag hlen
  unfold TTLV.validHeader at h
  rw [if_neg (by omega)] at h
  by_contra hbad
  rw [Bool.not_eq_true] at hbad
  simp [hbad] at h

theorem raw_eq_take {t : TTLV} (h : lenHeader + t.len ≤ t.length) :
    t.raw = (t.drop 8).take t.len := by
  unfold TTLV.raw TTLV.valueRaw
  by_cases h0 : t.len = 0
  · simp [h0]
  · rw [if_neg h0, if_neg (by omega)]
    rfl

theorem add_le_blockLen {ty : Typ} {l : Nat} (h : ty.validLen l = true) : 8 + l ≤ ty.blockLen l := by
  cases ty with
  | Structure => simp only [Typ.blockLen, lenHeader]; omega
  | TextString => rw [blockLen_textString]; omega
  | ByteString => rw [blockLen_byteString]; omega
  | BigInteger => simp only [Typ.blockLen, lenHeader]; omega
  | _ =>
    simp only [Typ.validLen, beq_iff_eq] at h
    simp only [Typ.blockLen, lenHeader, h]
    omega

/-- The value and padding that a leaf header announces, when the slice is long enough. -/
theorem leafRule_of_header {t : TTLV} {ty : Typ} (hne : ty ≠ .Structure)
    (hvalid : ty.validLen t.len = true) (hlen : ty.blockLen t.len ≤ t.length) :
    LeafRule ty ((t.drop 8).take t.len)
      (((t.drop 8).drop t.len).take (ty.blockLen t.len - 8 - t.len)) := by
  have hsize := len_lt t
  cases ty with
  | Structure => exact absurd rfl hne
  | TextString =>
    rw [blockLen_textString] at hlen ⊢
    simp only [LeafRule, List.length_take, List.length_drop]
    rw [show min t.len (t.length - 8) = t.len by omega]
    omega
  | ByteString =>
    rw [blockLen_byteString] at hlen ⊢
    simp only [LeafRule, List.length_take, List.length_drop]
    rw [show min t.len (t.length - 8) = t.len by omega]
    omega
  | BigInteger =>
    simp only [Typ.validLen, beq_iff_eq] at hvalid
    simp only [Typ.blockLen, lenHeader] at hlen ⊢
    simp only [LeafRule, List.length_take, List.length_drop]
    rw [show min t.len (t.length - 8) = t.len by omega]
    omega
  | _ =>
    simp only [Typ.validLen, beq_iff_eq] at hvalid
    simp only [Typ.blockLen, lenHeader] at hlen ⊢
    simp only [LeafRule, List.length_take, List.length_drop, hvalid]
    omega

theorem exists_leaf_of_header {t : TTLV} {ty : Typ} (hhdr : t.validHeader = none)
    (hty : t.typ = some ty) (hne : ty ≠ .Structure) (hvalid : ty.validLen t.len = true)
    (hlen : ty.blockLen t.len ≤ t.length) :
    ∃ b : Block, b.Sized ∧ b.bytes <+: t := by
  have hrule := leafRule_of_header hne hvalid hlen
  refine ⟨.leaf ⟨t.tag, tag_valid_of_validHeader hhdr⟩ ⟨ty, _, _, hrule⟩, trivial, ?_⟩
  have hroom := add_le_blockLen hvalid
  have hvlen : ((t.drop 8).take t.len).length = t.len := by simp; omega
  refine ⟨((t.drop 8).drop t.len).drop (ty.blockLen t.len - 8 - t.len), ?_⟩
  rw [Block.bytes, hvlen, List.append_assoc, List.append_assoc, List.take_append_drop,
    List.take_append_drop]
  exact (eq_header_append (length_of_validHeader hhdr) hty).symm

theorem exists_struct_of_header {t : TTLV} (hhdr : t.validHeader = none)
    (hty : t.typ = some .Structure) (hlen : Typ.Structure.blockLen t.len ≤ t.length)
    {children : List Block} (hraw : t.raw = blocksBytes children) :
    ∃ b : Block, b.Sized ∧ b.bytes <+: t := by
  have hroom : lenHeader + t.len ≤ t.length := by
    simp only [Typ.blockLen, lenHeader] at hlen ⊢
    omega
  have hchildren := (raw_eq_take hroom).symm.trans hraw
  have hclen : (blocksBytes children).length = t.len := by
    rw [← hchildren]
    simp only [lenHeader] at hroom
    simp
    omega
  refine ⟨.struct ⟨t.tag, tag_valid_of_validHeader hhdr⟩ children, ?_, (t.drop 8).drop t.len, ?_⟩
  · show (blocksBytes children).length < 2 ^ 32
    rw [hclen]
    exact len_lt t
  · rw [Block.bytes, hclen, ← hchildren, List.append_assoc, List.take_append_drop]
    exact (eq_header_append (length_of_validHeader hhdr) hty).symm

theorem exists_block_of_valid (t : TTLV) :
    (t.IsValid → ∃ b : Block, b.Sized ∧ b.bytes <+: t) ∧
    (∀ tag, TTLV.validInner tag t = .ok () →
      ∃ bs : List Block, t = blocksBytes bs ∧ ∀ b ∈ bs, b.Sized) := by
  -- strong induction on the length: `Valid` recurses into the value, the loop into what follows
  induction hl : t.length using Nat.strong_induction_on generalizing t with
  | _ k ih =>
    subst hl
    have hvalid : t.IsValid → ∃ b : Block, b.Sized ∧ b.bytes <+: t := by
      intro hv
      have hhdr := validHeader_of_isValid hv
      obtain ⟨ty, hty, hvl, hfull⟩ := fullLen_of_validHeader hhdr
      unfold TTLV.IsValid at hv
      rw [TTLV.valid] at hv
      split at hv
      · cases hv
      · rw [hfull] at hv
        simp only at hv
        split at hv
        · cases hv
        · rename_i hlen
          by_cases hs : ty = .Structure
          · subst hs
            rw [if_pos hty] at hv
            have h8 := length_of_validHeader hhdr
            have hraw := raw_length_le t
            simp only [lenHeader] at h8 hraw
            obtain ⟨children, hchildren, -⟩ := (ih t.raw.length (by omega) t.raw rfl).2 t.tag hv
            exact exists_struct_of_header hhdr hty (by omega) hchildren
          · exact exists_leaf_of_header hhdr hty hs hvl (by omega)
    refine ⟨hvalid, fun tag hin => ?_⟩
    rw [TTLV.validInner] at hin
    by_cases hz : t.length = 0
    · exact ⟨[], List.length_eq_zero_iff.mp hz, by simp⟩
    · rw [dif_neg hz] at hin
      cases hv : t.valid with
      | err e => simp [hv] at hin
      | panic => simp [hv] at hin
      | ok u =>
        obtain ⟨b, hsize, rest, rfl⟩ := hvalid hv
        have hge := b.length_ge
        simp only [hv] at hin
        split at hin
        · cases hin
        · rename_i n hn
          rw [fullLen_bytes_append b rest hsize, Option.some.injEq] at hn
          rw [← hn, List.drop_left' rfl] at hin
          have hshort : rest.length < (b.bytes ++ rest).length := by
            rw [List.length_append]
            omega
          obtain ⟨bs, hrest, hsizes⟩ := (ih rest.length hshort rest rfl).2 tag hin
          refine ⟨b :: bs, by rw [blocksBytes, ← hrest], ?_⟩
          intro c hc
          cases hc with
          | head => exact hsize
          | tail _ hc => exact hsizes c hc

theorem isValid_iff {t : TTLV} : t.IsValid ↔ ∃ b : Block, b.Sized ∧ ∃ rest, t = b.bytes ++ rest := by
  constructor
  · intro h
    obtain ⟨b, hsize, rest, hrest⟩ := (exists_block_of_valid t).1 h
    exact ⟨b, hsize, rest, hrest.symm⟩
  · rintro ⟨b, hsize, rest, rfl⟩
    exact valid_bytes_append b rest hsize

/-! ## The walk with `Next` -/

theorem next_length_lt {t m : TTLV} (h : t.next = some m) : m.length + 8 ≤ t.length := by
  unfold TTLV.next at h
  split at h
  · split at h
    · cases h
    · rename_i n hn
      have hge := fullLen_ge hn
      split at h
      · cases h
      · rename_i hne
        cases h
        simp only [List.length_drop] at hne ⊢
        omega
  · cases h

/-- Induction for a function on blocks that walks the value of a structure with `Next`: `one` is about a
    call on a slice, `all` about the loop from a slice on. -/
theorem walk_induction {one all : TTLV → Prop} (hone : ∀ t : TTLV, (t.length ≠ 0 → all t.raw) → one t)
    (hall : ∀ t, one t → (∀ m, t.next = some m → all m) → all t) (t : TTLV) : one t ∧ all t := by
  induction hl : t.length using Nat.strong_induction_on generalizing t with
  | _ k ih =>
    subst hl
    have hfirst : one t := by
      apply hone
      intro hne
      have hraw := raw_length_le t
      simp only [lenHeader] at hraw
      exact (ih t.raw.length (by omega) t.raw rfl).2
    refine ⟨hfirst, hall t hfirst ?_⟩
    intro m hm
    have hlt := next_length_lt hm
    exact (ih m.length (by omega) m rfl).2

/-- The slices visited by `for n := t; n != nil; n = n.Next()`. -/
def TTLV.walk (t : TTLV) : List TTLV :=
  t :: match _h : t.next with
    | none => []
    | some m => TTLV.walk m
termination_by t.length
decreasing_by
  have := next_length_lt _h
  omega

theorem walk_of_none {t : TTLV} (h : t.next = none) : t.walk = [t] := by
  rw [TTLV.walk]
  split
  · rfl
  · rename_i m hm
    rw [h] at hm
    cases hm

theorem walk_of_some {t m : TTLV} (h : t.next = some m) : t.walk = t :: m.walk := by
  rw [TTLV.walk]
  split
  · rename_i hm
    rw [h] at hm
    cases hm
  · rename_i m' hm
    rw [h, Option.some.injEq] at hm
    rw [hm]

/-- The slices visited by `for n := t.ValueStructure(); n != nil; n = n.Next()`. -/
def TTLV.children (t : TTLV) : List TTLV :=
  match t.valueRaw with
  | none => []
  | some n => TTLV.walk n

/-- The leading block of a slice, without what follows it. -/
def TTLV.block (t : TTLV) : Bytes :=
  t.take (t.fullLen.getD 0)

theorem block_bytes_append (b : Block) (rest : Bytes) (h : b.Sized) :
    TTLV.block (b.bytes ++ rest) = b.bytes := by
  rw [TTLV.block, fullLen_bytes_append b rest h, Option.getD_some, List.take_left' rfl]

theorem next_bytes_append (b : Block) (rest : Bytes) (h : b.Sized) :
    TTLV.next (b.bytes ++ rest) = if rest.length = 0 then none else some rest := by
  have hv : TTLV.IsValid (b.bytes ++ rest) := valid_bytes_append b rest h
  rw [TTLV.next, if_pos hv, fullLen_bytes_append b rest h]
  simp only [List.drop_left' rfl]

/-- The slices that a walk over blocks hands out: each begins with its block and runs to the end. -/
def slices : List Block → Bytes → List TTLV
  | [], _ => []
  | b :: bs, tail => (b.bytes ++ (blocksBytes bs ++ tail)) :: slices bs tail

theorem slices_append (as bs : List Block) (tail : Bytes) :
    slices (as ++ bs) tail = slices as (blocksBytes bs ++ tail) ++ slices bs tail := by
  induction as with
  | nil => rfl
  | cons a as ih =>
    rw [List.cons_append, slices, slices, ih, blocksBytes_append, List.append_assoc]
    rfl

theorem mem_slices {n : TTLV} {bs : List Block} {tail : Bytes} (h : n ∈ slices bs tail) :
    ∃ b ∈ bs, ∃ rest, n = b.bytes ++ rest := by
  induction bs with
  | nil => exact absurd h List.not_mem_nil
  | cons b bs ih =>
    cases h with
    | head => exact ⟨b, List.mem_cons_self .., _, rfl⟩
    | tail _ h =>
      obtain ⟨c, hc, rest, hn⟩ := ih h
      exact ⟨c, List.mem_cons_of_mem b hc, rest, hn⟩

theorem map_block_slices {bs : List Block} (h : ∀ b ∈ bs, b.Sized) (tail : Bytes) :
    (slices bs tail).map TTLV.block = bs.map Block.bytes := by
  induction bs with
  | nil => rfl
  | cons b bs ih =>
    rw [slices, List.map_cons, List.map_cons, block_bytes_append b _ (h b (List.mem_cons_self ..)),
      ih (fun c hc => h c (List.mem_cons_of_mem b hc))]

theorem walk_blocksBytes (b : Block) (bs : List Block) (h : ∀ c ∈ b :: bs, c.Sized) :
    TTLV.walk (blocksBytes (b :: bs)) = slices (b :: bs) [] := by
  induction bs generalizing b with
  | nil =>
    have hnext := next_bytes_append b [] (h b (by simp))
    rw [List.length_nil, if_pos rfl] at hnext
    rw [blocksBytes, blocksBytes, walk_of_none hnext]
    rfl
  | cons c cs ih =>
    have hrest := ih c (fun d hd => h d (by simp [hd]))
    have hge := c.length_ge
    have hnext := next_bytes_append b (blocksBytes (c :: cs)) (h b (by simp))
    have hne : ¬ (blocksBytes (c :: cs)).length = 0 := by
      rw [blocksBytes, List.length_append]
      omega
    rw [if_neg hne] at hnext
    rw [blocksBytes, walk_of_some hnext, hrest, slices.eq_2 _ b, List.append_nil]

/-- The walk over a structure's value visits its children, in order. -/
theorem children_struct_append (tag : ValidTag) (cs : List Block) (rest : Bytes)
    (h : (blocksBytes cs).length < 2 ^ 32) :
    TTLV.children ((Block.struct tag cs).bytes ++ rest) = slices cs [] := by
  rw [TTLV.children, valueRaw_struct_append tag cs rest h]
  cases cs with
  | nil => simp [blocksBytes, slices]
  | cons b bs =>
    have hge := b.length_ge
    have hne : ¬ (blocksBytes (b :: bs)).length = 0 := by
      rw [blocksBytes, List.length_append]
      omega
    rw [if_neg hne]
    exact walk_blocksBytes b bs (fun c hc => Sized.of_mem hc h)

/-- A slice is valid iff it begins with the bytes of a derivation; every such derivation has `FullLen`
    bytes, a multiple of eight, and the walk over a structure's value visits exactly its children. -/
theorem valid_iff_grammar (t : TTLV) :
    (t.valid = .ok () ↔ ∃ b : Block, b.Sized ∧ b.bytes <+: t) ∧
    ∀ b : Block, b.Sized ∧ b.bytes <+: t →
      t.fullLen = some b.bytes.length ∧ 8 ∣ b.bytes.length ∧
      ∀ tag cs, b = .struct tag cs →
        t.children.map TTLV.block = cs.map Block.bytes ∧ (cs.map Block.bytes).flatten = t.raw := by
  refine ⟨?_, ?_⟩
  · constructor
    · exact (exists_block_of_valid t).1
    · rintro ⟨b, hsize, rest, rfl⟩
      exact valid_bytes_append b rest hsize
  · rintro b ⟨hsize, rest, rfl⟩
    refine ⟨fullLen_bytes_append b rest hsize, b.dvd_length, ?_⟩
    rintro tag cs rfl
    rw [children_struct_append tag cs rest hsize, raw_struct_append tag cs rest hsize]
    exact ⟨map_block_slices (fun c hc => Sized.of_mem hc hsize) [], (blocksBytes_eq_flatten cs).symm⟩

end KmipGo.Ttlv
