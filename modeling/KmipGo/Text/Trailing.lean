import KmipGo.Text.Print
import KmipGo.Value.RoundTrip
import KmipGo.Xml.Verdict

/-! # Bytes after a block

The methods of `TTLV` operate on the block at the beginning of the slice, and the
walks over a structure hand them slices that go on with the later siblings.
Each of them gives the same result on a valid block, whatever follows it.

That is no recursion: what a walk descends into is cut at the length of the
structure, so that one level of each function, on slices that agree, is enough
(`marshalJSON_congr` and its siblings).
-/

namespace KmipGo.Text

open KmipGo.Lib KmipGo.Ttlv KmipGo.Reg KmipGo.Go KmipGo.Value

/-! ## Slices that agree -/

section

variable {reg : Registry} {title : Bytes → Bytes} {C : JsonCodec} {T : TimeCodec} {t u : TTLV}

theorem value_congr (h : Agrees t u) : Decoder.value t = Decoder.value u := by
  simp only [Decoder.value, h.typ, h.valueInterval, h.valueDateTime, h.valueDateTimeExtended,
    h.valueByteString, h.valueTextString, h.valueBoolean, h.valueEnumeration, h.valueBigInteger,
    h.valueLongInteger, h.valueInteger, h.valueStructure]

theorem valueText_congr (h : Agrees t u) (ty : Typ) :
    JsonForm.valueText reg C T t ty = JsonForm.valueText reg C T u ty := by
  cases ty <;>
    simp only [JsonForm.valueText, h.tag, h.raw, h.valueBoolean, h.valueEnumeration, h.valueInteger,
      h.valueLongInteger, h.valueBigInteger, h.valueTextString, h.valueDateTime]

theorem marshalJSON_congr (h : Agrees t u) (hvalid : t.valid = u.valid) (ht : ¬ t.length = 0)
    (hu : ¬ u.length = 0) :
    JsonForm.marshalJSON reg title C T t = JsonForm.marshalJSON reg title C T u := by
  rw [JsonForm.marshalJSON, JsonForm.marshalJSON, dif_neg ht, dif_neg hu, hvalid]
  simp only [h.typ, h.raw, h.tag, h.typeByte, valueText_congr h]

theorem valueAttr_congr (h : Agrees t u) (ty : Typ) :
    XmlForm.valueAttr reg T t ty = XmlForm.valueAttr reg T u ty := by
  cases ty <;>
    simp only [XmlForm.valueAttr, h.tag, h.raw, h.valueBoolean, h.valueEnumeration, h.valueInteger,
      h.valueLongInteger, h.valueTextString, h.valueDateTime]

theorem marshalXML_congr (h : Agrees t u) (ht : ¬ t.length = 0) (hu : ¬ u.length = 0) (e : XmlEncoder) :
    XmlForm.marshalXML reg title T t e = XmlForm.marshalXML reg title T u e := by
  rw [XmlForm.marshalXML, XmlForm.marshalXML, dif_neg ht, dif_neg hu]
  simp only [h.typ, h.raw, h.tag, h.typeByte, valueAttr_congr h]

end

/-! ## `MarshalJSON` does not panic -/

section

variable {reg : Registry} {title : Bytes → Bytes} {C : JsonCodec} {T : TimeCodec}

theorem valueText_ne_panic (tag : ValidTag) (l : Leaf) (rest : Bytes) :
    JsonForm.valueText reg C T ((Block.leaf tag l).bytes ++ rest) l.ty ≠ .panic := by
  have hpure : ∀ s : Bytes, (pure s : Res JsonForm.MarshalErr Bytes) ≠ .panic := fun s => nofun
  cases hl : l.ty with
  | Structure => exact absurd hl (leaf_ty_ne l)
  | BigInteger | TextString | ByteString => exact hpure _
  | Boolean =>
    rw [JsonForm.valueText, valueBoolean_leaf rest hl]
    exact hpure _
  | Integer =>
    rw [JsonForm.valueText, valueInteger_leaf rest (Or.inl hl)]
    exact hpure _
  | Enumeration =>
    rw [JsonForm.valueText, valueEnumeration_leaf rest hl]
    exact hpure _
  | Interval =>
    rw [JsonForm.valueText, uint32BE_raw_leaf rest hl]
    exact hpure _
  | LongInteger =>
    rw [JsonForm.valueText, valueLongInteger_leaf rest (Or.inl hl)]
    exact hpure _
  | DateTime =>
    rw [JsonForm.valueText, valueDateTime_leaf rest (Or.inl hl), Res.ofOption_some, Res.ok_bind]
    split
    · exact hpure _
    · exact nofun
  | DateTimeExtended =>
    rw [JsonForm.valueText, valueDateTime_leaf rest (Or.inr hl), Res.ofOption_some, Res.ok_bind]
    split
    · exact hpure _
    · exact nofun

variable (reg) in
theorem childText_ne_panic (attrTag : Tag) (c : Block) (rest : Bytes) {other : Res JsonForm.MarshalErr Bytes}
    (h : other ≠ .panic) : JsonForm.childText reg attrTag (c.bytes ++ rest) other ≠ .panic := by
  cases c with
  | struct tag cs =>
    rw [JsonForm.childText, typ_struct_append, if_neg (fun hc => nomatch hc.2), if_neg (fun hc => nomatch hc.2)]
    exact h
  | leaf tag l =>
    rw [JsonForm.childText, typ_leaf_append]
    split
    · rename_i hc
      rw [valueEnumeration_leaf rest (Option.some.inj hc.2)]
      exact nofun
    · split
      · rename_i hc
        rw [valueInteger_leaf rest (Or.inl (Option.some.inj hc.2))]
        exact nofun
      · exact h

theorem marshalChildren_eq {c : TTLV} (h : ¬ c.length = 0) (attrTag : Tag) :
    JsonForm.marshalChildren reg title C T attrTag c =
      (JsonForm.childText reg (nextAttr reg title attrTag c) c (JsonForm.marshalJSON reg title C T c) >>=
        fun child => c.next.elim (.ok child) fun n => do
          let rest ← JsonForm.marshalChildren reg title C T (nextAttr reg title attrTag c) n
          return child ++ (if n.length > 0 then lit "," else []) ++ rest) := by
  rw [JsonForm.marshalChildren, if_neg h]
  cases c.next <;> rfl

mutual
theorem marshalJSON_ne_panic : ∀ (b : Block) (rest : Bytes), b.Sized →
    JsonForm.marshalJSON reg title C T (b.bytes ++ rest) ≠ .panic
  | .leaf tag l, rest, hsize => by
    rw [JsonForm.marshalJSON, dif_neg (bytes_append_length_ne_zero _ _), valid_bytes_append _ _ hsize,
      typ_leaf_append]
    simp only [Option.some.injEq, if_neg (leaf_ty_ne l)]
    exact Res.bind_ne_panic (valueText_ne_panic tag l rest) fun value => nofun
  | .struct tag cs, rest, hsize => by
    rw [JsonForm.marshalJSON, dif_neg (bytes_append_length_ne_zero _ _), valid_bytes_append _ _ hsize,
      typ_struct_append, raw_struct_append tag cs rest hsize]
    have hchildren := marshalChildren_ne_panic cs tagNone fun c hc => Sized.of_mem hc hsize
    exact Res.bind_ne_panic hchildren fun children => nofun

theorem marshalChildren_ne_panic : ∀ (cs : List Block) (attrTag : Tag), (∀ c ∈ cs, c.Sized) →
    JsonForm.marshalChildren reg title C T attrTag (blocksBytes cs) ≠ .panic
  | [], attrTag, _ => by
    rw [blocksBytes, JsonForm.marshalChildren, if_pos List.length_nil]
    exact nofun
  | c :: cs, attrTag, hsize => by
    have hc : c.Sized := hsize c (List.mem_cons_self ..)
    have hchild := childText_ne_panic reg (nextAttr reg title attrTag (c.bytes ++ blocksBytes cs)) c
      (blocksBytes cs) (marshalJSON_ne_panic c (blocksBytes cs) hc)
    rw [blocksBytes, marshalChildren_eq (bytes_append_length_ne_zero c _), next_bytes_append c _ hc]
    refine Res.bind_ne_panic hchild fun child => ?_
    split
    · exact nofun
    · have hrest := marshalChildren_ne_panic cs (nextAttr reg title attrTag (c.bytes ++ blocksBytes cs))
        fun d hd => hsize d (List.mem_cons_of_mem c hd)
      exact Res.bind_ne_panic hrest fun rest => nofun
end

end

/-! ## The leading block -/

section

variable (reg : Registry) (title : Bytes → Bytes) (C : JsonCodec) (T : TimeCodec) (S : ValueStrings)

/-- The readers and printers do not panic on `t`, and give the same results on `u`. -/
structure ReadsAlike (t u : TTLV) : Prop where
  tag : t.tag = u.tag
  typeByte : t.typeByte = u.typeByte
  len : t.len = u.len
  fullLen : ∃ n, t.fullLen = some n ∧ u.fullLen = some n
  value : ∃ v, Decoder.value t = some v ∧ Decoder.value u = some v
  valid : t.valid = .ok () ∧ u.valid = .ok ()
  marshalJSON : JsonForm.marshalJSON reg title C T t = JsonForm.marshalJSON reg title C T u ∧
    JsonForm.marshalJSON reg title C T t ≠ .panic
  marshalXML : ∀ e, XmlForm.marshalXML reg title T t e = XmlForm.marshalXML reg title T u e ∧
    XmlForm.marshalXML reg title T t e ≠ .panic
  print : ∀ indent currIndent, print reg S indent currIndent t = print reg S indent currIndent u ∧
    (print reg S indent currIndent t).result ≠ .panic
  printPrettyHex : ∀ indent currIndent,
    printPrettyHex indent currIndent t = printPrettyHex indent currIndent u ∧
    (printPrettyHex indent currIndent t).result ≠ .panic
  valueOf : ∃ v, Decoder.valueOf t = some v ∧ Decoder.valueOf u = some v

theorem value_isSome (b : Block) (rest : Bytes) : ∃ v, Decoder.value (b.bytes ++ rest) = some v := by
  cases b with
  | leaf tag l => exact ⟨_, value_leaf_append tag l rest⟩
  | struct tag cs =>
    rw [Decoder.value, typ_struct_append]
    exact ⟨_, rfl⟩

theorem readsAlike_block (b : Block) (rest : Bytes) (h : b.Sized) :
    ReadsAlike reg title C T S (b.bytes ++ rest) b.bytes := by
  have hsame := agrees_append b rest h
  have hvalid := valid_bytes_append b rest h
  have hvalid' := valid_bytes_append b [] h
  have hfull := fullLen_bytes_append b [] h
  have hvalueOf := valueOf_bytes_append b [] h
  -- what the printers write for the block alone, to compare with the block and its rest
  have hprint := fun indent currIndent =>
    (prints_print reg S indent).node_bytes_append b currIndent [] h
  have hhex := fun indent currIndent => (prints_printPrettyHex indent).node_bytes_append b currIndent [] h
  rw [List.append_nil] at hvalid' hfull hvalueOf
  simp only [List.append_nil] at hprint hhex
  have hne := bytes_append_length_ne_zero b rest
  have hne' : ¬ b.bytes.length = 0 := Nat.ne_of_gt (Nat.lt_of_lt_of_le (by decide) b.length_ge)
  refine ⟨hsame.tag, hsame.typeByte, hsame.len, ⟨_, fullLen_bytes_append b rest h, hfull⟩, ?_,
    ⟨hvalid, hvalid'⟩, ⟨marshalJSON_congr hsame (hvalid.trans hvalid'.symm) hne hne', marshalJSON_ne_panic b rest h⟩,
    ?_, ?_, ?_, ⟨_, valueOf_bytes_append b rest h, hvalueOf⟩⟩
  · obtain ⟨v, hv⟩ := value_isSome b rest
    exact ⟨v, hv, (value_congr hsame).symm.trans hv⟩
  · intro e
    refine ⟨marshalXML_congr hsame hne hne' e, fun hpanic => ?_⟩
    have hends := (XmlForm.endsAs_marshalXML reg title T (b.bytes ++ rest)).1 e
    rw [hpanic] at hends
    exact XmlForm.verdict_ne_panics b rest h hends.eq_panics
  · intro indent currIndent
    rw [(prints_print reg S indent).node_bytes_append b currIndent rest h, hprint]
    exact ⟨rfl, nofun⟩
  · intro indent currIndent
    rw [(prints_printPrettyHex indent).node_bytes_append b currIndent rest h, hhex]
    exact ⟨rfl, nofun⟩

/-- On a valid slice with anything after it, every reader and printer does what it does on the leading
    block, and `Next` returns what follows that block. -/
theorem trailing_ignored {t : TTLV} (h : t.IsValid) (s : Bytes) :
    ReadsAlike reg title C T S (t ++ s) t.block ∧
      TTLV.next (t ++ s) =
        if ((t ++ s).drop t.block.length).length = 0 then none else some ((t ++ s).drop t.block.length) := by
  obtain ⟨b, hsize, rest, rfl⟩ := isValid_iff.mp h
  rw [block_bytes_append b rest hsize, List.append_assoc, List.drop_left' rfl]
  exact ⟨readsAlike_block reg title C T S b (rest ++ s) hsize, next_bytes_append b (rest ++ s) hsize⟩

end

/-- A boolean followed by a byte that begins nothing. -/
theorem trailing_ignored_boolean :
    TTLV.IsValid [0x42, 0x00, 0x08, 0x06, 0, 0, 0, 8, 0, 0, 0, 0, 0, 0, 0, 1] ∧
      TTLV.next ([0x42, 0x00, 0x08, 0x06, 0, 0, 0, 8, 0, 0, 0, 0, 0, 0, 0, 1] ++ [0xff]) = some [0xff] := by
  have hv : TTLV.IsValid [0x42, 0x00, 0x08, 0x06, 0, 0, 0, 8, 0, 0, 0, 0, 0, 0, 0, 1] := by decide +kernel
  refine ⟨hv, ((trailing_ignored Registry.empty id ⟨id, fun _ => none⟩ ⟨fun _ => [], fun _ => none⟩
    noStrings hv [0xff]).2).trans ?_⟩
  decide +kernel

end KmipGo.Text
