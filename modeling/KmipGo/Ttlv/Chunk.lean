import KmipGo.Ttlv.Canonical

/-! # Chunks

What the encoder writes is a sequence of chunks: a header, the value that it
announces, and the padding.  The tag is any three bytes, and nothing is asked of
the value.  Since a header tells the length of its chunk, bytes are cut into
chunks in one way only.

* `chunks_unique` — two sequences of chunks with the same bytes are the same.
* `item_eq_leaf`, `item_eq_struct` — what an item that is written has in common
  with a block of the same bytes.
-/

namespace KmipGo.Ttlv

open KmipGo.Lib

/-- A header with its value and padding. -/
def Chunk (x : Bytes) : Prop :=
  ∃ tag ty value padding, padding.length = padTo8 value.length ∧
    x = header tag ty value.length ++ (value ++ padding)

theorem chunk_item (tag : Tag) (ty : Typ) (value : Bytes) : Chunk (item tag ty value) :=
  ⟨tag, ty, value, _, List.length_replicate, rfl⟩

theorem chunk_block (b : Block) : Chunk b.bytes := by
  cases b with
  | leaf tag l => exact ⟨tag.1, l.ty, l.value, l.padding, l.rule.padding_length, rfl⟩
  | struct tag children =>
    refine ⟨tag.1, .Structure, blocksBytes children, [], ?_, ?_⟩
    · rw [padTo8_eq_zero (blocksBytes_dvd children)]
      rfl
    · rw [List.append_nil, Block.bytes]

namespace Chunk

variable {x y : Bytes}

theorem length_ge (h : Chunk x) : 8 ≤ x.length := by
  obtain ⟨tag, ty, value, padding, -, rfl⟩ := h
  rw [List.length_append, length_header]
  omega

/-- The length of a chunk is in its header. -/
theorem cancel (hx : Chunk x) (hy : Chunk y) {r s : Bytes} (hsx : x.length < 2 ^ 32) (hsy : y.length < 2 ^ 32)
    (h : x ++ r = y ++ s) : x = y ∧ r = s := by
  apply List.append_inj h
  obtain ⟨tag, ty, value, padding, hpad, rfl⟩ := hx
  obtain ⟨tag', ty', value', padding', hpad', rfl⟩ := hy
  simp only [List.length_append, length_header, hpad, hpad'] at hsx hsy ⊢
  have hlen := congrArg TTLV.len h
  rw [List.append_assoc (header _ _ _), List.append_assoc (header tag' ty' _),
    len_header_append _ _ _ _ (by omega), len_header_append _ _ _ _ (by omega)] at hlen
  rw [hlen]

end Chunk

theorem chunks_eq_nil {xs : List Bytes} (hxs : ∀ x ∈ xs, Chunk x) (h : xs.flatten = []) : xs = [] := by
  cases xs with
  | nil => rfl
  | cons x xs =>
    have hge := (hxs x (List.mem_cons_self ..)).length_ge
    have hlen := congrArg List.length h
    rw [List.flatten_cons, List.length_nil, List.length_append] at hlen
    omega

/-- Bytes are cut into chunks in one way. -/
theorem chunks_unique : ∀ {xs ys : List Bytes}, (∀ x ∈ xs, Chunk x) → (∀ y ∈ ys, Chunk y) →
    xs.flatten = ys.flatten → xs.flatten.length < 2 ^ 32 → xs = ys
  | [], _, _, hys, h, _ => (chunks_eq_nil hys h.symm).symm
  | _ :: _, [], hxs, _, h, _ => chunks_eq_nil hxs h
  | x :: xs, y :: ys, hxs, hys, h, hsize => by
    have hsize' := hsize
    rw [h] at hsize'
    rw [List.flatten_cons, List.length_append] at hsize hsize'
    obtain ⟨rfl, hrest⟩ := (hxs x (by simp)).cancel (hys y (by simp)) (by omega) (by omega) h
    rw [chunks_unique (fun z hz => hxs z (List.mem_cons_of_mem x hz))
      (fun z hz => hys z (List.mem_cons_of_mem x hz)) hrest (by omega)]

theorem flatten_map_bytes (bs : List Block) : (bs.map Block.bytes).flatten = blocksBytes bs :=
  (blocksBytes_eq_flatten bs).symm

/-! ## Items and blocks of the same bytes -/

/-- The parts of a chunk, of whatever length it is. -/
theorem chunk_parts {tag tag' : Tag} {ty ty' : Typ} {v v' p p' : Bytes} (hp : p.length = padTo8 v.length)
    (hp' : p'.length = padTo8 v'.length)
    (h : header tag ty v.length ++ (v ++ p) = header tag' ty' v'.length ++ (v' ++ p')) :
    wireTag tag = wireTag tag' ∧ ty = ty' ∧ v = v' := by
  have htag := congrArg TTLV.tag h
  have hty := congrArg TTLV.typ h
  have hmod := congrArg TTLV.len h
  rw [wireTag_header_append, wireTag_header_append] at htag
  rw [typ_header_append, typ_header_append, Option.some.injEq] at hty
  rw [len_header_append_mod, len_header_append_mod] at hmod
  have hbody : v ++ p = v' ++ p' :=
    (List.append_inj h (by rw [length_header, length_header])).2
  have hlen : v.length = v'.length := by
    have htotal := congrArg List.length hbody
    rw [List.length_append, List.length_append, hp, hp'] at htotal
    have := padTo8_lt v.length
    have := padTo8_lt v'.length
    omega
  exact ⟨htag, hty, (List.append_inj hbody hlen).1⟩

theorem wireTag_valid (t : ValidTag) : wireTag t.1 = t.1 := wireTag_of_lt t.toNat_lt

theorem item_eq_leaf {tag : Tag} {ty : Typ} {value : Bytes} {t : ValidTag} {l : Leaf}
    (h : item tag ty value = (Block.leaf t l).bytes) : wireTag tag = t.1 ∧ ty = l.ty ∧ value = l.value := by
  rw [← wireTag_valid t]
  exact chunk_parts List.length_replicate l.rule.padding_length h

theorem item_eq_struct {tag : Tag} {body : Bytes} {t : ValidTag} {cs : List Block}
    (h : item tag .Structure body = (Block.struct t cs).bytes) :
    wireTag tag = t.1 ∧ body = blocksBytes cs := by
  have hcs : ([] : Bytes).length = padTo8 (blocksBytes cs).length := by
    rw [padTo8_eq_zero (blocksBytes_dvd cs)]
    rfl
  have hparts : item tag .Structure body =
      header t.1 .Structure (blocksBytes cs).length ++ (blocksBytes cs ++ []) := by
    rw [h, List.append_nil, Block.bytes]
  obtain ⟨htag, -, hbody⟩ := chunk_parts List.length_replicate hcs hparts
  exact ⟨htag.trans (wireTag_valid t), hbody⟩

theorem item_wireTag {tag : Tag} {t : ValidTag} (h : wireTag tag = t.1) (ty : Typ) (value : Bytes) :
    item tag ty value = item t.1 ty value := by
  rw [item, item, ← h, header_wireTag]

end KmipGo.Ttlv
