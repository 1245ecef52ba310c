import KmipGo.Codec.Reading
import KmipGo.Ttlv.Chunk

/-! # Writing back what was read

What the encoder writes for a value that was read from some blocks, compared with
the blocks.  Slices that were stored on the way are written with all that follows
them, so that the result is longer; other parts of a value may have lost
something, or have been changed.

* `Reproduces` — the bytes are those of the blocks if the stored slices end with
  their blocks, and more bytes otherwise.
* `Recodes` — the bytes are those of the blocks only if something holds.  Chunks are
  counted for this: none is written for a part that is lost, so that what is
  written for the others cannot make up for it.
* `Recoded.append`, `Recoded.struct` — both together, from the parts of an encoding
  to the whole.
-/

namespace KmipGo.Codec

open KmipGo.Lib KmipGo.Ttlv KmipGo.Reg KmipGo.Go KmipGo.Encoder KmipGo.Decoder KmipGo.Value

/-! ## Reproducing bytes -/

/-- `out` is what the encoder makes of `bytes` when `raws` are the slices that were stored on the way. -/
structure Reproduces (raws : List TTLV) (bytes out : Bytes) : Prop where
  same : (∀ c ∈ raws, c.next = none) → out = bytes
  longer : ¬ (∀ c ∈ raws, c.next = none) → bytes.length < out.length

namespace Reproduces

variable {raws raws' : List TTLV} {bytes bytes' out out' : Bytes}

theorem of_nil (bytes : Bytes) : Reproduces [] bytes bytes :=
  ⟨fun _ => rfl, fun h => absurd (fun _ hc => absurd hc List.not_mem_nil) h⟩

theorem length_le (h : Reproduces raws bytes out) : bytes.length ≤ out.length := by
  by_cases hlast : ∀ c ∈ raws, c.next = none
  · rw [h.same hlast]
  · exact (h.longer hlast).le

theorem append (h : Reproduces raws bytes out) (h' : Reproduces raws' bytes' out') :
    Reproduces (raws ++ raws') (bytes ++ bytes') (out ++ out') := by
  have hle := h.length_le
  have hle' := h'.length_le
  constructor
  · intro hlast
    rw [h.same fun c hc => hlast c (List.mem_append_left raws' hc),
      h'.same fun c hc => hlast c (List.mem_append_right raws hc)]
  · intro hnot
    rw [List.length_append, List.length_append]
    by_cases hleft : ∀ c ∈ raws, c.next = none
    · have hright : ¬ ∀ c ∈ raws', c.next = none := fun hright =>
        hnot fun c hc => (List.mem_append.mp hc).elim (hleft c) (hright c)
      have := h'.longer hright
      omega
    · have := h.longer hleft
      omega

/-- A stored slice is written with everything that follows its block. -/
theorem slice (c : Block) (hsize : c.Sized) (tail : Bytes) :
    Reproduces (Place.raw (c.bytes ++ tail)).raws c.bytes (c.bytes ++ tail) := by
  have hge := c.length_ge
  have hne : ¬ (c.bytes ++ tail).length = 0 := by
    rw [List.length_append]
    omega
  have hnext := next_bytes_append c tail hsize
  rw [Place.raws, if_neg hne]
  by_cases htail : tail.length = 0
  · have hnil := List.length_eq_zero_iff.mp htail
    refine ⟨fun _ => by rw [hnil, List.append_nil], fun h => absurd (fun d hd => ?_) h⟩
    rw [List.mem_singleton.mp hd, hnext, if_pos htail]
  · rw [if_neg htail] at hnext
    refine ⟨fun h => ?_, fun _ => by rw [List.length_append]; omega⟩
    have hlast := h _ (List.mem_singleton.mpr rfl)
    rw [hnext] at hlast
    cases hlast

theorem struct {cs : List Block} (t : ValidTag) (h : Reproduces raws (blocksBytes cs) out) :
    Reproduces raws (Block.struct t cs).bytes (item t.1 .Structure out) := by
  constructor
  · intro hlast
    rw [h.same hlast, item_structure]
    rfl
  · intro hnot
    have := h.longer hnot
    rw [length_struct, length_item]
    omega

end Reproduces

/-! ## Encodings of blocks -/

/-- `out` is a sequence of chunks, no more of them than there are blocks, and gives back the blocks only if
    they are kept. -/
def Recodes (kept : Prop) (bs : List Block) (out : Bytes) : Prop :=
  ∃ xs : List Bytes, (∀ x ∈ xs, Chunk x) ∧ xs.flatten = out ∧ xs.length ≤ bs.length ∧
    (xs = bs.map Block.bytes → kept)

namespace Recodes

variable {kept kept' : Prop} {bs bs' : List Block} {out out' : Bytes}

theorem same (h : kept) (bs : List Block) : Recodes kept bs (blocksBytes bs) := by
  refine ⟨bs.map Block.bytes, fun x hx => ?_, flatten_map_bytes bs, by rw [List.length_map], fun _ => h⟩
  obtain ⟨b, -, rfl⟩ := List.mem_map.mp hx
  exact chunk_block b

theorem nothing (hne : bs ≠ []) : Recodes kept bs [] := by
  refine ⟨[], fun x hx => absurd hx List.not_mem_nil, rfl, Nat.zero_le _, fun h => ?_⟩
  exact absurd (List.map_eq_nil_iff.mp h.symm) hne

theorem item {tag : Tag} {ty : Typ} {value : Bytes} {c : Block} (h : item tag ty value = c.bytes → kept) :
    Recodes kept [c] (Ttlv.item tag ty value) := by
  refine ⟨[Ttlv.item tag ty value], fun x hx => ?_, List.append_nil _, Nat.le_refl 1, fun hxs => ?_⟩
  · rw [List.mem_singleton.mp hx]
    exact chunk_item tag ty value
  · exact h (List.cons.inj hxs).1

theorem mono (h : Recodes kept bs out) (himp : kept → kept') : Recodes kept' bs out := by
  obtain ⟨xs, hchunk, hflat, hlen, hkept⟩ := h
  exact ⟨xs, hchunk, hflat, hlen, fun hxs => himp (hkept hxs)⟩

/-- Neither part has more chunks than blocks, so that they can only be right together if each is. -/
theorem append (h : Recodes kept bs out) (h' : Recodes kept' bs' out') :
    Recodes (kept ∧ kept') (bs ++ bs') (out ++ out') := by
  obtain ⟨xs, hchunk, rfl, hlen, hkept⟩ := h
  obtain ⟨xs', hchunk', rfl, hlen', hkept'⟩ := h'
  refine ⟨xs ++ xs', fun x hx => ?_, List.flatten_append, ?_, fun hxs => ?_⟩
  · exact (List.mem_append.mp hx).elim (hchunk x) (hchunk' x)
  · rw [List.length_append, List.length_append]
    omega
  · -- the counts add up, and neither is too large, so both are exact
    rw [List.map_append] at hxs
    have hcount := congrArg List.length hxs
    simp only [List.length_append, List.length_map] at hcount
    obtain ⟨hleft, hright⟩ := List.append_inj hxs (by rw [List.length_map]; omega)
    exact ⟨hkept hleft, hkept' hright⟩

/-- If the bytes are those of the blocks, so are the chunks. -/
theorem kept_of_eq (h : Recodes kept bs (blocksBytes bs)) (hsize : (blocksBytes bs).length < 2 ^ 32) : kept := by
  obtain ⟨xs, hchunk, hflat, -, hkept⟩ := h
  refine hkept (chunks_unique hchunk (fun y hy => ?_) ?_ (by rw [hflat]; exact hsize))
  · obtain ⟨b, -, rfl⟩ := List.mem_map.mp hy
    exact chunk_block b
  · rw [hflat, flatten_map_bytes]

theorem kept_of_single {b : Block} (h : Recodes kept [b] b.bytes) : kept := by
  obtain ⟨xs, -, hflat, hlen, hkept⟩ := h
  refine hkept ?_
  cases xs with
  | nil =>
    have hge := b.length_ge
    rw [← hflat] at hge
    simp at hge
  | cons x xs =>
    obtain rfl : xs = [] := List.length_eq_zero_iff.mp (by simpa using hlen)
    rw [List.flatten_cons, List.flatten_nil, List.append_nil] at hflat
    rw [hflat, List.map_singleton]

end Recodes

/-- What an encoder call makes of the blocks that its value has been read from: if they are kept it writes them
    back, up to the slices that were stored, and otherwise it fails or writes something else. -/
structure Recoded (kept : Prop) (bs : List Block) (raws : List TTLV) (f : Enc → EncRes) : Prop where
  back : kept → ∃ out, Writes f out none ∧ Reproduces raws (blocksBytes bs) out
  only : (∀ c ∈ raws, c.next = none) → ∀ out, Writes f out none → Recodes kept bs out

namespace Recoded

variable {kept kept' : Prop} {bs bs' : List Block} {raws raws' : List TTLV} {f g : Enc → EncRes}
  {ms ns : List Mark}

theorem of_kept {out : Bytes} (hkept : kept) (hw : Writes f out none)
    (hout : Reproduces raws (blocksBytes bs) out) : Recoded kept bs raws f := by
  refine ⟨fun _ => ⟨out, hw, hout⟩, fun hlast out' hw' => ?_⟩
  rw [(hw'.unique hw).1, hout.same hlast]
  exact Recodes.same hkept bs

theorem nothing (hkept : kept) (hw : Writes f [] none) : Recoded kept [] [] f :=
  .of_kept hkept hw (Reproduces.of_nil [])

theorem refused (hkept : ¬ kept) {err : EncErr} (hw : Writes f [] (some err)) : Recoded kept bs raws f :=
  ⟨fun h => absurd h hkept, fun _ _ hw' => (by cases (hw'.unique hw).2)⟩

theorem of_iff (h : Recoded kept bs raws f) (hiff : kept' ↔ kept) : Recoded kept' bs raws f :=
  ⟨fun hkept => h.back (hiff.mp hkept), fun hlast out hw => (h.only hlast out hw).mono hiff.mpr⟩

theorem append (h : Recoded kept bs raws f) (h' : Recoded kept' bs' raws' g) (hf : Outlines f ms)
    (hg : Outlines g ns) :
    Recoded (kept ∧ kept') (bs ++ bs') (raws ++ raws') fun e => EncRes.andThen (f e) g := by
  refine ⟨fun hkept => ?_, fun hlast out hw => ?_⟩
  · obtain ⟨out, hw, hout⟩ := h.back hkept.1
    obtain ⟨out', hw', hout'⟩ := h'.back hkept.2
    refine ⟨out ++ out', hw.andThen hw', ?_⟩
    rw [blocksBytes_append]
    exact hout.append hout'
  · obtain ⟨b, b', rfl, hb, hb'⟩ := Outlines.andThen_parts hf hg hw
    exact (h.only (fun c hc => hlast c (List.mem_append_left raws' hc)) b hb).append
      (h'.only (fun c hc => hlast c (List.mem_append_right raws hc)) b' hb')

theorem thenFlush (h : Recoded kept bs raws f) (hf : Outlines f ms) :
    Recoded kept bs raws fun e => EncRes.andThen (f e) flush := by
  have happend := h.append (nothing trivial Writes.flush) hf Outlines.flush
  rw [List.append_nil, List.append_nil] at happend
  exact happend.of_iff (by rw [and_true])

/-- A structure is right if its tag and its children are. -/
theorem struct {t : ValidTag} {tag : Tag} {cs : List Block} (h : Recoded kept cs raws f) (hf : Outlines f ms)
    (hsize : (blocksBytes cs).length < 2 ^ 32) :
    Recoded (wireTag tag = t.1 ∧ kept) [.struct t cs] raws (encodeStructure tag f) := by
  refine ⟨fun hkept => ?_, fun hlast out hw => ?_⟩
  · obtain ⟨out, hw, hout⟩ := h.back hkept.2
    refine ⟨_, hw.struct tag, ?_⟩
    rw [item_wireTag hkept.1, blocksBytes_single]
    exact hout.struct t
  · -- an item that equals the block has its tag and its content
    obtain ⟨body, err, hbody, -, -⟩ := hf
    obtain ⟨rfl, rfl⟩ := hw.unique (hbody.struct tag)
    refine Recodes.item fun heq => ?_
    obtain ⟨htag, rfl⟩ := item_eq_struct heq
    exact ⟨htag, (h.only hlast _ hbody).kept_of_eq hsize⟩

end Recoded

end KmipGo.Codec
