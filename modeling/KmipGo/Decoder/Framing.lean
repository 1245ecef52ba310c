import KmipGo.Lib.Bufio
import KmipGo.Value.RoundTrip

/-! # Framing

`Decoder.NextTTLV` on a stream that arrives in chunks.  It peeks at a header,
allocates a buffer for the block that the header announces, and reads until the
buffer is full; a read may return less than was asked for.

The buffered reader is a parameter, with its documented behaviour as the only
assumption.  Then a call depends on the bytes that are left and not on where the
chunks end: it returns what `nextTTLV` says of these bytes, and takes exactly the
bytes it returns (`readTTLV_spec`).
-/

namespace KmipGo.Decoder

open KmipGo.Lib KmipGo.Ttlv KmipGo.Value

section

variable (r : BufferedReader UInt8)

/-- The loop of `NextTTLV`, with `got` in the buffer and room for `need` bytes. -/
def readBody (s : r.State) (got : Bytes) (need : Nat) : r.State × Res DecErr TTLV :=
  match r.read s need with
  | (s, none) => (s, .err .eof)
  | (s, some c) =>
    if need ≤ c.1.length then (s, .ok (got ++ c.1))
    else readBody s (got ++ c.1) (need - c.1.length)
termination_by need
decreasing_by
  have hpos := List.length_pos_iff.mpr c.2
  omega

/-- `NextTTLV`. -/
def readTTLV (s : r.State) : r.State × Res DecErr TTLV :=
  match r.peek s lenHeader with
  | (s, none) => (s, .err .eof)
  | (s, some hdr) =>
    match TTLV.validHeader hdr with
    | some e => (s, .err (.invalidHeader e))
    | none =>
      match TTLV.fullLen hdr with
      | none => (s, .panic)
      | some n => readBody r s [] n

/-- Successive calls, with what each returns. -/
def readTTLVs : Nat → r.State → List (Res DecErr TTLV)
  | 0, _ => []
  | k + 1, s => (readTTLV r s).2 :: readTTLVs k (readTTLV r s).1

end

/-- The blocks returned before the first error. -/
def returned : List (Res DecErr TTLV) → List TTLV
  | .ok m :: rs => m :: returned rs
  | _ => []

section

variable {r : BufferedReader UInt8} {left : r.State → Bytes} (hr : r.Documented left)

include hr

/-- The loop collects the next `need` bytes, however they arrive. -/
theorem readBody_spec (need : Nat) (hneed : 0 < need) (s : r.State) (got : Bytes) :
    (readBody r s got need).2 =
      (if (left s).length < need then .err .eof else .ok (got ++ (left s).take need)) ∧
    (need ≤ (left s).length → left (readBody r s got need).1 = (left s).drop need) := by
  induction need using Nat.strong_induction_on generalizing s got with
  | _ need ih =>
    by_cases hend : left s = []
    · have hnone := hr.read_end s need hend
      rw [readBody]
      cases hread : r.read s need with
      | mk s' c =>
        rw [hread] at hnone
        cases hnone
        simp only [hend, List.length_nil, if_pos hneed]
        exact ⟨trivial, fun h => absurd h (by omega)⟩
    · obtain ⟨c, hc, hle, hsplit⟩ := hr.read s need hneed hend
      have hpos := List.length_pos_iff.mpr c.2
      rw [readBody]
      cases hread : r.read s need with
      | mk s' c' =>
        rw [hread] at hc hsplit
        cases hc
        simp only at hsplit ⊢
        rw [hsplit]
        by_cases hlast : need ≤ c.1.length
        · -- the chunk completes the block
          have hfull : need = c.1.length := by omega
          rw [if_pos hlast, if_neg (by rw [List.length_append]; omega), List.take_left' hfull.symm,
            List.drop_left' hfull.symm]
          exact ⟨rfl, fun _ => rfl⟩
        · obtain ⟨hres, hleft⟩ := ih (need - c.1.length) (by omega) (by omega) s' (got ++ c.1)
          have htake : (c.1 ++ left s').take need = c.1 ++ (left s').take (need - c.1.length) := by
            rw [List.take_append, List.take_of_length_le (by omega)]
          have hdrop : (c.1 ++ left s').drop need = (left s').drop (need - c.1.length) := by
            rw [List.drop_append, List.drop_of_length_le (by omega), List.nil_append]
          rw [if_neg hlast, hres, htake, hdrop, List.append_assoc, List.length_append]
          refine ⟨?_, fun h => hleft (by omega)⟩
          by_cases hshort : (left s').length < need - c.1.length
          · rw [if_pos hshort, if_pos (by omega)]
          · rw [if_neg hshort, if_neg (by omega)]

/-- A call returns what the bytes that are left say, and takes those that it returns. -/
theorem readTTLV_spec (s : r.State) :
    (readTTLV r s).2 = nextTTLV (left s) ∧
      ∀ m, (readTTLV r s).2 = .ok m → left s = m ++ left (readTTLV r s).1 := by
  have hpeek := hr.peek s lenHeader (by decide)
  have hleft := hr.left_peek s lenHeader
  rw [readTTLV, nextTTLV]
  cases hrun : r.peek s lenHeader with
  | mk s' hdr =>
    rw [hrun] at hpeek hleft
    by_cases hshort : (left s).length < lenHeader
    · rw [if_pos hshort] at hpeek ⊢
      cases hpeek
      exact ⟨rfl, fun m h => by cases h⟩
    · rw [if_neg hshort] at hpeek ⊢
      cases hpeek
      simp only
      cases hhdr : TTLV.validHeader ((left s).take lenHeader) with
      | some e => exact ⟨rfl, fun m h => by cases h⟩
      | none =>
        obtain ⟨ty, -, hvalid, hfull⟩ := fullLen_of_validHeader hhdr
        have hpos := add_le_blockLen hvalid
        generalize ty.blockLen (TTLV.len ((left s).take lenHeader)) = n at hfull hpos
        obtain ⟨hbody, hrest⟩ := readBody_spec hr n (by omega) s' []
        rw [show left s' = left s from hleft] at hbody hrest
        rw [List.nil_append] at hbody
        simp only [hfull, hbody]
        refine ⟨trivial, fun m h => ?_⟩
        split at h
        · cases h
        · rename_i hlong
          cases h
          rw [hrest (Nat.not_lt.mp hlong), List.take_append_drop]

/-! ## Successive calls -/

omit hr in
/-- A valid block without anything after it is read back as it is. -/
theorem nextTTLV_of_isValid {m : TTLV} (hvalid : m.IsValid) (hfull : m.fullLen = some m.length)
    (rest : Bytes) : nextTTLV (m ++ rest) = .ok m := by
  obtain ⟨b, hsize, tail, rfl⟩ := isValid_iff.mp hvalid
  rw [fullLen_bytes_append b tail hsize, List.length_append, Option.some.injEq] at hfull
  have htail : tail = [] := List.length_eq_zero_iff.mp (by omega)
  rw [htail, List.append_nil]
  exact nextTTLV_bytes_append b rest hsize

/-- Calls on a stream of valid blocks return the blocks. -/
theorem readTTLVs_blocks : ∀ (ms : List TTLV) (s : r.State),
    (∀ m ∈ ms, m.IsValid ∧ m.fullLen = some m.length) → left s = ms.flatten →
      readTTLVs r (ms.length + 1) s = ms.map Res.ok ++ [.err .eof]
  | [], s, _, hleft => by
    have hresult := (readTTLV_spec hr s).1
    rw [hleft] at hresult
    rw [List.length_nil, readTTLVs, readTTLVs, hresult]
    rfl
  | m :: ms, s, hms, hleft => by
    obtain ⟨hresult, htaken⟩ := readTTLV_spec hr s
    obtain ⟨hvalid, hfull⟩ := hms m (List.mem_cons_self ..)
    have hnext : nextTTLV (left s) = .ok m := by
      rw [hleft, List.flatten_cons]
      exact nextTTLV_of_isValid hvalid hfull _
    rw [hnext] at hresult
    have hrest : left (readTTLV r s).1 = ms.flatten := by
      have htaken := htaken m hresult
      rw [hleft, List.flatten_cons] at htaken
      exact (List.append_cancel_left htaken).symm
    rw [List.length_cons, readTTLVs, hresult,
      readTTLVs_blocks ms _ (fun x hx => hms x (List.mem_cons_of_mem m hx)) hrest]
    rfl

/-- The blocks returned before the first error make up the beginning of what was left. -/
theorem returned_isPrefix : ∀ (k : Nat) (s : r.State), (returned (readTTLVs r k s)).flatten <+: left s
  | 0, s => List.nil_prefix
  | k + 1, s => by
    have htaken := (readTTLV_spec hr s).2
    rw [readTTLVs]
    cases hresult : (readTTLV r s).2 with
    | ok m =>
      rw [returned, List.flatten_cons, htaken m hresult]
      exact (List.prefix_append_right_inj m).mpr (returned_isPrefix k _)
    | err e => exact List.nil_prefix
    | panic => exact List.nil_prefix

end

/-- Calls on valid blocks, in whatever chunks they arrive, return the blocks and then the end of the
    stream.  On any stream, the blocks returned before the first error make up its beginning. -/
theorem nextTTLV_frames (r : BufferedReader UInt8) (left : r.State → Bytes) (hr : r.Documented left) :
    (∀ (ms : List TTLV) (chunks : List (Chunk UInt8)),
      (∀ m ∈ ms, m.IsValid ∧ m.fullLen = some m.length) → stream chunks = ms.flatten →
      readTTLVs r (ms.length + 1) (r.new chunks) = ms.map Res.ok ++ [.err .eof]) ∧
    ∀ (chunks : List (Chunk UInt8)) (k : Nat),
      (returned (readTTLVs r k (r.new chunks))).flatten <+: stream chunks := by
  constructor
  · intro ms chunks hms hstream
    exact readTTLVs_blocks hr ms (r.new chunks) hms ((hr.new chunks).trans hstream)
  · intro chunks k
    have hprefix := returned_isPrefix hr k (r.new chunks)
    rwa [hr.new chunks] at hprefix

def byteChunks (chunks : List (List UInt8)) : List (Chunk UInt8) :=
  chunks.filterMap fun c => if h : c = [] then none else some ⟨c, h⟩

/-- Two blocks in three chunks, which end inside a header and inside a value. -/
theorem nextTTLV_frames_bufio :
    readTTLVs (bufio UInt8 4096) 3 ((bufio UInt8 4096).new (byteChunks
      [[0x42, 0x00, 0x6a], [0x02, 0, 0, 0, 4, 0, 0, 0, 1, 0, 0, 0, 0, 0x42, 0x00, 0x6b, 0x02, 0, 0, 0, 4, 0, 0],
       [0, 4, 0, 0, 0, 0]])) =
      [.ok (Prim.item 0x42006a (.integer 1)), .ok (Prim.item 0x42006b (.integer 4)), .err .eof] ∧
    (returned (readTTLVs (bufio UInt8 4096) 1 ((bufio UInt8 4096).new (byteChunks [[0x42], [0]])))).flatten <+:
      [0x42, 0] := by
  obtain ⟨hblocks, hprefix⟩ := nextTTLV_frames (bufio UInt8 4096) _ (bufio_documented UInt8 4096)
  refine ⟨hblocks [Prim.item 0x42006a (.integer 1), Prim.item 0x42006b (.integer 4)] _ ?_ (by decide), ?_⟩
  · decide +kernel
  · exact hprefix (byteChunks [[0x42], [0]]) 1

end KmipGo.Decoder
