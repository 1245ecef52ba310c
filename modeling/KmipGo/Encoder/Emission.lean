import KmipGo.Encoder.Encode

/-! # What an encoder call emits

A call appends bytes to what is pending or already written, and returns an
error or nothing.  Where the bytes end up depends on when the encoder flushes,
but which bytes they are, and the error, do not depend on the state of the
encoder.  `Writes f b err` states this of a call `f`, with one rule for each way
the encoder composes calls.
-/

namespace KmipGo.Encoder

open KmipGo.Lib KmipGo.Ttlv KmipGo.Reg KmipGo.Go

/-- `f` emits the bytes `b` and returns `err`, from every state. -/
structure Writes (f : Enc → EncRes) (b : Bytes) (err : Option EncErr) : Prop where
  result : ∀ e, (f e).2 = err
  depth : ∀ e, (f e).1.encodeDepth = e.encodeDepth
  /-- written and pending bytes together grow by `b` -/
  total : ∀ e, (f e).1.w ++ (f e).1.encBuf = e.w ++ e.encBuf ++ b
  /-- what has been written stays -/
  grows : ∀ e, e.w <+: (f e).1.w
  /-- inside a structure nothing is written -/
  inside : ∀ e, 0 < e.encodeDepth → (f e).1.w = e.w

namespace Writes

variable {f g : Enc → EncRes} {b c : Bytes} {err : Option EncErr}

theorem encBuf_inside (h : Writes f b err) (e : Enc) (hd : 0 < e.encodeDepth) :
    (f e).1.encBuf = e.encBuf ++ b := by
  have htotal := h.total e
  rw [h.inside e hd, List.append_assoc] at htotal
  exact List.append_cancel_left htotal

/-- The bytes and the error of a call are determined by the call. -/
theorem unique {b' : Bytes} {err' : Option EncErr} (h : Writes f b err) (h' : Writes f b' err') :
    b = b' ∧ err = err' := by
  have htotal := (h.total newEncoder).symm.trans (h'.total newEncoder)
  exact ⟨List.append_cancel_left htotal, (h.result newEncoder).symm.trans (h'.result newEncoder)⟩

theorem nothing (err : Option EncErr) : Writes (fun e => (e, err)) [] err where
  result _ := rfl
  depth _ := rfl
  total _ := (List.append_nil _).symm
  grows _ := List.prefix_refl _
  inside _ _ := rfl

theorem emitRun (tag : Tag) (em : Emit) :
    Writes (fun e => (em.run tag e, none))
      (match em with
        | .nothing => []
        | .raw b => b
        | .prim p => p.item tag) none := by
  cases em with
  | nothing => exact nothing none
  | raw b =>
    exact ⟨fun _ => rfl, fun _ => rfl, fun e => (List.append_assoc _ _ _).symm,
      fun e => List.prefix_refl _, fun _ _ => rfl⟩
  | prim p =>
    refine ⟨fun _ => rfl, fun _ => rfl, fun e => ?_, fun e => List.prefix_refl _, fun _ _ => rfl⟩
    show e.w ++ encodePrim e.encBuf tag p = e.w ++ e.encBuf ++ p.item tag
    rw [encodePrim_eq, List.append_assoc]

theorem flush : Writes flush [] none where
  result e := by
    rw [Encoder.flush]
    split <;> rfl
  depth e := by
    rw [Encoder.flush]
    split <;> rfl
  total e := by
    rw [Encoder.flush]
    split <;> simp
  grows e := by
    rw [Encoder.flush]
    split
    · exact List.prefix_refl _
    · exact List.prefix_append _ _
  inside e hd := by
    rw [Encoder.flush, if_pos hd]

theorem andThen (hf : Writes f b none) (hg : Writes g c err) :
    Writes (fun e => EncRes.andThen (f e) g) (b ++ c) err := by
  have hstep : ∀ e, EncRes.andThen (f e) g = g (f e).1 := by
    intro e
    have hok := hf.result e
    cases hfe : f e with
    | mk e' r =>
      rw [hfe] at hok
      cases hok
      rfl
  refine ⟨fun e => ?_, fun e => ?_, fun e => ?_, fun e => ?_, fun e hd => ?_⟩
  · rw [hstep]
    exact hg.result _
  · rw [hstep, hg.depth, hf.depth]
  · rw [hstep, hg.total, hf.total, List.append_assoc _ b c]
  · rw [hstep]
    exact (hf.grows e).trans (hg.grows _)
  · rw [hstep, hg.inside _ (by rw [hf.depth]; exact hd), hf.inside e hd]

theorem andThen_error {x : EncErr} (hf : Writes f b (some x)) (g : Enc → EncRes) :
    Writes (fun e => EncRes.andThen (f e) g) b (some x) := by
  have hstop : ∀ e, EncRes.andThen (f e) g = f e := by
    intro e
    have herr := hf.result e
    cases hfe : f e with
    | mk e' r =>
      rw [hfe] at herr
      cases herr
      rfl
  simp only [hstop]
  exact hf

/-- A structure becomes one item around what its body emits, whether the body fails or not. -/
theorem struct (tag : Tag) (hf : Writes f b err) :
    Writes (encodeStructure tag f) (item tag .Structure b) err := by
  -- the state in which the body runs, and what it leaves behind
  have hbody : ∀ e : Enc, ∃ e' : Enc, f { e with
        encodeDepth := e.encodeDepth + 1
        encBuf := (EncBuf.begin e.encBuf tag .Structure).1 } = (e', err) ∧
      e'.encodeDepth = e.encodeDepth + 1 ∧ e'.w = e.w ∧
      e'.encBuf = (EncBuf.begin e.encBuf tag .Structure).1 ++ b := by
    intro e
    have hres := hf.result { e with
        encodeDepth := e.encodeDepth + 1
        encBuf := (EncBuf.begin e.encBuf tag .Structure).1 }
    refine ⟨_, Prod.ext rfl hres, hf.depth _, hf.inside _ (Nat.succ_pos _), ?_⟩
    exact hf.encBuf_inside _ (Nat.succ_pos _)
  have hstep : ∀ e, encodeStructure tag f e =
      ({ e with encBuf := e.encBuf ++ item tag .Structure b }, err) := by
    intro e
    obtain ⟨e', hfe, hdepth, hw, hbuf⟩ := hbody e
    rw [encodeStructure, hfe]
    simp only [hdepth, hw, hbuf, Nat.add_sub_cancel]
    rw [← EncBuf.write_eq]
    rfl
  refine ⟨fun e => ?_, fun e => ?_, fun e => ?_, fun e => ?_, fun e _ => ?_⟩
  · rw [hstep]
  · rw [hstep]
  · rw [hstep]
    exact (List.append_assoc _ _ _).symm
  · rw [hstep]
  · rw [hstep]

end Writes

end KmipGo.Encoder
