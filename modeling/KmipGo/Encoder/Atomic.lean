import KmipGo.Encoder.Parts

/-! # Sequences of encode calls

An `Encoder` is used for one `EncodeValue` call after the other.  `Atomic calls`
is what a caller expects of such a history: the writer holds the encodings of
the calls that succeeded, and a call that failed left no trace.

A failing call can leave bytes behind, in the buffer or already written, when
a part of the value is refused after another was written.  The history is atomic
exactly when every call in it is `Clean`: no part of its value is refused, or the
first one is (`encodes_atomic_iff`).
-/

namespace KmipGo.Encoder

open KmipGo.Lib KmipGo.Ttlv KmipGo.Reg KmipGo.Go

/-- One call of `EncodeValue`; `Encode` is the one with `tagNone`. -/
structure Call where
  tag : Tag
  ty : GoType
  v : GoVal ty

section

variable (reg : Registry)

def Call.run (c : Call) (e : Enc) : EncRes := encodeValue reg c.tag c.v e

/-- The call on an encoder of its own. -/
def Call.fresh (c : Call) : EncRes := c.run reg newEncoder

/-- The encoder after a history of calls. -/
def runCalls (calls : List Call) : Enc := calls.foldl (fun e c => (c.run reg e).1) newEncoder

/-- What a fresh encoder would have written for each call of a history that returned nil there;
    `before` are the calls made so far. -/
def encodings (before : List Call) : List Call → Bytes
  | [] => []
  | c :: rest =>
    match (c.run reg (runCalls reg before)).2 with
    | none => (c.fresh reg).1.w ++ encodings (before ++ [c]) rest
    | some _ => encodings (before ++ [c]) rest

structure Atomic (calls : List Call) : Prop where
  written : (runCalls reg calls).w = encodings reg [] calls
  unchanged : ∀ before c after, calls = before ++ c :: after →
    (c.run reg (runCalls reg before)).2 ≠ none →
      (c.run reg (runCalls reg before)).1 = runCalls reg before

def Call.outline (c : Call) : List Mark := Encoder.outline reg Ctx.top .any false c.tag none c.v

/-- No part of the value is refused, or the first one is. -/
def Clean (c : Call) : Prop :=
  .refused ∉ c.outline reg ∨ (c.outline reg).head? = some .refused

instance (c : Call) : Decidable (Clean reg c) := inferInstanceAs (Decidable (_ ∨ _))

/-! ## One call -/

/-- Between two calls an encoder is idle: nothing is pending and no structure is open. -/
def Idle (e : Enc) : Prop := e.encodeDepth = 0 ∧ e.encBuf = []

theorem runCalls_snoc (calls : List Call) (c : Call) :
    runCalls reg (calls ++ [c]) = (c.run reg (runCalls reg calls)).1 := by
  rw [runCalls, List.foldl_append]
  rfl

theorem idle_newEncoder : Idle newEncoder := ⟨rfl, rfl⟩

/-- A successful `EncodeValue` flushes all it wrote, after what was pending. -/
theorem encodeValue_success {ty : GoType} {tag : Tag} {v : GoVal ty} {e : Enc} {b : Bytes}
    (hw : Writes (encodeValue reg tag v) b none) (hdepth : e.encodeDepth = 0) :
    (encodeValue reg tag v e).1 = ⟨0, [], e.w ++ e.encBuf ++ b⟩ := by
  obtain ⟨b', err, hval, -, -⟩ := encode_outlines reg Ctx.top .any false tag none v
  cases err with
  | some x =>
    have hbad := (hval.andThen_error flush).result e
    have hgood := hw.result e
    rw [encodeValue] at hgood
    rw [hgood] at hbad
    cases hbad
  | none =>
    obtain ⟨hbytes, -⟩ := hw.unique (hval.andThen Writes.flush)
    rw [List.append_nil] at hbytes
    have hres := hval.result e
    have hdep := hval.depth e
    have htot := hval.total e
    rw [encodeValue]
    cases henc : encode reg Ctx.top .any false tag none v e with
    | mk e' r =>
      rw [henc] at hres hdep htot
      cases hres
      have hzero : e'.encodeDepth = 0 := hdep.trans hdepth
      have hopen : ¬ e'.encodeDepth > 0 := by omega
      simp only [EncRes.andThen, flush, if_neg hopen]
      rw [hzero, htot, hbytes]

/-- What `encode` writes for a value is what `Marshal` returns. -/
theorem marshal_of_writes {ty : GoType} {v : GoVal ty} {b : Bytes}
    (hw : Writes (fun e => encode reg Ctx.top .any false tagNone none v e) b none) :
    marshal reg v = .ok b := by
  have hvalue := hw.andThen Writes.flush
  rw [List.append_nil] at hvalue
  have hok : Writes (encodeValue reg tagNone v) b none := hvalue
  have hstate := encodeValue_success reg hok (show newEncoder.encodeDepth = 0 from rfl)
  have hres := hok.result newEncoder
  rw [marshal]
  cases hrun : encodeValue reg tagNone v newEncoder with
  | mk e r =>
    rw [hrun] at hstate hres
    simp only at hstate hres
    rw [hres, hstate]
    rfl

/-- The bytes and the error of `Marshal` are those every encoder gives for the value. -/
theorem marshal_writes {ty : GoType} (v : GoVal ty) :
    (∃ b, marshal reg v = .ok b ∧ Writes (encodeValue reg tagNone v) b none) ∨
    (∃ b err, marshal reg v = .error err ∧ Writes (encodeValue reg tagNone v) b (some err)) := by
  obtain ⟨b, err, hw, -, -⟩ := encodeValue_outlines reg tagNone v
  have hres := hw.result newEncoder
  cases err with
  | none =>
    left
    obtain ⟨b', err, hval, -, -⟩ := encode_outlines reg Ctx.top .any false tagNone none v
    cases err with
    | none =>
      obtain ⟨hbytes, -⟩ := hw.unique (hval.andThen Writes.flush)
      rw [List.append_nil] at hbytes
      exact ⟨b, by rw [hbytes]; exact marshal_of_writes reg hval, hw⟩
    | some x => cases (hw.unique (hval.andThen_error flush)).2
  | some x =>
    right
    refine ⟨b, x, ?_, hw⟩
    rw [marshal]
    cases hrun : encodeValue reg tagNone v newEncoder with
    | mk e r =>
      rw [hrun] at hres
      simp only at hres
      rw [hres]

/-- What `Marshal` returns is what `encode` writes for the value. -/
theorem writes_of_marshal {ty : GoType} {v : GoVal ty} {b : Bytes} (h : marshal reg v = .ok b) :
    Writes (fun e => encode reg Ctx.top .any false tagNone none v e) b none := by
  rcases marshal_writes reg v with ⟨b', hb', hw⟩ | ⟨b', err, herr, -⟩
  · rw [h] at hb'
    cases hb'
    obtain ⟨b₁, b₂, hsplit, hval, hflush⟩ :=
      Outlines.andThen_parts (encode_outlines reg Ctx.top .any false tagNone none v) Outlines.flush hw
    rw [(hflush.unique Writes.flush).1, List.append_nil] at hsplit
    rw [hsplit]
    exact hval
  · rw [h] at herr
    cases herr

/-- What `Marshal` returns for a pointer to a struct is one structure. -/
theorem marshal_ptr_struct {n : GoString} {fs : Fields} {vs : FieldVals fs} {b : Bytes}
    (h : marshal reg (.ptr (.struct vs : GoVal (.struct n fs))) = .ok b) :
    ∃ tag body, b = item tag .Structure body := by
  obtain ⟨ti, body, -, hb, -⟩ := encode_struct_parts reg (encode_ptr_parts reg (writes_of_marshal reg h))
  exact ⟨_, body, hb⟩

/-- A call that emits nothing leaves an idle encoder as it was. -/
theorem unchanged_of_empty {f : Enc → EncRes} {err : Option EncErr} {e : Enc}
    (hw : Writes f [] err) (hidle : Idle e) : (f e).1 = e := by
  obtain ⟨hdepth, hbuf⟩ := hidle
  have htot := hw.total e
  rw [hbuf, List.append_nil, List.append_nil] at htot
  obtain ⟨suffix, hgrow⟩ := hw.grows e
  rw [← hgrow, List.append_assoc] at htot
  have hempty := List.append_eq_nil_iff.mp (List.append_right_eq_self.mp htot)
  have hwritten : (f e).1.w = e.w := by rw [← hgrow, hempty.1, List.append_nil]
  have hpending : (f e).1.encBuf = e.encBuf := by rw [hempty.2, hbuf]
  have hsame := hw.depth e
  cases hfe : (f e).1 with
  | mk depth buf out =>
    rw [hfe] at hwritten hpending hsame
    simp only at hwritten hpending hsame
    rw [hwritten, hpending, hsame]

theorem empty_of_unchanged {f : Enc → EncRes} {b : Bytes} {err : Option EncErr} {e : Enc}
    (hw : Writes f b err) (h : (f e).1 = e) : b = [] := by
  have htot := hw.total e
  rw [h] at htot
  exact List.append_right_eq_self.mp htot.symm

/-! ## Histories -/

/-- A clean call on an idle encoder writes what it would write on a fresh one, or fails without
    a trace. -/
theorem clean_step {c : Call} (hclean : Clean reg c) {e : Enc} (hidle : Idle e) :
    ((c.run reg e).2 = none ∧ (c.run reg e).1 = ⟨0, [], e.w ++ (c.fresh reg).1.w⟩) ∨
    ((c.run reg e).2 ≠ none ∧ (c.run reg e).1 = e) := by
  obtain ⟨b, err, hw, herr, hb⟩ := encodeValue_outlines reg c.tag c.v
  have hres : (c.run reg e).2 = err := hw.result e
  cases err with
  | none =>
    left
    have hout : (c.fresh reg).1 = ⟨0, [], b⟩ :=
      encodeValue_success reg hw (show newEncoder.encodeDepth = 0 from rfl)
    have hrun : (c.run reg e).1 = ⟨0, [], e.w ++ e.encBuf ++ b⟩ := encodeValue_success reg hw hidle.1
    refine ⟨hres, ?_⟩
    rw [hout, hrun, hidle.2, List.append_nil]
  | some x =>
    right
    rw [hres]
    refine ⟨by simp, ?_⟩
    rcases hclean with hok | hfirst
    · cases herr.mpr hok
    · have hempty : b = [] := hb.mpr (by rw [Call.outline] at hfirst; rw [hfirst]; decide)
      rw [hempty] at hw
      exact unchanged_of_empty hw hidle

theorem idle_runCalls {calls : List Call} (hclean : ∀ c ∈ calls, Clean reg c) :
    Idle (runCalls reg calls) := by
  -- induction on the history from its end: the last call starts from an idle encoder
  induction calls using List.reverseRecOn with
  | nil => exact idle_newEncoder
  | append_singleton calls c ih =>
    have hidle := ih (fun d hd => hclean d (by simp [hd]))
    rw [runCalls_snoc]
    rcases clean_step reg (hclean c (by simp)) hidle with ⟨-, hnew⟩ | ⟨-, hsame⟩
    · rw [hnew]
      exact ⟨rfl, rfl⟩
    · rw [hsame]
      exact hidle

theorem written_of_clean {before after : List Call} (hclean : ∀ c ∈ before ++ after, Clean reg c) :
    (runCalls reg (before ++ after)).w = (runCalls reg before).w ++ encodings reg before after := by
  induction after generalizing before with
  | nil => simp [encodings]
  | cons c rest ih =>
    have hidle : Idle (runCalls reg before) :=
      idle_runCalls reg (fun d hd => hclean d (by simp [hd]))
    have hsplit : before ++ c :: rest = (before ++ [c]) ++ rest := by simp
    have hrest := ih (fun d hd => hclean d (by rw [hsplit]; exact hd))
    rw [hsplit, hrest, runCalls_snoc, encodings]
    rcases clean_step reg (hclean c (by simp)) hidle with ⟨hok, hnew⟩ | ⟨hfail, hsame⟩
    · rw [hok, hnew]
      exact List.append_assoc _ _ _
    · rw [hsame]
      cases herr : (c.run reg (runCalls reg before)).2 with
      | none => exact absurd herr hfail
      | some x => rfl

theorem clean_of_atomic {calls : List Call} (h : Atomic reg calls) {c : Call} (hc : c ∈ calls) :
    Clean reg c := by
  obtain ⟨before, after, hsplit⟩ := List.append_of_mem hc
  obtain ⟨b, err, hw, herr, hb⟩ := encodeValue_outlines reg c.tag c.v
  cases err with
  | none => exact Or.inl (herr.mp rfl)
  | some x =>
    right
    have hres : (c.run reg (runCalls reg before)).2 = some x := hw.result _
    have hsame := h.unchanged before c after hsplit (by rw [hres]; simp)
    have hfirst := hb.mp (empty_of_unchanged hw hsame)
    -- some part is refused, so the outline begins with a part, which is not written
    cases hms : c.outline reg with
    | nil => cases herr.mpr (by rw [Call.outline] at hms; rw [hms]; exact List.not_mem_nil)
    | cons m ms =>
      rw [Call.outline] at hms
      rw [hms] at hfirst
      cases m with
      | refused => rfl
      | written => exact absurd rfl hfirst

/-- A history of `EncodeValue` calls is atomic iff each of its calls is clean. -/
theorem encodes_atomic_iff (calls : List Call) :
    Atomic reg calls ↔ ∀ c ∈ calls, Clean reg c := by
  constructor
  · intro h c hc
    exact clean_of_atomic reg h hc
  · intro hclean
    refine ⟨?_, ?_⟩
    · exact written_of_clean reg (show ∀ c ∈ [] ++ calls, Clean reg c from hclean)
    · rintro before c after rfl hfail
      have hidle : Idle (runCalls reg before) :=
        idle_runCalls reg (fun d hd => hclean d (by simp [hd]))
      rcases clean_step reg (hclean c (by simp)) hidle with ⟨hok, -⟩ | ⟨-, hsame⟩
      · exact absurd hok hfail
      · exact hsame

end

/-! ## A history that is not atomic -/

/-- `[]interface{}{int32(7), 1.5}` under a standard tag: the second element is refused when the
    first is already in the buffer. -/
def halfEncoded : Call :=
  ⟨0x420001, .slice [] .iface,
    .slice (.cons (.iface (.scalar (s := .int (lit "int32") .int32) (7 : BitVec 32)))
      (.cons (.iface (.scalar (s := .other (lit "float64") .float64) false)) .nil))⟩

def encodeTrue : Call := ⟨0x420002, .scalar (.bool (lit "bool")), .scalar true⟩

/-- The failed call returns an error, and its first element is written by the next call. -/
theorem halfEncoded_leaks :
    (halfEncoded.fresh Registry.empty).2 ≠ none ∧
    (runCalls Registry.empty [halfEncoded, encodeTrue]).w =
      Prim.item 0x420001 (.integer 7) ++ Prim.item 0x420002 (.boolean true) ∧
    ¬ Atomic Registry.empty [halfEncoded, encodeTrue] := by
  refine ⟨by decide +kernel, by decide +kernel, fun h => ?_⟩
  have hclean := clean_of_atomic Registry.empty h (show halfEncoded ∈ _ by simp)
  revert hclean
  decide +kernel

end KmipGo.Encoder
