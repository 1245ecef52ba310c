import KmipGo.Server.Handlers

/-! # Batches that are answered

`HandleMessage` with built-in handlers, functions of the application that always
return a response, and the default error handler.

An error of the decoder has no result reason, the default error handler does not
convert an error without one, and `bi` panics on an error that is not converted.
So `batch_answered_iff`: the items of a batch are answered if and only if every
payload can be decoded, and the responses of Create are as the handler needs them.
-/

namespace KmipGo.Server

open KmipGo.Lib KmipGo.Ttlv KmipGo.Reg KmipGo.Go KmipGo.Encoder KmipGo.Decoder

section

variable (reg : Registry) (texts : Texts) {κ : Type}

/-- The function of the application always returns a response. -/
def BuiltIn.Succeeds : BuiltIn κ → Prop
  | .create f => ∀ app p, ∃ resp app', f app p = (.ok resp, app')
  | .get f => ∀ app p, ∃ resp app', f app p = (.ok resp, app')
  | .destroy f => ∀ app p, ∃ resp app', f app p = (.ok resp, app')
  | .register _ f => ∀ app p, ∃ resp app', f app p = (.ok resp, app')
  | .discoverVersions _ => True

theorem BuiltIn.Succeeds.not_fails {b : BuiltIn κ} (hb : b.Succeeds) (st : HandlerState κ)
    (i : RequestBatchItem) (err : ItemError) : ¬ b.CallbackFails reg st i err := by
  have hne : ∀ {request response : GoType} {f : Callback κ request response} {p : GoVal request},
      (∀ app p, ∃ resp app', f app p = (.ok resp, app')) →
      ¬ ∃ app, f st.application p = (.error err, app) := by
    intro request response f p hf ⟨app, herr⟩
    obtain ⟨resp, app', hok⟩ := hf st.application p
    cases hok.symm.trans herr
  cases b with
  | create f => exact hne hb
  | get f => exact hne hb
  | destroy f => exact hne hb
  | register skip f => exact hne hb
  | discoverVersions supported => exact id

/-- A response of Create has an attribute with the name of the identifier, and it is a string. -/
def NamesIdentifier (resp : GoVal Message.createResponsePayload) : Prop :=
  ∃ idAttr id, templateGetTag reg (createdAttributes resp) tagUniqueIdentifier = some idAttr ∧
    asString (attributeValue idAttr) = some id

/-- The payload can be decoded, and for Create the response names its identifier. -/
def Ready (st : HandlerState κ) (b : BuiltIn κ) (i : RequestBatchItem) : Prop :=
  (payloadOf reg b.payloadType i).2 = .ok () ∧
    match b with
    | .create f => ∀ resp app,
        f st.application (payloadOf reg Message.createRequestPayload i).1 = (.ok resp, app) →
          NamesIdentifier reg resp
    | _ => True

theorem itemOf_plainError (msg : GoString) : itemOf none (.err (plainError msg)) = none := by
  simp [itemOf, defaultErrorHandler, plainError]

/-- An item is answered just when its payload is decoded and the response has what the handler needs:
    the other ends are a panic, or an error without a result reason. -/
theorem Ends.answered_iff {b : BuiltIn κ} (hb : b.Succeeds) {st : HandlerState κ} {i : RequestBatchItem}
    {r : HandlerResult} {id : GoString} (hends : Ends reg texts st i b r id) :
    (itemOf none r).isSome ↔ Ready reg st b i := by
  cases hends with
  | rejected hrejected =>
    refine iff_of_false ?_ ?_
    · obtain ⟨e, msg, -, rfl⟩ | ⟨-, rfl⟩ := hrejected
      · rw [itemOf_plainError]
        exact Bool.false_ne_true
      · exact Bool.false_ne_true
    · intro hready
      exact absurd hready.1 (Rejected.not_ok reg hrejected)
  | failed hok hfails => exact absurd hfails (hb.not_fails reg st i _)
  | forwarded hok hforwards item =>
    cases b with
    | create f => exact absurd hforwards id
    | register skip f => exact absurd hforwards id
    | _ => exact iff_of_true rfl ⟨hok, trivial⟩
  | invalid hok msg => exact iff_of_true rfl ⟨hok, trivial⟩
  | registered hok resp => exact iff_of_true rfl ⟨hok, trivial⟩
  | @created f hok resp app hf idAttr ha id hid =>
    refine iff_of_true rfl ⟨hok, fun resp' app' hf' => ?_⟩
    cases hf.symm.trans hf'
    exact ⟨idAttr, id, ha, hid⟩
  | @mistyped f hok resp app hf idAttr ha hid =>
    rw [mistypedError, itemOf_plainError]
    refine iff_of_false Bool.false_ne_true fun hready => ?_
    obtain ⟨idAttr', id', ha', hid'⟩ := hready.2 resp app hf
    cases ha.symm.trans ha'
    cases hid.symm.trans hid'
  | @unnamed f hok resp app hf ha =>
    refine iff_of_false Bool.false_ne_true fun hready => ?_
    obtain ⟨idAttr', id', ha', -⟩ := hready.2 resp app hf
    cases ha.symm.trans ha'

section

variable (handlers : BitVec 32 → Option (BuiltIn κ)) (req : Request)

/-- A multiplexer with built-in handlers and the default error handler. -/
def builtInMux : OperationMux (HandlerState κ) :=
  muxOf reg texts (fun op => (handlers op).map Handler.builtIn) none

/-- A response item answers an item of the request; one whose payload cannot be decoded is answered
    with a failure that has a result reason. -/
structure Answers (i : RequestBatchItem) (respItem : ResponseBatchItem) : Prop where
  operation : respItem.operation = operation i
  uniqueBatchItemID : respItem.uniqueBatchItemID = uniqueBatchItemID i
  failure : ∀ b, handlers (Server.operation i) = some b → (payloadOf reg b.payloadType i).2 ≠ .ok () →
    respItem.resultStatus = resultStatusOperationFailed ∧ respItem.resultReason ≠ 0

/-- `HandleMessage` returns, and has added to the response an answer to each item of the request. -/
def BatchAnswered (message : GoVal Message.requestMessage) (st : HandlerState κ) (resp : Response) : Prop :=
  ∃ more st', (builtInMux reg texts handlers).handleMessage st req resp =
      some ({ resp.message with batchItem := resp.message.batchItem ++ more }, st') ∧
    List.Forall₂ (Answers reg handlers) (batchItems message) more

/-- Every handler that is called along the batch is ready for its item. -/
def ReadyAlong (items : List RequestBatchItem) (st : HandlerState κ) : Prop :=
  Along reg texts (fun op => (handlers op).map Handler.builtIn) none req
    (fun st h i => ∀ b, h = .builtIn b → Ready reg st b i) items st

theorem bi_isSome_iff (hsucceeds : ∀ op b, handlers op = some b → b.Succeeds) (st : HandlerState κ)
    (i : RequestBatchItem) :
    ((builtInMux reg texts handlers).bi st req i).1.isSome ↔
      ∀ b, handlers (operation i) = some b → Ready reg st b i := by
  obtain ⟨hnone, hbi⟩ | ⟨h, hsome, hbi⟩ :=
    bi_muxOf reg texts (fun op => (handlers op).map Handler.builtIn) none req st i
  · rw [builtInMux, hbi]
    refine iff_of_true rfl fun b hb => ?_
    rw [hb] at hnone
    cases hnone
  · obtain ⟨b, hb, rfl⟩ := Option.map_eq_some_iff.mp hsome
    have hanswer := (ends_handleItem reg texts b st req i).answered_iff reg texts (hsucceeds _ b hb)
    rw [builtInMux, hbi, hb]
    simp only [Option.some.injEq, forall_eq']
    exact hanswer

/-- The loop of `HandleMessage` gets to its end just when every handler is ready for its item. -/
theorem handleItems_isSome_iff (hsucceeds : ∀ op b, handlers op = some b → b.Succeeds) :
    ∀ (items : List RequestBatchItem) (done : List ResponseBatchItem) (st : HandlerState κ),
      ((builtInMux reg texts handlers).handleItems req items done st).isSome ↔
        ReadyAlong reg texts handlers req items st
  | [], done, st => iff_of_true rfl trivial
  | i :: rest, done, st => by
    have hstep := bi_isSome_iff reg texts handlers req hsucceeds st i
    have hready : (∀ h, (handlers (operation i)).map Handler.builtIn = some h →
        ∀ b, h = .builtIn b → Ready reg st b i) ↔
        ((builtInMux reg texts handlers).bi st req i).1.isSome := by
      rw [hstep]
      constructor
      · intro h b hb
        exact h (.builtIn b) (by rw [hb]; rfl) b rfl
      · rintro h _ hmap b rfl
        obtain ⟨b', hb', heq⟩ := Option.map_eq_some_iff.mp hmap
        cases heq
        exact h b hb'
    rw [OperationMux.handleItems, ReadyAlong, Along, hready]
    cases hbi : (builtInMux reg texts handlers).bi st req i with
    | mk answer st' =>
      cases answer with
      | none => exact iff_of_false Bool.false_ne_true fun h => absurd h.1 Bool.false_ne_true
      | some respItem =>
        have hrest := handleItems_isSome_iff hsucceeds rest (done ++ [OperationMux.correlate i respItem]) st'
        refine hrest.trans ⟨fun h => ⟨rfl, fun item st'' hrun => ?_⟩, fun h => h.2 respItem st' hbi⟩
        cases hbi.symm.trans hrun
        exact h

/-- The items that the loop adds answer those of the request. -/
theorem handleItems_answers (hsucceeds : ∀ op b, handlers op = some b → b.Succeeds) :
    ∀ (items : List RequestBatchItem) (done : List ResponseBatchItem) (st : HandlerState κ)
      {out : List ResponseBatchItem} {st' : HandlerState κ},
      (builtInMux reg texts handlers).handleItems req items done st = some (out, st') →
        ∃ more, out = done ++ more ∧ List.Forall₂ (Answers reg handlers) items more
  | [], done, st, out, st', h => by
    cases h
    exact ⟨[], (List.append_nil done).symm, .nil⟩
  | i :: rest, done, st, out, st', h => by
    rw [OperationMux.handleItems] at h
    cases hbi : (builtInMux reg texts handlers).bi st req i with
    | mk answer st₁ =>
      rw [hbi] at h
      cases answer with
      | none => cases h
      | some respItem =>
        obtain ⟨more, rfl, hmore⟩ := handleItems_answers hsucceeds rest _ st₁ h
        refine ⟨OperationMux.correlate i respItem :: more, by simp, .cons ⟨rfl, rfl, ?_⟩ hmore⟩
        -- an item that is answered has a payload that was decoded
        intro b hb hbad
        have hready := (bi_isSome_iff reg texts handlers req hsucceeds st i).mp (by rw [hbi]; rfl) b hb
        exact absurd hready.1 hbad

/-- Every item of a batch is answered, with built-in handlers whose functions succeed and the default
    error handler, if and only if every payload along the batch can be decoded and every response of
    Create names its identifier.  Otherwise `HandleMessage` panics, and no item is answered. -/
theorem batch_answered_iff (hsucceeds : ∀ op b, handlers op = some b → b.Succeeds)
    {message : GoVal Message.requestMessage} (hreq : req.message = some message) (st : HandlerState κ)
    (resp : Response) :
    BatchAnswered reg texts handlers req message st resp ↔
      ReadyAlong reg texts handlers req (batchItems message) st := by
  rw [BatchAnswered,
    ← handleItems_isSome_iff reg texts handlers req hsucceeds (batchItems message) resp.message.batchItem st]
  simp only [OperationMux.handleMessage, hreq]
  cases hrun : (builtInMux reg texts handlers).handleItems req (batchItems message)
      resp.message.batchItem st with
  | none =>
    refine iff_of_false ?_ Bool.false_ne_true
    rintro ⟨more, st', h, -⟩
    cases h
  | some out =>
    obtain ⟨more, hout, hanswers⟩ :=
      handleItems_answers reg texts handlers req hsucceeds _ _ _ hrun
    refine iff_of_true ⟨more, out.2, ?_, hanswers⟩ rfl
    rw [Option.map_some, hout]

end

end

/-! ## A batch of two items -/

/-- A request payload of Get, with the identifier as given. -/
def getPayload (id : Prim) : TTLV := item 0x420079 .Structure (Prim.item 0x420094 id)

def getOnly : BitVec 32 → Option (BuiltIn Unit) := fun op =>
  if op = 10 then some (.get fun app _ => (.ok Message.getResponsePayload.zero, app)) else none

theorem getOnly_succeeds (op : BitVec 32) (b : BuiltIn Unit) (h : getOnly op = some b) : b.Succeeds := by
  rw [getOnly] at h
  split at h
  · cases h
    exact fun app p => ⟨_, app, rfl⟩
  · cases h

/-- Two items for Get, the first with the given identifier. -/
def getMessage (id : Prim) : GoVal Message.requestMessage :=
  .struct (.cons Message.requestHeader.zero (.cons (.slice
    (.cons (batchItem 10 (getPayload id)) (.cons (batchItem 10 (getPayload (.textString [50]))) .nil))) .nil))

def getRequest (id : Prim) : Request := ⟨[], some (getMessage id), false⟩

theorem batch_answered_get :
    BatchAnswered handlerRegistry noTexts getOnly (getRequest (.textString [49])) (getMessage (.textString [49]))
      ⟨[], newDecoder, ()⟩ (newResponse none) := by
  have hready : ∀ id, id = Prim.textString [49] ∨ id = .textString [50] → ∀ st h,
      (getOnly 10).map Handler.builtIn = some h → ∀ b, h = .builtIn b →
        Ready handlerRegistry st b (batchItem 10 (getPayload id)) := by
    intro id hid st h hmap b hb
    cases hmap
    cases hb
    refine ⟨?_, trivial⟩
    cases hid with
    | inl h1 => rw [h1]; decide +kernel
    | inr h2 => rw [h2]; decide +kernel
  refine (batch_answered_iff handlerRegistry noTexts getOnly (getRequest (.textString [49])) getOnly_succeeds rfl
    ⟨[], newDecoder, ()⟩ (newResponse none)).mpr ?_
  exact ⟨hready _ (Or.inl rfl) _, fun item st' _ => ⟨hready _ (Or.inr rfl) st', fun item' st'' _ => trivial⟩⟩

/-- An identifier that is an Integer is not decoded, and `HandleMessage` panics: neither of the two items
    is answered. -/
theorem batch_unanswered :
    (payloadOf handlerRegistry Message.getRequestPayload (batchItem 10 (getPayload (.integer 1)))).2 =
        .err (.decode (.unmarshaler ⟨Message.stringType, some Message.getRequestPayload,
          lit "UniqueIdentifier", 0x420094, 0x02, .unsupportedType⟩)) ∧
      (builtInMux handlerRegistry noTexts getOnly).handleMessage ⟨[], newDecoder, ()⟩
        (getRequest (.integer 1)) (newResponse none) = none ∧
      ¬ BatchAnswered handlerRegistry noTexts getOnly (getRequest (.integer 1)) (getMessage (.integer 1))
        ⟨[], newDecoder, ()⟩ (newResponse none) := by
  have hnone : (builtInMux handlerRegistry noTexts getOnly).handleMessage ⟨[], newDecoder, ()⟩
      (getRequest (.integer 1)) (newResponse none) = none := by
    rw [← Option.isNone_iff_eq_none]
    decide +kernel
  refine ⟨by decide +kernel, hnone, ?_⟩
  rintro ⟨more, st', hrun, -⟩
  rw [hnone] at hrun
  cases hrun

end KmipGo.Server
