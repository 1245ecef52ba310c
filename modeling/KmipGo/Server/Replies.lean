import KmipGo.Server.Exchange

/-! # Replies

Whatever bytes a client sends, what it receives from the standard protocol handler
is one whole response message, or nothing.  The request may be no TTLV at all, of
another message or another version, or name operations that nobody handles.

* `Conforms` — what is asked of the handlers: the items that they return can be sent.
* `Understood` — what the client makes of a response message.
* `replies_wellFormed` — every reply is understood.
-/

namespace KmipGo.Server

open KmipGo.Lib KmipGo.Ttlv KmipGo.Reg KmipGo.Go KmipGo.Encoder KmipGo.Decoder KmipGo.Codec

/-! ## Items -/

section

variable (reg : Registry) {σ : Type}

theorem itemSendable_failed (reason : BitVec 32) (msg : GoString) :
    ItemSendable reg (newFailedResponseBatchItem reason msg) :=
  ⟨fun _ => trivial, rfl⟩

/-- Whatever items the handlers and the error handler return can be sent. -/
structure Conforms (mux : OperationMux σ) : Prop where
  item : ∀ op handler, mux.handlers op = some handler → ∀ st req i item st',
    handler st req i = (.ok (some item), st') → ItemSendable reg item
  error : ∀ err item, (mux.errorHandler.getD defaultErrorHandler) err = some item → ItemSendable reg item

/-- The default error handler returns items that can be sent. -/
theorem itemSendable_defaultErrorHandler {err : ItemError} {item : ResponseBatchItem}
    (h : defaultErrorHandler err = some item) : ItemSendable reg item := by
  rw [defaultErrorHandler] at h
  split at h
  · cases h
  · cases h
    exact itemSendable_failed reg _ _

variable {reg}

theorem Conforms.bi {mux : OperationMux σ} (h : Conforms reg mux) {st st' : σ} {req : Request}
    {i : RequestBatchItem} {item : ResponseBatchItem} (hbi : mux.bi st req i = (some item, st')) :
    ItemSendable reg item := by
  cases hh : mux.handlers (operation i) with
  | none =>
    simp only [OperationMux.bi, hh] at hbi
    cases hbi
    exact itemSendable_failed reg _ _
  | some handler =>
    cases hrun : handler st req i with
    | mk r st₁ =>
      simp only [OperationMux.bi, hh, hrun] at hbi
      cases r with
      | ok item' =>
        cases hbi
        exact h.item _ handler hh st req i item _ hrun
      | error err => exact h.error err item (congrArg Prod.fst hbi)

/-- The loop of `HandleMessage`, where it returns. -/
theorem Conforms.handleItems {mux : OperationMux σ} (h : Conforms reg mux) {req : Request}
    {reqItems : List RequestBatchItem} {items out : List ResponseBatchItem} {st st' : σ}
    (hrun : mux.handleItems req reqItems items st = some (out, st')) :
    ∃ more, out = items ++ more ∧ OperationMux.Correlated reqItems more ∧ ∀ item ∈ more, ItemSendable reg item := by
  induction reqItems generalizing items st with
  | nil =>
    cases hrun
    exact ⟨[], (List.append_nil _).symm, .nil, nofun⟩
  | cons i rest ih =>
    rw [OperationMux.handleItems] at hrun
    cases hbi : mux.bi st req i with
    | mk r st₁ =>
      rw [hbi] at hrun
      cases r with
      | none => cases hrun
      | some item =>
        obtain ⟨more, rfl, hcorr, hmore⟩ := ih hrun
        refine ⟨OperationMux.correlate i item :: more, by rw [List.append_assoc, List.singleton_append],
          .cons ⟨rfl, rfl⟩ hcorr, ?_⟩
        intro x hx
        rcases List.mem_cons.mp hx with rfl | hx
        · exact ⟨(h.bi hbi).1, (h.bi hbi).2⟩
        · exact hmore x hx

end

/-! ## What the client understands -/

section

variable (reg : Registry)

/-- The request is refused as a whole: there is one item, and its operation has failed. -/
def Refused (w : GoVal Message.responseMessage) : Prop :=
  ∃ i, responseItems w = [i] ∧ answeredStatus i = resultStatusOperationFailed

/-- The items of the response are for those of the request, one by one. -/
def ForItems (message : GoVal Message.requestMessage) (w : GoVal Message.responseMessage) : Prop :=
  List.Forall₂ (fun q i => answeredOperation i = operation q ∧
    (answeredID i).getD [] = (uniqueBatchItemID q).getD []) (batchItems message) (responseItems w)

/-- The bytes are a valid block, which is read as a response message: a refusal, or answers to the items of
    the request. -/
def Understood (req : Request) (out : Bytes) : Prop :=
  (∃ c : Block, c.bytes = out ∧ c.tag = tagResponseMessage) ∧ TTLV.IsValid out ∧
    ∃ w, unmarshalBytes reg Message.responseMessage out = (w, .ok ()) ∧
      (Refused w ∨ ∃ message, parseMessage reg req = .ok message ∧ ForItems message w)

variable {reg}

theorem items_arrived {items : List ResponseBatchItem} {ws : GoVals Message.responseBatchItem}
    (h : ElemsArrived reg (itemVals items) ws) :
    List.Forall₂ (fun item w => Arrived reg item.toVal w) items (elemList ws) := by
  induction items generalizing ws with
  | nil =>
    cases ws with
    | nil => exact .nil
    | cons w ws => exact absurd h id
  | cons item items ih =>
    cases ws with
    | nil => exact absurd h id
    | cons w ws => exact .cons h.1 (ih h.2)

theorem responseItems_arrived {m : ResponseMessage} {w : GoVal Message.responseMessage}
    (h : Arrived reg m.toVal w) :
    List.Forall₂ (fun item i => Arrived reg item.toVal i) m.batchItem (responseItems w) := by
  have hslice := h.fields.tail.head
  rw [responseItems]
  cases hlist : w.fields.tail.head with
  | slice ws =>
    rw [hlist] at hslice
    exact items_arrived hslice

theorem refused_of_arrived {m : ResponseMessage} {reason : BitVec 32} {msg : GoString}
    {w : GoVal Message.responseMessage} (h : Arrived reg (m.errorResponse reason msg).toVal w) : Refused w := by
  cases hitems : responseItems w with
  | nil =>
    have hall := responseItems_arrived h
    rw [hitems] at hall
    cases hall
  | cons i is =>
    have hall := responseItems_arrived h
    rw [hitems] at hall
    cases hall with
    | cons hi hnone =>
      cases hnone
      exact ⟨i, hitems, hi.fields.tail.tail.head.get⟩

theorem forItems_of_arrived {message : GoVal Message.requestMessage} {m : ResponseMessage}
    (hcorr : OperationMux.Correlated (batchItems message) m.batchItem) {w : GoVal Message.responseMessage}
    (h : Arrived reg m.toVal w) : ForItems message w := by
  have hall := responseItems_arrived h
  rw [ForItems]
  generalize batchItems message = qs at hcorr ⊢
  generalize m.batchItem = items at hcorr hall
  generalize responseItems w = ws at hall ⊢
  induction hcorr generalizing ws with
  | nil =>
    cases hall
    exact .nil
  | cons hitem _ ih =>
    cases hall with
    | cons hi hmore =>
      have hid := hi.fields.tail.head.get
      refine .cons ⟨hi.fields.head.get.trans hitem.1, ?_⟩ (ih _ hmore)
      exact (Option.some.inj hid).trans (congrArg (Option.getD · []) hitem.2)

/-- A message that can be sent is understood. -/
theorem Presentable.understood {m : ResponseMessage} (hm : Presentable reg m) (hreg : ResponseTypes reg)
    (req : Request) (hitems : (∃ m' reason msg, m = ResponseMessage.errorResponse m' reason msg) ∨
      ∃ message, parseMessage reg req = .ok message ∧ OperationMux.Correlated (batchItems message) m.batchItem) :
    ∃ b, m.encoding reg = .ok b ∧ (b.length < 2 ^ 32 → Understood reg req b) := by
  obtain ⟨b, hb, hread⟩ := encoding_sent (hm.sendable hreg)
  refine ⟨b, hb, fun hsize => ?_⟩
  obtain ⟨⟨c, rfl, hsized, htag⟩, w, hw, harrived⟩ := hread hsize
  have hvalid := valid_bytes_append c [] hsized
  rw [List.append_nil] at hvalid
  refine ⟨⟨c, rfl, htag⟩, hvalid, w, hw, ?_⟩
  rcases hitems with ⟨m', reason, msg, rfl⟩ | ⟨message, hparse, hcorr⟩
  · exact Or.inl (refused_of_arrived harrived)
  · exact Or.inr ⟨message, hparse, forItems_of_arrived hcorr harrived⟩

end

/-! ## The server -/

section

variable {reg : Registry}

theorem Presentable.errorResponse {m : ResponseMessage} (hm : Presentable reg m) (reason : BitVec 32)
    (msg : GoString) : Presentable reg (m.errorResponse reason msg) where
  major := hm.major
  minor := hm.minor
  nonce := hm.nonce
  attestationType := hm.attestationType
  batchCount := hm.batchCount
  batchItem item hitem := by
    rw [List.mem_singleton.mp hitem]
    exact itemSendable_failed reg reason msg

/-- A refusal is understood. -/
theorem Presentable.refusal {m : ResponseMessage} (hm : Presentable reg m) (hreg : ResponseTypes reg)
    (req : Request) (reason : BitVec 32) (msg : GoString) :
    ∃ b, (m.errorResponse reason msg).encoding reg = .ok b ∧ (b.length < 2 ^ 32 → Understood reg req b) :=
  (hm.errorResponse reason msg).understood hreg req (Or.inl ⟨m, reason, msg, rfl⟩)

/-- A request that is refused before the message handler is called.  Its response is not encoded then, so
    without logging nothing is written. -/
theorem serveKMIP_refused (hreg : ResponseTypes reg) {h : StandardProtocolHandler} {env : Env}
    {pooled : Option Response} (hpool : ∀ r, pooled = some r → Idle r.enc) {req : Request} {m : ResponseMessage}
    (hm : Presentable reg m) {reason : BitVec 32} {msg : GoString}
    (hadm : admission reg h env req (newResponse pooled) =
      .err ⟨m.errorResponse reason msg, (newResponse pooled).enc⟩) :
    ∃ out resp, serveKMIP reg h env pooled req = some (out, resp) ∧
      ((out = [] ∧ h.logTraffic = false) ∨ (out.length < 2 ^ 32 → Understood reg req out)) := by
  have hnew : (newResponse pooled).enc = newEncoder := idle_newResponse hpool
  rw [hnew] at hadm
  obtain ⟨b, hb, hunderstood⟩ := hm.refusal hreg req reason msg
  have hhandled : handleRequest reg h env req (newResponse pooled) =
      some ⟨m.errorResponse reason msg, newEncoder⟩ := by
    rw [handleRequest, hadm]
  obtain ⟨resp, hserve⟩ := serveKMIP_written reg hhandled ⟨rfl, rfl⟩ hb
  refine ⟨_, resp, hserve, ?_⟩
  cases h.logTraffic with
  | true => exact Or.inr hunderstood
  | false => exact Or.inl ⟨rfl, rfl⟩

/-- A request whose items are handled.  If the response is too large, the message that replaces it is
    written with logging only; both are understood. -/
theorem serveKMIP_handled (hreg : ResponseTypes reg) {h : StandardProtocolHandler} {env : Env}
    {pooled : Option Response} {req : Request} {message : GoVal Message.requestMessage}
    (hparse : parseMessage reg req = .ok message) {m : ResponseMessage} (hm : Presentable reg m)
    (hcorr : OperationMux.Correlated (batchItems message) m.batchItem)
    (hhandled : ∀ b, m.encoding reg = .ok b → handleRequest reg h env req (newResponse pooled) =
      some (if tooLarge message b then ⟨m.errorResponse resultReasonResponseTooLarge [], ⟨0, [], b⟩⟩
        else ⟨m, ⟨0, [], b⟩⟩)) :
    ∃ out resp, serveKMIP reg h env pooled req = some (out, resp) ∧
      (out.length < 2 ^ 32 → Understood reg req out) := by
  obtain ⟨b, hb, hunderstood⟩ := hm.understood hreg req (Or.inr ⟨message, hparse, hcorr⟩)
  have hhandled := hhandled b hb
  cases hlarge : tooLarge message b with
  | false =>
    rw [hlarge, if_neg Bool.false_ne_true] at hhandled
    obtain ⟨resp, hserve⟩ := serveKMIP_written reg hhandled ⟨rfl, rfl⟩ hb
    rw [ite_self] at hserve
    exact ⟨b, resp, hserve, hunderstood⟩
  | true =>
    rw [hlarge, if_pos rfl] at hhandled
    obtain ⟨b', hb', hrefused⟩ := hm.refusal hreg req resultReasonResponseTooLarge []
    obtain ⟨resp, hserve⟩ := serveKMIP_written reg hhandled ⟨rfl, rfl⟩ hb'
    refine ⟨_, resp, hserve, ?_⟩
    cases h.logTraffic with
    | true => exact hrefused
    | false => exact hunderstood

/-- Every reply is a response message.  Let the items that the handlers return be sendable.  For whatever
    bytes a client sends, if the handlers return for the items in them, either parsing them panics, or the
    client receives nothing, or it receives one valid block that it can unmarshal.  This is a refusal, or
    it has one item for each item of the request, with its operation and its identifier.  Nothing is
    received only without logging, for a request that cannot be parsed or is of another version. -/
theorem replies_wellFormed (hreg : ResponseTypes reg) {σ : Type} {mux : OperationMux σ} (hmux : Conforms reg mux)
    {st : σ} {h : StandardProtocolHandler} (hh : h.messageHandler = mux.messageHandler st)
    (hmajor : FitsInteger h.protocolVersion.protocolVersionMajor)
    (hminor : FitsInteger h.protocolVersion.protocolVersionMinor) (env : Env) {pooled : Option Response}
    (hpool : ∀ r, pooled = some r → Idle r.enc) (t : TTLV)
    (hreturns : ∀ message, parseMessage reg (Request.ofTTLV t) = .ok message →
      (batchItems message).length < 2 ^ 31 ∧
        (mux.handleItems ((Request.ofTTLV t).accepted h message) (batchItems message) [] st).isSome = true) :
    (parseMessage reg (Request.ofTTLV t) = .panic ∧ serveKMIP reg h env pooled (Request.ofTTLV t) = none) ∨
      ∃ out resp, serveKMIP reg h env pooled (Request.ofTTLV t) = some (out, resp) ∧
        ((out = [] ∧ h.logTraffic = false ∧ ∀ message, parseMessage reg (Request.ofTTLV t) = .ok message →
            versionMajor (requestVersion (requestHeader message)) ≠ h.protocolVersion.protocolVersionMajor) ∨
          (out.length < 2 ^ 32 → Understood reg (Request.ofTTLV t) out)) := by
  have hprepared := presentable_preparedResponse reg hmajor hminor env pooled
  cases hparse : parseMessage reg (Request.ofTTLV t) with
  | panic =>
    refine Or.inl ⟨rfl, ?_⟩
    simp only [serveKMIP, handleRequest, admission, hparse]
  | err e =>
    have hadm : admission reg h env (Request.ofTTLV t) (newResponse pooled) =
        .err ⟨((newResponse pooled).start h env).message.errorResponse resultReasonInvalidMessage (env.errorText e),
          (newResponse pooled).enc⟩ := by
      simp only [admission, hparse]
      rfl
    have hstart : Presentable reg ((newResponse pooled).start h env).message :=
      ⟨hmajor, hminor, (hprepared []).nonce, (hprepared []).attestationType, (hprepared []).batchCount,
        (hprepared []).batchItem⟩
    obtain ⟨out, resp, hserve, hout⟩ := serveKMIP_refused hreg hpool hstart hadm
    refine Or.inr ⟨out, resp, hserve, hout.imp_left fun hnone => ⟨hnone.1, hnone.2, ?_⟩⟩
    intro message hmessage
    cases hmessage
  | ok message =>
    refine Or.inr ?_
    by_cases hv : versionMajor (requestVersion (requestHeader message)) = h.protocolVersion.protocolVersionMajor
    · obtain ⟨hcount, hsome⟩ := hreturns message hparse
      obtain ⟨⟨items, st'⟩, hrun⟩ := Option.isSome_iff_exists.mp hsome
      obtain ⟨_, rfl, hcorr, hitems⟩ := hmux.handleItems hrun
      have hm : Presentable reg (replyOf h env pooled message items) :=
        (hprepared _).setBatchCount (hcorr.length_eq ▸ hcount) hitems
      obtain ⟨out, resp, hserve, hout⟩ := serveKMIP_handled hreg hparse hm hcorr fun b hb =>
        handleRequest_of_items reg hh hpool hparse hv hrun hb
      exact ⟨out, resp, hserve, Or.inr hout⟩
    · have hadm : admission reg h env (Request.ofTTLV t) (newResponse pooled) =
          .err ⟨(preparedResponse h env pooled (clientCorrelationValue (requestHeader message))).message.errorResponse
            resultReasonInvalidMessage (mismatchText (versionMajor (requestVersion (requestHeader message)))
              h.protocolVersion.protocolVersionMajor), (newResponse pooled).enc⟩ := by
        simp only [admission, hparse, ne_eq, hv, not_false_eq_true, if_true]
        rfl
      obtain ⟨out, resp, hserve, hout⟩ := serveKMIP_refused hreg hpool (hprepared _) hadm
      refine ⟨out, resp, hserve, hout.imp_left fun hnone => ⟨hnone.1, hnone.2, ?_⟩⟩
      intro message' hmessage'
      cases hmessage'
      exact hv

end

/-! ## Built-in handlers -/

section

variable {reg : Registry} {κ : Type}

/-- A built-in handler returns an item only if it has decoded the payload. -/
theorem Ends.payload_ok {texts : Texts} {st : HandlerState κ} {i : RequestBatchItem} {b : BuiltIn κ}
    {r : HandlerResult} {id : GoString} (h : Ends reg texts st i b r id) {item : ResponseBatchItem} (hr : r = .ok item) :
    (payloadOf reg b.payloadType i).2 = .ok () := by
  cases h with
  | rejected h =>
    obtain ⟨e, msg, -, herr⟩ | ⟨-, hpanic⟩ := h
    · cases hr.symm.trans herr
    · cases hr.symm.trans hpanic
  | failed hok _ | forwarded hok _ _ | invalid hok _ | registered hok _ | created hok _ _ _ | mistyped hok _ _ _
  | unnamed hok _ _ => exact hok

theorem payloadType_of_service {b : BuiltIn κ} {s : Service (GoString × κ)} (hs : b.service reg = some s) :
    b.payloadType = .struct s.requestName s.requestFields := by
  cases b with
  | create f => cases hs
  | get f | destroy f | register skipValidation f | discoverVersions supportedVersions =>
    cases hs
    rfl

/-- The items of built-in handlers can be sent if the responses of their services can be. -/
theorem conforms_muxOf (texts : Texts) {handlers : BitVec 32 → Option (Handler κ)}
    (hservice : ∀ op h, handlers op = some h → ∃ b, h = .builtIn b ∧ (b.service reg).isSome = true)
    (hsendable : ResponsesSendable reg (servicesOf reg handlers)) :
    Conforms reg (muxOf reg texts handlers none) where
  error err item h := itemSendable_defaultErrorHandler reg h
  item op handler hh st req i item st' hrun := by
    obtain ⟨h, hop, rfl⟩ := Option.map_eq_some_iff.mp hh
    obtain ⟨b, rfl, hsome⟩ := hservice op h hop
    obtain ⟨s, hs⟩ := Option.isSome_iff_exists.mp hsome
    have hoffered : servicesOf reg handlers op = some s := by
      simp only [servicesOf, hop]
      exact hs
    have hitem : (b.handleItem reg texts st req i).1 = .ok item := by
      simp only [Handler.itemHandler, Handler.handleItem] at hrun
      cases hb : b.handleItem reg texts st req i with
      | mk r st₁ =>
        rw [hb] at hrun
        cases r with
        | ok item' =>
          cases hrun
          rfl
        | err err => cases hrun
        | panic => cases hrun
    have hok := (ends_handleItem reg texts b st req i).payload_ok hitem
    rw [payloadType_of_service hs] at hok
    obtain ⟨-, hresult⟩ := builtIn_ended reg texts hs (p := (payloadOf reg _ i).1) (Prod.ext rfl hok) st req
    rw [hitem] at hresult
    cases hrun' : (s.run st.view (payloadOf reg (.struct s.requestName s.requestFields) i).1).1 with
    | error err =>
      rw [hrun'] at hresult
      cases hresult
    | ok r =>
      rw [hrun'] at hresult
      obtain ⟨x, hx, hpayload⟩ := hresult
      cases hpayload
      have hbody : ResultItem (.ok r : Except ItemError s.Response) (payloadItem x) := ⟨x, hx, rfl⟩
      refine itemSendable_result reg hbody fun r' hr' => ?_
      cases hr'
      exact hsendable op s hoffered _ _ r hrun'

end

/-! ## An operation that nobody handles -/

/-- A request of version 1.4 to create an object, with an empty payload. -/
def createRequestBytes : TTLV :=
  item tagRequestMessage .Structure (item 0x420077 .Structure
    (item 0x420069 .Structure (Prim.item 0x42006a (.integer 1) ++ Prim.item 0x42006b (.integer 4)) ++
      Prim.item 0x42000d (.integer 1)) ++
    item 0x42000f .Structure (Prim.item 0x42005c (.enumeration 1) ++ item 0x420079 .Structure []))

theorem createRequestBytes_parsed :
    (parseMessage Message.messageRegistry (Request.ofTTLV createRequestBytes)).toOption.map
      (fun m => ((batchItems m).map operation, versionMajor (requestVersion (requestHeader m)))) = some ([1], 1) := by
  decide +kernel

theorem conforms_versions : Conforms Message.messageRegistry
    (muxOf Message.messageRegistry noTexts versionsHandlers none) := by
  refine conforms_muxOf noTexts (fun op h hop => ?_) deployed_versions.sendable
  rw [versionsHandlers] at hop
  split at hop
  · cases hop
    exact ⟨_, rfl, rfl⟩
  · cases hop

/-- A server that answers Discover Versions only replies to a request to create an object. -/
theorem replies_wellFormed_createRequest :
    ∃ out resp, serveKMIP Message.messageRegistry versionsServer plainEnv none (Request.ofTTLV createRequestBytes) =
        some (out, resp) ∧
      (out.length < 2 ^ 32 → Understood Message.messageRegistry (Request.ofTTLV createRequestBytes) out) := by
  obtain ⟨message, hparse, heval⟩ := Option.map_eq_some_iff.mp createRequestBytes_parsed
  obtain ⟨hops, hmajor⟩ := Prod.mk.inj heval
  rw [Res.toOption_eq_some] at hparse
  obtain ⟨i, hitems, hop⟩ := List.map_eq_singleton_iff.mp hops
  have hnew : ∀ r, (none : Option Response) = some r → Idle r.enc :=
    fun r hr => by cases hr
  have hreply := replies_wellFormed deployed_versions.types conforms_versions deployed_versions.handler
    deployed_versions.major deployed_versions.minor plainEnv hnew createRequestBytes fun m hm => by
      cases hparse.symm.trans hm
      have hbi : versionsHandlers (operation i) = none := by
        rw [hop]
        decide
      rw [hitems]
      refine ⟨by simp, ?_⟩
      simp only [OperationMux.handleItems, OperationMux.bi, muxOf, hbi, Option.map_none, Option.isSome_some]
  rcases hreply with ⟨hpanic, -⟩ | ⟨out, resp, hserve, ⟨-, -, hversion⟩ | hout⟩
  · cases hparse.symm.trans hpanic
  · exact absurd hmajor (hversion message hparse)
  · exact ⟨out, resp, hserve, hout⟩

end KmipGo.Server
