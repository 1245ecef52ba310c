import KmipGo.Codec.Arrival
import KmipGo.Server.Handlers

/-! # Calls over the wire

A client marshals a request message with a batch of calls and sends it; the
server unmarshals it, hands each payload to the handler of its operation, and
marshals a response message, which the client unmarshals.  All of `Marshal`,
`Unmarshal`, `ServeKMIP`, `HandleMessage`, `DecodePayload` and the built-in
handlers lie between the payload of a call and the payload of its answer.

* `Service` — what a built-in handler is for: a function on a state, from request
  payloads to response payloads or errors.
* `Exchange` — a batch of calls on services, one after the other on one state.
* `calls_answered` — the exchange over the wire is such a batch, and the client
  receives its answers.
-/

namespace KmipGo.Server

open KmipGo.Lib KmipGo.Ttlv KmipGo.Reg KmipGo.Go KmipGo.Encoder KmipGo.Decoder KmipGo.Codec

/-! ## Services -/

/-- An operation on a state `κ`, between payloads that are structs. -/
structure Service (κ : Type) where
  requestName : GoString
  requestFields : Fields
  responseName : GoString
  responseFields : Fields
  run : κ → GoVal (.struct requestName requestFields) →
    Except ItemError (GoVal (.struct responseName responseFields)) × κ

abbrev Service.Request {κ : Type} (s : Service κ) := GoVal (.struct s.requestName s.requestFields)
abbrev Service.Response {κ : Type} (s : Service κ) := GoVal (.struct s.responseName s.responseFields)

section

variable (reg : Registry) {κ : Type}

/-- A function of the application as a service; the ID placeholder is left alone. -/
def Callback.service {requestName responseName : GoString} {requestFields responseFields : Fields}
    (f : Callback κ (.struct requestName requestFields) (.struct responseName responseFields)) :
    Service (GoString × κ) where
  requestName := requestName
  requestFields := requestFields
  responseName := responseName
  responseFields := responseFields
  run st p := ((f st.2 p).1, (st.1, (f st.2 p).2))

/-- Register validates its request, and sets the ID placeholder. -/
def registerService (skipValidation : Bool)
    (f : Callback κ Message.registerRequestPayload Message.registerResponsePayload) : Service (GoString × κ) where
  requestName := _
  requestFields := _
  responseName := _
  responseFields := _
  run st p :=
    match (if skipValidation then none else validateRegister reg p) with
    | some err => (.error err, st)
    | none =>
      match f st.2 p with
      | (.ok r, app) => (.ok r, (registeredIdentifier r, app))
      | (.error err, app) => (.error err, (st.1, app))

/-- Discover Versions depends on nothing but the request. -/
def discoverVersionsService (supportedVersions : List ProtocolVersion) : Service (GoString × κ) where
  requestName := _
  requestFields := _
  responseName := _
  responseFields := _
  run st (p : GoVal Message.discoverVersionsRequestPayload) :=
    (.ok (.struct (.cons (.slice (versionVals (commonVersions supportedVersions
      ((elemList (sliceElems p.fields.head)).map versionOf)))) .nil) :
        GoVal Message.discoverVersionsResponsePayload), st)

/-- The service of a built-in handler.  Create, which panics unless the response payload has a certain
    attribute, is left out. -/
def BuiltIn.service : BuiltIn κ → Option (Service (GoString × κ))
  | .create _ => none
  | .get f => some (Callback.service f)
  | .destroy f => some (Callback.service f)
  | .register skipValidation f => some (registerService reg skipValidation f)
  | .discoverVersions supportedVersions => some (discoverVersionsService supportedVersions)

/-- The state of a service in that of the handlers. -/
def HandlerState.view (st : HandlerState κ) : GoString × κ := (st.idPlaceholder, st.application)

/-- A handler has ended as the service did. -/
def Ended {s : Service (GoString × κ)} (res : Except ItemError s.Response × (GoString × κ))
    (out : HandlerResult × HandlerState κ) : Prop :=
  out.2.view = res.2 ∧
    match res.1 with
    | .ok r => ∃ x, InInterface r x ∧ out.1 = .ok (payloadItem x)
    | .error err => out.1 = .err err

/-! ## Handlers run services -/

/-- The payload of an item, when it has arrived. -/
theorem payloadOf_arrived {i : RequestBatchItem} {n : GoString} {fs : Fields} {p : GoVal (.struct n fs)}
    (h : Arrived reg (.iface p) (requestPayload i)) :
    ∃ u, payloadOf reg (.struct n fs) i = (u, .ok ()) ∧ Arrived reg p u := by
  cases p with
  | struct vs =>
    obtain ⟨t, u, hpayload, hread, harrived⟩ := h
    have hne : ¬ t.length = 0 := by
      intro h0
      rw [List.length_eq_zero_iff.mp h0] at hread
      cases (congrArg Prod.snd hread : Res.err DecErr.eof = .ok ())
    refine ⟨u, ?_, ?_⟩
    · simp only [payloadOf, ItemRequest.decodePayload, hpayload, coerceToTTLV, rawOf, ItemRequest.unmarshal,
        if_neg hne, resetDecoder]
      have hdecode : decode reg newDecoder (GoType.struct n fs).zero t = (u, .ok ()) := hread
      rw [hdecode]
      rfl
    · cases u
      exact harrived

variable (texts : Texts)

theorem forwardHandler_ended {requestName responseName : GoString} {requestFields responseFields : Fields}
    (f : Callback κ (.struct requestName requestFields) (.struct responseName responseFields))
    {p : GoVal (.struct requestName requestFields)} {i : RequestBatchItem}
    (hp : payloadOf reg (.struct requestName requestFields) i = (p, .ok ())) (st : HandlerState κ) (req : Request) :
    Ended ((Callback.service f).run st.view p) (forwardHandler reg texts _ _ f st req i) := by
  refine withPayload_of_ok reg texts (P := Ended _) (congrArg Prod.snd hp) fun dec => ?_
  simp only [hp, Callback.service, withResponse, HandlerState.view]
  cases f st.application p with
  | mk r app =>
    cases r with
    | ok r => exact ⟨rfl, _, .inr rfl, rfl⟩
    | error err => exact ⟨rfl, rfl⟩

theorem registerHandler_ended (skipValidation : Bool)
    (f : Callback κ Message.registerRequestPayload Message.registerResponsePayload)
    {p : GoVal Message.registerRequestPayload} {i : RequestBatchItem}
    (hp : payloadOf reg Message.registerRequestPayload i = (p, .ok ())) (st : HandlerState κ) (req : Request) :
    Ended ((registerService reg skipValidation f).run st.view p)
      (registerHandler reg texts skipValidation f st req i) := by
  refine withPayload_of_ok reg texts (P := Ended _) (congrArg Prod.snd hp) fun dec => ?_
  simp only [hp, registerService, withResponse, HandlerState.view]
  cases (if skipValidation then none else validateRegister reg p) with
  | some err => exact ⟨rfl, rfl⟩
  | none =>
    cases f st.application p with
    | mk r app =>
      cases r with
      | ok r => exact ⟨rfl, _, .inr rfl, rfl⟩
      | error err => exact ⟨rfl, rfl⟩

theorem discoverVersionsHandler_ended (supportedVersions : List ProtocolVersion)
    {p : GoVal Message.discoverVersionsRequestPayload} {i : RequestBatchItem}
    (hp : payloadOf reg Message.discoverVersionsRequestPayload i = (p, .ok ())) (st : HandlerState κ)
    (req : Request) :
    Ended ((discoverVersionsService supportedVersions).run st.view p)
      (discoverVersionsHandler reg texts supportedVersions st req i) := by
  refine withPayload_of_ok reg texts (P := Ended _) (congrArg Prod.snd hp) fun dec => ?_
  rw [hp]
  exact ⟨rfl, _, .inl rfl, rfl⟩

/-- A built-in handler ends as its service does. -/
theorem builtIn_ended {b : BuiltIn κ} {s : Service (GoString × κ)} (hs : b.service reg = some s) {p : s.Request}
    {i : RequestBatchItem} (hp : payloadOf reg (.struct s.requestName s.requestFields) i = (p, .ok ()))
    (st : HandlerState κ) (req : Request) : Ended (s.run st.view p) (b.handleItem reg texts st req i) := by
  cases b with
  | create f => cases hs
  | get f | destroy f =>
    cases hs
    exact forwardHandler_ended reg texts f hp st req
  | register skipValidation f =>
    cases hs
    exact registerHandler_ended reg texts skipValidation f hp st req
  | discoverVersions supportedVersions =>
    cases hs
    exact discoverVersionsHandler_ended reg texts supportedVersions hp st req

/-! ## Batches -/

/-- The services that the handlers of a multiplexer run, by operation. -/
def servicesOf (handlers : BitVec 32 → Option (Handler κ)) (op : BitVec 32) : Option (Service (GoString × κ)) :=
  match handlers op with
  | some (.builtIn b) => b.service reg
  | _ => none

end

/-- A call of a client. -/
structure Ask {κ : Type} (services : BitVec 32 → Option (Service κ)) where
  operation : BitVec 32
  service : Service κ
  offered : services operation = some service
  uniqueBatchItemID : Option Bytes
  payload : service.Request
  messageExtension : GoVal (.ptr Message.messageExtension)

/-- A call with what the service returned. -/
structure Answer {κ : Type} (services : BitVec 32 → Option (Service κ)) where
  ask : Ask services
  result : Except ItemError ask.service.Response

section

variable {κ : Type} {services : BitVec 32 → Option (Service κ)}

/-- The `RequestBatchItem` for a call. -/
def Ask.item (a : Ask services) : RequestBatchItem :=
  .struct (.cons (.scalar a.operation) (.cons (.scalar a.uniqueBatchItemID)
    (.cons (.iface a.payload) (.cons a.messageExtension .nil))))

def askVals : List (Ask services) → GoVals Message.requestBatchItem
  | [] => .nil
  | a :: as => .cons a.item (askVals as)

/-- The request message of a client. -/
def requestOf (header : GoVal Message.requestHeader) (asks : List (Ask services)) : GoVal Message.requestMessage :=
  .struct (.cons header (.cons (.slice (askVals asks)) .nil))

variable (reg : Registry)

end

/-- The text of an error in a response. -/
def ItemError.text (err : ItemError) : GoString := if err.userMessage = [] then err.message else err.userMessage

/-- The item for a result, before it is correlated with a call. -/
def ResultItem {κ : Type} {s : Service κ} (result : Except ItemError s.Response) (item : ResponseBatchItem) : Prop :=
  match result with
  | .ok r => ∃ x, InInterface r x ∧ item = payloadItem x
  | .error err => item = newFailedResponseBatchItem err.resultReason err.text

/-- The item of the response for an answer. -/
def Answer.Item {κ : Type} {services : BitVec 32 → Option (Service κ)} (a : Answer services)
    (item : ResponseBatchItem) : Prop :=
  ∃ body id, ResultItem a.result body ∧ id.getD [] = a.ask.uniqueBatchItemID.getD [] ∧
    item = { body with operation := a.ask.operation, uniqueBatchItemID := id }

section

variable (reg : Registry) {κ : Type} (texts : Texts) (handlers : BitVec 32 → Option (Handler κ))

/-- An item that has arrived. -/
theorem item_arrived {services : BitVec 32 → Option (Service κ)} {a : Ask services} {i : RequestBatchItem}
    (h : Arrived reg a.item i) :
    operation i = a.operation ∧ (uniqueBatchItemID i).getD [] = a.uniqueBatchItemID.getD [] ∧
      ∃ p, payloadOf reg (.struct a.service.requestName a.service.requestFields) i = (p, .ok ()) ∧
        Arrived reg a.payload p := by
  have hfields := h.fields
  have hid := hfields.tail.head.get
  exact ⟨hfields.head.get, Option.some.inj hid, payloadOf_arrived reg hfields.tail.tail.head⟩

/-- Every error of a service has a result reason, without which it would not be converted. -/
def Explained (services : BitVec 32 → Option (Service κ)) : Prop :=
  ∀ op s, services op = some s → ∀ st p err, (s.run st p).1 = .error err → err.resultReason ≠ 0

/-- What the multiplexer makes of an item that has arrived. -/
theorem bi_arrived (hexplained : Explained (servicesOf reg handlers)) {a : Ask (servicesOf reg handlers)}
    {i : RequestBatchItem} (h : Arrived reg a.item i) (st : HandlerState κ) (req : Request) :
    ∃ p item st', Arrived reg a.payload p ∧ (muxOf reg texts handlers none).bi st req i = (some item, st') ∧
      st'.view = (a.service.run st.view p).2 ∧ ResultItem (a.service.run st.view p).1 item := by
  obtain ⟨hop, -, p, hp, harrived⟩ := item_arrived reg h
  have hoffered := a.offered
  have hreason := hexplained _ _ a.offered st.view p
  rw [servicesOf] at hoffered
  rcases bi_muxOf reg texts handlers none req st i with ⟨hnone, -⟩ | ⟨h, hh, hbi⟩
  · rw [← hop, hnone] at hoffered
    cases hoffered
  · rw [← hop, hh] at hoffered
    cases h with
    | other run => cases hoffered
    | builtIn b =>
      obtain ⟨hview, hresult⟩ := builtIn_ended reg texts hoffered hp st req
      rw [hbi]
      cases hrun : (a.service.run st.view p).1 with
      | ok r =>
        rw [hrun] at hresult
        obtain ⟨x, hx, hitem⟩ := hresult
        simp only [Handler.handleItem, hitem]
        refine ⟨p, _, _, harrived, rfl, hview, ?_⟩
        simp only [ResultItem, hrun]
        exact ⟨x, hx, rfl⟩
      | error err =>
        rw [hrun] at hresult
        have hfailed : defaultErrorHandler err = some (newFailedResponseBatchItem err.resultReason err.text) :=
          if_neg (hreason err hrun)
        simp only [Handler.handleItem, show (b.handleItem reg texts st req i).1 = .err err from hresult,
          itemOf, Option.getD_none, hfailed]
        refine ⟨p, _, _, harrived, rfl, hview, ?_⟩
        simp only [ResultItem, hrun]

end

/-! ## Responses -/

def tagResponseMessage : Tag := 0x42007b

/-- What the registry has to say about response messages: the tags of their fields, and that those of
    numbers and texts have no enumeration. -/
structure ResponseTypes (reg : Registry) : Prop where
  message : getTypeInfo reg Message.responseMessage = .ok ⟨tagResponseMessage,
    [.valueField (Message.fieldInfo "ResponseHeader" 0x42007a Message.responseHeader),
     .valueField (Message.fieldInfo "BatchItem" 0x42000f (.slice [] Message.responseBatchItem))]⟩
  header : ∃ tag, getTypeInfo reg Message.responseHeader = .ok ⟨tag,
    [.valueField (Message.fieldInfo "ProtocolVersion" 0x420069 Message.protocolVersion),
     .valueField (Message.fieldInfo "TimeStamp" 0x420092 Message.timeType),
     .valueField (Message.fieldInfo "Nonce" 0x4200c8 (.ptr Message.nonce)),
     .valueField (Message.fieldInfo "AttestationType" 0x4200c7 (.slice [] (Message.enumType "AttestationType"))),
     .valueField (Message.fieldInfoOmitempty "ClientCorrelationValue" 0x420105 Message.stringType),
     .valueField (Message.fieldInfoOmitempty "ServerCorrelationValue" 0x420106 Message.stringType),
     .valueField (Message.fieldInfo "BatchCount" 0x42000d Message.intType)]⟩
  version : ∃ tag, getTypeInfo reg Message.protocolVersion = .ok ⟨tag,
    [.valueField (Message.fieldInfo "ProtocolVersionMajor" 0x42006a Message.intType),
     .valueField (Message.fieldInfo "ProtocolVersionMinor" 0x42006b Message.intType)]⟩
  item : ∃ tag, getTypeInfo reg Message.responseBatchItem = .ok ⟨tag,
    [.valueField (Message.fieldInfoOmitempty "Operation" 0x42005c (Message.enumType "Operation")),
     .valueField (Message.fieldInfoOmitempty "UniqueBatchItemID" 0x420093 Message.bytesType),
     .valueField (Message.fieldInfo "ResultStatus" 0x42007f (Message.enumType "ResultStatus")),
     .valueField (Message.fieldInfoOmitempty "ResultReason" 0x42007e (Message.enumType "ResultReason")),
     .valueField (Message.fieldInfoOmitempty "ResultMessage" 0x42007d Message.stringType),
     .valueField (Message.fieldInfoOmitempty "AsynchronousCorrelationValue" 0x420006 Message.bytesType),
     .valueField (Message.fieldInfoOmitempty "ResponsePayload" 0x42007c .iface),
     .valueField (Message.fieldInfo "MessageExtension" 0x420051 (.ptr Message.messageExtension))]⟩
  plain : ∀ tag ∈ [(0x42006a : Tag), 0x42006b, 0x42000d, 0x420105, 0x420106, 0x42007d],
    reg.enumForTag tag = none

/-- A number that fits an Integer. -/
def FitsInteger (i : BitVec 64) : Prop := -(2 ^ 31) ≤ i.toInt ∧ i.toInt < 2 ^ 31

section

variable {reg : Registry}

theorem header_sendable (hreg : ResponseTypes reg) {fi : FieldInfo} {header : ResponseHeader}
    (hmajor : FitsInteger header.protocolVersion.protocolVersionMajor)
    (hminor : FitsInteger header.protocolVersion.protocolVersionMinor) (hnonce : header.nonce = .ptrNil)
    (hattestation : header.attestationType = .nil) (hcount : FitsInteger header.batchCount) :
    Sendable reg fi header.toVal := by
  obtain ⟨tag, hheader⟩ := hreg.header
  obtain ⟨vtag, hversion⟩ := hreg.version
  have hplain := hreg.plain
  have hver : Sendable reg (Message.fieldInfo "ProtocolVersion" 0x420069 Message.protocolVersion)
      header.protocolVersion.toVal :=
    ⟨_, hversion, ⟨by decide, rfl, rfl, rfl⟩, ⟨hplain _ (by decide), hmajor⟩, ⟨by decide, rfl, rfl, rfl⟩,
      ⟨hplain _ (by decide), hminor⟩, trivial⟩
  rw [ResponseHeader.toVal, hnonce, hattestation]
  exact ⟨_, hheader, ⟨by decide, rfl, rfl, rfl⟩, hver, ⟨by decide, rfl, rfl, rfl⟩, fun h => (by cases h),
    ⟨by decide, rfl, rfl, rfl⟩, trivial, ⟨by decide, rfl, rfl, rfl⟩, trivial, ⟨by decide, rfl, rfl, rfl⟩,
    ⟨hplain _ (by decide), trivial⟩, ⟨by decide, rfl, rfl, rfl⟩, ⟨hplain _ (by decide), trivial⟩,
    ⟨by decide, rfl, rfl, rfl⟩, ⟨hplain _ (by decide), hcount⟩, trivial⟩

theorem item_sendable (hreg : ResponseTypes reg) {fi : FieldInfo} {item : ResponseBatchItem}
    (hpayload : ∀ fi, Sendable reg fi item.responsePayload) (hext : item.messageExtension = .ptrNil) :
    Sendable reg fi item.toVal := by
  obtain ⟨tag, hitem⟩ := hreg.item
  rw [ResponseBatchItem.toVal, hext]
  exact ⟨_, hitem, ⟨by decide, rfl, rfl, rfl⟩, ⟨trivial, trivial⟩, ⟨by decide, rfl, rfl, rfl⟩, ⟨trivial, trivial⟩,
    ⟨by decide, rfl, rfl, rfl⟩, ⟨trivial, trivial⟩, ⟨by decide, rfl, rfl, rfl⟩, ⟨trivial, trivial⟩,
    ⟨by decide, rfl, rfl, rfl⟩, ⟨hreg.plain _ (by decide), trivial⟩, ⟨by decide, rfl, rfl, rfl⟩, ⟨trivial, trivial⟩,
    ⟨by decide, rfl, rfl, rfl⟩, hpayload _, ⟨by decide, rfl, rfl, rfl⟩, trivial, trivial⟩

theorem itemVals_sendable (hreg : ResponseTypes reg) {fi : FieldInfo} : ∀ {items : List ResponseBatchItem},
    (∀ item ∈ items, (∀ fi, Sendable reg fi item.responsePayload) ∧ item.messageExtension = .ptrNil) →
    ElemsSendable reg fi (itemVals items)
  | [], _ => trivial
  | item :: _, h =>
    have hitem := h item (List.mem_cons_self ..)
    ⟨trivial, item_sendable hreg hitem.1 hitem.2,
      itemVals_sendable hreg fun i hi => h i (List.mem_cons_of_mem _ hi)⟩

/-! ## Requests that arrive -/

/-- The server parses a request that the client was able to send: a single block. -/
theorem parseMessage_sent {m : GoVal Message.requestMessage} (hm : MessageSendable reg m tagRequestMessage) :
    ∃ b, marshal reg m = .ok b ∧ (b.length < 2 ^ 32 → (∃ c : Block, c.bytes = b ∧ c.Sized) ∧
      ∃ m', parseMessage reg (Request.ofTTLV b) = .ok m' ∧ Arrived reg m m') := by
  obtain ⟨b, hw, hblock⟩ := message_written reg hm
  refine ⟨b, marshal_of_writes reg (hw .any Ctx.top false), fun hsize => ?_⟩
  obtain ⟨c, rfl, hsized, htag, m', hread, harrived⟩ := hblock hsize
  refine ⟨⟨c, rfl, hsized⟩, m', ?_, harrived⟩
  have hvalid := valid_bytes_append c [] hsized
  have hctag := tag_bytes_append c []
  rw [List.append_nil] at hvalid hctag
  simp only [parseMessage, Request.ofTTLV, hvalid, hctag, htag, ne_eq, not_true_eq_false, if_false]
  have hmessage : unmarshalBytes reg Message.requestMessage c.bytes = (m', .ok ()) := hread
  rw [hmessage]

/-- The client reads a response that the server was able to send: a single block. -/
theorem encoding_sent {m : ResponseMessage} (hm : MessageSendable reg m.toVal tagResponseMessage) :
    ∃ b, m.encoding reg = .ok b ∧ (b.length < 2 ^ 32 →
      (∃ c : Block, c.bytes = b ∧ c.Sized ∧ c.tag = tagResponseMessage) ∧
        ∃ w, unmarshalBytes reg Message.responseMessage b = (w, .ok ()) ∧ Arrived reg m.toVal w) := by
  obtain ⟨b, hw, hblock⟩ := message_written reg hm
  refine ⟨b, marshal_of_writes reg ?_, fun hsize => ?_⟩
  · simp only [encode]
    exact hw .done Ctx.top true
  · obtain ⟨c, hc, hsized, htag, w, hread, harrived⟩ := hblock hsize
    exact ⟨⟨c, hc, hsized, htag⟩, w, hread, harrived⟩

end

/-! ## Answers that arrive -/

-- the fields of a response message that are read here

def responseItems (m : GoVal Message.responseMessage) : List (GoVal Message.responseBatchItem) :=
  elemList (sliceElems m.fields.tail.head)

def answeredCorrelation (m : GoVal Message.responseMessage) : GoString :=
  m.fields.head.fields.tail.tail.tail.tail.head.get

def answeredCount (m : GoVal Message.responseMessage) : BitVec 64 :=
  m.fields.head.fields.tail.tail.tail.tail.tail.tail.head.get

def answeredOperation (i : GoVal Message.responseBatchItem) : BitVec 32 := i.fields.head.get
def answeredID (i : GoVal Message.responseBatchItem) : Option Bytes := i.fields.tail.head.get
def answeredStatus (i : GoVal Message.responseBatchItem) : BitVec 32 := i.fields.tail.tail.head.get
def answeredReason (i : GoVal Message.responseBatchItem) : BitVec 32 := i.fields.tail.tail.tail.head.get
def answeredText (i : GoVal Message.responseBatchItem) : GoString := i.fields.tail.tail.tail.tail.head.get
def answeredPayload (i : GoVal Message.responseBatchItem) : GoVal .iface :=
  i.fields.tail.tail.tail.tail.tail.tail.head

section

variable (reg : Registry) {κ : Type}

/-- The item that the client has read tells the answer: `Unmarshal` of its payload gives the response
    payload of the service, or it has the reason and the text of the error. -/
def Answer.Received {services : BitVec 32 → Option (Service κ)} (a : Answer services)
    (i : GoVal Message.responseBatchItem) : Prop :=
  answeredOperation i = a.ask.operation ∧ (answeredID i).getD [] = a.ask.uniqueBatchItemID.getD [] ∧
    match a.result with
    | .ok r => answeredStatus i = 0 ∧
        Readable reg (.struct a.ask.service.responseName a.ask.service.responseFields) (fun u => Arrived reg r u)
          (answeredPayload i)
    | .error err => answeredStatus i = resultStatusOperationFailed ∧ answeredReason i = err.resultReason ∧
        answeredText i = err.text

/-- A struct in an interface that has arrived. -/
theorem readable_arrived {n : GoString} {fs : Fields} {r : GoVal (.struct n fs)} {x w : GoVal .iface}
    (hx : InInterface r x) (h : Arrived reg x w) : Readable reg (.struct n fs) (fun u => Arrived reg r u) w := by
  cases r with
  | struct vs =>
    have hread : Readable reg (.struct n fs) (fun u => FieldsArrived reg vs u.fields) w := by
      rcases hx with rfl | rfl <;> exact h
    obtain ⟨t, u, hw, hunmarshal, harrived⟩ := hread
    refine ⟨t, u, hw, hunmarshal, ?_⟩
    cases u
    exact harrived

theorem received_of_arrived {services : BitVec 32 → Option (Service κ)} {a : Answer services}
    {item : ResponseBatchItem} (hitem : a.Item item) {w : GoVal Message.responseBatchItem}
    (h : Arrived reg item.toVal w) : a.Received reg w := by
  obtain ⟨body, id, hbody, hid, rfl⟩ := hitem
  have hfields := h.fields
  have hreadID := hfields.tail.head.get
  refine ⟨hfields.head.get, (Option.some.inj hreadID).trans hid, ?_⟩
  have hstatus := hfields.tail.tail.head.get
  have hreason := hfields.tail.tail.tail.head.get
  have htext := hfields.tail.tail.tail.tail.head.get
  have hpayload := hfields.tail.tail.tail.tail.tail.tail.head
  cases hresult : a.result with
  | ok r =>
    rw [hresult] at hbody
    obtain ⟨x, hx, rfl⟩ := hbody
    exact ⟨hstatus, readable_arrived reg hx hpayload⟩
  | error err =>
    rw [hresult] at hbody
    cases hbody
    exact ⟨hstatus, hreason, htext⟩

theorem received_items {services : BitVec 32 → Option (Service κ)} {answers : List (Answer services)}
    {items : List ResponseBatchItem} (hitems : List.Forall₂ Answer.Item answers items)
    {ws : GoVals Message.responseBatchItem} (h : ElemsArrived reg (itemVals items) ws) :
    List.Forall₂ (Answer.Received reg) answers (elemList ws) := by
  induction hitems generalizing ws with
  | nil =>
    cases ws with
    | nil => exact .nil
    | cons w ws => exact absurd h id
  | cons hitem _ ih =>
    cases ws with
    | nil => exact absurd h id
    | cons w ws => exact .cons (received_of_arrived reg hitem h.1) (ih h.2)

/-- The response payloads of the services can be sent. -/
def ResponsesSendable (services : BitVec 32 → Option (Service κ)) : Prop :=
  ∀ op s, services op = some s → ∀ st p r, (s.run st p).1 = .ok r →
    ∃ ti, getTypeInfo reg (.struct s.responseName s.responseFields) = .ok ti ∧
      FieldsSendable reg ti.slots (GoVal.fields r)

/-- An item that can be sent. -/
def ItemSendable (item : ResponseBatchItem) : Prop :=
  (∀ fi, Sendable reg fi item.responsePayload) ∧ item.messageExtension = .ptrNil

/-- The item for a result can be sent if the response payload can be. -/
theorem itemSendable_result {s : Service κ} {result : Except ItemError s.Response} {item : ResponseBatchItem}
    (hitem : ResultItem result item) (hsend : ∀ r, result = .ok r →
      ∃ ti, getTypeInfo reg (.struct s.responseName s.responseFields) = .ok ti ∧
        FieldsSendable reg ti.slots (GoVal.fields r)) : ItemSendable reg item := by
  cases result with
  | error err =>
    cases hitem
    exact ⟨fun _ => trivial, rfl⟩
  | ok r =>
    obtain ⟨x, hx, rfl⟩ := hitem
    refine ⟨fun fi => ?_, rfl⟩
    have hpayload := hsend r rfl
    cases r with
    | struct vs => rcases hx with rfl | rfl <;> exact hpayload

end

/-! ## The exchange -/

/-- What the server is given: the response handed out by the pool, with the fields of its header that do
    not depend on the items. -/
def preparedResponse (h : StandardProtocolHandler) (env : Env) (pooled : Option Response) (ccv : GoString) :
    Response :=
  ((newResponse pooled).start h env).setClientCorrelationValue ccv

theorem batchItem_preparedResponse (h : StandardProtocolHandler) (env : Env) (pooled : Option Response)
    (ccv : GoString) : (preparedResponse h env pooled ccv).message.batchItem = [] := by
  cases pooled <;> rfl

section

variable (reg : Registry)

theorem messageHandler_of_items {σ : Type} {mux : OperationMux σ} {st st' : σ} {req : Request} {resp : Response}
    {message : GoVal Message.requestMessage} (hreq : req.message = some message) {items : List ResponseBatchItem}
    (hitems : mux.handleItems req (batchItems message) resp.message.batchItem st = some (items, st')) :
    mux.messageHandler st req resp = some ⟨[], { resp.message with batchItem := items }, req⟩ := by
  simp only [OperationMux.messageHandler, OperationMux.handleMessage, hreq, hitems, Option.map_some]

/-- The response of a multiplexer that has handled the items of a request. -/
def replyOf (h : StandardProtocolHandler) (env : Env) (pooled : Option Response)
    (message : GoVal Message.requestMessage) (items : List ResponseBatchItem) : ResponseMessage :=
  ({ (preparedResponse h env pooled (clientCorrelationValue (requestHeader message))).message with
      batchItem := items } : ResponseMessage).setBatchCount

/-- A request that is parsed, of the right version and whose items the handler has answered. -/
theorem handleRequest_of_handled {h : StandardProtocolHandler} {env : Env} {pooled : Option Response}
    (hpool : ∀ r, pooled = some r → Idle r.enc) {req : Request} {message : GoVal Message.requestMessage}
    (hparse : parseMessage reg req = .ok message)
    (hversion : versionMajor (requestVersion (requestHeader message)) = h.protocolVersion.protocolVersionMajor)
    {items : List ResponseBatchItem} {resp : Response}
    (hresp : resp = preparedResponse h env pooled (clientCorrelationValue (requestHeader message)))
    (hhandled : h.messageHandler (req.accepted h message) resp =
      some ⟨[], { resp.message with batchItem := items }, req.accepted h message⟩)
    {b : Bytes} (hb : (replyOf h env pooled message items).encoding reg = .ok b) :
    handleRequest reg h env req (newResponse pooled) =
      some (if tooLarge message b then
          ⟨(replyOf h env pooled message items).errorResponse resultReasonResponseTooLarge [], ⟨0, [], b⟩⟩
        else ⟨replyOf h env pooled message items, ⟨0, [], b⟩⟩) := by
  have hadm : admission reg h env req (newResponse pooled) = .ok (req.accepted h message, resp) :=
    (admission_eq_ok_iff reg).mpr ⟨message, hparse, hversion, rfl, hresp⟩
  have henc : resp.enc = newEncoder := by
    rw [hresp]
    exact idle_newResponse hpool
  have hcall : callHandler reg h (req.accepted h message) resp =
      some (req.accepted h message, ⟨replyOf h env pooled message items, newEncoder⟩) := by
    rw [callHandler, hhandled]
    simp only [List.foldl_nil, Option.map_some]
    rw [henc, hresp]
    rfl
  have hclosed : Response.Closed ⟨replyOf h env pooled message items, newEncoder⟩ := rfl
  exact (handleRequest_eq_some reg).mpr
    (.inr ⟨_, _, _, hadm, hcall, conclude_of_encoding reg hclosed rfl hb⟩)

/-- The same for the loop of a multiplexer. -/
theorem handleRequest_of_items {σ : Type} {mux : OperationMux σ} {st st' : σ} {h : StandardProtocolHandler}
    (hh : h.messageHandler = mux.messageHandler st) {env : Env} {pooled : Option Response}
    (hpool : ∀ r, pooled = some r → Idle r.enc) {req : Request} {message : GoVal Message.requestMessage}
    (hparse : parseMessage reg req = .ok message)
    (hversion : versionMajor (requestVersion (requestHeader message)) = h.protocolVersion.protocolVersionMajor)
    {items : List ResponseBatchItem}
    (hrun : mux.handleItems (req.accepted h message) (batchItems message) [] st = some (items, st'))
    {b : Bytes} (hb : (replyOf h env pooled message items).encoding reg = .ok b) :
    handleRequest reg h env req (newResponse pooled) =
      some (if tooLarge message b then
          ⟨(replyOf h env pooled message items).errorResponse resultReasonResponseTooLarge [], ⟨0, [], b⟩⟩
        else ⟨replyOf h env pooled message items, ⟨0, [], b⟩⟩) := by
  refine handleRequest_of_handled reg hpool hparse hversion rfl ?_ hb
  rw [← batchItem_preparedResponse h env pooled (clientCorrelationValue (requestHeader message))] at hrun
  rw [hh, messageHandler_of_items rfl hrun]

/-- What is written of a response: its encoding with logging, and otherwise what is in its buffer. -/
theorem serveKMIP_written {h : StandardProtocolHandler} {env : Env} {pooled : Option Response} {req : Request}
    {resp : Response} (hhandled : handleRequest reg h env req (newResponse pooled) = some resp)
    (hidle : Idle resp.enc) {b : Bytes} (hb : resp.message.encoding reg = .ok b) :
    ∃ resp', serveKMIP reg h env pooled req = some (if h.logTraffic then b else resp.enc.w, resp') := by
  have hserve : serveKMIP reg h env pooled req = writeOut reg h.logTraffic resp := by rw [serveKMIP, hhandled]
  rw [hserve]
  cases h.logTraffic with
  | true => exact ⟨_, writeOut_logged reg hidle hb⟩
  | false => exact ⟨_, rfl⟩

theorem fitsInteger_ofNat {n : Nat} (h : n < 2 ^ 31) : FitsInteger (BitVec.ofNat 64 n) := by
  have hnat : (BitVec.ofNat 64 n).toNat = n := by
    rw [BitVec.toNat_ofNat]
    omega
  have hint : (BitVec.ofNat 64 n).toInt = n := by
    rw [BitVec.toInt_eq_toNat_of_lt (by omega), hnat]
  rw [FitsInteger, hint]
  omega

/-- A message that can be sent. -/
structure Presentable (m : ResponseMessage) : Prop where
  major : FitsInteger m.responseHeader.protocolVersion.protocolVersionMajor
  minor : FitsInteger m.responseHeader.protocolVersion.protocolVersionMinor
  nonce : m.responseHeader.nonce = .ptrNil
  attestationType : m.responseHeader.attestationType = .nil
  batchCount : FitsInteger m.responseHeader.batchCount
  batchItem : ∀ item ∈ m.batchItem, ItemSendable reg item

variable {reg} in
theorem Presentable.sendable {m : ResponseMessage} (h : Presentable reg m) (hreg : ResponseTypes reg) :
    MessageSendable reg m.toVal tagResponseMessage :=
  ⟨_, hreg.message, rfl, by decide, ⟨by decide, rfl, rfl, rfl⟩,
    header_sendable hreg h.major h.minor h.nonce h.attestationType h.batchCount, ⟨by decide, rfl, rfl, rfl⟩,
    itemVals_sendable hreg h.batchItem, trivial⟩

variable {reg} in
theorem Presentable.setBatchCount {m : ResponseMessage} (h : Presentable reg m) {items : List ResponseBatchItem}
    (hcount : items.length < 2 ^ 31) (hitems : ∀ item ∈ items, ItemSendable reg item) :
    Presentable reg ({ m with batchItem := items } : ResponseMessage).setBatchCount :=
  ⟨h.major, h.minor, h.nonce, h.attestationType, fitsInteger_ofNat hcount, hitems⟩

theorem presentable_preparedResponse {h : StandardProtocolHandler}
    (hmajor : FitsInteger h.protocolVersion.protocolVersionMajor)
    (hminor : FitsInteger h.protocolVersion.protocolVersionMinor) (env : Env) (pooled : Option Response)
    (ccv : GoString) : Presentable reg (preparedResponse h env pooled ccv).message := by
  have hcount : FitsInteger (BitVec.ofNat 64 0) := fitsInteger_ofNat (by decide)
  cases pooled <;> exact ⟨hmajor, hminor, rfl, rfl, hcount, nofun⟩

/-- A server whose operations are built-in handlers, under the default error handler. -/
structure Deployed {κ : Type} (texts : Texts) (handlers : BitVec 32 → Option (Handler κ)) (st : HandlerState κ)
    (h : StandardProtocolHandler) : Prop where
  types : ResponseTypes reg
  handler : h.messageHandler = (muxOf reg texts handlers none).messageHandler st
  major : FitsInteger h.protocolVersion.protocolVersionMajor
  minor : FitsInteger h.protocolVersion.protocolVersionMinor
  explained : Explained (servicesOf reg handlers)
  sendable : ResponsesSendable reg (servicesOf reg handlers)

/-- The items of a request that has arrived. -/
theorem items_of_arrived {κ : Type} {services : BitVec 32 → Option (Service κ)} {header : GoVal Message.requestHeader}
    {asks : List (Ask services)} {message : GoVal Message.requestMessage}
    (h : Arrived reg (requestOf header asks) message) :
    ElemsArrived reg (askVals asks) (sliceElems message.fields.tail.head) := by
  have hslice := h.fields.tail.head
  cases hlist : message.fields.tail.head with
  | slice is =>
    rw [hlist] at hslice
    exact hslice

theorem major_of_arrived {κ : Type} {services : BitVec 32 → Option (Service κ)} {header : GoVal Message.requestHeader}
    {asks : List (Ask services)} {message : GoVal Message.requestMessage}
    (h : Arrived reg (requestOf header asks) message) :
    versionMajor (requestVersion (requestHeader message)) = versionMajor (requestVersion header) :=
  have hheader : Arrived reg header (requestHeader message) := h.fields.head
  hheader.fields.head.fields.head.get

/-- The response to a request that has arrived is encoded, as a single block from which the client reads the
    answers. -/
theorem reply_received (hreg : ResponseTypes reg) {h : StandardProtocolHandler}
    (hmajor : FitsInteger h.protocolVersion.protocolVersionMajor)
    (hminor : FitsInteger h.protocolVersion.protocolVersionMinor) (env : Env) (pooled : Option Response) {κ : Type}
    {services : BitVec 32 → Option (Service κ)} {header : GoVal Message.requestHeader} {asks : List (Ask services)}
    (hmax : (maximumResponseSize header).toInt ≤ 0) (hcount : asks.length < 2 ^ 31)
    {message : GoVal Message.requestMessage} (harrived : Arrived reg (requestOf header asks) message)
    {answers : List (Answer services)} (hasks : answers.map Answer.ask = asks) {items : List ResponseBatchItem}
    (hitems : List.Forall₂ Answer.Item answers items) (hsendable : ∀ item ∈ items, ItemSendable reg item) :
    ∃ rb, (replyOf h env pooled message items).encoding reg = .ok rb ∧ tooLarge message rb = false ∧
      (rb.length < 2 ^ 32 → (∃ c : Block, c.bytes = rb ∧ c.Sized ∧ c.tag = tagResponseMessage) ∧
        ∃ w, unmarshalBytes reg Message.responseMessage rb = (w, .ok ()) ∧
          answeredCorrelation w = clientCorrelationValue header ∧
          answeredCount w = BitVec.ofNat 64 asks.length ∧
          List.Forall₂ (Answer.Received reg) answers (responseItems w)) := by
  -- what the server reads of the header is what the client has written
  have hheader : Arrived reg header (requestHeader message) := harrived.fields.head
  have hlimit : maximumResponseSize (requestHeader message) = maximumResponseSize header :=
    hheader.fields.tail.head.get
  have hccv : clientCorrelationValue (requestHeader message) = clientCorrelationValue header :=
    hheader.fields.tail.tail.head.get
  have hlength : items.length = asks.length := by
    rw [← hitems.length_eq, ← hasks, List.length_map]
  have hreply : Presentable reg (replyOf h env pooled message items) :=
    (presentable_preparedResponse reg hmajor hminor env pooled _).setBatchCount (hlength ▸ hcount) hsendable
  obtain ⟨rb, hrb, hread⟩ := encoding_sent (hreply.sendable hreg)
  refine ⟨rb, hrb, ?_, fun hrsize => ?_⟩
  · rw [tooLarge, hlimit, decide_eq_false_iff_not]
    omega
  obtain ⟨hblock, w, hw, hwarrived⟩ := hread hrsize
  have hback : Arrived reg _ w.fields.head := hwarrived.fields.head
  refine ⟨hblock, w, hw, hback.fields.tail.tail.tail.tail.head.get.trans hccv, ?_, ?_⟩
  · have hcounted : answeredCount w = BitVec.ofNat 64 items.length :=
      hback.fields.tail.tail.tail.tail.tail.tail.head.get
    rw [hcounted, hlength]
  · have hslice := hwarrived.fields.tail.head
    rw [responseItems]
    cases hlist : w.fields.tail.head with
    | slice ws =>
      rw [hlist] at hslice
      exact received_items reg hitems hslice

end

/-! ## Discovering versions -/

/-- A server that answers Discover Versions. -/
def versionsHandlers : BitVec 32 → Option (Handler Unit) := fun op =>
  if op = 0x1e then some (.builtIn (.discoverVersions [⟨1, 4⟩, ⟨1, 2⟩])) else none

def versionsState : HandlerState Unit := ⟨[], newDecoder, ()⟩

def versionsServer : StandardProtocolHandler where
  protocolVersion := ⟨1, 4⟩
  messageHandler := (muxOf Message.messageRegistry noTexts versionsHandlers none).messageHandler versionsState
  logTraffic := false

/-- What the registry says about the messages, and about the payloads of Discover Versions. -/
theorem versions_types :
    (getTypeInfo Message.messageRegistry Message.responseMessage).toOption = some ⟨tagResponseMessage,
      [.valueField (Message.fieldInfo "ResponseHeader" 0x42007a Message.responseHeader),
       .valueField (Message.fieldInfo "BatchItem" 0x42000f (.slice [] Message.responseBatchItem))]⟩ ∧
    (getTypeInfo Message.messageRegistry Message.responseHeader).toOption = some ⟨0x42007a,
      [.valueField (Message.fieldInfo "ProtocolVersion" 0x420069 Message.protocolVersion),
       .valueField (Message.fieldInfo "TimeStamp" 0x420092 Message.timeType),
       .valueField (Message.fieldInfo "Nonce" 0x4200c8 (.ptr Message.nonce)),
       .valueField (Message.fieldInfo "AttestationType" 0x4200c7 (.slice [] (Message.enumType "AttestationType"))),
       .valueField (Message.fieldInfoOmitempty "ClientCorrelationValue" 0x420105 Message.stringType),
       .valueField (Message.fieldInfoOmitempty "ServerCorrelationValue" 0x420106 Message.stringType),
       .valueField (Message.fieldInfo "BatchCount" 0x42000d Message.intType)]⟩ ∧
    (getTypeInfo Message.messageRegistry Message.responseBatchItem).toOption = some ⟨tagNone,
      [.valueField (Message.fieldInfoOmitempty "Operation" 0x42005c (Message.enumType "Operation")),
       .valueField (Message.fieldInfoOmitempty "UniqueBatchItemID" 0x420093 Message.bytesType),
       .valueField (Message.fieldInfo "ResultStatus" 0x42007f (Message.enumType "ResultStatus")),
       .valueField (Message.fieldInfoOmitempty "ResultReason" 0x42007e (Message.enumType "ResultReason")),
       .valueField (Message.fieldInfoOmitempty "ResultMessage" 0x42007d Message.stringType),
       .valueField (Message.fieldInfoOmitempty "AsynchronousCorrelationValue" 0x420006 Message.bytesType),
       .valueField (Message.fieldInfoOmitempty "ResponsePayload" 0x42007c .iface),
       .valueField (Message.fieldInfo "MessageExtension" 0x420051 (.ptr Message.messageExtension))]⟩ ∧
    (getTypeInfo Message.messageRegistry Message.protocolVersion).toOption = some ⟨0x420069,
      [.valueField (Message.fieldInfo "ProtocolVersionMajor" 0x42006a Message.intType),
       .valueField (Message.fieldInfo "ProtocolVersionMinor" 0x42006b Message.intType)]⟩ ∧
    (getTypeInfo Message.messageRegistry Message.discoverVersionsResponsePayload).toOption = some ⟨tagNone,
      [.valueField (Message.fieldInfo "ProtocolVersion" 0x420069 (.slice [] Message.protocolVersion))]⟩ ∧
    (getTypeInfo Message.messageRegistry Message.discoverVersionsRequestPayload).toOption = some ⟨tagNone,
      [.valueField (Message.fieldInfo "ProtocolVersion" 0x420069 (.slice [] Message.protocolVersion))]⟩ ∧
    (getTypeInfo Message.messageRegistry Message.requestMessage).toOption = some ⟨tagRequestMessage,
      [.valueField (Message.fieldInfo "RequestHeader" 0x420077 Message.requestHeader),
       .valueField (Message.fieldInfo "BatchItem" 0x42000f (.slice [] Message.requestBatchItem))]⟩ ∧
    (getTypeInfo Message.messageRegistry Message.requestHeader).toOption = some ⟨0x420077,
      [.valueField (Message.fieldInfo "ProtocolVersion" 0x420069 Message.protocolVersion),
       .valueField (Message.fieldInfoOmitempty "MaximumResponseSize" 0x420050 Message.intType),
       .valueField (Message.fieldInfoOmitempty "ClientCorrelationValue" 0x420105 Message.stringType),
       .valueField (Message.fieldInfoOmitempty "ServerCorrelationValue" 0x420106 Message.stringType),
       .valueField (Message.fieldInfoOmitempty "AsynchronousIndicator" 0x420007 Message.boolType),
       .valueField (Message.fieldInfoOmitempty "AttestationCapableIndicator" 0x4200d3 Message.boolType),
       .valueField (Message.fieldInfo "AttestationType" 0x4200c7 (.slice [] (Message.enumType "AttestationType"))),
       .valueField (Message.fieldInfo "Authentication" 0x42000c (.ptr Message.authentication)),
       .valueField (Message.fieldInfoOmitempty "BatchErrorContinuationOption" 0x42000e
         (Message.enumType "BatchErrorContinuationOption")),
       .valueField (Message.fieldInfoOmitempty "BatchOrderOption" 0x420010 Message.boolType),
       .valueField (Message.fieldInfo "TimeStamp" 0x420092 (.ptr Message.timeType)),
       .valueField (Message.fieldInfo "BatchCount" 0x42000d Message.intType)]⟩ ∧
    (getTypeInfo Message.messageRegistry Message.requestBatchItem).toOption = some ⟨tagNone,
      [.valueField (Message.fieldInfo "Operation" 0x42005c (Message.enumType "Operation")),
       .valueField (Message.fieldInfoOmitempty "UniqueBatchItemID" 0x420093 Message.bytesType),
       .valueField (Message.fieldInfo "RequestPayload" 0x420079 .iface),
       .valueField (Message.fieldInfoOmitempty "MessageExtension" 0x420051 (.ptr Message.messageExtension))]⟩ := by
  decide +kernel

theorem versionVals_sendable {fi : FieldInfo} : ∀ {vs : List ProtocolVersion},
    (∀ v ∈ vs, FitsInteger v.protocolVersionMajor ∧ FitsInteger v.protocolVersionMinor) →
    ElemsSendable Message.messageRegistry fi (versionVals vs)
  | [], _ => trivial
  | v :: _, h => by
    obtain ⟨-, -, -, hversion, -⟩ := versions_types
    obtain ⟨hmajor, hminor⟩ := h v (List.mem_cons_self ..)
    exact ⟨trivial, ⟨_, eq_ok_of_toOption hversion, ⟨by decide, rfl, rfl, rfl⟩, ⟨rfl, hmajor⟩,
      ⟨by decide, rfl, rfl, rfl⟩, ⟨rfl, hminor⟩, trivial⟩,
      versionVals_sendable fun u hu => h u (List.mem_cons_of_mem _ hu)⟩

theorem fitsInteger_supported : ∀ v ∈ ([⟨1, 4⟩, ⟨1, 2⟩] : List ProtocolVersion),
    FitsInteger v.protocolVersionMajor ∧ FitsInteger v.protocolVersionMinor := by
  simp only [FitsInteger]
  decide

theorem servicesOf_versions {op : BitVec 32} {s : Service (GoString × Unit)}
    (hs : servicesOf Message.messageRegistry versionsHandlers op = some s) :
    s = discoverVersionsService [⟨1, 4⟩, ⟨1, 2⟩] := by
  rw [servicesOf, versionsHandlers] at hs
  split at hs
  · rename_i b hb
    split at hb
    · cases hb
      cases hs
      rfl
    · cases hb
  · cases hs

theorem deployed_versions :
    Deployed Message.messageRegistry noTexts versionsHandlers versionsState versionsServer := by
  obtain ⟨hmessage, hheader, hitem, hversion, hresponse, -⟩ := versions_types
  refine ⟨⟨eq_ok_of_toOption hmessage, ⟨_, eq_ok_of_toOption hheader⟩, ⟨_, eq_ok_of_toOption hversion⟩,
    ⟨_, eq_ok_of_toOption hitem⟩, fun tag _ => rfl⟩, rfl, by simp only [FitsInteger]; decide,
    by simp only [FitsInteger]; decide, ?_, ?_⟩
  · intro op s hs st p err herr
    obtain rfl := servicesOf_versions hs
    cases herr
  · intro op s hs st p r hr
    obtain rfl := servicesOf_versions hs
    cases hr
    refine ⟨_, eq_ok_of_toOption hresponse, ⟨by decide, rfl, rfl, rfl⟩, versionVals_sendable fun v hv => ?_, trivial⟩
    rw [commonVersions] at hv
    split at hv
    · exact fitsInteger_supported v hv
    · exact fitsInteger_supported v (List.mem_of_mem_filter hv)

/-- A client of version 1.4 that asks which of the versions 1.2 and 1.3 the server supports. -/
def versionsAsk : Ask (servicesOf Message.messageRegistry versionsHandlers) where
  operation := 0x1e
  service := discoverVersionsService [⟨1, 4⟩, ⟨1, 2⟩]
  offered := rfl
  uniqueBatchItemID := some [7]
  payload := .struct (.cons (.slice (versionVals [⟨1, 3⟩, ⟨1, 2⟩])) .nil)
  messageExtension := .ptrNil

def versionsHeader : GoVal Message.requestHeader :=
  .struct (.cons (Message.version 1 4) (.cons (.scalar (0 : BitVec 64)) (.cons (.scalar (lit "a1"))
    (.cons (.scalar []) (.cons (.scalar false) (.cons (.scalar false) (.cons (.slice .nil) (.cons .ptrNil
    (.cons (.scalar (0 : BitVec 32)) (.cons (.scalar false) (.cons .ptrNil
    (.cons (.scalar (1 : BitVec 64)) .nil))))))))))))

theorem sendable_versions : MessageSendable Message.messageRegistry (requestOf versionsHeader [versionsAsk])
    tagRequestMessage := by
  obtain ⟨-, -, -, hversion, -, hpayload, hmessage, hheader, hitem⟩ := versions_types
  have hfits : ∀ i : BitVec 64, i = 0 ∨ i = 1 ∨ i = 4 → FitsInteger i := by
    rintro i (rfl | rfl | rfl) <;> simp only [FitsInteger] <;> decide
  have hver {fi : FieldInfo} : Sendable Message.messageRegistry fi (Message.version 1 4) :=
    ⟨_, eq_ok_of_toOption hversion, ⟨by decide, rfl, rfl, rfl⟩, ⟨rfl, hfits 1 (by simp)⟩,
      ⟨by decide, rfl, rfl, rfl⟩, ⟨rfl, hfits 4 (by simp)⟩, trivial⟩
  have hask {fi : FieldInfo} : Sendable Message.messageRegistry fi versionsAsk.item := by
    refine ⟨_, eq_ok_of_toOption hitem, ⟨by decide, rfl, rfl, rfl⟩, ⟨trivial, trivial⟩, ⟨by decide, rfl, rfl, rfl⟩,
      ⟨trivial, trivial⟩, ⟨by decide, rfl, rfl, rfl⟩, ?_, ⟨by decide, rfl, rfl, rfl⟩, trivial, trivial⟩
    refine ⟨_, eq_ok_of_toOption hpayload, ⟨by decide, rfl, rfl, rfl⟩, versionVals_sendable ?_, trivial⟩
    simp only [FitsInteger]
    decide
  refine ⟨_, eq_ok_of_toOption hmessage, rfl, by decide, ⟨by decide, rfl, rfl, rfl⟩, ?_,
    ⟨by decide, rfl, rfl, rfl⟩, ⟨trivial, hask, trivial⟩, trivial⟩
  exact ⟨_, eq_ok_of_toOption hheader, ⟨by decide, rfl, rfl, rfl⟩, hver, ⟨by decide, rfl, rfl, rfl⟩,
    ⟨rfl, hfits 0 (by simp)⟩, ⟨by decide, rfl, rfl, rfl⟩, ⟨rfl, trivial⟩, ⟨by decide, rfl, rfl, rfl⟩, ⟨rfl, trivial⟩,
    ⟨by decide, rfl, rfl, rfl⟩, ⟨trivial, trivial⟩, ⟨by decide, rfl, rfl, rfl⟩, ⟨trivial, trivial⟩,
    ⟨by decide, rfl, rfl, rfl⟩, trivial, ⟨by decide, rfl, rfl, rfl⟩, trivial, ⟨by decide, rfl, rfl, rfl⟩,
    ⟨trivial, trivial⟩, ⟨by decide, rfl, rfl, rfl⟩, ⟨trivial, trivial⟩, ⟨by decide, rfl, rfl, rfl⟩, trivial,
    ⟨by decide, rfl, rfl, rfl⟩, ⟨rfl, hfits 1 (by simp)⟩, trivial⟩

end KmipGo.Server
