import KmipGo.Message.Payloads
import KmipGo.Server.Payload

/-! # The built-in item handlers

`CreateHandler`, `GetHandler`, `DestroyHandler`, `RegisterHandler` and
`DiscoverVersionsHandler` of the `op_*.go` files, with the part of
`base_objects.go` they use.  Each decodes the payload of the current item, calls
a function of the application, and wraps its result in a response item.

The functions of the application are parameters: they have a state of their own
and return a response payload or an error.  Create and Register also set the ID
placeholder of the request, Register from the field of its response payload and
Create from an attribute in it.

* `Ends`, `ends_handleItem` — all the ways in which a call of a built-in handler
  may end, with the ID placeholder afterwards.
* `muxOf` — a multiplexer with such handlers, and `Along` — a property of every
  call of a handler while a batch is handled.
-/

namespace KmipGo.Server

open KmipGo.Lib KmipGo.Ttlv KmipGo.Reg KmipGo.Go KmipGo.Encoder KmipGo.Decoder

/-! ## Attributes -/

abbrev Attribute := GoVal Message.attributeType
abbrev TemplateAttribute := GoVal Message.templateAttribute

def attributeName (a : Attribute) : GoString := a.fields.head.get

def attributeValue (a : Attribute) : GoVal .iface := a.fields.tail.tail.head

def attributes (t : TemplateAttribute) : List Attribute := elemList (sliceElems t.fields.tail.head)

/-- The value a pointer points to, if it is not nil. -/
def pointee {e : GoType} : GoVal (.ptr e) → Option (GoVal e)
  | .ptrNil => none
  | .ptr v => some v

/-- `TemplateAttribute.Get`, on a pointer that may be nil. -/
def templateGet (t : GoVal (.ptr Message.templateAttribute)) (s : GoString) : Option Attribute :=
  (pointee t).bind fun t => (attributes t).find? fun a => attributeName a = s

section

variable (reg : Registry)

/-- `TemplateAttribute.GetTag`. -/
def templateGetTag (t : GoVal (.ptr Message.templateAttribute)) (tag : Tag) : Option Attribute :=
  templateGet t (reg.formatTag tag)

def newAttributeFromTag (tag : Tag) (idx : BitVec 64) (val : GoVal .iface) : Attribute :=
  .struct (.cons (.scalar (reg.formatTagCanonical tag)) (.cons (.scalar idx) (.cons val .nil)))

/-- `TemplateAttribute.Append`. -/
def templateAppend (t : TemplateAttribute) (tag : Tag) (value : GoVal .iface) : TemplateAttribute :=
  .struct (.cons t.fields.head
    (.cons (.slice ((sliceElems t.fields.tail.head).append
      (.cons (newAttributeFromTag reg tag 0 value) .nil))) .nil))

end

/-- The attribute list with the given tags and values, built with `Append`. -/
def appendAll (reg : Registry) (entries : List (Tag × GoVal .iface)) : TemplateAttribute :=
  entries.foldl (fun t e => templateAppend reg t e.1 e.2) Message.templateAttribute.zero

/-- `v.(string)`. -/
def asString : {ty : GoType} → GoVal ty → Option GoString
  | _, .iface (t := .scalar (.string n)) (.scalar s) => if n = lit "string" then some s else none
  | _, _ => none

/-! ## Handlers -/

/-- Texts that are not spelled out: of the errors of `DecodePayload`, and of a value under the verb
    `%t`. -/
structure Texts where
  payloadError : PayloadErr → GoString
  verbT : GoVal .iface → GoString

/-- What the handlers of a request keep from one item to the next: the ID placeholder and the decoder
    of the request, and the state of the application. -/
structure HandlerState (κ : Type) where
  idPlaceholder : GoString
  decoder : Dec
  application : κ

/-- How a call of `HandleItem` ends: it returns an item or an error, or it panics. -/
abbrev HandlerResult := Res ItemError ResponseBatchItem

/-- A function of the application, from request payloads to response payloads. -/
abbrev Callback (κ : Type) (request response : GoType) :=
  κ → GoVal request → Except ItemError (GoVal response) × κ

def tagUniqueIdentifier : Tag := 0x420094
def tagObjectType : Tag := 0x420057
def resultReasonInvalidField : BitVec 32 := 0x00000007

/-- `WithResultReason(merry.UserError(msg), reason)`. -/
def userError (reason : BitVec 32) (msg : GoString) : ItemError := ⟨reason, msg, msg⟩

/-- An error without a result reason. -/
def plainError (msg : GoString) : ItemError := ⟨0, [], msg⟩

/-- `&ResponseBatchItem{ResponsePayload: respPayload}`. -/
def payloadItem (respPayload : GoVal .iface) : ResponseBatchItem :=
  { ResponseBatchItem.zero with responsePayload := respPayload }

-- fields of the payloads

def createdIdentifier (p : GoVal Message.createResponsePayload) : GoString :=
  p.fields.tail.head.get

def createdAttributes (p : GoVal Message.createResponsePayload) :
    GoVal (.ptr Message.templateAttribute) :=
  p.fields.tail.tail.head

def registeredIdentifier (p : GoVal Message.registerResponsePayload) : GoString :=
  p.fields.head.get

def registerObjectType (p : GoVal Message.registerRequestPayload) : BitVec 32 :=
  p.fields.head.get

/-- The switch of `RegisterHandler` on the object type: whether the object of that type is there. -/
def objectPresent (p : GoVal Message.registerRequestPayload) : Option Bool :=
  let objects := p.fields.tail.tail
  let present {e : GoType} (v : GoVal (.ptr e)) : Bool := (pointee v).isSome
  match (registerObjectType p).toNat with
  | 1 => some (present objects.head)
  | 2 => some (present objects.tail.head)
  | 4 => some (present objects.tail.tail.head)
  | 3 => some (present objects.tail.tail.tail.head)
  | 5 => some (present objects.tail.tail.tail.tail.head)
  | 6 => some (present objects.tail.tail.tail.tail.tail.head)
  | 7 => some (present objects.tail.tail.tail.tail.tail.tail.head)
  | 8 => some (present objects.tail.tail.tail.tail.tail.tail.tail.head)
  | _ => none

section

variable (reg : Registry) (texts : Texts)

/-- The validation of `RegisterHandler`. -/
def validateRegister (p : GoVal Message.registerRequestPayload) : Option ItemError :=
  match objectPresent p with
  | none => some (userError resultReasonInvalidField (lit "Object Type is not recognized"))
  | some true => none
  | some false => some (userError resultReasonInvalidField
      (lit "Object Type " ++ reg.formatEnum tagObjectType (registerObjectType p) ++
        lit " does not match type of cryptographic object provided"))

/-- The payload of an item, decoded into a zero value of type `ty`. -/
def payloadOf (ty : GoType) (i : RequestBatchItem) : GoVal ty × Res PayloadErr Unit :=
  ((⟨Request.ofTTLV [], some i, newDecoder⟩ : ItemRequest).decodePayload reg ty.zero).2

variable {κ : Type}

/-- `var payload T; err := req.DecodePayload(&payload)`, and what follows if there is no error.
    `describe` makes the text of the error that is returned. -/
def withPayload (ty : GoType) (describe : GoString → GoString) (st : HandlerState κ) (req : Request)
    (i : RequestBatchItem) (k : GoVal ty → HandlerState κ → HandlerResult × HandlerState κ) :
    HandlerResult × HandlerState κ :=
  match (⟨req, some i, st.decoder⟩ : ItemRequest).decodePayload reg ty.zero with
  | (r, payload, .ok ()) => k payload { st with decoder := r.decoder }
  | (r, _, .err e) =>
    (.err (plainError (describe (texts.payloadError e))), { st with decoder := r.decoder })
  | (r, _, .panic) => (.panic, { st with decoder := r.decoder })

/-- Calls a function of the application, and goes on with its response payload. -/
def withResponse {request response : GoType} (f : Callback κ request response) (payload : GoVal request)
    (st : HandlerState κ) (k : GoVal response → HandlerState κ → HandlerResult × HandlerState κ) :
    HandlerResult × HandlerState κ :=
  match f st.application payload with
  | (.ok respPayload, app) => k respPayload { st with application := app }
  | (.error err, app) => (.err err, { st with application := app })

/-- The error of `CreateHandler` about an attribute that is no string. -/
def mistypedError (idAttr : Attribute) : ItemError :=
  plainError (lit "invalid response returned by CreateHandler: unique identifier tag in attributes should have been a string, was " ++
    texts.verbT (attributeValue idAttr))

def createHandler (create : Callback κ Message.createRequestPayload Message.createResponsePayload)
    (st : HandlerState κ) (req : Request) (i : RequestBatchItem) : HandlerResult × HandlerState κ :=
  withPayload reg texts Message.createRequestPayload id st req i fun payload st =>
    withResponse create payload st fun respPayload st =>
      match templateGetTag reg (createdAttributes respPayload) tagUniqueIdentifier with
      -- `idAttr` is nil, and its field is read
      | none => (.panic, st)
      | some idAttr =>
        match asString (attributeValue idAttr) with
        | some id => (.ok (payloadItem (.iface (.ptr respPayload))), { st with idPlaceholder := id })
        -- the assertion has set the placeholder to the zero value
        | none => (.err (mistypedError texts idAttr), { st with idPlaceholder := [] })

/-- `GetHandler` and `DestroyHandler`: the response payload is passed on as it is. -/
def forwardHandler (request response : GoType) (f : Callback κ request response) (st : HandlerState κ)
    (req : Request) (i : RequestBatchItem) : HandlerResult × HandlerState κ :=
  withPayload reg texts request id st req i fun payload st =>
    withResponse f payload st fun respPayload st => (.ok (payloadItem (.iface (.ptr respPayload))), st)

def getHandler (get : Callback κ Message.getRequestPayload Message.getResponsePayload) :=
  forwardHandler reg texts Message.getRequestPayload Message.getResponsePayload get

def destroyHandler (destroy : Callback κ Message.destroyRequestPayload Message.destroyResponsePayload) :=
  forwardHandler reg texts Message.destroyRequestPayload Message.destroyResponsePayload destroy

def registerHandler (skipValidation : Bool)
    (registerFunc : Callback κ Message.registerRequestPayload Message.registerResponsePayload)
    (st : HandlerState κ) (req : Request) (i : RequestBatchItem) : HandlerResult × HandlerState κ :=
  withPayload reg texts Message.registerRequestPayload (lit "decoding request: " ++ ·) st req i
    fun payload st =>
      match (if skipValidation then none else validateRegister reg payload) with
      | some err => (.err err, st)
      | none =>
        withResponse registerFunc payload st fun respPayload st =>
          (.ok (payloadItem (.iface (.ptr respPayload))),
            { st with idPlaceholder := registeredIdentifier respPayload })

def versionOf (v : GoVal Message.protocolVersion) : ProtocolVersion := ⟨versionMajor v, versionMinor v⟩

def versionVals : List ProtocolVersion → GoVals Message.protocolVersion
  | [] => .nil
  | v :: vs => .cons v.toVal (versionVals vs)

/-- The versions in the response: all that are supported, or those the client has named. -/
def commonVersions (supported client : List ProtocolVersion) : List ProtocolVersion :=
  if client.length = 0 then supported else supported.filter fun v => client.contains v

def discoverVersionsHandler (supportedVersions : List ProtocolVersion) (st : HandlerState κ) (req : Request)
    (i : RequestBatchItem) : HandlerResult × HandlerState κ :=
  withPayload reg texts Message.discoverVersionsRequestPayload id st req i fun payload st =>
    let client := (elemList (sliceElems payload.fields.head)).map versionOf
    (.ok (payloadItem (.iface (.struct (.cons (.slice (versionVals (commonVersions supportedVersions client)))
      .nil) : GoVal Message.discoverVersionsResponsePayload))), st)

/-! ## The handlers of a multiplexer -/

variable (κ) in
inductive BuiltIn where
  | create (create : Callback κ Message.createRequestPayload Message.createResponsePayload)
  | get (get : Callback κ Message.getRequestPayload Message.getResponsePayload)
  | destroy (destroy : Callback κ Message.destroyRequestPayload Message.destroyResponsePayload)
  | register (skipValidation : Bool)
      (registerFunc : Callback κ Message.registerRequestPayload Message.registerResponsePayload)
  | discoverVersions (supportedVersions : List ProtocolVersion)

/-- The type that the handler decodes payloads into. -/
def BuiltIn.payloadType : BuiltIn κ → GoType
  | .create _ => Message.createRequestPayload
  | .get _ => Message.getRequestPayload
  | .destroy _ => Message.destroyRequestPayload
  | .register _ _ => Message.registerRequestPayload
  | .discoverVersions _ => Message.discoverVersionsRequestPayload

def BuiltIn.handleItem : BuiltIn κ → HandlerState κ → Request → RequestBatchItem →
    HandlerResult × HandlerState κ
  | .create f => createHandler reg texts f
  | .get f => getHandler reg texts f
  | .destroy f => destroyHandler reg texts f
  | .register skipValidation f => registerHandler reg texts skipValidation f
  | .discoverVersions supportedVersions => discoverVersionsHandler reg texts supportedVersions

variable (κ) in
/-- A handler of a multiplexer.  Of a handler that is not one of the above, such as those of package
    `kmip20`, it matters how it ends and whether it sets the ID placeholder. -/
inductive Handler where
  | builtIn (b : BuiltIn κ)
  | other (run : κ → Request → RequestBatchItem → HandlerResult × Option GoString × κ)

def Handler.handleItem : Handler κ → HandlerState κ → Request → RequestBatchItem →
    HandlerResult × HandlerState κ
  | .builtIn b, st, req, i => b.handleItem reg texts st req i
  | .other run, st, req, i =>
    match run st.application req i with
    | (r, id, app) => (r, { st with idPlaceholder := id.getD st.idPlaceholder, application := app })

/-- The handler as the multiplexer calls it: a panic ends `HandleMessage` just as a nil item does. -/
def Handler.itemHandler (h : Handler κ) : ItemHandler (HandlerState κ) := fun st req i =>
  match h.handleItem reg texts st req i with
  | (.ok item, st) => (.ok (some item), st)
  | (.err err, st) => (.error err, st)
  | (.panic, st) => (.ok none, st)

def muxOf (handlers : BitVec 32 → Option (Handler κ)) (errorHandler : Option ErrorHandler) :
    OperationMux (HandlerState κ) :=
  ⟨fun op => (handlers op).map fun h => h.itemHandler reg texts, errorHandler⟩

/-! ## How the handlers end -/

theorem decodePayload_result (r : ItemRequest) {i : RequestBatchItem} (hi : r.currentItem = some i)
    (ty : GoType) : (r.decodePayload reg ty.zero).2 = payloadOf reg ty i := by
  -- the decoder of the request is replaced by a new one
  simp only [payloadOf, ItemRequest.decodePayload, hi]
  cases coerceToTTLV reg (requestPayload i) with
  | error e => rfl
  | ok t =>
    simp only [ItemRequest.unmarshal]
    split <;> rfl

/-- The payload cannot be decoded, and the handler passes that on. -/
def Rejected (ty : GoType) (i : RequestBatchItem) (r : HandlerResult) : Prop :=
  (∃ e msg, (payloadOf reg ty i).2 = .err e ∧ r = .err (plainError msg)) ∨
    ((payloadOf reg ty i).2 = .panic ∧ r = .panic)

theorem Rejected.not_ok {ty : GoType} {i : RequestBatchItem} {r : HandlerResult} (h : Rejected reg ty i r) :
    (payloadOf reg ty i).2 ≠ .ok () := by
  intro hok
  obtain ⟨e, msg, herr, -⟩ | ⟨hpanic, -⟩ := h
  · cases hok.symm.trans herr
  · cases hok.symm.trans hpanic

/-- What `withPayload` makes of its continuation `k`, apart from the decoder. -/
theorem withPayload_cases (ty : GoType) (describe : GoString → GoString) (st : HandlerState κ)
    (req : Request) (i : RequestBatchItem)
    (k : GoVal ty → HandlerState κ → HandlerResult × HandlerState κ) :
    ∃ dec, ((payloadOf reg ty i).2 = .ok () ∧
        withPayload reg texts ty describe st req i k = k (payloadOf reg ty i).1 { st with decoder := dec }) ∨
      Rejected reg ty i (withPayload reg texts ty describe st req i k).1 ∧
        (withPayload reg texts ty describe st req i k).2 = { st with decoder := dec } := by
  have hresult := decodePayload_result reg (r := ⟨req, some i, st.decoder⟩) rfl ty
  rw [withPayload]
  cases hdecode : (⟨req, some i, st.decoder⟩ : ItemRequest).decodePayload reg ty.zero with
  | mk r out =>
    obtain ⟨payload, outcome⟩ := out
    rw [hdecode] at hresult
    refine ⟨r.decoder, ?_⟩
    rw [Rejected, ← hresult]
    cases outcome with
    | ok u => exact Or.inl ⟨rfl, rfl⟩
    | err e => exact Or.inr ⟨Or.inl ⟨e, _, rfl, rfl⟩, rfl⟩
    | panic => exact Or.inr ⟨Or.inr ⟨rfl, rfl⟩, rfl⟩

/-- When the payload is decoded, what holds of the continuation holds of the handler. -/
theorem withPayload_of_ok {ty : GoType} {i : RequestBatchItem} (hok : (payloadOf reg ty i).2 = .ok ())
    {describe : GoString → GoString} {st : HandlerState κ} {req : Request}
    {k : GoVal ty → HandlerState κ → HandlerResult × HandlerState κ} {P : HandlerResult × HandlerState κ → Prop}
    (hk : ∀ dec, P (k (payloadOf reg ty i).1 { st with decoder := dec })) :
    P (withPayload reg texts ty describe st req i k) := by
  obtain ⟨dec, ⟨-, hrun⟩ | ⟨hrejected, -⟩⟩ := withPayload_cases reg texts ty describe st req i k
  · rw [hrun]
    exact hk dec
  · exact absurd hok (Rejected.not_ok reg hrejected)

/-- The function of the application returns the error. -/
def BuiltIn.CallbackFails (st : HandlerState κ) (i : RequestBatchItem) (err : ItemError) : BuiltIn κ → Prop
  | .create f => ∃ app, f st.application (payloadOf reg _ i).1 = (.error err, app)
  | .get f => ∃ app, f st.application (payloadOf reg _ i).1 = (.error err, app)
  | .destroy f => ∃ app, f st.application (payloadOf reg _ i).1 = (.error err, app)
  | .register _ f => ∃ app, f st.application (payloadOf reg _ i).1 = (.error err, app)
  | .discoverVersions _ => False

/-- The handlers that leave the ID placeholder alone. -/
def BuiltIn.Forwards : BuiltIn κ → Prop
  | .get _ | .destroy _ | .discoverVersions _ => True
  | _ => False

/-- The ways a built-in handler may end: what it returns, and the ID placeholder afterwards. -/
inductive Ends (st : HandlerState κ) (i : RequestBatchItem) : BuiltIn κ → HandlerResult → GoString → Prop
  | rejected {b : BuiltIn κ} {r : HandlerResult} (h : Rejected reg b.payloadType i r) :
      Ends st i b r st.idPlaceholder
  | failed {b : BuiltIn κ} {err : ItemError} (hok : (payloadOf reg b.payloadType i).2 = .ok ())
      (h : b.CallbackFails reg st i err) : Ends st i b (.err err) st.idPlaceholder
  | forwarded {b : BuiltIn κ} (hok : (payloadOf reg b.payloadType i).2 = .ok ()) (hb : b.Forwards)
      (item : ResponseBatchItem) : Ends st i b (.ok item) st.idPlaceholder
  | invalid {skip : Bool} {f} (hok : (payloadOf reg Message.registerRequestPayload i).2 = .ok ())
      (msg : GoString) :
      Ends st i (.register skip f) (.err (userError resultReasonInvalidField msg)) st.idPlaceholder
  | registered {skip : Bool} {f} (hok : (payloadOf reg Message.registerRequestPayload i).2 = .ok ())
      (resp : GoVal Message.registerResponsePayload) :
      Ends st i (.register skip f) (.ok (payloadItem (.iface (.ptr resp)))) (registeredIdentifier resp)
  | created {f} (hok : (payloadOf reg Message.createRequestPayload i).2 = .ok ())
      {resp : GoVal Message.createResponsePayload} {app : κ}
      (hf : f st.application (payloadOf reg Message.createRequestPayload i).1 = (.ok resp, app))
      {idAttr : Attribute} (ha : templateGetTag reg (createdAttributes resp) tagUniqueIdentifier = some idAttr)
      {id : GoString} (hid : asString (attributeValue idAttr) = some id) :
      Ends st i (.create f) (.ok (payloadItem (.iface (.ptr resp)))) id
  | mistyped {f} (hok : (payloadOf reg Message.createRequestPayload i).2 = .ok ())
      {resp : GoVal Message.createResponsePayload} {app : κ}
      (hf : f st.application (payloadOf reg Message.createRequestPayload i).1 = (.ok resp, app))
      {idAttr : Attribute} (ha : templateGetTag reg (createdAttributes resp) tagUniqueIdentifier = some idAttr)
      (hid : asString (attributeValue idAttr) = none) : Ends st i (.create f) (.err (mistypedError texts idAttr)) []
  | unnamed {f} (hok : (payloadOf reg Message.createRequestPayload i).2 = .ok ())
      {resp : GoVal Message.createResponsePayload} {app : κ}
      (hf : f st.application (payloadOf reg Message.createRequestPayload i).1 = (.ok resp, app))
      (ha : templateGetTag reg (createdAttributes resp) tagUniqueIdentifier = none) :
      Ends st i (.create f) .panic st.idPlaceholder

/-- Up to the payload all handlers are alike. -/
theorem ends_withPayload {b : BuiltIn κ} (ty : GoType) (hty : b.payloadType = ty)
    (describe : GoString → GoString) (st : HandlerState κ) (req : Request) (i : RequestBatchItem)
    {k : GoVal ty → HandlerState κ → HandlerResult × HandlerState κ}
    (hk : ∀ dec, (payloadOf reg ty i).2 = .ok () →
      Ends reg texts st i b (k (payloadOf reg ty i).1 { st with decoder := dec }).1
        (k (payloadOf reg ty i).1 { st with decoder := dec }).2.idPlaceholder) :
    Ends reg texts st i b (withPayload reg texts ty describe st req i k).1
      (withPayload reg texts ty describe st req i k).2.idPlaceholder := by
  obtain ⟨dec, ⟨hok, hrun⟩ | ⟨hrejected, hst⟩⟩ := withPayload_cases reg texts ty describe st req i k
  · rw [hrun]
    exact hk dec hok
  · rw [hst]
    exact .rejected (by rw [hty]; exact hrejected)

/-- So are they when the application returns an error. -/
theorem ends_withResponse {b : BuiltIn κ} {request response : GoType} {f : Callback κ request response}
    {payload : GoVal request} {st : HandlerState κ} {i : RequestBatchItem} {dec : Dec}
    {k : GoVal response → HandlerState κ → HandlerResult × HandlerState κ}
    (hfails : ∀ err app, f st.application payload = (.error err, app) →
      Ends reg texts st i b (.err err) st.idPlaceholder)
    (hk : ∀ resp app, f st.application payload = (.ok resp, app) →
      Ends reg texts st i b (k resp ⟨st.idPlaceholder, dec, app⟩).1
        (k resp ⟨st.idPlaceholder, dec, app⟩).2.idPlaceholder) :
    Ends reg texts st i b (withResponse f payload { st with decoder := dec } k).1
      (withResponse f payload { st with decoder := dec } k).2.idPlaceholder := by
  rw [withResponse]
  cases hf : f st.application payload with
  | mk r app =>
    cases r with
    | error err => exact hfails err app hf
    | ok resp => exact hk resp app hf

theorem validateRegister_reason {p : GoVal Message.registerRequestPayload} {err : ItemError}
    (h : validateRegister reg p = some err) : ∃ msg, err = userError resultReasonInvalidField msg := by
  rw [validateRegister] at h
  split at h
  · cases h
    exact ⟨_, rfl⟩
  · cases h
  · cases h
    exact ⟨_, rfl⟩

/-- How the built-in handlers end. -/
theorem ends_handleItem (b : BuiltIn κ) (st : HandlerState κ) (req : Request) (i : RequestBatchItem) :
    Ends reg texts st i b (b.handleItem reg texts st req i).1 (b.handleItem reg texts st req i).2.idPlaceholder := by
  cases b with
  | create f =>
    refine ends_withPayload reg texts Message.createRequestPayload rfl id st req i fun dec hok => ?_
    refine ends_withResponse reg texts (fun err app hf => .failed hok ⟨app, hf⟩) fun resp app hf => ?_
    cases ha : templateGetTag reg (createdAttributes resp) tagUniqueIdentifier with
    | none => exact .unnamed hok hf ha
    | some idAttr =>
      cases hid : asString (attributeValue idAttr) with
      | none =>
        simp only [hid]
        exact .mistyped hok hf ha hid
      | some id =>
        simp only [hid]
        exact .created hok hf ha hid
  | get f =>
    refine ends_withPayload reg texts Message.getRequestPayload rfl id st req i fun dec hok => ?_
    exact ends_withResponse reg texts (fun err app hf => .failed hok ⟨app, hf⟩) fun resp app hf =>
      .forwarded (b := .get f) hok trivial _
  | destroy f =>
    refine ends_withPayload reg texts Message.destroyRequestPayload rfl id st req i fun dec hok => ?_
    exact ends_withResponse reg texts (fun err app hf => .failed hok ⟨app, hf⟩) fun resp app hf =>
      .forwarded (b := .destroy f) hok trivial _
  | register skip f =>
    refine ends_withPayload reg texts Message.registerRequestPayload rfl _ st req i fun dec hok => ?_
    cases hvalid : (if skip then none else
        validateRegister reg (payloadOf reg Message.registerRequestPayload i).1) with
    | some err =>
      obtain ⟨msg, rfl⟩ : ∃ msg, err = userError resultReasonInvalidField msg := by
        cases skip with
        | true => cases hvalid
        | false => exact validateRegister_reason reg hvalid
      exact .invalid hok msg
    | none =>
      exact ends_withResponse reg texts (fun err app hf => .failed hok ⟨app, hf⟩) fun resp app hf =>
        .registered hok resp
  | discoverVersions supported =>
    exact ends_withPayload reg texts Message.discoverVersionsRequestPayload rfl id st req i fun dec hok =>
      .forwarded (b := .discoverVersions supported) hok trivial _

/-! ## Along a batch -/

section

variable (handlers : BitVec 32 → Option (Handler κ)) (errorHandler : Option ErrorHandler) (req : Request)

/-- `P` holds whenever a handler is called while the items are handled in order, in the state in which
    it is called. -/
def Along (P : HandlerState κ → Handler κ → RequestBatchItem → Prop) :
    List RequestBatchItem → HandlerState κ → Prop
  | [], _ => True
  | i :: rest, st =>
    (∀ h, handlers (operation i) = some h → P st h i) ∧
      ∀ item st', (muxOf reg texts handlers errorHandler).bi st req i = (some item, st') →
        Along P rest st'

/-- What `bi` makes of the end of a handler.  It panics on an error that is not converted. -/
def itemOf : HandlerResult → Option ResponseBatchItem
  | .ok item => some item
  | .err err => (errorHandler.getD defaultErrorHandler) err
  | .panic => none

/-- What the multiplexer does with an item. -/
theorem bi_muxOf (st : HandlerState κ) (i : RequestBatchItem) :
    (handlers (operation i) = none ∧ (muxOf reg texts handlers errorHandler).bi st req i =
      (some (newFailedResponseBatchItem resultReasonOperationNotSupported []), st)) ∨
    ∃ h, handlers (operation i) = some h ∧ (muxOf reg texts handlers errorHandler).bi st req i =
      (itemOf errorHandler (h.handleItem reg texts st req i).1, (h.handleItem reg texts st req i).2) := by
  cases hh : handlers (operation i) with
  | none =>
    refine Or.inl ⟨rfl, ?_⟩
    simp only [OperationMux.bi, muxOf, hh, Option.map_none]
  | some h =>
    refine Or.inr ⟨h, rfl, ?_⟩
    simp only [OperationMux.bi, muxOf, hh, Option.map_some, Handler.itemHandler]
    cases h.handleItem reg texts st req i with
    | mk r st' => cases r <;> rfl

end

end

/-! ## Items and a registry for the examples -/

def noTexts : Texts := ⟨fun _ => [], fun _ => []⟩

/-- The tags of the payloads of Create and Get, with their canonical names. -/
def handlerRegistry : Registry :=
  Message.registerTags Registry.empty
    [(0x420008, "Attribute"), (0x420009, "Attribute Index"), (0x42000a, "Attribute Name"),
     (0x42000b, "Attribute Value"), (0x420053, "Name"), (0x420054, "Name Type"), (0x420055, "Name Value"),
     (0x420057, "Object Type"), (0x420079, "Request Payload"), (0x420091, "Template Attribute"),
     (0x420094, "Unique Identifier")]

def batchItem (op : BitVec 32) (payload : TTLV) : RequestBatchItem :=
  .struct (.cons (.scalar op) (.cons (.scalar none)
    (.cons (.iface (.scalar (s := .ttlv) payload)) (.cons .ptrNil .nil))))

end KmipGo.Server
