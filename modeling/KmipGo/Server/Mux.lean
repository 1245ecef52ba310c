import KmipGo.Server.Traffic

/-! # The operation multiplexer

`OperationMux` of `requests.go`: the message handler that routes each item of a
request to the handler registered for its operation, converts errors, and
correlates the items of the response with those of the request.

An item handler reads the request and the current item, and does not write to the
message of the request, to which the source gives it a pointer.  What the handlers keep
from one call to the next (their own state, and the ID placeholder of the
request) is the state `σ`.

`batchCount_agrees_iff`: the header of the response counts its items, and the
items answer those of the request one by one, unless `handleRequest` puts an error
response in place of other than one item after it has set the count.
-/

namespace KmipGo.Server

open KmipGo.Lib KmipGo.Ttlv KmipGo.Reg KmipGo.Go KmipGo.Encoder KmipGo.Decoder

/-! ## Items of a request -/

abbrev RequestBatchItem := GoVal Message.requestBatchItem

def sliceElems {n : GoString} {e : GoType} : GoVal (.slice n e) → GoVals e
  | .slice vs => vs

def elemList {e : GoType} : GoVals e → List (GoVal e)
  | .nil => []
  | .cons v vs => v :: elemList vs

def batchItems (m : GoVal Message.requestMessage) : List RequestBatchItem :=
  elemList (sliceElems m.fields.tail.head)

def operation (i : RequestBatchItem) : BitVec 32 := i.fields.head.get

def uniqueBatchItemID (i : RequestBatchItem) : Option Bytes := i.fields.tail.head.get

/-! ## Handlers -/

/-- What the package asks of an error: `GetResultReason`, `merry.UserMessage` and `merry.Message`. -/
structure ItemError where
  resultReason : BitVec 32
  userMessage : GoString
  message : GoString

/-- `HandleItem`, which returns an error or an item, possibly nil. -/
abbrev ItemHandler (σ : Type) :=
  σ → Request → RequestBatchItem → Except ItemError (Option ResponseBatchItem) × σ

/-- `HandleError`, which returns nil for an error it does not convert. -/
abbrev ErrorHandler := ItemError → Option ResponseBatchItem

def resultReasonOperationNotSupported : BitVec 32 := 0x00000005

def newFailedResponseBatchItem (reason : BitVec 32) (msg : GoString) : ResponseBatchItem :=
  { ResponseBatchItem.zero with
      resultStatus := resultStatusOperationFailed
      resultReason := reason
      resultMessage := msg }

def defaultErrorHandler : ErrorHandler := fun err =>
  if err.resultReason = 0 then none
  else some (newFailedResponseBatchItem err.resultReason
    (if err.userMessage = [] then err.message else err.userMessage))

structure OperationMux (σ : Type) where
  /-- `handlerForOp` -/
  handlers : BitVec 32 → Option (ItemHandler σ)
  errorHandler : Option ErrorHandler

namespace OperationMux

variable {σ : Type}

/-- `bi`.  There is no item where it panics, or where it returns a nil one, which `HandleMessage`
    then dereferences. -/
def bi (m : OperationMux σ) (st : σ) (req : Request) (reqItem : RequestBatchItem) :
    Option ResponseBatchItem × σ :=
  match m.handlers (operation reqItem) with
  | none => (some (newFailedResponseBatchItem resultReasonOperationNotSupported []), st)
  | some h =>
    match h st req reqItem with
    | (.ok item, st) => (item, st)
    | (.error err, st) => ((m.errorHandler.getD defaultErrorHandler) err, st)

/-- The item of the response to an item of the request. -/
def correlate (reqItem : RequestBatchItem) (respItem : ResponseBatchItem) : ResponseBatchItem :=
  { respItem with
      operation := operation reqItem
      uniqueBatchItemID := uniqueBatchItemID reqItem }

/-- The loop of `HandleMessage`: the items of the response so far, and the state of the handlers. -/
def handleItems (m : OperationMux σ) (req : Request) :
    List RequestBatchItem → List ResponseBatchItem → σ → Option (List ResponseBatchItem × σ)
  | [], items, st => some (items, st)
  | reqItem :: rest, items, st =>
    match m.bi st req reqItem with
    | (none, _) => none
    | (some respItem, st) => handleItems m req rest (items ++ [correlate reqItem respItem]) st

/-- `HandleMessage`; without a result where it panics. -/
def handleMessage (m : OperationMux σ) (st : σ) (req : Request) (resp : Response) :
    Option (ResponseMessage × σ) :=
  match req.message with
  | none => none
  | some message =>
    (m.handleItems req (batchItems message) resp.message.batchItem st).map fun p =>
      ({ resp.message with batchItem := p.1 }, p.2)

/-- The multiplexer as the message handler of a server, with its handlers in the state `st`. -/
def messageHandler (m : OperationMux σ) (st : σ) : MessageHandler := fun req resp =>
  (m.handleMessage st req resp).map fun p => ⟨[], p.1, req⟩

/-- The handlers return an item or an error, and every error is converted. -/
structure Total (m : OperationMux σ) : Prop where
  item : ∀ op h, m.handlers op = some h → ∀ st req i, (h st req i).1 ≠ .ok none
  error : ∀ err, (m.errorHandler.getD defaultErrorHandler) err ≠ none

/-! ## Correlation -/

/-- The items of a response answer those of a request, one by one. -/
def Correlated : List RequestBatchItem → List ResponseBatchItem → Prop :=
  List.Forall₂ fun reqItem respItem =>
    respItem.operation = operation reqItem ∧ respItem.uniqueBatchItemID = uniqueBatchItemID reqItem

theorem bi_isSome {m : OperationMux σ} (hm : m.Total) (st : σ) (req : Request) (i : RequestBatchItem) :
    ∃ item st', m.bi st req i = (some item, st') := by
  rw [bi]
  cases hh : m.handlers (operation i) with
  | none => exact ⟨_, _, rfl⟩
  | some h =>
    cases hrun : h st req i with
    | mk r st' =>
      cases r with
      | ok item =>
        have hne := hm.item _ h hh st req i
        rw [hrun] at hne
        cases item with
        | none => exact absurd rfl hne
        | some item => exact ⟨item, st', by simp only [hrun]⟩
      | error err =>
        obtain ⟨item, hitem⟩ := Option.ne_none_iff_exists'.mp (hm.error err)
        exact ⟨item, st', by simp only [hrun, hitem]⟩

/-- The loop appends one item for each one of the request. -/
theorem handleItems_correlated {m : OperationMux σ} (hm : m.Total) (req : Request) :
    ∀ (reqItems : List RequestBatchItem) (items : List ResponseBatchItem) (st : σ),
      ∃ more st', m.handleItems req reqItems items st = some (items ++ more, st') ∧
        Correlated reqItems more
  | [], items, st => ⟨[], st, by rw [handleItems, List.append_nil], .nil⟩
  | reqItem :: rest, items, st => by
    obtain ⟨respItem, st', hbi⟩ := bi_isSome hm st req reqItem
    obtain ⟨more, st'', hrest, hcorr⟩ := handleItems_correlated hm req rest
      (items ++ [correlate reqItem respItem]) st'
    refine ⟨correlate reqItem respItem :: more, st'', ?_, .cons ⟨rfl, rfl⟩ hcorr⟩
    rw [handleItems, hbi]
    simp only [hrest, List.append_assoc, List.singleton_append]

theorem handleMessage_isSome {m : OperationMux σ} (hm : m.Total) (st : σ) {req : Request}
    {message : GoVal Message.requestMessage} (hreq : req.message = some message) (resp : Response) :
    ∃ more st', m.handleMessage st req resp =
        some ({ resp.message with batchItem := resp.message.batchItem ++ more }, st') ∧
      Correlated (batchItems message) more := by
  obtain ⟨more, st', hitems, hcorr⟩ := handleItems_correlated hm req (batchItems message)
    resp.message.batchItem st
  refine ⟨more, st', ?_, hcorr⟩
  rw [handleMessage, hreq]
  simp only [hitems, Option.map_some]

end OperationMux

/-! ## The count of items -/

/-- `BatchCount` is the number of items. -/
def CountAgrees (m : ResponseMessage) : Prop :=
  m.responseHeader.batchCount = BitVec.ofNat 64 m.batchItem.length

/-- How a call of `handleRequest` ends. -/
inductive Exit where
  | panics | unparsable | versionMismatch | tooLarge | normal
deriving DecidableEq, Repr

section

variable (reg : Registry)

/-- The exit after the message handler. -/
def concludeExit (req : Request) (reply : Response) : Exit :=
  match (reply.bytes reg).2, req.message with
  | some respTTLV, some message => if tooLarge message respTTLV then .tooLarge else .normal
  | _, _ => .panics

/-- The exit that `handleRequest` takes. -/
def exitOf (h : StandardProtocolHandler) (env : Env) (req : Request) (resp : Response) : Exit :=
  match parseMessage reg req with
  | .panic => .panics
  | .err _ => .unparsable
  | .ok message =>
    if versionMajor (requestVersion (requestHeader message)) ≠ h.protocolVersion.protocolVersionMajor then
      .versionMismatch
    else
      let resp := (resp.start h env).setClientCorrelationValue (clientCorrelationValue (requestHeader message))
      match callHandler reg h (req.accepted h message) resp with
      | none => .panics
      | some called => concludeExit reg called.1 called.2

/-- After the message handler there is no early exit. -/
theorem concludeExit_ne (req : Request) (reply : Response) :
    concludeExit reg req reply ≠ .unparsable ∧ concludeExit reg req reply ≠ .versionMismatch := by
  unfold concludeExit
  split
  · split <;> exact ⟨by decide, by decide⟩
  · exact ⟨by decide, by decide⟩

/-- The message that `conclude` leaves behind, by exit. -/
theorem conclude_message (req : Request) (reply : Response) :
    match concludeExit reg req reply with
    | .normal => ∃ resp, conclude reg req reply = some resp ∧ resp.message = reply.message
    | .tooLarge => ∃ resp, conclude reg req reply = some resp ∧
        resp.message = reply.message.errorResponse resultReasonResponseTooLarge []
    | _ => conclude reg req reply = none := by
  unfold concludeExit conclude
  rw [← Prod.eta (reply.bytes reg)]
  cases hout : (reply.bytes reg).2 with
  | none => rfl
  | some out =>
    cases hm : req.message with
    | none => rfl
    | some message =>
      by_cases hlarge : tooLarge message out = true
      · simp only [hlarge, if_true]
        exact ⟨_, rfl, rfl⟩
      · simp only [hlarge]
        exact ⟨_, rfl, rfl⟩

/-- The reply of a multiplexer counts its items, which answer those of the request. -/
theorem callHandler_mux {σ : Type} {mux : OperationMux σ} (hmux : mux.Total) {st : σ}
    {h : StandardProtocolHandler} (hh : h.messageHandler = mux.messageHandler st) (req : Request)
    (message : GoVal Message.requestMessage) {resp : Response} (hresp : resp.message.batchItem = []) :
    ∃ called, callHandler reg h (req.accepted h message) resp = some called ∧
      CountAgrees called.2.message ∧
      OperationMux.Correlated (batchItems message) called.2.message.batchItem := by
  obtain ⟨more, st', hrun, hcorr⟩ := OperationMux.handleMessage_isSome hmux st
    (show (req.accepted h message).message = some message from rfl) resp
  refine ⟨(req.accepted h message,
    ⟨ResponseMessage.setBatchCount { resp.message with batchItem := resp.message.batchItem ++ more }, resp.enc⟩),
    ?_, rfl, ?_⟩
  · rw [callHandler, hh, OperationMux.messageHandler, hrun]
    rfl
  · show OperationMux.Correlated _ (resp.message.batchItem ++ more)
    rw [hresp]
    exact hcorr

/-- The count in the header is right, and a response of the normal exit answers the items of the
    request one by one. -/
def HeaderAgrees (h : StandardProtocolHandler) (env : Env) (pooled : Option Response) (req : Request) :
    Prop :=
  ∀ resp, handleRequest reg h env req (newResponse pooled) = some resp →
    CountAgrees resp.message ∧
    (exitOf reg h env req (newResponse pooled) = .normal →
      ∀ message, parseMessage reg req = .ok message →
        OperationMux.Correlated (batchItems message) resp.message.batchItem)

/-- An error response of an early exit is not counted: the count has been set before. -/
theorem not_countAgrees_errorResponse (h : StandardProtocolHandler) (env : Env) (pooled : Option Response)
    (reason : BitVec 32) (msg : GoString) (ccv : GoString) :
    ¬ CountAgrees (((newResponse pooled).start h env).errorResponse reason msg).message ∧
    ¬ CountAgrees ((((newResponse pooled).start h env).setClientCorrelationValue ccv).errorResponse
      reason msg).message := by
  have hne : BitVec.ofNat 64 0 ≠ BitVec.ofNat 64 1 := by decide
  cases pooled <;> exact ⟨hne, hne⟩

/-- Header and items of a response agree exactly for the requests that get to the multiplexer and whose
    reply fits, or else has one item. -/
theorem batchCount_agrees_iff {σ : Type} (mux : OperationMux σ) (hmux : mux.Total) (st : σ)
    (h : StandardProtocolHandler) (hh : h.messageHandler = mux.messageHandler st) (env : Env)
    (pooled : Option Response) (req : Request) :
    HeaderAgrees reg h env pooled req ↔
      match exitOf reg h env req (newResponse pooled) with
      | .normal | .panics => True
      | .unparsable | .versionMismatch => False
      | .tooLarge => ∃ message, parseMessage reg req = .ok message ∧
          BitVec.ofNat 64 (batchItems message).length = 1 := by
  have hitems : ∀ ccv, (((newResponse pooled).start h env).setClientCorrelationValue
      ccv).message.batchItem = [] := by
    intro ccv
    cases pooled <;> rfl
  unfold HeaderAgrees handleRequest admission exitOf
  cases hparse : parseMessage reg req with
  | panic => simp
  | err e =>
    simp only [Option.some.injEq, forall_eq', iff_false]
    exact fun hagrees => (not_countAgrees_errorResponse h env pooled _ _ []).1 hagrees.1
  | ok message =>
    dsimp only
    by_cases hv : versionMajor (requestVersion (requestHeader message)) =
        h.protocolVersion.protocolVersionMajor
    · simp only [if_neg (not_not_intro hv), Res.ok.injEq, forall_eq', exists_eq_left']
      obtain ⟨called, hcall, hcount, hcorr⟩ := callHandler_mux reg hmux hh req message
        (hitems (clientCorrelationValue (requestHeader message)))
      have hconclude := conclude_message reg called.1 called.2
      simp only [hcall, Option.bind_some]
      cases hexit : concludeExit reg called.1 called.2 with
      | normal =>
        rw [hexit] at hconclude
        obtain ⟨resp, hresp, hmessage⟩ := hconclude
        simp only [hresp, Option.some.injEq, forall_eq', hmessage, iff_true]
        exact ⟨hcount, fun _ => hcorr⟩
      | tooLarge =>
        rw [hexit] at hconclude
        obtain ⟨resp, hresp, hmessage⟩ := hconclude
        have hlen : called.2.message.batchItem.length = (batchItems message).length :=
          hcorr.length_eq.symm
        simp only [hresp, Option.some.injEq, forall_eq', hmessage, reduceCtorEq, false_implies,
          and_true]
        -- the count is still that of the items that were replaced by one
        show called.2.message.responseHeader.batchCount = BitVec.ofNat 64 1 ↔ _
        rw [show called.2.message.responseHeader.batchCount = _ from hcount, hlen]
        rfl
      | panics =>
        rw [hexit] at hconclude
        simp only [hconclude, reduceCtorEq, false_implies, implies_true]
      | unparsable => exact absurd hexit (concludeExit_ne reg _ _).1
      | versionMismatch => exact absurd hexit (concludeExit_ne reg _ _).2
    · simp only [if_pos hv, Option.some.injEq, forall_eq', iff_false]
      exact fun hagrees => (not_countAgrees_errorResponse h env pooled _ _ _).2 hagrees.1

end

/-! ## A request that is answered and one that is not -/

/-- A multiplexer with a handler for the operation Create, which returns an empty item. -/
def createMux : OperationMux Unit where
  handlers := fun op => if op = 1 then some fun st _ _ => (.ok (some ResponseBatchItem.zero), st) else none
  errorHandler := some fun err => some (newFailedResponseBatchItem err.resultReason err.message)

theorem total_createMux : createMux.Total where
  item op h hop st req i := by
    simp only [createMux] at hop
    split at hop
    · cases hop
      simp
    · cases hop
  error err := by simp [createMux]

def muxHandler : StandardProtocolHandler := ⟨⟨1, 4⟩, createMux.messageHandler (), false⟩

/-- A request to create an object, from a client of version `major`.4. -/
def createRequest (major : BitVec 32) : Request :=
  Request.ofTTLV (item tagRequestMessage .Structure (item 0x420077 .Structure
    (item 0x420069 .Structure (Prim.item 0x42006a (.integer major) ++ Prim.item 0x42006b (.integer 4)) ++
      Prim.item 0x42000d (.integer 1)) ++
    item 0x42000f .Structure
      (Prim.item 0x42005c (.enumeration 1) ++ Prim.item 0x420093 (.byteString (some [7])))))

/-- What is computed on the two requests. -/
theorem createRequest_runs :
    exitOf Message.messageRegistry muxHandler plainEnv (createRequest 1) (newResponse none) = .normal ∧
    (handleRequest Message.messageRegistry muxHandler plainEnv (createRequest 2) (newResponse none)).map
      (fun resp => (resp.message.responseHeader.batchCount, resp.message.batchItem.length)) =
        some (0, 1) := by
  decide +kernel

theorem batchCount_agrees_createRequest :
    HeaderAgrees Message.messageRegistry muxHandler plainEnv none (createRequest 1) := by
  apply (batchCount_agrees_iff Message.messageRegistry createMux total_createMux () muxHandler rfl plainEnv
    none (createRequest 1)).mpr
  rw [createRequest_runs.1]
  trivial

/-- The response to a client of another major version has one item and the count zero. -/
theorem createRequest_miscounted :
    (handleRequest Message.messageRegistry muxHandler plainEnv (createRequest 2) (newResponse none)).map
      (fun resp => (resp.message.responseHeader.batchCount, resp.message.batchItem.length)) =
        some (0, 1) ∧
    ¬ HeaderAgrees Message.messageRegistry muxHandler plainEnv none (createRequest 2) := by
  have hcount := createRequest_runs.2
  refine ⟨hcount, fun hagrees => ?_⟩
  obtain ⟨resp, hresp, hpair⟩ := Option.map_eq_some_iff.mp hcount
  have hsame := (hagrees resp hresp).1
  rw [CountAgrees, (Prod.mk.inj hpair).1, (Prod.mk.inj hpair).2] at hsame
  revert hsame
  decide

end KmipGo.Server
