import KmipGo.Decoder.Decode
import KmipGo.Encoder.Interrupt
import KmipGo.Server.Response

/-! # The standard protocol handler

`StandardProtocolHandler` of `requests.go`: it decodes a request, checks the
protocol version, lets a message handler fill in the response, checks the size
of the response, and writes it.

The message handler is a parameter.  It sees the request and the response, may
call `Bytes` on the response while it works on it (to find out its size), may
recover if that panics, may change the request, and may panic itself.  The time
stamp, the correlation value and the texts of parse errors are parameters as well;
what goes to the log is left out.
-/

namespace KmipGo.Server

open KmipGo.Lib KmipGo.Ttlv KmipGo.Reg KmipGo.Go KmipGo.Encoder KmipGo.Decoder

/-! ## Requests -/

structure Request where
  ttlv : TTLV
  message : Option (GoVal Message.requestMessage)
  disallowExtraValues : Bool

/-- A request as it is read off a connection. -/
def Request.ofTTLV (t : TTLV) : Request := ⟨t, none, false⟩

-- the fields of a request message that are read here

def requestHeader (m : GoVal Message.requestMessage) : GoVal Message.requestHeader :=
  m.fields.head

def requestVersion (h : GoVal Message.requestHeader) : GoVal Message.protocolVersion :=
  h.fields.head

def versionMajor (v : GoVal Message.protocolVersion) : BitVec 64 :=
  v.fields.head.get

def versionMinor (v : GoVal Message.protocolVersion) : BitVec 64 :=
  v.fields.tail.head.get

def maximumResponseSize (h : GoVal Message.requestHeader) : BitVec 64 :=
  h.fields.tail.head.get

def clientCorrelationValue (h : GoVal Message.requestHeader) : GoString :=
  h.fields.tail.tail.head.get

/-- The errors of `parseMessage`. -/
inductive ParseMessageErr where
  | invalidTTLV (e : ValidError)
  | invalidTag (tag : Tag)
  | failedToParse (e : DecErr)

def tagRequestMessage : Tag := 0x420078

section

variable (reg : Registry)

/-- `parseMessage`: the request with its message decoded. -/
def parseMessage (req : Request) : Res ParseMessageErr (GoVal Message.requestMessage) :=
  match req.ttlv.valid with
  | .panic => .panic
  | .err e => .err (.invalidTTLV e)
  | .ok () =>
    if req.ttlv.tag ≠ tagRequestMessage then .err (.invalidTag req.ttlv.tag)
    else
      match unmarshalBytes reg Message.requestMessage req.ttlv with
      | (message, .ok ()) => .ok message
      | (_, .err e) => .err (.failedToParse e)
      | (_, .panic) => .panic

/-! ## The handler -/

/-- A call of `Bytes` by a handler, on the message as the handler has left it. -/
inductive Sizing where
  /-- it returns, or panics with an error of the encoder, from which the handler recovers -/
  | bytes (message : ResponseMessage)
  /-- a user's `MarshalTTLV` panics in it, where the model lets it return an error, and the handler
      recovers -/
  | interrupted (message : ResponseMessage)

/-- What a call of `HandleMessage` did: its calls of `Bytes`, the message it left in the response, and
    the request as it left it. -/
structure Handled where
  sizings : List Sizing
  message : ResponseMessage
  request : Request

/-- Without a result where `HandleMessage` panics. -/
abbrev MessageHandler := Request → Response → Option Handled

structure StandardProtocolHandler where
  protocolVersion : ProtocolVersion
  messageHandler : MessageHandler
  logTraffic : Bool

/-- What the environment supplies to one request. -/
structure Env where
  /-- `time.Now()` -/
  now : Time
  /-- `uuid.New().String()` -/
  scv : GoString
  /-- `err.Error()` -/
  errorText : ParseMessageErr → GoString

def mismatchText (client server : BitVec 64) : GoString :=
  lit "mismatched protocol versions, client: " ++ intDec client.toInt ++ lit ", server: " ++
    intDec server.toInt

/-- The response when the request has been read: the fields of the header that do not depend on it. -/
def Response.start (h : StandardProtocolHandler) (env : Env) (resp : Response) : Response :=
  { resp with message :=
      { resp.message with responseHeader :=
          { resp.message.responseHeader with
              protocolVersion := h.protocolVersion
              timeStamp := env.now
              batchCount := BitVec.ofNat 64 resp.message.batchItem.length
              serverCorrelationValue := env.scv } } }

def Response.setClientCorrelationValue (resp : Response) (ccv : GoString) : Response :=
  { resp with message :=
      { resp.message with responseHeader :=
          { resp.message.responseHeader with clientCorrelationValue := ccv } } }

/-- The request with its decoded message.  Extra values are refused between equal minor versions. -/
def Request.accepted (req : Request) (h : StandardProtocolHandler)
    (message : GoVal Message.requestMessage) : Request :=
  { req with
      message := some message
      disallowExtraValues :=
        versionMinor (requestVersion (requestHeader message)) ==
          h.protocolVersion.protocolVersionMinor }

/-- `handleRequest` up to the message handler: the request and the response it is called with, or
    the error response of an early exit. -/
def admission (h : StandardProtocolHandler) (env : Env) (req : Request) (resp : Response) :
    Res Response (Request × Response) :=
  match parseMessage reg req with
  | .panic => .panic
  | .err e =>
    .err ((resp.start h env).errorResponse resultReasonInvalidMessage (env.errorText e))
  | .ok message =>
    let header := requestHeader message
    let resp := (resp.start h env).setClientCorrelationValue (clientCorrelationValue header)
    let clientMajorVersion := versionMajor (requestVersion header)
    if clientMajorVersion ≠ h.protocolVersion.protocolVersionMajor then
      .err (resp.errorResponse resultReasonInvalidMessage
        (mismatchText clientMajorVersion h.protocolVersion.protocolVersionMajor))
    else .ok (req.accepted h message, resp)

/-- What a call of `Bytes` by a handler leaves of the response. -/
def Response.sizing (resp : Response) : Sizing → Response
  | .bytes message => (Response.bytes reg { resp with message := message }).1
  | .interrupted message =>
    match encodeValue reg tagNone (.ptr message.toVal) { resp.enc with w := [] } with
    | (_, some (.user _)) =>
      ⟨message, encodeValueInterrupted reg tagNone (.ptr message.toVal) { resp.enc with w := [] }⟩
    -- no `MarshalTTLV` of a user is in the way
    | (enc, _) => ⟨message, enc⟩

/-- The call of the message handler, and `resp.ResponseHeader.BatchCount = len(resp.BatchItem)`;
    `none` if it panics. -/
def callHandler (h : StandardProtocolHandler) (req : Request) (resp : Response) :
    Option (Request × Response) :=
  (h.messageHandler req resp).map fun out =>
    (out.request,
      { out.sizings.foldl (Response.sizing reg) resp with message := out.message.setBatchCount })

/-- `MaximumResponseSize` is set, and `len(respTTLV)` is greater. -/
def tooLarge (message : GoVal Message.requestMessage) (respTTLV : Bytes) : Bool :=
  let maximum := (maximumResponseSize (requestHeader message)).toInt
  decide (0 < maximum ∧ maximum < respTTLV.length)

/-- `handleRequest` after the message handler; `none` if it panics. -/
def conclude (req : Request) (resp : Response) : Option Response :=
  match resp.bytes reg with
  | (_, none) => none
  | (resp, some respTTLV) =>
    match req.message with
    -- a handler that removes the message
    | none => none
    | some message =>
      if tooLarge message respTTLV then some (resp.errorResponse resultReasonResponseTooLarge [])
      else some resp

def handleRequest (h : StandardProtocolHandler) (env : Env) (req : Request) (resp : Response) :
    Option Response :=
  match admission reg h env req resp with
  | .panic => none
  | .err resp => some resp
  | .ok (req, resp) => (callHandler reg h req resp).bind fun p => conclude reg p.1 p.2

/-- The two ways to write a response: encode it, or drain its buffer. -/
def writeOut (logTraffic : Bool) (resp : Response) : Option (Bytes × Response) :=
  if logTraffic then
    match resp.bytes reg with
    | (_, none) => none
    | (resp, some respTTLV) => some (respTTLV, resp)
  else some (resp.enc.w, { resp with enc := { resp.enc with w := [] } })

/-- `ServeKMIP`, with the response the pool returned: the bytes written to the client and the
    response that goes back to the pool, or `none` if it panics. -/
def serveKMIP (h : StandardProtocolHandler) (env : Env) (pooled : Option Response) (req : Request) :
    Option (Bytes × Response) :=
  match handleRequest reg h env req (newResponse pooled) with
  | none => none
  | some resp => writeOut reg h.logTraffic resp

end

end KmipGo.Server
