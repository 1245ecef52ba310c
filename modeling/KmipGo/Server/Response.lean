import KmipGo.Encoder.Atomic
import KmipGo.Message.Types

/-! # Responses

`ResponseMessage` of `types_messages.go`, and the `Response` of `requests.go`
that holds one together with an encoder and its buffer.

A message is a structure with the fields of the source; `toVal` is the Go value
the encoder sees.  The buffer `buf` is the writer of the encoder, `enc.w`.
-/

namespace KmipGo.Server

open KmipGo.Lib KmipGo.Ttlv KmipGo.Reg KmipGo.Go KmipGo.Encoder

/-! ## Messages -/

structure ProtocolVersion where
  protocolVersionMajor : BitVec 64
  protocolVersionMinor : BitVec 64
deriving DecidableEq, Repr

structure ResponseHeader where
  protocolVersion : ProtocolVersion
  timeStamp : Time
  nonce : GoVal (.ptr Message.nonce)
  attestationType : GoVals (Message.enumType "AttestationType")
  clientCorrelationValue : GoString
  serverCorrelationValue : GoString
  batchCount : BitVec 64

structure ResponseBatchItem where
  operation : BitVec 32
  uniqueBatchItemID : Option Bytes
  resultStatus : BitVec 32
  resultReason : BitVec 32
  resultMessage : GoString
  asynchronousCorrelationValue : Option Bytes
  responsePayload : GoVal .iface
  messageExtension : GoVal (.ptr Message.messageExtension)

structure ResponseMessage where
  responseHeader : ResponseHeader
  batchItem : List ResponseBatchItem

def ProtocolVersion.toVal (v : ProtocolVersion) : GoVal Message.protocolVersion :=
  .struct (.cons (.scalar v.protocolVersionMajor) (.cons (.scalar v.protocolVersionMinor) .nil))

def ResponseHeader.toVal (h : ResponseHeader) : GoVal Message.responseHeader :=
  .struct
    (.cons h.protocolVersion.toVal
    (.cons (.scalar h.timeStamp)
    (.cons h.nonce
    (.cons (.slice h.attestationType)
    (.cons (.scalar h.clientCorrelationValue)
    (.cons (.scalar h.serverCorrelationValue)
    (.cons (.scalar h.batchCount) .nil)))))))

def ResponseBatchItem.toVal (i : ResponseBatchItem) : GoVal Message.responseBatchItem :=
  .struct
    (.cons (.scalar i.operation)
    (.cons (.scalar i.uniqueBatchItemID)
    (.cons (.scalar i.resultStatus)
    (.cons (.scalar i.resultReason)
    (.cons (.scalar i.resultMessage)
    (.cons (.scalar i.asynchronousCorrelationValue)
    (.cons i.responsePayload
    (.cons i.messageExtension .nil))))))))

def itemVals : List ResponseBatchItem → GoVals Message.responseBatchItem
  | [] => .nil
  | i :: is => .cons i.toVal (itemVals is)

def ResponseMessage.toVal (m : ResponseMessage) : GoVal Message.responseMessage :=
  .struct (.cons m.responseHeader.toVal (.cons (.slice (itemVals m.batchItem)) .nil))

/-- `ResponseMessage{}`. -/
def ResponseMessage.zero : ResponseMessage where
  responseHeader :=
    { protocolVersion := ⟨0, 0⟩
      timeStamp := Scalar.zero .time
      nonce := .ptrNil
      attestationType := .nil
      clientCorrelationValue := []
      serverCorrelationValue := []
      batchCount := 0 }
  batchItem := []

/-- `ResponseBatchItem{}`. -/
def ResponseBatchItem.zero : ResponseBatchItem :=
  ⟨0, none, 0, 0, [], none, .ifaceNil, .ptrNil⟩

def resultStatusOperationFailed : BitVec 32 := 0x00000001
def resultReasonResponseTooLarge : BitVec 32 := 0x00000002
def resultReasonInvalidMessage : BitVec 32 := 0x00000004

/-- The items `errorResponse` puts in place of those of the message. -/
def ResponseMessage.errorResponse (m : ResponseMessage) (reason : BitVec 32) (msg : GoString) :
    ResponseMessage :=
  { m with batchItem :=
      [{ ResponseBatchItem.zero with
          resultStatus := resultStatusOperationFailed
          resultReason := reason
          resultMessage := msg }] }

/-- `resp.ResponseHeader.BatchCount = len(resp.BatchItem)`. -/
def ResponseMessage.setBatchCount (m : ResponseMessage) : ResponseMessage :=
  { m with responseHeader :=
      { m.responseHeader with batchCount := BitVec.ofNat 64 m.batchItem.length } }

/-! ## The response object -/

structure Response where
  message : ResponseMessage
  enc : Enc

def Response.reset (r : Response) : Response :=
  { message := ResponseMessage.zero, enc := { r.enc with w := [] } }

/-- `newResponse`, with what the pool returned. -/
def newResponse : Option Response → Response
  | some r => r.reset
  | none => ⟨ResponseMessage.zero, newEncoder⟩

def Response.errorResponse (r : Response) (reason : BitVec 32) (msg : GoString) : Response :=
  { r with message := r.message.errorResponse reason msg }

section

variable (reg : Registry)

/-- `buf.Reset()`, then `enc.Encode(v)`: the bytes in the buffer, unless the encoder fails. -/
def encodeAfresh {ty : GoType} (v : GoVal ty) (e : Enc) : Enc × Option Bytes :=
  match encodeValue reg tagNone v { e with w := [] } with
  | (e', none) => (e', some e'.w)
  | (e', some _) => (e', none)

/-- `Bytes`; without a result where it panics. -/
def Response.bytes (r : Response) : Response × Option Bytes :=
  ({ r with enc := (encodeAfresh reg (.ptr r.message.toVal) r.enc).1 },
    (encodeAfresh reg (.ptr r.message.toVal) r.enc).2)

/-- The encoding of a message on an encoder of its own. -/
def ResponseMessage.encoding (m : ResponseMessage) : Except EncErr Bytes :=
  marshal reg (.ptr m.toVal : GoVal (.ptr Message.responseMessage))

/-! ## What `Bytes` does -/

theorem encodeAfresh_of_ok {ty : GoType} {v : GoVal ty} {e : Enc} (hdepth : e.encodeDepth = 0)
    {b : Bytes} (hb : marshal reg v = .ok b) :
    encodeAfresh reg v e = (⟨0, [], e.encBuf ++ b⟩, some (e.encBuf ++ b)) := by
  rcases marshal_writes reg v with ⟨b', hb', hw⟩ | ⟨b', err, herr, -⟩
  · rw [hb] at hb'
    cases hb'
    have hstate := encodeValue_success reg hw (show Enc.encodeDepth { e with w := [] } = 0 from hdepth)
    have hres := hw.result { e with w := [] }
    rw [encodeAfresh]
    cases hrun : encodeValue reg tagNone v { e with w := [] } with
    | mk e' r =>
      rw [hrun] at hstate hres
      simp only at hstate hres
      rw [hres, hstate]
      rfl
  · rw [hb] at herr
    cases herr

theorem encodeAfresh_of_error {ty : GoType} {v : GoVal ty} {err : EncErr} (e : Enc)
    (herr : marshal reg v = .error err) : (encodeAfresh reg v e).2 = none := by
  rcases marshal_writes reg v with ⟨b', hb', -⟩ | ⟨b', x, hx, hw⟩
  · rw [herr] at hb'
    cases hb'
  · have hres := hw.result { e with w := [] }
    rw [encodeAfresh]
    cases hrun : encodeValue reg tagNone v { e with w := [] } with
    | mk e' r =>
      rw [hrun] at hres
      simp only at hres
      rw [hres]

theorem encodeAfresh_depth {ty : GoType} (v : GoVal ty) (e : Enc) :
    (encodeAfresh reg v e).1.encodeDepth = e.encodeDepth := by
  obtain ⟨b, err, hw, -, -⟩ := encodeValue_outlines reg tagNone v
  have hdepth := hw.depth { e with w := [] }
  rw [encodeAfresh]
  cases hrun : encodeValue reg tagNone v { e with w := [] } with
  | mk e' r =>
    rw [hrun] at hdepth
    cases r with
    | none => exact hdepth
    | some x => exact hdepth

/-- Between two uses of a response no structure is open in its encoder. -/
def Response.Closed (r : Response) : Prop := r.enc.encodeDepth = 0

/-- `Bytes` returns the encoding of the message, after what an earlier failure left pending. -/
theorem bytes_of_encoding {r : Response} (hc : r.Closed) {b : Bytes}
    (hb : r.message.encoding reg = .ok b) :
    r.bytes reg = (⟨r.message, ⟨0, [], r.enc.encBuf ++ b⟩⟩, some (r.enc.encBuf ++ b)) := by
  rw [Response.bytes, encodeAfresh_of_ok reg hc hb]

theorem bytes_of_error {r : Response} {err : EncErr} (herr : r.message.encoding reg = .error err) :
    (r.bytes reg).2 = none :=
  encodeAfresh_of_error reg r.enc herr

theorem closed_bytes {r : Response} (hc : r.Closed) : (r.bytes reg).1.Closed :=
  (encodeAfresh_depth reg (.ptr r.message.toVal) r.enc).trans hc

/-- A message is encoded as one structure. -/
theorem encoding_eq_item {m : ResponseMessage} {b : Bytes} (h : m.encoding reg = .ok b) :
    ∃ tag body, b = item tag .Structure body :=
  marshal_ptr_struct reg h

end

end KmipGo.Server
