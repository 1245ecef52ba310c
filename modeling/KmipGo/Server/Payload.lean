import KmipGo.Decoder.Strict
import KmipGo.Server.Mux

/-! # Decoding payloads

`Request.Unmarshal` and `Request.DecodePayload` of `requests.go`.  A request has
one decoder; `handleRequest` creates it and sets its `DisallowExtraValues` when
the minor versions agree.  Every payload is decoded with it, after a `Reset`.

`extra_refused_iff`: over any calls that the handlers of a request make, extra
values are refused exactly when there are none.  `Reset` puts a new decoder in
place of the old one and keeps only its buffer, not the flag.
-/

namespace KmipGo.Server

open KmipGo.Lib KmipGo.Ttlv KmipGo.Reg KmipGo.Go KmipGo.Encoder KmipGo.Decoder

/-! ## The decoder of a request -/

/-- `Decoder.Reset`: `*dec = Decoder{r, bufr}`. -/
def resetDecoder (_dec : Dec) : Dec := newDecoder

/-- A `Request` as its item handlers see it. -/
structure ItemRequest where
  request : Request
  currentItem : Option RequestBatchItem
  decoder : Dec

/-- `req.decoder = ttlv.NewDecoder(nil)`, with the flag of the request. -/
def Request.toItemRequest (req : Request) : ItemRequest :=
  ⟨req, none, { newDecoder with disallowExtraValues := req.disallowExtraValues }⟩

def requestPayload (i : RequestBatchItem) : GoVal .iface := i.fields.tail.tail.head

/-- The slice of a value of type `TTLV`. -/
def rawOf : {ty : GoType} → GoVal ty → Option TTLV
  | .scalar .ttlv, .scalar t => some t
  | _, _ => none

/-- An error of `DecodePayload`: of `coerceToTTLV`, or of the decoder. -/
inductive PayloadErr where
  | marshal (e : EncErr)
  | decode (e : DecErr)
deriving DecidableEq

section

variable (reg : Registry)

def coerceToTTLV : {ty : GoType} → GoVal ty → Except EncErr TTLV
  | _, .iface v =>
    match rawOf v with
    | some t => .ok t
    | none => marshal reg v
  | _, _ => .ok []

/-- `Decoder.Decode(into)` on a reader that holds the bytes `b`. -/
def decode (dec : Dec) {ty : GoType} (into : GoVal ty) (b : Bytes) : GoVal ty × Outcome :=
  match nextTTLV b with
  | .ok t => unmarshal reg dec false ty into t
  | .err e => (into, .err e)
  | .panic => (into, .panic)

def wrap : Outcome → Res PayloadErr Unit
  | .ok () => .ok ()
  | .err e => .err (.decode e)
  | .panic => .panic

/-- `Request.Unmarshal`. -/
def ItemRequest.unmarshal (r : ItemRequest) {ty : GoType} (t : TTLV) (into : GoVal ty) :
    ItemRequest × GoVal ty × Res PayloadErr Unit :=
  if t.length = 0 then (r, into, .ok ())
  else
    let dec := resetDecoder r.decoder
    ({ r with decoder := dec }, (decode reg dec into t).1, wrap (decode reg dec into t).2)

/-- `Request.DecodePayload`. -/
def ItemRequest.decodePayload (r : ItemRequest) {ty : GoType} (into : GoVal ty) :
    ItemRequest × GoVal ty × Res PayloadErr Unit :=
  match r.currentItem with
  | none => (r, into, .ok ())
  | some item =>
    match coerceToTTLV reg (requestPayload item) with
    | .error e => (r, into, .err (.marshal e))
    | .ok t => r.unmarshal reg t into

/-! ## The calls of handlers -/

/-- A call on the request: with a payload of its own, or with the item that the multiplexer has made
    the current one. -/
inductive Call where
  | unmarshal (t : TTLV) (ty : GoType) (into : GoVal ty)
  | decodePayload (item : RequestBatchItem) (ty : GoType) (into : GoVal ty)

/-- The payload that a call is about. -/
def Call.payload : Call → Except EncErr TTLV
  | .unmarshal t _ _ => .ok t
  | .decodePayload item _ _ => coerceToTTLV reg (requestPayload item)

def Call.ty : Call → GoType
  | .unmarshal _ ty _ | .decodePayload _ ty _ => ty

def Call.into : (c : Call) → GoVal c.ty
  | .unmarshal _ _ into | .decodePayload _ _ into => into

def Call.run (r : ItemRequest) : Call → ItemRequest × Res PayloadErr Unit
  | .unmarshal t _ into => ((r.unmarshal reg t into).1, (r.unmarshal reg t into).2.2)
  | .decodePayload item _ into =>
    let r := { r with currentItem := some item }
    ((r.decodePayload reg into).1, (r.decodePayload reg into).2.2)

/-- Calls on one request, one after the other, with what each returned. -/
def runCalls : ItemRequest → List Call → List (Call × Res PayloadErr Unit)
  | _, [] => []
  | r, c :: cs => (c, (c.run reg r).2) :: runCalls (c.run reg r).1 cs

/-- The payload would be decoded if extra values were allowed, but some value in it has no field. -/
def Call.HasExtra (c : Call) : Prop :=
  ∃ t b, c.payload reg = .ok t ∧ nextTTLV t = .ok b ∧ b.typ = some .Structure ∧
    (decode reg newDecoder c.into t).2 = .ok () ∧ ¬ AllMatched reg c.ty b

/-- `ErrUnexpectedValue`. -/
def Unexpected : Res PayloadErr Unit → Prop
  | .err (.decode e) => HasCause e .unexpectedValue
  | _ => False

/-- Between equal minor versions, each call with an extra value in its payload is refused. -/
def RefusesExtra (h : StandardProtocolHandler) (req : Request) (message : GoVal Message.requestMessage)
    (calls : List Call) : Prop :=
  versionMinor (requestVersion (requestHeader message)) = h.protocolVersion.protocolVersionMinor →
    ∀ p ∈ runCalls reg (req.accepted h message).toItemRequest calls, p.1.HasExtra reg → Unexpected p.2

/-- A payload is decoded by a new decoder, whatever the request says. -/
theorem unmarshal_result (r : ItemRequest) {ty : GoType} {t : TTLV} (ht : t.length ≠ 0)
    (into : GoVal ty) :
    (r.unmarshal reg t into).2.2 = wrap (decode reg newDecoder into t).2 := by
  rw [ItemRequest.unmarshal, if_neg ht]
  rfl

theorem nextTTLV_length_ne {t : TTLV} {b : TTLV} (h : nextTTLV t = .ok b) : t.length ≠ 0 := by
  intro h0
  rw [List.length_eq_zero_iff.mp h0] at h
  cases h

/-- An extra value is passed over, in whatever state the decoder is. -/
theorem run_of_hasExtra (r : ItemRequest) {c : Call} (h : c.HasExtra reg) : (c.run reg r).2 = .ok () := by
  obtain ⟨t, b, hpayload, hnext, -, hok, -⟩ := h
  have ht := nextTTLV_length_ne hnext
  cases c with
  | unmarshal t' ty into =>
    cases hpayload
    rw [Call.run, unmarshal_result reg r ht into, show (decode reg newDecoder into t).2 = .ok () from hok]
    rfl
  | decodePayload item ty into =>
    have hcoerce : coerceToTTLV reg (requestPayload item) = .ok t := hpayload
    rw [Call.run]
    simp only [ItemRequest.decodePayload, hcoerce, unmarshal_result reg _ ht into]
    rw [show (decode reg newDecoder into t).2 = .ok () from hok]
    rfl

theorem mem_runCalls {p : Call × Res PayloadErr Unit} : ∀ {calls : List Call} {r : ItemRequest},
    p ∈ runCalls reg r calls → p.1 ∈ calls ∧ ∃ r', p.2 = (p.1.run reg r').2
  | c :: cs, r, h => by
    rw [runCalls] at h
    cases h with
    | head => exact ⟨List.mem_cons_self .., r, rfl⟩
    | tail _ h =>
      obtain ⟨hmem, hrun⟩ := mem_runCalls h
      exact ⟨List.mem_cons_of_mem c hmem, hrun⟩

theorem exists_mem_runCalls {c : Call} : ∀ {calls : List Call} (r : ItemRequest), c ∈ calls →
    ∃ result, (c, result) ∈ runCalls reg r calls
  | d :: cs, r, h => by
    rw [runCalls]
    cases h with
    | head => exact ⟨_, List.mem_cons_self ..⟩
    | tail _ h =>
      obtain ⟨result, hmem⟩ := exists_mem_runCalls (d.run reg r).1 h
      exact ⟨result, List.mem_cons_of_mem _ hmem⟩

/-- A call with an extra value is not refused, wherever it stands among the calls. -/
theorem not_refusesExtra {h : StandardProtocolHandler} {message : GoVal Message.requestMessage}
    (hminor : versionMinor (requestVersion (requestHeader message)) = h.protocolVersion.protocolVersionMinor)
    (req : Request) {calls : List Call} {c : Call} (hc : c ∈ calls) (hextra : c.HasExtra reg) :
    ¬ RefusesExtra reg h req message calls := by
  intro hrefuses
  obtain ⟨result, hmem⟩ := exists_mem_runCalls reg (req.accepted h message).toItemRequest hc
  have hunexpected := hrefuses hminor (c, result) hmem hextra
  obtain ⟨-, r, hrun⟩ := mem_runCalls reg hmem
  rw [show result = _ from hrun, run_of_hasExtra reg r hextra] at hunexpected
  exact hunexpected

/-- Over any calls on a request between equal minor versions, each payload with an extra value is refused
    if and only if no payload has one. -/
theorem extra_refused_iff (h : StandardProtocolHandler) (req : Request)
    (message : GoVal Message.requestMessage) (calls : List Call) :
    RefusesExtra reg h req message calls ↔
      (versionMinor (requestVersion (requestHeader message)) = h.protocolVersion.protocolVersionMinor →
        ∀ c ∈ calls, ¬ c.HasExtra reg) := by
  constructor
  · intro hrefuses hminor c hc hextra
    exact not_refusesExtra reg hminor req hc hextra hrefuses
  · intro hnone hminor p hp hextra
    obtain ⟨hc, -⟩ := mem_runCalls reg hp
    exact absurd hextra (hnone hminor p.1 hc)

end

/-! ## A payload with an extra value -/

/-- A payload type with one field. -/
def queryPayload : GoType :=
  .struct (lit "QueryRequestPayload") (Message.field "UniqueBatchItemID" Message.bytesType .nil)

/-- A payload of this type with a value more. -/
def extraPayload : TTLV :=
  item 0x420079 .Structure
    (Prim.item 0x420093 (.byteString (some [7])) ++ Prim.item 0x42000d (.integer 1))

def extraRequest : Request :=
  Request.ofTTLV (item tagRequestMessage .Structure (item 0x420077 .Structure
    (item 0x420069 .Structure (Prim.item 0x42006a (.integer 1) ++ Prim.item 0x42006b (.integer 4)) ++
      Prim.item 0x42000d (.integer 1)) ++
    item 0x42000f .Structure (Prim.item 0x42005c (.enumeration 1) ++ extraPayload)))

/-- What is computed on the request and its payload. -/
theorem extraPayload_runs :
    (getTypeInfo Message.messageRegistry queryPayload).toOption = some ⟨tagNone,
      [.valueField (Message.fieldInfo "UniqueBatchItemID" 0x420093 Message.bytesType)]⟩ ∧
    (decode Message.messageRegistry newDecoder queryPayload.zero extraPayload).2 = .ok () ∧
    nextTTLV extraPayload = .ok extraPayload ∧
    Prim.item 0x42000d (.integer 1) ∈ TTLV.children extraPayload ∧
    findField (TTLV.tag (Prim.item 0x42000d (.integer 1)))
      [.valueField (Message.fieldInfo "UniqueBatchItemID" 0x420093 Message.bytesType)] 0 none = none ∧
    (parseMessage Message.messageRegistry extraRequest).toOption.map (fun message =>
      (versionMinor (requestVersion (requestHeader message)), (batchItems message).map fun item =>
        (coerceToTTLV Message.messageRegistry (requestPayload item)).toOption)) =
      some (4, [some extraPayload]) := by
  decide +kernel

theorem hasExtra_extraPayload {item : RequestBatchItem}
    (hitem : coerceToTTLV Message.messageRegistry (requestPayload item) = .ok extraPayload) :
    (Call.decodePayload item queryPayload queryPayload.zero).HasExtra Message.messageRegistry := by
  obtain ⟨hti, hok, hnext, hchild, hnone, -⟩ := extraPayload_runs
  have hstruct : TTLV.typ extraPayload = some .Structure := by decide
  refine ⟨extraPayload, extraPayload, hitem, hnext, hstruct, hok, fun hall => ?_⟩
  obtain ⟨i, fi, hfind, -⟩ := hall hstruct _ (eq_ok_of_toOption hti) _ hchild
  rw [show findField _ _ 0 none = none from hnone] at hfind
  cases hfind

/-- Client and server have version 1.4, and the extra value is passed over. -/
theorem extraPayload_accepted :
    ∃ message item, parseMessage Message.messageRegistry extraRequest = .ok message ∧
      batchItems message = [item] ∧
      ¬ RefusesExtra Message.messageRegistry muxHandler extraRequest message
        [.decodePayload item queryPayload queryPayload.zero] := by
  obtain ⟨-, -, -, -, -, hparse⟩ := extraPayload_runs
  obtain ⟨message, hmessage, hparts⟩ := Option.map_eq_some_iff.mp hparse
  obtain ⟨hminor, hitems⟩ := Prod.mk.inj hparts
  obtain ⟨item, hitem, hpayload⟩ := List.map_eq_singleton_iff.mp hitems
  refine ⟨message, item, Res.toOption_eq_some.mp hmessage, hitem, ?_⟩
  exact not_refusesExtra _ hminor _ (List.mem_singleton.mpr rfl)
    (hasExtra_extraPayload (eq_ok_of_toOption hpayload))

end KmipGo.Server
