import KmipGo.Server.Traffic

/-! # The maximum response size

A client may limit the size of the response.  `handleRequest` compares the limit
with the response as it has just been encoded into the buffer, and puts an error
response in place of the message if it is too large.  The buffer then still holds
the response that was too large, and without traffic logging it is the buffer
that is written.

`maximum_honoured_iff`: the limit is honoured exactly when the reply fits, or is
itself the error response, or, with traffic logging, is found to be too large; and
when the encoder of the response has a structure open, since nothing is written
then.
-/

namespace KmipGo.Server

open KmipGo.Lib KmipGo.Ttlv KmipGo.Reg KmipGo.Go KmipGo.Encoder KmipGo.Decoder

section

variable (reg : Registry)

/-- The bytes are those of a response with the single item OperationFailed / ResponseTooLarge. -/
def IsTooLargeResponse (b : Bytes) : Prop :=
  ∃ m : ResponseMessage, m.encoding reg = .ok b ∧ ∃ i, m.batchItem = [i] ∧
    i.resultStatus = resultStatusOperationFailed ∧ i.resultReason = resultReasonResponseTooLarge

/-- The bytes do not exceed the limit, or tell the client that the response would. -/
def WithinLimit (maximum : Int) (b : Bytes) : Prop := b.length ≤ maximum ∨ IsTooLargeResponse reg b

/-- The limit that a request sets is honoured by what the client receives. -/
def HonoursMaximum (h : StandardProtocolHandler) (env : Env) (pooled : Option Response) (req : Request) :
    Prop :=
  ∀ message, parseMessage reg req = .ok message →
    versionMajor (requestVersion (requestHeader message)) = h.protocolVersion.protocolVersionMajor →
    0 < (maximumResponseSize (requestHeader message)).toInt →
    ∀ written r, serveKMIP reg h env pooled req = some (written, r) →
      WithinLimit reg (maximumResponseSize (requestHeader message)).toInt written

/-- What the handler leaves behind is within the limit: all that is in the buffer without traffic
    logging; with it, the message alone, unless the size check catches it. -/
def ReplyWithin (logTraffic : Bool) (maximum : Int) (req : Request) (reply : Response) : Prop :=
  ∀ message b, req.message = some message → reply.message.encoding reg = .ok b →
    if logTraffic then tooLarge message (reply.enc.encBuf ++ b) = true ∨ WithinLimit reg maximum b
    else WithinLimit reg maximum (reply.enc.encBuf ++ b)

/-- What is written after the message handler. -/
theorem written_after_handler {log : Bool} {maximum : Int} {req : Request} {reply : Response}
    (hc : reply.Closed) :
    (∀ resp, conclude reg req reply = some resp → ∀ written r, writeOut reg log resp = some (written, r) →
      WithinLimit reg maximum written) ↔ ReplyWithin reg log maximum req reply := by
  constructor
  · intro h message b hm hb
    have hconclude := conclude_of_encoding reg hc hm hb
    cases log with
    | false =>
      -- the buffer is written, whatever the size check did to the message
      rw [if_neg Bool.false_ne_true]
      by_cases hlarge : tooLarge message (reply.enc.encBuf ++ b) = true
      · rw [if_pos hlarge] at hconclude
        exact h _ hconclude _ _ rfl
      · rw [if_neg hlarge] at hconclude
        exact h _ hconclude _ _ rfl
    | true =>
      rw [if_pos rfl]
      by_cases hlarge : tooLarge message (reply.enc.encBuf ++ b) = true
      · exact Or.inl hlarge
      · rw [if_neg hlarge] at hconclude
        exact Or.inr (h _ hconclude _ _ (writeOut_logged reg ⟨rfl, rfl⟩ hb))
  · intro h resp hresp written r hwritten
    obtain ⟨message, b, hm, hb, rfl⟩ := conclude_eq_some reg hc hresp
    have hwithin := h message b hm hb
    cases log with
    | false =>
      rw [if_neg Bool.false_ne_true] at hwithin
      have hbuf : written = reply.enc.encBuf ++ b := by
        have hw := (Prod.mk.inj (Option.some.inj hwritten)).1
        rw [← hw]
        split <;> rfl
      rw [hbuf]
      exact hwithin
    | true =>
      rw [if_pos rfl] at hwithin
      by_cases hlarge : tooLarge message (reply.enc.encBuf ++ b) = true
      · -- the error response is encoded afresh
        rw [if_pos hlarge, writeOut, if_pos rfl] at hwritten
        cases hout : (Response.bytes reg ⟨reply.message.errorResponse resultReasonResponseTooLarge [],
            ⟨0, [], reply.enc.encBuf ++ b⟩⟩).2 with
        | none =>
          rw [← Prod.eta (Response.bytes reg _), hout] at hwritten
          cases hwritten
        | some out =>
          obtain ⟨c, hc, heq⟩ := encoding_of_bytes reg (r := ⟨_, ⟨0, [], _⟩⟩) rfl hout
          rw [heq] at hwritten
          cases hwritten
          exact Or.inr ⟨_, hc, _, rfl, rfl, rfl⟩
      · have hlogged : writeOut reg true ⟨reply.message, ⟨0, [], reply.enc.encBuf ++ b⟩⟩ = some (b, _) :=
          writeOut_logged reg ⟨rfl, rfl⟩ hb
        rw [if_neg hlarge, hlogged] at hwritten
        cases hwritten
        exact hwithin.resolve_left hlarge

/-- The limit is honoured exactly when the reply is within it, or traffic is logged and the size check
    catches the reply, or a structure is open in the encoder of the response. -/
theorem maximum_honoured_iff (h : StandardProtocolHandler) (env : Env) (pooled : Option Response)
    (req : Request) :
    HonoursMaximum reg h env pooled req ↔
      ∀ message, parseMessage reg req = .ok message →
        versionMajor (requestVersion (requestHeader message)) = h.protocolVersion.protocolVersionMajor →
        0 < (maximumResponseSize (requestHeader message)).toInt →
        let resp := ((newResponse pooled).start h env).setClientCorrelationValue
          (clientCorrelationValue (requestHeader message))
        ∀ called, callHandler reg h (req.accepted h message) resp = some called →
          ¬ called.2.Closed ∨
            ReplyWithin reg h.logTraffic (maximumResponseSize (requestHeader message)).toInt called.1
              called.2 := by
  unfold HonoursMaximum
  refine forall_congr' fun message => forall_congr' fun hparse => forall_congr' fun hversion =>
    forall_congr' fun hpos => ?_
  have hadm : admission reg h env req (newResponse pooled) = .ok (req.accepted h message, _) :=
    (admission_eq_ok_iff reg).mpr ⟨message, hparse, hversion, rfl, rfl⟩
  rw [serveKMIP, handleRequest, hadm]
  dsimp only
  cases callHandler reg h (req.accepted h message) _ with
  | none => simp
  | some called =>
    simp only [Option.some.injEq, forall_eq', Option.bind_some]
    by_cases hc : called.2.Closed
    · rw [or_iff_right (not_not_intro hc), ← written_after_handler reg hc]
      cases conclude reg called.1 called.2 with
      | none => simp
      | some resp => simp only [Option.some.injEq, forall_eq']
    · refine iff_of_true (fun written r hwritten => ?_) (.inl hc)
      cases hresp : conclude reg called.1 called.2 with
      | none =>
        rw [hresp] at hwritten
        cases hwritten
      | some resp =>
        rw [hresp] at hwritten
        rw [written_of_open reg hc hresp hwritten]
        exact .inl (Int.le_of_lt hpos)

end

/-! ## A limit that is honoured and one that is not -/

/-- A request message without batch items and with a maximum response size of eight bytes. -/
def limitedRequest : Request :=
  Request.ofTTLV (item tagRequestMessage .Structure (item 0x420077 .Structure
    (item 0x420069 .Structure (Prim.item 0x42006a (.integer 1) ++ Prim.item 0x42006b (.integer 4)) ++
      (Prim.item 0x420050 (.integer 8) ++ Prim.item 0x42000d (.integer 0)))))

def loggingHandler : StandardProtocolHandler := { plainHandler with logTraffic := true }

/-- What is computed on the request. -/
theorem limitedRequest_runs :
    (match parseMessage Message.messageRegistry limitedRequest with
      | .ok m => decide (versionMajor (requestVersion (requestHeader m)) = 1) &&
          decide ((maximumResponseSize (requestHeader m)).toInt = 8) &&
          decide (((plainReply m).message.encoding Message.messageRegistry).toOption.map List.length =
            some 136)
      | _ => false) = true ∧
    (serveKMIP Message.messageRegistry plainHandler plainEnv none limitedRequest).map
      (fun p => (p.1.length, TTLV.len (p.1.drop 8))) = some (136, 120) ∧
    (getTypeInfo Message.messageRegistry Message.responseMessage).toOption = some ⟨0x42007b,
      [.valueField ⟨lit "ResponseHeader", tagNone, 0x42007a, noFlags, Message.responseHeader⟩,
       .valueField ⟨lit "BatchItem", tagNone, 0x42000f, noFlags, .slice [] Message.responseBatchItem⟩]⟩ := by
  decide +kernel

theorem maximum_honoured_limitedRequest :
    HonoursMaximum Message.messageRegistry loggingHandler plainEnv none limitedRequest := by
  apply (maximum_honoured_iff Message.messageRegistry loggingHandler plainEnv none
    limitedRequest).mpr
  intro message hparse _ _
  have hcheck := limitedRequest_runs.1
  rw [hparse] at hcheck
  simp only [Bool.and_eq_true, decide_eq_true_eq] at hcheck
  obtain ⟨⟨-, hmax⟩, hlen⟩ := hcheck
  intro resp called hcall
  cases hcall
  refine Or.inr fun message' b hm hb => ?_
  obtain rfl : message = message' := Option.some.inj hm
  have hb' : (plainReply message).message.encoding Message.messageRegistry = .ok b := hb
  rw [hb'] at hlen
  have hlen : b.length = 136 := Option.some.inj hlen
  -- with traffic logging the size check decides
  refine Or.inl ?_
  show decide (0 < (maximumResponseSize (requestHeader message)).toInt ∧
    (maximumResponseSize (requestHeader message)).toInt < (b.length : Int)) = true
  rw [hmax, hlen]
  decide

/-- The header of a response with one item is not all there is in it. -/
theorem encoding_single {m : ResponseMessage} {i : ResponseBatchItem} (hm : m.batchItem = [i]) {b : Bytes}
    (h : m.encoding Message.messageRegistry = .ok b) :
    ∃ t t' header rest, b = item t .Structure (item t' .Structure header ++ rest) ∧ rest ≠ [] := by
  have hti := limitedRequest_runs.2.2
  obtain ⟨ti, body, hti', hb, hfields⟩ :=
    encode_struct_parts Message.messageRegistry (encode_ptr_parts _ (writes_of_marshal _ h))
  rw [show getTypeInfo Message.messageRegistry Message.responseMessage = .ok ti from hti'] at hti
  cases hti
  obtain ⟨b₁, b₂, hbody, hheader, hrest⟩ := encodeFields_parts _ hfields
  obtain ⟨b₃, b₄, hb₂, hitems, -⟩ := encodeFields_parts _ hrest
  obtain ⟨_, header, -, hb₁, -⟩ := encode_struct_parts _ hheader
  simp only [hm, itemVals, encode, flagsOf, noFlags, Bool.false_and, Bool.false_eq_true, if_false] at hitems
  obtain ⟨b₅, b₆, hb₃, hitem, -⟩ := encodeElems_parts _ hitems
  obtain ⟨_, content, -, hb₅, -⟩ := encode_struct_parts _ hitem
  refine ⟨_, _, header, b₂, by rw [hb, hbody, hb₁], ?_⟩
  rw [hb₂, hb₃, hb₅]
  simp [item_ne_nil]

/-- The length field of a structure, at the start of longer bytes. -/
theorem len_item_append (t : Tag) (value rest : Bytes) (h : value.length < 2 ^ 32) :
    TTLV.len (item t .Structure value ++ rest) = value.length := by
  rw [item, List.append_assoc, List.append_assoc]
  exact len_header_append _ _ _ _ h

/-- Bytes with a header of 120 bytes and nothing after it have no item. -/
theorem not_isTooLargeResponse {b : Bytes} (hlen : b.length = 136) (hheader : TTLV.len (b.drop 8) = 120) :
    ¬ IsTooLargeResponse Message.messageRegistry b := by
  rintro ⟨m, henc, i, hm, -, -⟩
  obtain ⟨t, t', header, rest, rfl, hrest⟩ := encoding_single hm henc
  have hinner := length_item t' .Structure header
  have hrestpos := List.length_pos_iff.mpr hrest
  rw [length_item, List.length_append] at hlen
  have hdrop : (item t .Structure (item t' .Structure header ++ rest)).drop 8 =
      item t' .Structure header ++ (rest ++ List.replicate
        (padTo8 (item t' .Structure header ++ rest).length) 0) := by
    rw [item, List.append_assoc, List.drop_left' (length_header ..)]
  rw [hdrop, len_item_append _ _ _ (by omega)] at hheader
  omega

/-- Without traffic logging the client receives all of a response that is too large. -/
theorem limitedRequest_exceeded :
    ∃ written r, serveKMIP Message.messageRegistry plainHandler plainEnv none limitedRequest =
        some (written, r) ∧ written.length = 136 ∧
      ¬ IsTooLargeResponse Message.messageRegistry written ∧
      ¬ HonoursMaximum Message.messageRegistry plainHandler plainEnv none limitedRequest := by
  obtain ⟨hrequest, hwritten, -⟩ := limitedRequest_runs
  obtain ⟨⟨written, r⟩, hserve, hpair⟩ := Option.map_eq_some_iff.mp hwritten
  obtain ⟨hlen, hheader⟩ := Prod.mk.inj hpair
  have hnot := not_isTooLargeResponse hlen hheader
  refine ⟨written, r, hserve, hlen, hnot, fun hhonours => ?_⟩
  cases hparse : parseMessage Message.messageRegistry limitedRequest with
  | panic =>
    rw [hparse] at hrequest
    cases hrequest
  | err e =>
    rw [hparse] at hrequest
    cases hrequest
  | ok message =>
    rw [hparse] at hrequest
    simp only [Bool.and_eq_true, decide_eq_true_eq] at hrequest
    obtain ⟨⟨hmajor, hmax⟩, -⟩ := hrequest
    have hwithin := hhonours message hparse hmajor (by rw [hmax]; decide) written r hserve
    rw [WithinLimit, hmax, hlen] at hwithin
    exact hwithin.elim (by decide) hnot

end KmipGo.Server
