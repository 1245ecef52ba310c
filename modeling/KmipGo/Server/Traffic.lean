import KmipGo.Server.Protocol

/-! # What the client receives

`ServeKMIP` has two ways to write a response.  With traffic logging it encodes
the response message once more; without, it drains the buffer, which only
`Bytes` fills.  `handleRequest` leaves early without having called `Bytes`, and
puts an error response in place of one that is too large after the call.

`serveKMIP_faithful_iff`: the client receives the response message, whatever the
setting, exactly for the requests that reach the message handler and whose reply
is encodable, fits, and finds an encoder without open structures and without the
remains of an encoding that failed.  A reply that does not fit must already be the
error response that replaces it.
-/

namespace KmipGo.Server

open KmipGo.Lib KmipGo.Ttlv KmipGo.Reg KmipGo.Go KmipGo.Encoder KmipGo.Decoder

section

variable (reg : Registry)

/-- The client receives one block, the encoding of the response message as it stands when
    `handleRequest` returns, with and without traffic logging. -/
def Faithful (h : StandardProtocolHandler) (env : Env) (pooled : Option Response) (req : Request) :
    Prop :=
  ∃ resp b, handleRequest reg h env req (newResponse pooled) = some resp ∧
    resp.message.encoding reg = .ok b ∧ (∃ tag body, b = item tag .Structure body) ∧
    ∀ log, ∃ r, serveKMIP reg { h with logTraffic := log } env pooled req = some (b, r)

/-- A reply that can be written as it is: no structure is open in its encoder, it is encodable, nothing is
    pending in the encoder, and it is not too large, or else is what replaces a response that is too
    large. -/
def Conveyable (req : Request) (reply : Response) : Prop :=
  reply.Closed ∧ ∃ message b, req.message = some message ∧ reply.message.encoding reg = .ok b ∧
    if tooLarge message (reply.enc.encBuf ++ b) then
      (reply.message.errorResponse resultReasonResponseTooLarge []).encoding reg =
        .ok (reply.enc.encBuf ++ b)
    else reply.enc.encBuf = []

/-- The request gets to the message handler, which returns, and its reply is conveyable. -/
def Answered (h : StandardProtocolHandler) (env : Env) (pooled : Option Response) (req : Request) :
    Prop :=
  ∃ message, parseMessage reg req = .ok message ∧
    versionMajor (requestVersion (requestHeader message)) = h.protocolVersion.protocolVersionMajor ∧
    let resp := ((newResponse pooled).start h env).setClientCorrelationValue
      (clientCorrelationValue (requestHeader message))
    ∃ called, callHandler reg h (req.accepted h message) resp = some called ∧
      Conveyable reg called.1 called.2

/-! ## The stages -/

theorem admission_enc_of_err {h : StandardProtocolHandler} {env : Env} {req : Request}
    {resp resp' : Response} (hadm : admission reg h env req resp = .err resp') :
    resp'.enc = resp.enc := by
  unfold admission at hadm
  cases hparse : parseMessage reg req with
  | panic =>
    rw [hparse] at hadm
    cases hadm
  | err e =>
    rw [hparse] at hadm
    cases hadm
    rfl
  | ok message =>
    rw [hparse] at hadm
    simp only at hadm
    split at hadm
    · cases hadm
      rfl
    · cases hadm

theorem admission_eq_ok_iff {h : StandardProtocolHandler} {env : Env} {req req' : Request}
    {resp resp' : Response} :
    admission reg h env req resp = .ok (req', resp') ↔
      ∃ message, parseMessage reg req = .ok message ∧
        versionMajor (requestVersion (requestHeader message)) =
          h.protocolVersion.protocolVersionMajor ∧
        req' = req.accepted h message ∧
        resp' = (resp.start h env).setClientCorrelationValue
          (clientCorrelationValue (requestHeader message)) := by
  unfold admission
  cases hparse : parseMessage reg req with
  | panic => simp
  | err e => simp
  | ok message =>
    simp only [Res.ok.injEq, exists_eq_left']
    by_cases hv : versionMajor (requestVersion (requestHeader message)) =
        h.protocolVersion.protocolVersionMajor
    · rw [if_neg (not_not_intro hv)]
      simp only [Res.ok.injEq, Prod.mk.injEq, hv, true_and]
      constructor
      · rintro ⟨rfl, rfl⟩
        exact ⟨rfl, rfl⟩
      · rintro ⟨rfl, rfl⟩
        exact ⟨rfl, rfl⟩
    · rw [if_pos hv]
      simp [hv]

/-- `handleRequest` returns from an early exit, or after the message handler. -/
theorem handleRequest_eq_some {h : StandardProtocolHandler} {env : Env} {req : Request}
    {resp resp' : Response} :
    handleRequest reg h env req resp = some resp' ↔
      admission reg h env req resp = .err resp' ∨
        ∃ req₁ resp₁ called, admission reg h env req resp = .ok (req₁, resp₁) ∧
          callHandler reg h req₁ resp₁ = some called ∧ conclude reg called.1 called.2 = some resp' := by
  rw [handleRequest]
  cases admission reg h env req resp with
  | panic => simp
  | err early => simp
  | ok p =>
    obtain ⟨req₁, resp₁⟩ := p
    simp [Option.bind_eq_some_iff]

/-- `Bytes` returns only for a message that has an encoding. -/
theorem encoding_of_bytes {r : Response} (hc : r.Closed) {out : Bytes}
    (hout : (r.bytes reg).2 = some out) :
    ∃ b, r.message.encoding reg = .ok b ∧
      r.bytes reg = (⟨r.message, ⟨0, [], r.enc.encBuf ++ b⟩⟩, some (r.enc.encBuf ++ b)) := by
  cases henc : r.message.encoding reg with
  | error err =>
    rw [bytes_of_error reg henc] at hout
    cases hout
  | ok b => exact ⟨b, rfl, bytes_of_encoding reg hc henc⟩

theorem conclude_eq_some {req : Request} {reply resp : Response} (hc : reply.Closed)
    (h : conclude reg req reply = some resp) :
    ∃ message b, req.message = some message ∧ reply.message.encoding reg = .ok b ∧
      resp = if tooLarge message (reply.enc.encBuf ++ b) then
          ⟨reply.message.errorResponse resultReasonResponseTooLarge [], ⟨0, [], reply.enc.encBuf ++ b⟩⟩
        else ⟨reply.message, ⟨0, [], reply.enc.encBuf ++ b⟩⟩ := by
  unfold conclude at h
  cases hout : (reply.bytes reg).2 with
  | none =>
    rw [← Prod.eta (reply.bytes reg), hout] at h
    cases h
  | some out =>
    obtain ⟨b, hb, heq⟩ := encoding_of_bytes reg hc hout
    rw [heq] at h
    simp only at h
    cases hm : req.message with
    | none =>
      rw [hm] at h
      cases h
    | some message =>
      rw [hm] at h
      simp only at h
      refine ⟨message, b, rfl, hb, ?_⟩
      split at h
      · rename_i hlarge
        rw [if_pos hlarge]
        exact (Option.some.inj h).symm
      · rename_i hlarge
        rw [if_neg hlarge]
        exact (Option.some.inj h).symm

theorem conclude_of_encoding {req : Request} {reply : Response} (hc : reply.Closed)
    {message : GoVal Message.requestMessage} {b : Bytes} (hm : req.message = some message)
    (hb : reply.message.encoding reg = .ok b) :
    conclude reg req reply = some (if tooLarge message (reply.enc.encBuf ++ b) then
        ⟨reply.message.errorResponse resultReasonResponseTooLarge [], ⟨0, [], reply.enc.encBuf ++ b⟩⟩
      else ⟨reply.message, ⟨0, [], reply.enc.encBuf ++ b⟩⟩) := by
  unfold conclude
  rw [bytes_of_encoding reg hc hb]
  dsimp only
  rw [hm]
  dsimp only
  by_cases hlarge : tooLarge message (reply.enc.encBuf ++ b) = true
  · rw [if_pos hlarge, if_pos hlarge]
    rfl
  · rw [if_neg hlarge, if_neg hlarge]

/-- Writing an idle response with logging: its encoding. -/
theorem writeOut_logged {resp : Response} (hidle : Idle resp.enc) {b : Bytes}
    (hb : resp.message.encoding reg = .ok b) :
    writeOut reg true resp = some (b, ⟨resp.message, ⟨0, [], b⟩⟩) := by
  rw [writeOut, if_pos rfl, bytes_of_encoding reg hidle.1 hb, hidle.2, List.nil_append]

/-! ## The pool -/

/-- The buffer of a response from the pool is empty. -/
theorem newResponse_w (pooled : Option Response) : (newResponse pooled).enc.w = [] := by
  cases pooled <;> rfl

theorem idle_newResponse {pooled : Option Response} (h : ∀ r, pooled = some r → Idle r.enc) :
    (newResponse pooled).enc = newEncoder := by
  cases pooled with
  | none => rfl
  | some r =>
    obtain ⟨hdepth, hbuf⟩ := h r rfl
    show (⟨r.enc.encodeDepth, r.enc.encBuf, []⟩ : Enc) = newEncoder
    rw [newEncoder, hdepth, hbuf]

/-- A response whose encoder is idle is as good as a new one. -/
theorem newResponse_of_idle {pooled : Option Response} (h : ∀ r, pooled = some r → Idle r.enc) :
    newResponse pooled = newResponse none := by
  have henc := idle_newResponse h
  cases pooled with
  | none => rfl
  | some r =>
    show (⟨ResponseMessage.zero, (newResponse (some r)).enc⟩ : Response) = ⟨ResponseMessage.zero, newEncoder⟩
    rw [henc]

/-! ## The two ways to write -/

theorem serveKMIP_of_handled {h : StandardProtocolHandler} {env : Env} {pooled : Option Response}
    {req : Request} {resp : Response}
    (hreq : handleRequest reg h env req (newResponse pooled) = some resp) (log : Bool) :
    serveKMIP reg { h with logTraffic := log } env pooled req = writeOut reg log resp := by
  have hsame : handleRequest reg { h with logTraffic := log } env req (newResponse pooled) = some resp :=
    hreq
  rw [serveKMIP, hsame]

/-- While a structure is open, `Bytes` writes nothing, and returns nothing unless it panics. -/
theorem bytes_of_open {r : Response} (hopen : ¬ r.Closed) :
    (r.bytes reg).1.enc.w = [] ∧ ∀ out, (r.bytes reg).2 = some out → out = [] := by
  obtain ⟨b, err, hw, -, -⟩ := encodeValue_outlines reg tagNone
    (.ptr r.message.toVal : GoVal (.ptr Message.responseMessage))
  have hempty := hw.inside { r.enc with w := [] } (Nat.pos_of_ne_zero hopen)
  rw [Response.bytes]
  dsimp only
  rw [encodeAfresh]
  cases hrun : encodeValue reg tagNone (.ptr r.message.toVal) { r.enc with w := [] } with
  | mk e' err =>
    rw [hrun] at hempty
    cases err with
    | none =>
      refine ⟨hempty, fun out hout => ?_⟩
      cases hout
      exact hempty
    | some x => exact ⟨hempty, fun out hout => by cases hout⟩

theorem open_bytes {r : Response} (hopen : ¬ r.Closed) : ¬ (r.bytes reg).1.Closed := fun hc =>
  hopen ((encodeAfresh_depth reg (.ptr r.message.toVal) r.enc).symm.trans hc)

theorem conclude_of_open {req : Request} {reply resp : Response} (hopen : ¬ reply.Closed)
    (h : conclude reg req reply = some resp) : resp.enc.w = [] ∧ ¬ resp.Closed := by
  have hempty := (bytes_of_open reg hopen).1
  have hstill := open_bytes reg hopen
  unfold conclude at h
  rw [← Prod.eta (reply.bytes reg)] at h
  cases hout : (reply.bytes reg).2 with
  | none =>
    rw [hout] at h
    cases h
  | some out =>
    rw [hout] at h
    simp only at h
    cases hm : req.message with
    | none =>
      rw [hm] at h
      cases h
    | some message =>
      rw [hm] at h
      simp only at h
      split at h
      · cases h
        exact ⟨hempty, hstill⟩
      · cases h
        exact ⟨hempty, hstill⟩

/-- After a handler that leaves a structure open nothing is written. -/
theorem written_of_open {log : Bool} {req : Request} {reply resp r : Response} {written : Bytes}
    (hopen : ¬ reply.Closed) (hresp : conclude reg req reply = some resp)
    (hwritten : writeOut reg log resp = some (written, r)) : written = [] := by
  obtain ⟨hempty, hstill⟩ := conclude_of_open reg hopen hresp
  cases log with
  | false => exact (Prod.mk.inj (Option.some.inj hwritten)).1.symm.trans hempty
  | true =>
    rw [writeOut, if_pos rfl, ← Prod.eta (resp.bytes reg)] at hwritten
    cases hout : (resp.bytes reg).2 with
    | none =>
      rw [hout] at hwritten
      cases hwritten
    | some out =>
      rw [hout] at hwritten
      cases hwritten
      exact (bytes_of_open reg hstill).2 _ hout

/-- No message is encoded as nothing. -/
theorem encoding_ne_nil {m : ResponseMessage} : m.encoding reg ≠ .ok [] := by
  intro h
  obtain ⟨tag, body, hitem⟩ := encoding_eq_item reg h
  exact item_ne_nil tag .Structure body hitem.symm

/-- After the handler, the buffer holds the encoding of the response only if the reply is conveyable. -/
theorem conveyable_of_buffer {req : Request} {reply resp : Response} (hresp : conclude reg req reply = some resp)
    (henc : resp.message.encoding reg = .ok resp.enc.w) : Conveyable reg req reply := by
  have hc : reply.Closed := by
    by_contra hopen
    rw [(conclude_of_open reg hopen hresp).1] at henc
    exact encoding_ne_nil reg henc
  obtain ⟨message, b, hm, hb, rfl⟩ := conclude_eq_some reg hc hresp
  refine ⟨hc, message, b, hm, hb, ?_⟩
  by_cases hlarge : tooLarge message (reply.enc.encBuf ++ b) = true
  · rw [if_pos hlarge] at henc ⊢
    exact henc
  · rw [if_neg hlarge] at henc ⊢
    -- the encoding of the reply follows what was pending, and is the whole buffer
    have hsame := Except.ok.inj (hb.symm.trans henc)
    exact List.append_left_eq_self.mp hsame.symm

/-- A conveyable reply leaves its encoding in the buffer, and the encoder idle. -/
theorem Conveyable.buffer {req : Request} {reply : Response} (h : Conveyable reg req reply) :
    ∃ resp, conclude reg req reply = some resp ∧ resp.message.encoding reg = .ok resp.enc.w ∧
      Idle resp.enc := by
  obtain ⟨hc, message, b, hm, hb, hcond⟩ := h
  refine ⟨_, conclude_of_encoding reg hc hm hb, ?_⟩
  by_cases hlarge : tooLarge message (reply.enc.encBuf ++ b) = true
  · rw [if_pos hlarge] at hcond ⊢
    exact ⟨hcond, rfl, rfl⟩
  · rw [if_neg hlarge] at hcond ⊢
    rw [hcond]
    exact ⟨hb, rfl, rfl⟩

/-- The client receives the response message, with and without traffic logging, exactly for the
    requests that are answered: whatever the handler does and whatever response the pool returns. -/
theorem serveKMIP_faithful_iff (h : StandardProtocolHandler) (env : Env) (pooled : Option Response)
    (req : Request) : Faithful reg h env pooled req ↔ Answered reg h env pooled req := by
  constructor
  · rintro ⟨resp, b, hreq, hb, -, hserve⟩
    obtain ⟨r, hplain⟩ := hserve false
    rw [serveKMIP_of_handled reg hreq, writeOut] at hplain
    have hw : resp.enc.w = b := (Prod.mk.inj (Option.some.inj hplain)).1
    rw [← hw] at hb
    rcases (handleRequest_eq_some reg).mp hreq with hearly | ⟨req₁, resp₁, called, hadm, hcall, hconclude⟩
    · -- an early exit leaves the buffer empty
      rw [admission_enc_of_err reg hearly, newResponse_w] at hb
      exact absurd hb (encoding_ne_nil reg)
    · obtain ⟨message, hparse, hversion, rfl, rfl⟩ := (admission_eq_ok_iff reg).mp hadm
      exact ⟨message, hparse, hversion, called, hcall, conveyable_of_buffer reg hconclude hb⟩
  · rintro ⟨message, hparse, hversion, called, hcall, hconvey⟩
    obtain ⟨resp, hresp, henc, hidle⟩ := hconvey.buffer
    have hadm : admission reg h env req (newResponse pooled) = .ok (req.accepted h message, _) :=
      (admission_eq_ok_iff reg).mpr ⟨message, hparse, hversion, rfl, rfl⟩
    have hreq := (handleRequest_eq_some reg).mpr (.inr ⟨_, _, called, hadm, hcall, hresp⟩)
    refine ⟨resp, resp.enc.w, hreq, henc, encoding_eq_item reg henc, fun log => ?_⟩
    rw [serveKMIP_of_handled reg hreq]
    cases log with
    | true => exact ⟨_, writeOut_logged reg hidle henc⟩
    | false => exact ⟨_, rfl⟩

end

/-! ## A request that is answered and one that is not -/

/-- A request message without batch items, from a client of version `major`.4. -/
def versionRequest (major : BitVec 32) : Request :=
  Request.ofTTLV (item tagRequestMessage .Structure (item 0x420077 .Structure
    (item 0x420069 .Structure (Prim.item 0x42006a (.integer major) ++ Prim.item 0x42006b (.integer 4)) ++
      Prim.item 0x42000d (.integer 0))))

/-- A server of version 1.4 whose message handler adds nothing to the response. -/
def plainHandler : StandardProtocolHandler where
  protocolVersion := ⟨1, 4⟩
  messageHandler := fun req resp => some ⟨[], resp.message, req⟩
  logTraffic := false

def plainEnv : Env where
  now := ⟨1700000000, 0⟩
  scv := lit "0f8fad5b-d9cb-469f-a165-70867728950e"
  errorText := fun _ => lit "invalid"

/-- The response to the request when it reaches the handler of `plainHandler`. -/
def plainReply (message : GoVal Message.requestMessage) : Response :=
  let resp := ((newResponse none).start plainHandler plainEnv).setClientCorrelationValue
    (clientCorrelationValue (requestHeader message))
  { resp with message := resp.message.setBatchCount }

/-- What is computed on the two requests. -/
theorem versionRequest_runs :
    (match parseMessage Message.messageRegistry (versionRequest 1) with
      | .ok m => decide (versionMajor (requestVersion (requestHeader m)) = 1) &&
          decide (maximumResponseSize (requestHeader m) = 0) &&
          ((plainReply m).message.encoding Message.messageRegistry).toOption.isSome
      | _ => false) = true ∧
    (serveKMIP Message.messageRegistry plainHandler plainEnv none (versionRequest 1)).map
      (fun p => (p.1.length, p.2.enc.encodeDepth, p.2.enc.encBuf)) = some (136, 0, []) ∧
    (serveKMIP Message.messageRegistry plainHandler plainEnv none (versionRequest 2)).map Prod.fst =
      some [] ∧
    (serveKMIP Message.messageRegistry { plainHandler with logTraffic := true } plainEnv none
      (versionRequest 2)).map (fun p => p.1.length) = some 240 := by
  decide +kernel

/-- The request is served with a new response, and again with the one that was released. -/
theorem serveKMIP_faithful_versionRequest :
    ∃ p, serveKMIP Message.messageRegistry plainHandler plainEnv none (versionRequest 1) = some p ∧
      Faithful Message.messageRegistry plainHandler plainEnv (some p.2) (versionRequest 1) := by
  obtain ⟨hcheck, hfirst, -⟩ := versionRequest_runs
  obtain ⟨p, hp, hstate⟩ := Option.map_eq_some_iff.mp hfirst
  obtain ⟨-, hdepth, hbuf⟩ : p.1.length = 136 ∧ p.2.enc.encodeDepth = 0 ∧ p.2.enc.encBuf = [] := by
    simpa using hstate
  have hnew : newResponse (some p.2) = newResponse none :=
    newResponse_of_idle fun r hr => by
      cases hr
      exact ⟨hdepth, hbuf⟩
  refine ⟨p, hp, (serveKMIP_faithful_iff Message.messageRegistry plainHandler plainEnv (some p.2)
    (versionRequest 1)).mpr ?_⟩
  cases hparse : parseMessage Message.messageRegistry (versionRequest 1) with
  | panic =>
    rw [hparse] at hcheck
    cases hcheck
  | err e =>
    rw [hparse] at hcheck
    cases hcheck
  | ok message =>
    rw [hparse] at hcheck
    simp only [Bool.and_eq_true, decide_eq_true_eq] at hcheck
    obtain ⟨⟨hmajor, hmax⟩, henc⟩ := hcheck
    refine ⟨message, hparse, hmajor, ?_⟩
    rw [hnew]
    refine ⟨(_, plainReply message), rfl, rfl, ?_⟩
    cases hb : (plainReply message).message.encoding Message.messageRegistry with
    | error err =>
      rw [hb] at henc
      cases henc
    | ok b =>
      refine ⟨message, b, rfl, rfl, ?_⟩
      have hfits : tooLarge message ([] ++ b) = false := by
        rw [tooLarge, hmax]
        rfl
      rw [if_neg (by rw [Bool.not_eq_true]; exact hfits)]
      rfl

/-- A client of another major version receives nothing unless traffic is logged. -/
theorem versionRequest_unanswered :
    (serveKMIP Message.messageRegistry plainHandler plainEnv none (versionRequest 2)).map Prod.fst =
      some [] ∧
    (serveKMIP Message.messageRegistry { plainHandler with logTraffic := true } plainEnv none
      (versionRequest 2)).map (fun p => p.1.length) = some 240 ∧
    ¬ Faithful Message.messageRegistry plainHandler plainEnv none (versionRequest 2) := by
  obtain ⟨-, -, hempty, hlogged⟩ := versionRequest_runs
  refine ⟨hempty, hlogged, ?_⟩
  rintro ⟨resp, b, -, -, ⟨tag, body, hitem⟩, hserve⟩
  obtain ⟨r, hplain⟩ := hserve false
  have hb : some b = some [] := (congrArg (Option.map Prod.fst) hplain).symm.trans hempty
  rw [Option.some.inj hb] at hitem
  exact item_ne_nil tag .Structure body hitem.symm

end KmipGo.Server
