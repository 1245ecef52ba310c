import KmipGo.Server.Connection
import KmipGo.Server.Exchange

/-! # Sessions

A server with an application behind it.  The connections of `Connection` take turns
inside `HandleMessage` as well: the functions of the application, each of which
runs undisturbed, change a state that all of them share, so that what one client is
told depends on what the others have asked for.

* `Happens` — the abstract server: a call of a client is one step on the state of the
  application, and on the ID placeholder of its request.
* `CallBatch`, `Told` — the requests of a client, and what it reads from the responses.
* `SessionStep` — a step of a connection, or one of the items of its request.
* `Working` — how a request in progress stands to the calls that have happened.
-/

namespace KmipGo.Server

open KmipGo.Lib KmipGo.Ttlv KmipGo.Reg KmipGo.Go KmipGo.Encoder KmipGo.Decoder KmipGo.Codec

/-! ## The abstract server -/

section

variable (reg : Registry) {κ τ : Type} [DecidableEq τ] {services : BitVec 32 → Option (Service (GoString × κ))}

/-- A call with its answer: whose it is, and in which of the client's requests. -/
structure Event (τ : Type) {κ : Type} (services : BitVec 32 → Option (Service (GoString × κ))) where
  client : τ
  number : Nat
  answer : Answer services

/-- The state of the application, and the ID placeholder of each request. -/
abbrev Office (τ κ : Type) := κ × (τ × Nat → GoString)

/-- A call: the service runs on the payload as it has arrived. -/
inductive Happens : Office τ κ → Event τ services → Office τ κ → Prop where
  | mk {app app' : κ} {ids : τ × Nat → GoString} {e : Event τ services} {p : e.answer.ask.service.Request}
      {id : GoString} (harrived : Arrived reg e.answer.ask.payload p)
      (hrun : e.answer.ask.service.run (ids (e.client, e.number), app) p = (e.answer.result, (id, app'))) :
      Happens (app, ids) e (app', Function.update ids (e.client, e.number) id)

/-- The calls of a client. -/
def callsOf (es : List (Event τ services)) (c : τ) : List (Nat × Answer services) :=
  (es.filter fun e => e.client = c).map fun e => (e.number, e.answer)

theorem callsOf_snoc_self (es : List (Event τ services)) (c : τ) (n : Nat) (a : Answer services) :
    callsOf (es ++ [⟨c, n, a⟩]) c = callsOf es c ++ [(n, a)] := by
  simp [callsOf]

theorem callsOf_snoc_other (es : List (Event τ services)) {c d : τ} (h : c ≠ d) (n : Nat) (a : Answer services) :
    callsOf (es ++ [⟨c, n, a⟩]) d = callsOf es d := by
  simp [callsOf, h]

/-- A call concerns the ID placeholder of its request only. -/
theorem update_placeholder_self (ids : τ × Nat → GoString) (c : τ) (n : Nat) (id : GoString) :
    (fun m => Function.update ids (c, n) id (c, m)) = Function.update (fun m => ids (c, m)) n id := by
  funext m
  by_cases hm : m = n
  · rw [hm, Function.update_self, Function.update_self]
  · have hkey : (c, m) ≠ (c, n) := fun hkey => hm (Prod.mk.inj hkey).2
    rw [Function.update_of_ne hkey, Function.update_of_ne hm]

theorem update_placeholder_other (ids : τ × Nat → GoString) {c d : τ} (h : d ≠ c) (n : Nat) (id : GoString) :
    (fun m => Function.update ids (c, n) id (d, m)) = fun m => ids (d, m) := by
  funext m
  have hkey : (d, m) ≠ (c, n) := fun hkey => h (Prod.mk.inj hkey).1
  rw [Function.update_of_ne hkey]

variable {reg}

/-- The ID placeholder is empty before the first call of a request. -/
theorem placeholder_untouched {app₀ : κ} {es : List (Event τ services)} {s : Office τ κ}
    (h : History (Happens reg) (app₀, fun _ => []) es s) {c : τ} {n : Nat} (hn : ∀ x ∈ callsOf es c, x.1 ≠ n) :
    s.2 (c, n) = [] := by
  induction h with
  | nil => rfl
  | @snoc es s h e s' hhappens ih =>
    cases hhappens with
    | mk harrived hrun =>
      obtain ⟨d, m, a⟩ := e
      by_cases hd : d = c
      · subst hd
        rw [callsOf_snoc_self] at hn
        have hm : m ≠ n := hn (m, a) (List.mem_append_right _ (List.mem_singleton_self _))
        have hkey : (d, n) ≠ (d, m) := fun hkey => hm (Prod.mk.inj hkey).2.symm
        exact (Function.update_of_ne hkey ..).trans (ih fun x hx => hn x (List.mem_append_left _ hx))
      · rw [callsOf_snoc_other es hd] at hn
        have hkey : (c, n) ≠ (d, m) := fun hkey => hd (Prod.mk.inj hkey).1.symm
        exact (Function.update_of_ne hkey ..).trans (ih hn)

end

/-! ## Requests and replies -/

section

variable (reg : Registry) (version : ProtocolVersion) {κ : Type}
  (services : BitVec 32 → Option (Service (GoString × κ)))

/-- A request of a client: a batch of calls, as it is sent. -/
structure CallBatch where
  header : GoVal Message.requestHeader
  asks : List (Ask services)
  bytes : Bytes
  sendable : MessageSendable reg (requestOf header asks) tagRequestMessage
  marshalled : marshal reg (requestOf header asks) = .ok bytes
  size : bytes.length < 2 ^ 32
  version : versionMajor (requestVersion header) = version.protocolVersionMajor
  unlimited : (maximumResponseSize header).toInt ≤ 0
  count : asks.length < 2 ^ 31

variable {reg version services}

theorem CallBatch.parsed (b : CallBatch reg version services) :
    (∃ c : Block, c.bytes = b.bytes ∧ c.Sized) ∧
      ∃ message, parseMessage reg (Request.ofTTLV b.bytes) = .ok message ∧
        Arrived reg (requestOf b.header b.asks) message := by
  obtain ⟨out, hout, hsent⟩ := parseMessage_sent b.sendable
  rw [b.marshalled] at hout
  cases hout
  exact hsent b.size

/-- The bytes are a response to the request, from which the client reads these answers. -/
structure Told (b : CallBatch reg version services) (answers : List (Answer services)) (out : Bytes) : Prop where
  asks : answers.map Answer.ask = b.asks
  reads : out.length < 2 ^ 32 → (∃ c : Block, c.bytes = out ∧ c.Sized ∧ c.tag = tagResponseMessage) ∧
    ∃ w, unmarshalBytes reg Message.responseMessage out = (w, .ok ()) ∧
      answeredCorrelation w = clientCorrelationValue b.header ∧
      List.Forall₂ (Answer.Received reg) answers (responseItems w)

variable (reg version services)

/-- A request that is answered. -/
structure Reply where
  batch : CallBatch reg version services
  answers : List (Answer services)
  bytes : Bytes
  told : Told batch answers bytes

variable {reg version services}

/-- The stream of a client that sends these requests and then breaks off. -/
theorem denotes_batches (bs : List (CallBatch reg version services)) {tail : Bytes} {e : DecErr}
    (htail : nextTTLV tail = .err e) :
    Denotes ((bs.map CallBatch.bytes).flatten ++ tail) (bs.map CallBatch.bytes) e := by
  induction bs with
  | nil => exact .ends htail
  | cons b bs ih =>
    obtain ⟨⟨c, hc, hsized⟩, -⟩ := b.parsed
    have hsplit : ((b :: bs).map CallBatch.bytes).flatten ++ tail =
        b.bytes ++ ((bs.map CallBatch.bytes).flatten ++ tail) := by
      rw [List.map_cons, List.flatten_cons, List.append_assoc]
    refine .request hsplit ?_ ih
    rw [hsplit, ← hc]
    exact Value.nextTTLV_bytes_append c _ hsized

end

/-! ## Sessions -/

/-- How far `HandleMessage` has come with a request. -/
structure Work where
  request : Request
  rest : List RequestBatchItem
  items : List ResponseBatchItem
  idPlaceholder : GoString
  decoder : Dec

/-- A connection, and `HandleMessage` when it runs for it. -/
structure Session (ρ : Type) where
  conn : Conn ρ
  work : Option Work

/-- The job is one of a server whose message handler is a multiplexer, which does not call `Bytes`. -/
structure Job.Muxed (version : ProtocolVersion) (job : Job) : Prop where
  protocolVersion : job.handler.protocolVersion = version
  sizings : ∀ req resp out, job.handler.messageHandler req resp = some out → out.sizings = []

theorem Job.Muxed.uninterrupted {version : ProtocolVersion} {job : Job} (h : job.Muxed version) (reg : Registry) :
    job.Uninterrupted reg := by
  intro req resp _ out hout x hx
  rw [h.sizings req resp out hout] at hx
  exact absurd hx List.not_mem_nil

/-- A message handler that does what `HandleMessage` has done. -/
def Work.messageHandler (work : Option Work) : MessageHandler := fun req resp =>
  some ⟨[], { resp.message with batchItem := (work.map Work.items).getD resp.message.batchItem }, req⟩

def Job.handled (job : Job) (work : Option Work) : Job :=
  { job with handler := { job.handler with messageHandler := Work.messageHandler work } }

/-- The job, with a message handler that panics. -/
def Job.panicked (job : Job) : Job :=
  { job with handler := { job.handler with messageHandler := fun _ _ => none } }

theorem Job.Muxed.handled {version : ProtocolVersion} {job : Job} (h : job.Muxed version) (work : Option Work) :
    (job.handled work).Muxed version := by
  refine ⟨h.protocolVersion, fun req resp out hout => ?_⟩
  cases hout
  rfl

theorem Job.Muxed.panicked {version : ProtocolVersion} {job : Job} (h : job.Muxed version) :
    job.panicked.Muxed version :=
  ⟨h.protocolVersion, fun req resp out hout => by cases hout⟩

section

variable (reg : Registry) (r : BufferedReader UInt8) {κ : Type} (texts : Texts)
  (handlers : BitVec 32 → Option (Handler κ)) (version : ProtocolVersion)

/-- `HandleMessage` has returned, if it was called. -/
def Returned (job : Job) (taken : Option Response) (work : Option Work) : Prop :=
  ∀ req resp, admission reg job.handler job.env job.request (newResponse taken) = .ok (req, resp) →
    ∃ w, work = some w ∧ w.rest = []

/-- A step of a connection or of `HandleMessage`, on the pool and the state of the application. -/
inductive SessionStep : List Response × κ → Session r.State → List Response × κ → Session r.State → Prop where
  /-- a step that has nothing to do with a request in progress -/
  | conn {pool pool' : List Response} {app : κ} {a a' : Conn r.State} {work : Option Work}
      (hpc : ∀ job taken, a.pc ≠ .serving job taken)
      (hstep : ConnStep reg r (Job.Muxed version) pool a pool' a') :
      SessionStep (pool, app) ⟨a, work⟩ (pool', app) ⟨a', none⟩
  /-- `HandleMessage` is called -/
  | handle {pool : List Response} {app : κ} {a : Conn r.State} {job : Job} {taken : Option Response}
      {req : Request} {resp : Response} {message : GoVal Message.requestMessage} (hpc : a.pc = .serving job taken)
      (hadm : admission reg job.handler job.env job.request (newResponse taken) = .ok (req, resp))
      (hmessage : req.message = some message) :
      SessionStep (pool, app) ⟨a, none⟩ (pool, app)
        ⟨a, some ⟨req, batchItems message, resp.message.batchItem, [], newDecoder⟩⟩
  /-- the next item of its loop -/
  | item {pool : List Response} {app : κ} {a : Conn r.State} {job : Job} {taken : Option Response} {w : Work}
      {i : RequestBatchItem} {rest : List RequestBatchItem} {item : ResponseBatchItem} {st : HandlerState κ}
      (hpc : a.pc = .serving job taken) (hrest : w.rest = i :: rest)
      (hbi : (muxOf reg texts handlers none).bi ⟨w.idPlaceholder, w.decoder, app⟩ w.request i = (some item, st)) :
      SessionStep (pool, app) ⟨a, some w⟩ (pool, st.application)
        ⟨a, some ⟨w.request, rest, w.items ++ [OperationMux.correlate i item], st.idPlaceholder, st.decoder⟩⟩
  /-- what follows when it has returned -/
  | conclude {pool pool' : List Response} {app : κ} {a a' : Conn r.State} {work : Option Work} {job : Job}
      {taken : Option Response} (hpc : a.pc = .serving job taken) (hdone : Returned reg job taken work)
      (hstep : ConnStep reg r (Job.Muxed version) pool { a with pc := .serving (job.handled work) taken } pool' a') :
      SessionStep (pool, app) ⟨a, work⟩ (pool', app) ⟨a', none⟩
  /-- it panics, in one of the functions of the application -/
  | panic {pool : List Response} {app : κ} {a : Conn r.State} {work : Option Work} {job : Job}
      {taken : Option Response} {req : Request} {resp : Response} (hpc : a.pc = .serving job taken)
      (hadm : admission reg job.handler job.env job.request (newResponse taken) = .ok (req, resp)) :
      SessionStep (pool, app) ⟨a, work⟩ (pool, app) ⟨a.close (.panicked job.panicked) [], none⟩

variable {τ : Type}

abbrev Sessions (τ κ : Type) := Threads (List Response × κ) (Session r.State) τ

def Sessions.accepted (app : κ) (tls : τ → Bool) (input : τ → List (Chunk UInt8)) : Sessions r τ κ :=
  ⟨([], app), fun c => ⟨(Conns.accepted r tls input).own c, none⟩⟩

def SessionRuns [DecidableEq τ] : Sessions r τ κ → Sessions r τ κ → Prop :=
  Threads.Steps fun _ => SessionStep reg r texts handlers version

variable {reg r texts handlers version}

/-! ## Sessions are connections -/

/-- Nothing is known of the message handler while it runs. -/
theorem connInv_running {left : r.State → Bytes} {ms : List TTLV} {e : DecErr} {a : Conn r.State}
    (h : ConnInv reg (Job.Muxed version) left ms e a) {job : Job} {taken : Option Response}
    (hpc : a.pc = .serving job taken) (job' : Job) (hrequest : job'.request = job.request)
    (hmuxed : job.Muxed version → job'.Muxed version) :
    ConnInv reg (Job.Muxed version) left ms e { a with pc := .serving job' taken } := by
  obtain ⟨todo, hms, hstands, hready⟩ := h.todo
  simp only [Conn.Stands, Conn.Ready, hpc] at hstands hready
  obtain ⟨hjob, hhead, hsent⟩ := hstands
  exact ⟨h.fresh, todo, hms, ⟨hmuxed hjob, by rw [hrequest]; exact hhead, hsent⟩, hready⟩

/-- Where `HandleMessage` is called and panics, so does `ServeKMIP`. -/
theorem serve_panicked {job : Job} {taken : Option Response} {req : Request} {resp : Response}
    (hadm : admission reg job.handler job.env job.request (newResponse taken) = .ok (req, resp)) :
    job.panicked.serve reg taken = none := by
  have hsame : admission reg job.panicked.handler job.panicked.env job.panicked.request (newResponse taken) =
      .ok (req, resp) := hadm
  rw [Job.serve, serveKMIP, handleRequest, hsame]
  rfl

theorem connInv_sessionStep {left : r.State → Bytes} (hr : r.Documented left) {ms : List TTLV} {e : DecErr}
    {shared shared' : List Response × κ} {s s' : Session r.State} (hpool : PoolIdle shared.1)
    (h : ConnInv reg (Job.Muxed version) left ms e s.conn)
    (hstep : SessionStep reg r texts handlers version shared s shared' s') :
    PoolIdle shared'.1 ∧ ConnInv reg (Job.Muxed version) left ms e s'.conn := by
  have hmuxed : ∀ job : Job, job.Muxed version → job.Uninterrupted reg := fun job hjob => hjob.uninterrupted reg
  cases hstep with
  | conn hpc hstep => exact connInv_step reg hmuxed hr hpool h hstep
  | handle hpc hadm hmessage => exact ⟨hpool, h⟩
  | item hpc hrest hbi => exact ⟨hpool, h⟩
  | conclude hpc hdone hstep =>
    exact connInv_step reg hmuxed hr hpool (connInv_running h hpc (Job.handled _ _) rfl fun hjob => hjob.handled _)
      hstep
  | panic hpc hadm =>
    exact connInv_step reg hmuxed hr hpool (connInv_running h hpc (Job.panicked _) rfl Job.Muxed.panicked)
      (.panic rfl (serve_panicked hadm))

theorem connInv_outline {left : r.State → Bytes} (hr : r.Documented left) {ms : τ → List TTLV} {e : τ → DecErr} :
    Threads.Outline (fun _ : τ => SessionStep reg r texts handlers version) (fun shared => PoolIdle shared.1)
      (fun c _ s => ConnInv reg (Job.Muxed version) left (ms c) (e c) s.conn) :=
  ⟨fun hpool hs hstep => connInv_sessionStep hr hpool hs hstep, fun _ _ _ hd _ => hd⟩

/-! ## A request in progress -/

/-- What the results rely on: the registry has the types of the messages, the version can be written, and
    errors and response payloads of the services can be presented. -/
structure Equipped (reg : Registry) (version : ProtocolVersion)
    (services : BitVec 32 → Option (Service (GoString × κ))) : Prop where
  types : ResponseTypes reg
  major : FitsInteger version.protocolVersionMajor
  minor : FitsInteger version.protocolVersionMinor
  explained : Explained services
  sendable : ResponsesSendable reg services

/-- `HandleMessage` has the answers `cur`, and these items are left. -/
structure Working (b : CallBatch reg version (servicesOf reg handlers)) (id : GoString)
    (cur : List (Answer (servicesOf reg handlers))) (todo : List (Ask (servicesOf reg handlers)))
    (is : GoVals Message.requestBatchItem) (w : Work) : Prop where
  asks : b.asks = cur.map Answer.ask ++ todo
  rest : w.rest = elemList is
  arrived : ElemsArrived reg (askVals todo) is
  items : List.Forall₂ Answer.Item cur w.items
  sendable : ∀ item ∈ w.items, ItemSendable reg item
  idPlaceholder : w.idPlaceholder = id

variable {b : CallBatch reg version (servicesOf reg handlers)} {job : Job} {taken : Option Response}

/-- A request of the client is admitted. -/
theorem CallBatch.admitted (b : CallBatch reg version (servicesOf reg handlers)) (taken : Option Response)
    (hjob : job.Muxed version) (hrequest : job.request = Request.ofTTLV b.bytes) :
    ∃ message, parseMessage reg job.request = .ok message ∧ Arrived reg (requestOf b.header b.asks) message ∧
      admission reg job.handler job.env job.request (newResponse taken) =
        .ok (job.request.accepted job.handler message,
          preparedResponse job.handler job.env taken (clientCorrelationValue (requestHeader message))) := by
  obtain ⟨-, message, hparse, harrived⟩ := b.parsed
  rw [← hrequest] at hparse
  refine ⟨message, hparse, harrived, (admission_eq_ok_iff reg).mpr ⟨message, hparse, ?_, rfl, rfl⟩⟩
  have hversion : job.handler.protocolVersion = version := hjob.protocolVersion
  rw [major_of_arrived reg harrived, b.version, hversion]

/-- `HandleMessage` is called. -/
theorem working_start (hjob : job.Muxed version) (hrequest : job.request = Request.ofTTLV b.bytes) {req : Request}
    {resp : Response} (hadm : admission reg job.handler job.env job.request (newResponse taken) = .ok (req, resp))
    {message : GoVal Message.requestMessage} (hmessage : req.message = some message) :
    ∃ is, Working b [] [] b.asks is ⟨req, batchItems message, resp.message.batchItem, [], newDecoder⟩ := by
  obtain ⟨message', -, harrived, hadm'⟩ := b.admitted taken hjob hrequest
  rw [hadm] at hadm'
  cases hadm'
  cases hmessage
  have hnone := batchItem_preparedResponse job.handler job.env taken (clientCorrelationValue (requestHeader message))
  refine ⟨_, rfl, rfl, items_of_arrived reg harrived, ?_, ?_, rfl⟩
  · rw [hnone]
    exact .nil
  · rw [hnone]
    exact fun item hitem => absurd hitem List.not_mem_nil

/-- An item is a call. -/
theorem Working.item (heq : Equipped reg version (servicesOf reg handlers)) {id : GoString}
    {cur : List (Answer (servicesOf reg handlers))} {asks : List (Ask (servicesOf reg handlers))}
    {is : GoVals Message.requestBatchItem} {w : Work} (hw : Working b id cur asks is w) {i : RequestBatchItem}
    {rest : List RequestBatchItem} (hrest : w.rest = i :: rest) {app : κ} {item : ResponseBatchItem}
    {st : HandlerState κ}
    (hbi : (muxOf reg texts handlers none).bi ⟨w.idPlaceholder, w.decoder, app⟩ w.request i = (some item, st)) :
    ∃ (a : Answer (servicesOf reg handlers)) (p : a.ask.service.Request), Arrived reg a.ask.payload p ∧
      a.ask.service.run (id, app) p = (a.result, (st.idPlaceholder, st.application)) ∧
      ∃ asks' is', Working b st.idPlaceholder (cur ++ [a]) asks' is'
        ⟨w.request, rest, w.items ++ [OperationMux.correlate i item], st.idPlaceholder, st.decoder⟩ := by
  have hleft := hw.rest
  have harrived := hw.arrived
  rw [hrest] at hleft
  cases is with
  | nil => cases hleft
  | cons i' is' =>
    cases hleft
    cases asks with
    | nil => exact absurd harrived not_false
    | cons a asks' =>
      obtain ⟨p, item', st', hp, hbi', hview, hresult⟩ :=
        bi_arrived reg texts handlers heq.explained harrived.1 ⟨w.idPlaceholder, w.decoder, app⟩ w.request
      rw [hbi] at hbi'
      cases hbi'
      obtain ⟨hop, hid, -⟩ := item_arrived reg harrived.1
      have hin : (⟨w.idPlaceholder, w.decoder, app⟩ : HandlerState κ).view = (id, app) := by
        rw [HandlerState.view, hw.idPlaceholder]
      -- the service has run on the shared state and on the placeholder of this request
      rw [hin] at hview hresult
      refine ⟨⟨a, (a.service.run (id, app) p).1⟩, p, hp, Prod.ext rfl hview.symm, asks', is', ?_, rfl, harrived.2, ?_,
        ?_, rfl⟩
      · rw [hw.asks, List.map_append, List.append_assoc]
        rfl
      · refine List.rel_append hw.items (.cons ⟨item, _, hresult, hid, ?_⟩ .nil)
        rw [OperationMux.correlate, hop]
      · intro x hx
        rcases List.mem_append.mp hx with hx | hx
        · exact hw.sendable x hx
        · rw [List.mem_singleton.mp hx]
          have hsend : ItemSendable reg item :=
            itemSendable_result reg hresult fun r hr => heq.sendable _ _ a.offered _ _ r hr
          exact hsend

/-- When all items are answered, `ServeKMIP` writes a response with the answers. -/
theorem Working.serve (heq : Equipped reg version (servicesOf reg handlers)) (hjob : job.Muxed version)
    (hrequest : job.request = Request.ofTTLV b.bytes) (htaken : ∀ resp, taken = some resp → Idle resp.enc)
    {id : GoString} {cur : List (Answer (servicesOf reg handlers))} {asks : List (Ask (servicesOf reg handlers))}
    {is : GoVals Message.requestBatchItem} {w : Work} (hw : Working b id cur asks is w) (hrest : w.rest = []) :
    ∃ out resp, (job.handled (some w)).serve reg taken = some (out, resp) ∧ Told b cur out := by
  -- no items are left, so no calls are
  have hasks : cur.map Answer.ask = b.asks := by
    have hleft := hw.rest
    have harrived := hw.arrived
    rw [hrest] at hleft
    cases is with
    | cons i is => cases hleft
    | nil =>
      cases asks with
      | cons a asks => exact absurd harrived not_false
      | nil => rw [hw.asks, List.append_nil]
  obtain ⟨message, hparse, harrived, -⟩ := b.admitted none hjob hrequest
  have hprotocol : (job.handled (some w)).handler.protocolVersion = version := hjob.protocolVersion
  obtain ⟨out, hout, hfits, hread⟩ := reply_received reg heq.types (hprotocol ▸ heq.major) (hprotocol ▸ heq.minor)
    job.env none b.unlimited b.count harrived hasks hw.items hw.sendable
  have hhandled := handleRequest_of_handled reg (fun r hr => by cases hr) hparse
    (by rw [major_of_arrived reg harrived, b.version, hprotocol]) rfl rfl hout
  rw [hfits] at hhandled
  obtain ⟨resp, hwritten⟩ := serveKMIP_written reg hhandled ⟨rfl, rfl⟩ hout
  refine ⟨out, resp, ?_, hasks, fun hsize => ?_⟩
  · -- the response of the pool is as good as a new one
    rw [serve_of_idle reg _ htaken]
    exact hwritten.trans (congrArg (fun x => some (x, resp)) (ite_self out))
  · obtain ⟨hblock, m, hm, hccv, -, hreceived⟩ := hread hsize
    exact ⟨hblock, m, hm, hccv, hreceived⟩

end

end KmipGo.Server
