import Mathlib.Data.Prod.Lex
import Mathlib.Order.WithBot
import KmipGo.Server.Sessions

/-! # The server is linearizable

The sessions of `Sessions` refine the abstract server.

* `Session.Serves` — what a client has sent and received, in terms of the history of
  calls.
* `sessions_linearizable` — in every run, the calls have happened one after the
  other, those of each client in its own order, and each client has received the
  results that its calls had there.
* `sessions_answered` — a client never has to wait for another one.
-/

namespace KmipGo.Server

open KmipGo.Lib KmipGo.Ttlv KmipGo.Reg KmipGo.Go KmipGo.Encoder KmipGo.Decoder KmipGo.Codec

section

variable {reg : Registry} {r : BufferedReader UInt8} {κ τ : Type} {texts : Texts}
  {handlers : BitVec 32 → Option (Handler κ)} {version : ProtocolVersion}
  {b : CallBatch reg version (servicesOf reg handlers)} {job : Job} {taken : Option Response}

/-! ## What a client has received -/

/-- The calls `cur` are from the first of these requests, and `part` is from its response. -/
structure Underway (todo : List (CallBatch reg version (servicesOf reg handlers)))
    (cur : List (Answer (servicesOf reg handlers))) (part : Bytes) : Prop where
  calls : cur = [] ∨ ∃ b, todo.head? = some b ∧ cur.map Answer.ask <+: b.asks
  bytes : part = [] ∨ ∃ b out, todo.head? = some b ∧ Told b cur out ∧ part <+: out

/-- Where a session is with the first of the requests that are not answered. -/
def Session.Current (todo : List (CallBatch reg version (servicesOf reg handlers))) (id : GoString)
    (cur : List (Answer (servicesOf reg handlers))) (part : Bytes) (s : Session r.State) : Prop :=
  match s.conn.pc with
  | .handshaking | .reading => cur = [] ∧ part = []
  | .serving job _ => part = [] ∧ job.Muxed version ∧ ∃ b, todo.head? = some b ∧
      job.request = Request.ofTTLV b.bytes ∧
      match s.work with
      | none => cur = []
      | some w => ∃ asks is, Working b id cur asks is w
  | .flushing _ out => part = [] ∧ ∃ b, todo.head? = some b ∧ Told b cur out
  | .closed _ => Underway todo cur part

/-- The client has received these replies, and `part` of another one. -/
structure Session.Serves (batches : List (CallBatch reg version (servicesOf reg handlers)))
    (calls : List (Nat × Answer (servicesOf reg handlers))) (ids : Nat → GoString) (s : Session r.State)
    (replies : List (Reply reg version (servicesOf reg handlers)))
    (todo : List (CallBatch reg version (servicesOf reg handlers))) (cur : List (Answer (servicesOf reg handlers)))
    (part : Bytes) : Prop where
  batches : batches = replies.map Reply.batch ++ todo
  sent : s.conn.sent = (replies.map Reply.bytes).flatten ++ part
  answered : s.conn.answered.length = replies.length
  calls : calls = numbered (replies.map Reply.answers) ++ cur.map (Prod.mk replies.length)
  current : s.Current todo (ids replies.length) cur part

section

variable {todo : List (CallBatch reg version (servicesOf reg handlers))} {id : GoString}
  {cur : List (Answer (servicesOf reg handlers))} {part : Bytes} {s : Session r.State}

theorem underway_nil : Underway todo ([] : List (Answer (servicesOf reg handlers))) [] :=
  ⟨Or.inl rfl, Or.inl rfl⟩

theorem Working.underway {asks : List (Ask (servicesOf reg handlers))} {is : GoVals Message.requestBatchItem} {w : Work}
    (hw : Working b id cur asks is w) (hhead : todo.head? = some b) : Underway todo cur [] :=
  ⟨Or.inr ⟨b, hhead, asks, hw.asks.symm⟩, Or.inl rfl⟩

theorem Told.underway {out : Bytes} (htold : Told b cur out) (hhead : todo.head? = some b) (hpart : part <+: out) :
    Underway todo cur part :=
  ⟨Or.inr ⟨b, hhead, htold.asks ▸ List.prefix_rfl⟩, Or.inr ⟨b, out, hhead, htold, hpart⟩⟩

theorem Session.Current.underway (h : s.Current todo id cur part) : Underway todo cur part := by
  rw [Session.Current] at h
  split at h
  · obtain ⟨rfl, rfl⟩ := h
    exact underway_nil
  · obtain ⟨rfl, rfl⟩ := h
    exact underway_nil
  · obtain ⟨rfl, -, b, hhead, -, hwork⟩ := h
    split at hwork
    · subst hwork
      exact underway_nil
    · obtain ⟨asks, is, hw⟩ := hwork
      exact hw.underway hhead
  · obtain ⟨rfl, b, hhead, htold⟩ := h
    exact htold.underway hhead ⟨_, rfl⟩
  · exact h

end

section

variable {batches : List (CallBatch reg version (servicesOf reg handlers))}
  {calls : List (Nat × Answer (servicesOf reg handlers))} {ids : Nat → GoString} {a : Conn r.State}
  {work : Option Work} {replies : List (Reply reg version (servicesOf reg handlers))}
  {todo : List (CallBatch reg version (servicesOf reg handlers))} {cur : List (Answer (servicesOf reg handlers))}
  {part : Bytes}

/-- A response is written in full. -/
theorem Session.Serves.complete (h : Session.Serves batches calls ids ⟨a, work⟩ replies todo cur [])
    (hhead : todo.head? = some b) {out : Bytes} (htold : Told b cur out) (job : Job) :
    ∃ replies' todo' cur' part',
      Session.Serves batches calls ids ⟨a.complete job out, none⟩ replies' todo' cur' part' := by
  obtain ⟨rest, rfl⟩ := List.head?_eq_some_iff.mp hhead
  refine ⟨replies ++ [⟨b, cur, out, htold⟩], rest, [], [], ?_, ?_, ?_, ?_, rfl, rfl⟩
  · rw [h.batches, List.map_append, List.append_assoc]
    rfl
  · have hsent := h.sent
    simp only [Conn.complete, List.map_append, List.flatten_append, List.append_nil] at hsent ⊢
    rw [hsent]
    simp
  · have hanswered := h.answered
    simp only [Conn.complete, List.length_append, List.length_singleton] at hanswered ⊢
    rw [hanswered]
  · rw [h.calls, List.map_append, List.map_singleton, numbered_snoc, List.length_map, List.map_nil, List.append_nil]

/-- The connection is closed. -/
theorem Session.Serves.close (h : Session.Serves batches calls ids ⟨a, work⟩ replies todo cur []) {part' : Bytes}
    (hunderway : Underway todo cur part') (dec : r.State) (why : Closing) :
    Session.Serves batches calls ids ⟨{ a with dec := dec }.close why part', none⟩ replies todo cur part' := by
  have hsent : a.sent = (replies.map Reply.bytes).flatten ++ [] := h.sent
  rw [List.append_nil] at hsent
  refine ⟨h.batches, ?_, h.answered, h.calls, hunderway⟩
  show a.sent ++ part' = _
  rw [hsent]

/-- The requests that are not answered, as the connection has them. -/
theorem Session.Serves.todo_bytes (h : Session.Serves batches calls ids ⟨a, work⟩ replies todo cur part)
    {ms : List TTLV} (hms : batches.map CallBatch.bytes = a.requests ++ ms) : ms = todo.map CallBatch.bytes := by
  rw [h.batches, List.map_append] at hms
  have hlength : a.requests.length = ((replies.map Reply.batch).map CallBatch.bytes).length := by
    rw [Conn.requests, List.length_map, List.length_map, List.length_map]
    exact h.answered
  exact ((List.append_inj hms.symm hlength).2)

/-- The next request is taken up. -/
theorem Session.Serves.request (h : Session.Serves batches calls ids ⟨a, work⟩ replies todo cur part)
    {left : r.State → Bytes} (hr : r.Documented left) {e : DecErr}
    (hinv : ConnInv reg (Job.Muxed version) left (batches.map CallBatch.bytes) e a) (hpc : a.pc = .reading) {dec : r.State} {m : TTLV}
    (hread : readTTLV r a.dec = (dec, .ok m)) (hrequest : job.request = Request.ofTTLV m) (hjob : job.Muxed version)
    (taken : Option Response) :
    Session.Serves batches calls ids ⟨{ a with dec := dec, pc := .serving job taken }, none⟩ replies todo cur part := by
  obtain ⟨ms, hms, -, hready⟩ := hinv.todo
  have hcurrent := h.current
  simp only [Conn.Ready, Session.Current, hpc] at hready hcurrent
  -- what is read is the first of the requests that are not answered
  obtain ⟨rest, hrest, -⟩ := hready.read hr hread
  have htodo := h.todo_bytes hms
  rw [hrest] at htodo
  cases todo with
  | nil => cases htodo
  | cons b todo =>
    obtain ⟨hm, -⟩ := List.cons.inj htodo
    exact ⟨h.batches, h.sent, h.answered, h.calls, hcurrent.2, hjob, b, rfl, hm ▸ hrequest, hcurrent.1⟩

/-- The goroutine panics while a request is in progress. -/
theorem Session.Serves.panic (h : Session.Serves batches calls ids ⟨a, work⟩ replies todo cur part)
    (hpc : a.pc = .serving job taken) (why : Closing) : ∃ replies' todo' cur' part',
      Session.Serves batches calls ids ⟨a.close why [], none⟩ replies' todo' cur' part' := by
  have hcurrent := h.current
  have hunderway := hcurrent.underway
  simp only [Session.Current, hpc] at hcurrent
  obtain ⟨rfl, -⟩ := hcurrent
  exact ⟨replies, todo, cur, [], h.close hunderway a.dec _⟩

/-- A step of the connection between two requests. -/
theorem Session.Serves.conn {left : r.State → Bytes} (hr : r.Documented left) {e : DecErr}
    (hinv : ConnInv reg (Job.Muxed version) left (batches.map CallBatch.bytes) e a)
    (h : Session.Serves batches calls ids ⟨a, work⟩ replies todo cur part)
    (hpc : ∀ job taken, a.pc ≠ .serving job taken) {pool pool' : List Response} {a' : Conn r.State}
    (hstep : ConnStep reg r (Job.Muxed version) pool a pool' a') :
    ∃ replies' todo' cur' part', Session.Serves batches calls ids ⟨a', none⟩ replies' todo' cur' part' := by
  have hcurrent := h.current
  cases hstep with
  | handshake hpc =>
    simp only [Session.Current, hpc] at hcurrent
    exact ⟨replies, todo, cur, part, h.batches, h.sent, h.answered, h.calls, hcurrent⟩
  | handshakeFails hpc | eof hpc hread | invalidHeader hpc hread | readFails hpc =>
    simp only [Session.Current, hpc] at hcurrent
    obtain ⟨rfl, rfl⟩ := hcurrent
    exact ⟨replies, todo, [], [], h.close underway_nil _ _⟩
  | request hpc hread job hrequest hjob =>
    exact ⟨replies, todo, cur, part, h.request hr hinv hpc hread hrequest hjob none⟩
  | requestPooled hpc hread job hrequest hjob htake =>
    exact ⟨replies, todo, cur, part, h.request hr hinv hpc hread hrequest hjob _⟩
  | flush hpc =>
    simp only [Session.Current, hpc] at hcurrent
    obtain ⟨rfl, b, hhead, htold⟩ := hcurrent
    exact h.complete hhead htold _
  | flushFails hpc hout hpart =>
    simp only [Session.Current, hpc] at hcurrent
    obtain ⟨rfl, b, hhead, htold⟩ := hcurrent
    exact ⟨replies, todo, cur, _, h.close (htold.underway hhead hpart) a.dec _⟩
  | buffer hserving | write hserving | writeFails hserving | panic hserving => exact absurd hserving (hpc _ _)

/-- What a request in progress comes to when `ServeKMIP` returns. -/
theorem Session.Serves.told (heq : Equipped reg version (servicesOf reg handlers))
    (h : Session.Serves batches calls ids ⟨a, work⟩ replies todo cur part) (hpc : a.pc = .serving job taken)
    (htaken : ∀ resp, taken = some resp → Idle resp.enc) (hdone : Returned reg job taken work) {out : Bytes}
    {resp : Response} (hserve : (job.handled work).serve reg taken = some (out, resp)) :
    part = [] ∧ ∃ b, todo.head? = some b ∧ Told b cur out := by
  have hcurrent := h.current
  simp only [Session.Current, hpc] at hcurrent
  obtain ⟨hpart, hjob, b, hhead, hrequest, hwork⟩ := hcurrent
  obtain ⟨message, -, -, hadm⟩ := b.admitted taken hjob hrequest
  obtain ⟨w, rfl, hrest⟩ := hdone _ _ hadm
  obtain ⟨asks, is, hw⟩ := hwork
  obtain ⟨out', resp', hserve', htold⟩ := hw.serve heq hjob hrequest htaken hrest
  cases hserve.symm.trans hserve'
  exact ⟨hpart, b, hhead, htold⟩

/-- A step of the connection when `HandleMessage` has returned. -/
theorem Session.Serves.conclude (heq : Equipped reg version (servicesOf reg handlers))
    (h : Session.Serves batches calls ids ⟨a, work⟩ replies todo cur part) (hpc : a.pc = .serving job taken)
    (htaken : ∀ resp, taken = some resp → Idle resp.enc) (hdone : Returned reg job taken work)
    {pool pool' : List Response} {a' : Conn r.State}
    (hstep : ConnStep reg r (Job.Muxed version) pool { a with pc := .serving (job.handled work) taken } pool' a') :
    ∃ replies' todo' cur' part', Session.Serves batches calls ids ⟨a', none⟩ replies' todo' cur' part' := by
  cases hstep with
  | buffer hserving hserve hsize =>
    cases hserving
    obtain ⟨rfl, b, hhead, htold⟩ := h.told heq hpc htaken hdone hserve
    exact ⟨replies, todo, cur, [], h.batches, h.sent, h.answered, h.calls, rfl, b, hhead, htold⟩
  | write hserving hserve hsize =>
    cases hserving
    obtain ⟨rfl, b, hhead, htold⟩ := h.told heq hpc htaken hdone hserve
    exact h.complete hhead htold _
  | writeFails hserving hserve hsize hpart =>
    cases hserving
    obtain ⟨rfl, b, hhead, htold⟩ := h.told heq hpc htaken hdone hserve
    exact ⟨replies, todo, cur, _, h.close (htold.underway hhead hpart) a.dec _⟩
  | panic hserving => exact h.panic hpc _
  | handshake hpc' | handshakeFails hpc' | request hpc' | requestPooled hpc' | eof hpc' | invalidHeader hpc'
  | readFails hpc' | flush hpc' | flushFails hpc' => cases hpc'

/-- `HandleMessage` is called. -/
theorem Session.Serves.handle (h : Session.Serves batches calls ids ⟨a, none⟩ replies todo cur part)
    (hid : (∀ x ∈ calls, x.1 ≠ replies.length) → ids replies.length = []) (hpc : a.pc = .serving job taken)
    {req : Request} {resp : Response}
    (hadm : admission reg job.handler job.env job.request (newResponse taken) = .ok (req, resp))
    {message : GoVal Message.requestMessage} (hmessage : req.message = some message) :
    Session.Serves batches calls ids
      ⟨a, some ⟨req, batchItems message, resp.message.batchItem, [], newDecoder⟩⟩ replies todo cur part := by
  have hcurrent := h.current
  simp only [Session.Current, hpc] at hcurrent
  obtain ⟨hpart, hjob, b, hhead, hrequest, rfl⟩ := hcurrent
  obtain ⟨is, hw⟩ := working_start hjob hrequest hadm hmessage
  -- none of the calls so far is from this request
  have hfresh : ids replies.length = [] := by
    refine hid fun x hx => ?_
    rw [h.calls, List.map_nil, List.append_nil] at hx
    have hlt := lt_of_mem_numbered hx
    rw [List.length_map] at hlt
    omega
  refine ⟨h.batches, h.sent, h.answered, h.calls, ?_⟩
  simp only [Session.Current, hpc, hfresh]
  exact ⟨hpart, hjob, b, hhead, hrequest, b.asks, is, hw⟩

/-- An item is handled. -/
theorem Session.Serves.item (heq : Equipped reg version (servicesOf reg handlers)) {w : Work}
    (h : Session.Serves batches calls ids ⟨a, some w⟩ replies todo cur part) (hpc : a.pc = .serving job taken)
    {i : RequestBatchItem} {rest : List RequestBatchItem} (hrest : w.rest = i :: rest) {app : κ}
    {item : ResponseBatchItem} {st : HandlerState κ}
    (hbi : (muxOf reg texts handlers none).bi ⟨w.idPlaceholder, w.decoder, app⟩ w.request i = (some item, st)) :
    ∃ (x : Answer (servicesOf reg handlers)) (p : x.ask.service.Request), Arrived reg x.ask.payload p ∧
      x.ask.service.run (ids replies.length, app) p = (x.result, (st.idPlaceholder, st.application)) ∧
      Session.Serves batches (calls ++ [(replies.length, x)]) (Function.update ids replies.length st.idPlaceholder)
        ⟨a, some ⟨w.request, rest, w.items ++ [OperationMux.correlate i item], st.idPlaceholder, st.decoder⟩⟩ replies
        todo (cur ++ [x]) part := by
  have hcurrent := h.current
  simp only [Session.Current, hpc] at hcurrent
  obtain ⟨hpart, hjob, b, hhead, hrequest, asks, is, hw⟩ := hcurrent
  obtain ⟨x, p, hp, hrun, asks', is', hw'⟩ := hw.item heq hrest hbi
  refine ⟨x, p, hp, hrun, h.batches, h.sent, h.answered, ?_, ?_⟩
  · rw [h.calls, List.map_append, List.append_assoc]
    rfl
  · simp only [Session.Current, hpc, Function.update_self]
    exact ⟨hpart, hjob, b, hhead, hrequest, asks', is', hw'⟩

end

/-! ## All sessions -/

variable [DecidableEq τ]

/-- The calls of the history have happened one after the other, and the sessions are where it says. -/
def Consistent (app₀ : κ) (batches : τ → List (CallBatch reg version (servicesOf reg handlers)))
    (es : List (Event τ (servicesOf reg handlers))) (t : Sessions r τ κ) : Prop :=
  ∃ ids : τ × Nat → GoString, History (Happens reg) (app₀, fun _ => []) es (t.shared.2, ids) ∧
    ∀ c, ∃ replies todo cur part,
      (t.own c).Serves (batches c) (callsOf es c) (fun n => ids (c, n)) replies todo cur part

theorem consistent_accepted (app : κ) (batches : τ → List (CallBatch reg version (servicesOf reg handlers)))
    (tls : τ → Bool) (input : τ → List (Chunk UInt8)) :
    Consistent app batches [] (Sessions.accepted r app tls input) := by
  refine ⟨fun _ => [], .nil, fun c => ⟨[], batches c, [], [], rfl, rfl, rfl, rfl, ?_⟩⟩
  cases htls : tls c with
  | true => simp only [Sessions.accepted, Conns.accepted, Session.Current, htls, if_true, and_self]
  | false =>
    simp only [Sessions.accepted, Conns.accepted, Session.Current, htls, Bool.false_eq_true, if_false, and_self]

/-- What holds in every state of a run. -/
structure SessionInv (left : r.State → Bytes) (app₀ : κ)
    (batches : τ → List (CallBatch reg version (servicesOf reg handlers))) (e : τ → DecErr)
    (es : List (Event τ (servicesOf reg handlers))) (t : Sessions r τ κ) : Prop where
  conns : Threads.Holds (fun shared => PoolIdle shared.1)
    (fun c _ s => ConnInv reg (Job.Muxed version) left ((batches c).map CallBatch.bytes) (e c) s.conn) t
  consistent : Consistent app₀ batches es t

/-- A step adds a call to the history, or leaves it as it is. -/
theorem consistent_step (heq : Equipped reg version (servicesOf reg handlers)) {left : r.State → Bytes}
    (hr : r.Documented left) {app₀ : κ} {batches : τ → List (CallBatch reg version (servicesOf reg handlers))}
    {e : τ → DecErr} {es : List (Event τ (servicesOf reg handlers))} {t u : Sessions r τ κ}
    (h : SessionInv left app₀ batches e es t)
    (hstep : Threads.Step (fun _ => SessionStep reg r texts handlers version) t u) :
    ∃ es', es <+: es' ∧ Consistent app₀ batches es' u := by
  obtain ⟨hconns, ids, hhistory, hclients⟩ := h
  cases hstep with
  | @mk c s a hprogram =>
    -- as long as the history stays, the other clients are not concerned
    have hothers : ∀ a', (∃ replies todo cur part,
        Session.Serves (batches c) (callsOf es c) (fun n => ids (c, n)) a' replies todo cur part) →
        ∀ d, ∃ replies todo cur part, Session.Serves (batches d) (callsOf es d) (fun n => ids (d, n))
          (Function.update t.own c a' d) replies todo cur part := by
      intro a' ha' d
      by_cases hd : d = c
      · rw [hd, Function.update_self]
        exact ha'
      · rw [Function.update_of_ne hd]
        exact hclients d
    obtain ⟨replies, todo, cur, part, hserves⟩ := hclients c
    have hc := hconns.own c
    generalize t.own c = own at hprogram hserves hc
    generalize t.shared = shared at hprogram hhistory
    cases hprogram with
    | conn hpc hstep => exact ⟨es, List.prefix_rfl, ids, hhistory, hothers _ (hserves.conn hr hc hpc hstep)⟩
    | conclude hpc hdone hstep =>
      obtain ⟨_, -, -, hready⟩ := hc.todo
      simp only [Conn.Ready, hpc] at hready
      exact ⟨es, List.prefix_rfl, ids, hhistory, hothers _ (hserves.conclude heq hpc hready.2 hdone hstep)⟩
    | panic hpc hadm => exact ⟨es, List.prefix_rfl, ids, hhistory, hothers _ (hserves.panic hpc _)⟩
    | handle hpc hadm hmessage =>
      refine ⟨es, List.prefix_rfl, ids, hhistory,
        hothers _ ⟨replies, todo, cur, part, hserves.handle ?_ hpc hadm hmessage⟩⟩
      exact fun hnone => placeholder_untouched hhistory hnone
    | item hpc hrest hbi =>
      -- the only step of the abstract server
      obtain ⟨x, p, hp, hrun, hserves'⟩ := hserves.item heq hpc hrest hbi
      have hhappens : Happens reg _ (⟨c, replies.length, x⟩ : Event τ (servicesOf reg handlers)) _ := .mk hp hrun
      refine ⟨_, List.prefix_append .., _, hhistory.snoc hhappens, fun d => ?_⟩
      dsimp only
      by_cases hd : d = c
      · subst hd
        rw [Function.update_self, callsOf_snoc_self, update_placeholder_self]
        exact ⟨replies, todo, cur ++ [x], part, hserves'⟩
      · rw [Function.update_of_ne hd, callsOf_snoc_other es (Ne.symm hd), update_placeholder_other ids hd]
        exact hclients d

theorem SessionInv.runs (heq : Equipped reg version (servicesOf reg handlers)) {left : r.State → Bytes}
    (hr : r.Documented left) {app₀ : κ} {batches : τ → List (CallBatch reg version (servicesOf reg handlers))}
    {e : τ → DecErr} {es : List (Event τ (servicesOf reg handlers))} {t u : Sessions r τ κ}
    (h : SessionInv left app₀ batches e es t) (hruns : SessionRuns reg r texts handlers version t u) :
    ∃ es', es <+: es' ∧ SessionInv left app₀ batches e es' u := by
  induction hruns with
  | refl => exact ⟨es, List.prefix_rfl, h⟩
  | tail _ hlast ih =>
    obtain ⟨es₁, hgrows₁, h₁⟩ := ih
    obtain ⟨es₂, hgrows₂, h₂⟩ := consistent_step heq hr h₁ hlast
    exact ⟨es₂, hgrows₁.trans hgrows₂, (connInv_outline hr).step h₁.conns hlast, h₂⟩

theorem sessionInv_accepted {left : r.State → Bytes} (hr : r.Documented left) (app : κ) (tls : τ → Bool)
    {input : τ → List (Chunk UInt8)} {batches : τ → List (CallBatch reg version (servicesOf reg handlers))}
    {tail : τ → Bytes} {e : τ → DecErr}
    (hinput : ∀ c, stream (input c) = ((batches c).map CallBatch.bytes).flatten ++ tail c)
    (htail : ∀ c, nextTTLV (tail c) = .err (e c)) :
    SessionInv left app batches e [] (Sessions.accepted r app tls input) :=
  ⟨⟨fun _ h => absurd h List.not_mem_nil,
    (connInv_accepted reg hr tls fun c => hinput c ▸ denotes_batches (batches c) (htail c)).own⟩,
    consistent_accepted app batches tls input⟩

/-! ## Sessions go on -/

/-- The items that are left, of which there may be any number before `HandleMessage` is called. -/
def itemsLeft : Option Work → WithTop Nat
  | none => ⊤
  | some w => w.rest.length

/-- What is left to do. -/
def Session.potential (left : r.State → Bytes) (s : Session r.State) : Lex (Nat × WithTop Nat) :=
  toLex (s.conn.potential left, itemsLeft s.work)

theorem potential_conn {left : r.State → Bytes} {a a' : Conn r.State} (work work' : Option Work)
    (h : a'.potential left < a.potential left) :
    Session.potential left ⟨a', work'⟩ < Session.potential left ⟨a, work⟩ :=
  Prod.Lex.toLex_lt_toLex.mpr (Or.inl h)

theorem potential_work {left : r.State → Bytes} (a : Conn r.State) {work work' : Option Work}
    (h : itemsLeft work' < itemsLeft work) :
    Session.potential left ⟨a, work'⟩ < Session.potential left ⟨a, work⟩ :=
  Prod.Lex.toLex_lt_toLex.mpr (Or.inr ⟨rfl, h⟩)

/-- All requests are answered. -/
def Session.Finished (batches : List (CallBatch reg version (servicesOf reg handlers))) (s : Session r.State) : Prop :=
  ∃ replies : List (Reply reg version (servicesOf reg handlers)), batches = replies.map Reply.batch ∧
    s.conn.sent = (replies.map Reply.bytes).flatten

section

variable {batches : List (CallBatch reg version (servicesOf reg handlers))}
  {calls : List (Nat × Answer (servicesOf reg handlers))} {ids : Nat → GoString} {a : Conn r.State}
  {work : Option Work} {replies : List (Reply reg version (servicesOf reg handlers))}
  {todo : List (CallBatch reg version (servicesOf reg handlers))} {cur : List (Answer (servicesOf reg handlers))}
  {part : Bytes} {left : r.State → Bytes} {e : DecErr}

/-- The stream ends when all requests are answered. -/
theorem Session.Serves.finished (h : Session.Serves batches calls ids ⟨a, work⟩ replies todo cur part)
    (hinv : ConnInv reg (Job.Muxed version) left (batches.map CallBatch.bytes) e a) (hpc : a.pc = .reading) {x : DecErr}
    (hend : nextTTLV (left a.dec) = .err x) (dec : r.State) (why : Closing) :
    Session.Finished batches ⟨{ a with dec := dec }.close why [], none⟩ := by
  obtain ⟨ms, hms, -, hready⟩ := hinv.todo
  have hcurrent := h.current
  simp only [Conn.Ready, Session.Current, hpc] at hready hcurrent
  obtain ⟨rfl, -⟩ := hready.unique (.ends hend)
  have htodo : todo = [] := List.map_eq_nil_iff.mp (h.todo_bytes hms).symm
  have hsent : a.sent = (replies.map Reply.bytes).flatten ++ part := h.sent
  rw [hcurrent.2, List.append_nil] at hsent
  refine ⟨replies, ?_, ?_⟩
  · rw [h.batches, htodo, List.append_nil]
  · exact (List.append_nil _).trans hsent

/-- A request in progress can go on. -/
theorem Session.Serves.proceeds (heq : Equipped reg version (servicesOf reg handlers)) (hr : r.Documented left)
    (h : Session.Serves batches calls ids ⟨a, work⟩ replies todo cur part) (hpc : a.pc = .serving job taken)
    (htaken : ∀ resp, taken = some resp → Idle resp.enc) (shared : List Response × κ) :
    ∃ shared' s', SessionStep reg r texts handlers version shared ⟨a, work⟩ shared' s' ∧
      s'.potential left < Session.potential left ⟨a, work⟩ ∧ ∀ why, s'.conn.pc ≠ .closed why := by
  have hcurrent := h.current
  simp only [Session.Current, hpc] at hcurrent
  obtain ⟨-, hjob, b, -, hrequest, hwork⟩ := hcurrent
  obtain ⟨message, -, -, hadm⟩ := b.admitted taken hjob hrequest
  have hopen : ∀ why, a.pc ≠ .closed why := fun why hclosed => by
    rw [hpc] at hclosed
    cases hclosed
  cases work with
  | none => exact ⟨_, _, .handle hpc hadm rfl, potential_work a (WithTop.coe_lt_top _), hopen⟩
  | some w =>
    obtain ⟨asks, is, hw⟩ := hwork
    have hrest := hw.rest
    have harrived := hw.arrived
    cases is with
    | cons i is =>
      cases asks with
      | nil => exact absurd harrived not_false
      | cons x asks =>
        obtain ⟨p, item, st, -, hbi, -⟩ :=
          bi_arrived reg texts handlers heq.explained harrived.1 ⟨w.idPlaceholder, w.decoder, shared.2⟩ w.request
        refine ⟨_, _, .item hpc hrest hbi, potential_work a ?_, hopen⟩
        have hless : (elemList is).length < w.rest.length := by
          rw [hrest]
          exact Nat.lt_succ_self _
        exact WithTop.coe_lt_coe.mpr hless
    | nil =>
      obtain ⟨out, resp, hserve, -⟩ := hw.serve heq hjob hrequest htaken hrest
      have hdone : Returned reg job taken (some w) := fun _ _ _ => ⟨w, rfl, hrest⟩
      have hsame : Conn.potential left { a with pc := .serving (job.handled (some w)) taken } = a.potential left := by
        simp only [Conn.potential, hpc]
      by_cases hsize : out.length ≤ writerSize
      · have hstep : ConnStep reg r (Job.Muxed version) shared.1
            { a with pc := .serving (job.handled (some w)) taken } _ _ := .buffer rfl hserve hsize
        exact ⟨_, _, .conclude hpc hdone hstep, potential_conn _ _ (hsame ▸ potential_step reg hr hstep),
          fun why hclosed => by cases hclosed⟩
      · have hstep : ConnStep reg r (Job.Muxed version) shared.1
            { a with pc := .serving (job.handled (some w)) taken } _ _ := .write rfl hserve (Nat.lt_of_not_le hsize)
        exact ⟨_, _, .conclude hpc hdone hstep, potential_conn _ _ (hsame ▸ potential_step reg hr hstep),
          fun why hclosed => by cases hclosed⟩

end

variable (texts) in
/-- A session that is not closed can go on, and is closed only when all requests are answered. -/
theorem SessionInv.proceeds (heq : Equipped reg version (servicesOf reg handlers)) {left : r.State → Bytes}
    (hr : r.Documented left) {app₀ : κ} {batches : τ → List (CallBatch reg version (servicesOf reg handlers))}
    {e : τ → DecErr} {es : List (Event τ (servicesOf reg handlers))} {t : Sessions r τ κ}
    (h : SessionInv left app₀ batches e es t) {c : τ} (hopen : ∀ why, (t.own c).conn.pc ≠ .closed why) :
    ∃ shared' s', SessionStep reg r texts handlers version t.shared (t.own c) shared' s' ∧
      s'.potential left < (t.own c).potential left ∧ ((∃ why, s'.conn.pc = .closed why) → s'.Finished (batches c)) := by
  obtain ⟨hconns, ids, -, hclients⟩ := h
  obtain ⟨replies, todo, cur, part, hserves⟩ := hclients c
  have hc := hconns.own c
  generalize t.own c = own at hserves hc hopen ⊢
  obtain ⟨a, work⟩ := own
  generalize t.shared = shared
  have hconn : ∀ {a' pool'}, (∀ job taken, a.pc ≠ .serving job taken) →
      ConnStep reg r (Job.Muxed version) shared.1 a pool' a' →
      ((∃ why, a'.pc = .closed why) → Session.Finished (batches c) ⟨a', none⟩) →
      ∃ shared' s', SessionStep reg r texts handlers version shared ⟨a, work⟩ shared' s' ∧
        s'.potential left < Session.potential left ⟨a, work⟩ ∧
        ((∃ why, s'.conn.pc = .closed why) → s'.Finished (batches c)) :=
    fun hpc hstep hfinished => ⟨_, _, .conn hpc hstep, potential_conn _ _ (potential_step reg hr hstep), hfinished⟩
  cases hpc : a.pc with
  | handshaking =>
    refine hconn (fun job taken h => ?_) (.handshake hpc) fun hclosed => ?_
    · cases hpc.symm.trans h
    · obtain ⟨why, hclosed⟩ := hclosed
      cases hclosed
  | reading =>
    have hidle : ∀ job taken, a.pc ≠ .serving job taken := fun job taken h => by cases hpc.symm.trans h
    have hresult := (readTTLV_spec hr a.dec).1
    rcases nextTTLV_cases (left a.dec) with heof | ⟨x, hbad⟩ | ⟨m, rest, hnext, -, -⟩
    · exact hconn hidle (.eof hpc (Prod.ext rfl (hresult.trans heof))) fun _ => hserves.finished hc hpc heof _ _
    · exact hconn hidle (.invalidHeader hpc (Prod.ext rfl (hresult.trans hbad))) fun _ =>
        hserves.finished hc hpc hbad _ _
    · let job : Job := ⟨⟨version, Work.messageHandler none, false⟩, plainEnv, Request.ofTTLV m⟩
      have hjob : job.Muxed version := ⟨rfl, fun req resp out hout => by cases hout; rfl⟩
      refine hconn hidle (.request hpc (Prod.ext rfl (hresult.trans hnext)) job rfl hjob) fun hclosed => ?_
      obtain ⟨why, hclosed⟩ := hclosed
      cases hclosed
  | serving job taken =>
    obtain ⟨_, -, -, hready⟩ := hc.todo
    simp only [Conn.Ready, hpc] at hready
    obtain ⟨shared', s', hstep, hless, hstill⟩ := hserves.proceeds heq hr hpc hready.2 shared
    exact ⟨shared', s', hstep, hless, fun hclosed => absurd hclosed (not_exists.mpr hstill)⟩
  | flushing job out =>
    refine hconn (fun job taken h => ?_) (.flush hpc) fun hclosed => ?_
    · cases hpc.symm.trans h
    · obtain ⟨why, hclosed⟩ := hclosed
      cases hclosed
  | closed why => exact absurd hpc (hopen why)

variable (texts) in
/-- By induction on the potential, a session goes on until all its requests are answered. -/
theorem SessionInv.finishes (heq : Equipped reg version (servicesOf reg handlers)) {left : r.State → Bytes}
    (hr : r.Documented left) {app₀ : κ} {batches : τ → List (CallBatch reg version (servicesOf reg handlers))}
    {e : τ → DecErr} {es : List (Event τ (servicesOf reg handlers))} {t : Sessions r τ κ}
    (h : SessionInv left app₀ batches e es t) {c : τ} (hopen : ∀ why, (t.own c).conn.pc ≠ .closed why) :
    ∃ u, SessionRuns reg r texts handlers version t u ∧ (∀ d, d ≠ c → u.own d = t.own d) ∧
      (∃ why, (u.own c).conn.pc = .closed why) ∧ (u.own c).Finished (batches c) := by
  induction hpotential : (t.own c).potential left using WellFoundedLT.induction generalizing t es with
  | _ n ih =>
    obtain ⟨shared', s', hstep, hless, hfinished⟩ := h.proceeds texts heq hr hopen
    have hlast : Threads.Step (fun _ => SessionStep reg r texts handlers version) t
        ⟨shared', Function.update t.own c s'⟩ := .mk c hstep
    have hown : (⟨shared', Function.update t.own c s'⟩ : Sessions r τ κ).own c = s' := Function.update_self ..
    have hothers : ∀ d, d ≠ c → (⟨shared', Function.update t.own c s'⟩ : Sessions r τ κ).own d = t.own d :=
      fun d hd => Function.update_of_ne hd ..
    by_cases hclosed : ∃ why, s'.conn.pc = .closed why
    · exact ⟨_, .single hlast, hothers, hown.symm ▸ hclosed, hown.symm ▸ hfinished hclosed⟩
    · obtain ⟨es', -, h'⟩ := h.runs heq hr (.single hlast)
      obtain ⟨u, hruns, hsame, hend⟩ := ih _ (hpotential ▸ hless) h'
        (fun why hwhy => hclosed ⟨why, hown ▸ hwhy⟩) (congrArg _ hown)
      exact ⟨u, .head hlast hruns, fun d hd => (hsame d hd).trans (hothers d hd), hend⟩

/-! ## What the clients can tell -/

/-- What the clients can tell: the calls have happened one after the other, on one application, and each client
    has received responses to the first of its requests, with the results that its calls had; of the next
    request, some of the calls may have happened, and part of the response may have been received. -/
def Linearized (app₀ : κ) (batches : τ → List (CallBatch reg version (servicesOf reg handlers)))
    (es : List (Event τ (servicesOf reg handlers))) (t : Sessions r τ κ) : Prop :=
  (∃ ids : τ × Nat → GoString, History (Happens reg) (app₀, fun _ => []) es (t.shared.2, ids)) ∧
    ∀ c, ∃ (replies : List (Reply reg version (servicesOf reg handlers)))
        (todo : List (CallBatch reg version (servicesOf reg handlers))) (cur : List (Answer (servicesOf reg handlers)))
        (part : Bytes),
      batches c = replies.map Reply.batch ++ todo ∧
      callsOf es c = numbered (replies.map Reply.answers) ++ cur.map (Prod.mk replies.length) ∧
      (t.own c).conn.sent = (replies.map Reply.bytes).flatten ++ part ∧ Underway todo cur part ∧
      ((t.own c).conn.pc = .closed .eof → todo = [] ∧ cur = [] ∧ part = [])

theorem Underway.done {cur : List (Answer (servicesOf reg handlers))} {part : Bytes}
    (h : Underway ([] : List (CallBatch reg version (servicesOf reg handlers))) cur part) : cur = [] ∧ part = [] := by
  refine ⟨h.calls.resolve_right ?_, h.bytes.resolve_right ?_⟩
  · rintro ⟨b, hhead, -⟩
    cases hhead
  · rintro ⟨b, out, hhead, -⟩
    cases hhead

theorem SessionInv.linearized {left : r.State → Bytes} {app₀ : κ}
    {batches : τ → List (CallBatch reg version (servicesOf reg handlers))} {e : τ → DecErr}
    {es : List (Event τ (servicesOf reg handlers))} {t : Sessions r τ κ}
    (h : SessionInv left app₀ batches e es t) : Linearized app₀ batches es t := by
  obtain ⟨hconns, ids, hhistory, hclients⟩ := h
  refine ⟨⟨ids, hhistory⟩, fun c => ?_⟩
  obtain ⟨replies, todo, cur, part, hserves⟩ := hclients c
  have hunderway := hserves.current.underway
  refine ⟨replies, todo, cur, part, hserves.batches, hserves.calls, hserves.sent, hunderway, fun hpc => ?_⟩
  obtain ⟨ms, hms, hstands, -⟩ := (hconns.own c).todo
  simp only [Conn.Stands, hpc] at hstands
  have htodo : todo = [] := by
    have hbytes := hserves.todo_bytes hms
    rw [hstands.1] at hbytes
    exact List.map_eq_nil_iff.mp hbytes.symm
  subst htodo
  exact ⟨rfl, hunderway.done⟩

/-- The server is linearizable.  The clients of a server send batches of calls over connections of their own,
    until their streams break off, and the goroutines of the connections take turns in any way.  In every state,
    the calls have happened one after the other on the application, and each client has received responses from
    which it reads the results that its calls had.  What has happened stays so: later calls are added at the
    end. -/
theorem sessions_linearizable (heq : Equipped reg version (servicesOf reg handlers)) {left : r.State → Bytes}
    (hr : r.Documented left) (app : κ) (tls : τ → Bool) {input : τ → List (Chunk UInt8)}
    {batches : τ → List (CallBatch reg version (servicesOf reg handlers))} {tail : τ → Bytes} {e : τ → DecErr}
    (hinput : ∀ c, stream (input c) = ((batches c).map CallBatch.bytes).flatten ++ tail c)
    (htail : ∀ c, nextTTLV (tail c) = .err (e c)) {t u : Sessions r τ κ}
    (ht : SessionRuns reg r texts handlers version (Sessions.accepted r app tls input) t)
    (hu : SessionRuns reg r texts handlers version t u) :
    ∃ es es', es <+: es' ∧ Linearized app batches es t ∧ Linearized app batches es' u := by
  obtain ⟨es, -, hes⟩ := (sessionInv_accepted hr app tls hinput htail).runs heq hr ht
  obtain ⟨es', hgrows, hes'⟩ := hes.runs heq hr hu
  exact ⟨es, es', hgrows, hes.linearized, hes'.linearized⟩

/-- Clients do not wait for each other.  In every state, the goroutine of a connection that is open can go
    on by itself until its client has received responses to all its requests; no other session moves. -/
theorem sessions_answered (heq : Equipped reg version (servicesOf reg handlers)) {left : r.State → Bytes}
    (hr : r.Documented left) (app : κ) (tls : τ → Bool) {input : τ → List (Chunk UInt8)}
    {batches : τ → List (CallBatch reg version (servicesOf reg handlers))} {tail : τ → Bytes} {e : τ → DecErr}
    (hinput : ∀ c, stream (input c) = ((batches c).map CallBatch.bytes).flatten ++ tail c)
    (htail : ∀ c, nextTTLV (tail c) = .err (e c)) {t : Sessions r τ κ}
    (ht : SessionRuns reg r texts handlers version (Sessions.accepted r app tls input) t) {c : τ}
    (hopen : ∀ why, (t.own c).conn.pc ≠ .closed why) :
    ∃ u, SessionRuns reg r texts handlers version t u ∧ (∀ d, d ≠ c → u.own d = t.own d) ∧
      (∃ why, (u.own c).conn.pc = .closed why) ∧ (u.own c).Finished (batches c) := by
  obtain ⟨es, -, h⟩ := (sessionInv_accepted hr app tls hinput htail).runs heq hr ht
  exact h.finishes texts heq hr hopen

end

/-! ## Two clients -/

theorem equipped_versions :
    Equipped Message.messageRegistry ⟨1, 4⟩ (servicesOf Message.messageRegistry versionsHandlers) :=
  ⟨deployed_versions.types, deployed_versions.major, deployed_versions.minor, deployed_versions.explained,
    deployed_versions.sendable⟩

def versionsBytes : Bytes :=
  (marshal Message.messageRegistry (requestOf versionsHeader [versionsAsk])).toOption.getD []

theorem versionsBytes_eval :
    (marshal Message.messageRegistry (requestOf versionsHeader [versionsAsk])).toOption.map List.length = some 216 := by
  decide +kernel

theorem marshal_versions :
    marshal Message.messageRegistry (requestOf versionsHeader [versionsAsk]) = .ok versionsBytes ∧
      versionsBytes.length = 216 := by
  obtain ⟨b, hb, hlength⟩ := Option.map_eq_some_iff.mp versionsBytes_eval
  rw [versionsBytes, hb]
  exact ⟨eq_ok_of_toOption hb, hlength⟩

/-- A request with the call `versionsAsk`. -/
def versionsBatch :
    CallBatch Message.messageRegistry ⟨1, 4⟩ (servicesOf Message.messageRegistry versionsHandlers) where
  header := versionsHeader
  asks := [versionsAsk]
  bytes := versionsBytes
  sendable := sendable_versions
  marshalled := marshal_versions.1
  size := by
    rw [marshal_versions.2]
    omega
  version := rfl
  unlimited := Int.le_refl 0
  count := Nat.one_lt_two_pow (by omega)

/-- Both clients send it, one of them in two pieces. -/
def versionsInput : Bool → List (Chunk UInt8)
  | false => byteChunks [versionsBytes]
  | true => byteChunks [versionsBytes.take 5, versionsBytes.drop 5]

theorem stream_byteChunks (cs : List Bytes) : stream (byteChunks cs) = cs.flatten := by
  induction cs with
  | nil => rfl
  | cons c cs ih =>
    by_cases hc : c = []
    · rw [hc, List.flatten_cons, List.nil_append, ← ih]
      rfl
    · have hchunks : byteChunks (c :: cs) = ⟨c, hc⟩ :: byteChunks cs := by
        rw [byteChunks, List.filterMap_cons, dif_neg hc]
        rfl
      rw [hchunks, stream_cons, ih, List.flatten_cons]

theorem stream_versionsInput (c : Bool) :
    stream (versionsInput c) = ([versionsBatch].map CallBatch.bytes).flatten ++ [] := by
  cases c with
  | false => exact (stream_byteChunks _).trans (List.append_nil _).symm
  | true =>
    rw [versionsInput, stream_byteChunks, List.append_nil]
    simp only [List.flatten_cons, List.flatten_nil, List.append_nil, List.take_append_drop, List.map_cons, List.map_nil]
    rfl

/-- One client is served while the other one waits. -/
theorem sessions_linearizable_versions :
    ∃ u : Sessions (bufio UInt8 4096) Bool Unit, (u.own false).Finished [versionsBatch] ∧
      ∃ es es', es <+: es' ∧
        Linearized () (fun _ => [versionsBatch]) es
          (Sessions.accepted (bufio UInt8 4096) () (fun _ => false) versionsInput) ∧
        Linearized () (fun _ => [versionsBatch]) es' u := by
  have hr := bufio_documented UInt8 4096
  have htail : ∀ _ : Bool, nextTTLV [] = .err .eof := fun _ => rfl
  have hinit := sessionInv_accepted hr () (fun _ => false) stream_versionsInput htail
  obtain ⟨u, hruns, -, -, hfinished⟩ := hinit.finishes noTexts equipped_versions hr (c := false)
    (fun why hclosed => by cases hclosed)
  exact ⟨u, hfinished, sessions_linearizable equipped_versions hr () (fun _ => false) stream_versionsInput htail .refl
    hruns⟩

theorem sessions_answered_versions :
    ∃ u : Sessions (bufio UInt8 4096) Bool Unit,
      (u.own false).work.isNone = true ∧ (∃ why, (u.own true).conn.pc = .closed why) ∧
        (u.own true).Finished [versionsBatch] := by
  have hopen : ∀ why, ((Sessions.accepted (bufio UInt8 4096) () (fun _ => false) versionsInput).own true).conn.pc ≠
      .closed why := fun why hclosed => by cases hclosed
  have hstart : SessionRuns Message.messageRegistry (bufio UInt8 4096) noTexts versionsHandlers ⟨1, 4⟩
      (Sessions.accepted (bufio UInt8 4096) () (fun _ => false) versionsInput) _ := .refl
  obtain ⟨u, -, hothers, hclosed, hfinished⟩ := sessions_answered equipped_versions (bufio_documented UInt8 4096) ()
    (fun _ => false) stream_versionsInput (fun _ => rfl) hstart hopen
  refine ⟨u, ?_, hclosed, hfinished⟩
  rw [hothers false (by decide)]
  rfl

end KmipGo.Server
