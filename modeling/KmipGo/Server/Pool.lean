import KmipGo.Server.Traffic

/-! # The pool of responses

`responsePool` of `requests.go`.  A request takes a released response from the
pool, or a new one, and puts it back when it has been written; a request that
panics puts nothing back.  Requests run side by side, and what one of them uses no
other one has.

`reset` clears the message and the buffer of a response, but not its encoder.  The
encoder of a released response is idle, because `Bytes` has succeeded on it last,
unless a user's `MarshalTTLV` has panicked in a call of `Bytes` that a handler made
and recovered from: the structures that were open then stay open.

* `written_as_fresh` — in a run without such a panic each request is answered as
  it would be with a new response.
* `interrupted_leaks` — with one, a later request is answered by nothing.
-/

namespace KmipGo.Server

open KmipGo.Lib KmipGo.Ttlv KmipGo.Reg KmipGo.Go KmipGo.Encoder KmipGo.Decoder

/-- A request that is served, with the handler as it behaves on it. -/
structure Job where
  handler : StandardProtocolHandler
  env : Env
  request : Request

section

variable (reg : Registry)

/-- `ServeKMIP`, with the response the pool returned. -/
def Job.serve (job : Job) (pooled : Option Response) : Option (Bytes × Response) :=
  serveKMIP reg job.handler job.env pooled job.request

/-! ## Runs -/

/-- The responses in the pool, the requests being served with what they took from it, and the requests
    that were answered with the bytes that were written. -/
structure PoolState where
  pool : List Response
  running : List (Job × Option Response)
  done : List (Job × Bytes)

def PoolState.init : PoolState := ⟨[], [], []⟩

/-- A step of a server; `P` holds of each request that is taken up. -/
inductive PoolStep (P : Job → Prop) : PoolState → PoolState → Prop where
  | startNew {s : PoolState} (job : Job) (hP : P job) :
      PoolStep P s { s with running := (job, none) :: s.running }
  | startPooled {s : PoolState} (job : Job) (hP : P job) {r : Response} {rest : List Response}
      (htake : s.pool.Perm (r :: rest)) :
      PoolStep P s { s with pool := rest, running := (job, some r) :: s.running }
  | finish {s : PoolState} {job : Job} {taken : Option Response} {others : List (Job × Option Response)}
      {written : Bytes} {resp : Response} (hrun : s.running.Perm ((job, taken) :: others))
      (hserve : job.serve reg taken = some (written, resp)) :
      PoolStep P s ⟨resp :: s.pool, others, (job, written) :: s.done⟩
  /-- a panic, of the handler or of the writer -/
  | panic {s : PoolState} {p : Job × Option Response} {others : List (Job × Option Response)}
      (hrun : s.running.Perm (p :: others)) : PoolStep P s { s with running := others }
  /-- the pool may forget what it holds -/
  | forget {s : PoolState} {r : Response} {rest : List Response} (hdrop : s.pool.Perm (r :: rest)) :
      PoolStep P s { s with pool := rest }

def PoolReaches (P : Job → Prop) : PoolState → Prop :=
  Relation.ReflTransGen (PoolStep reg P) PoolState.init

/-- The request was answered as it would be with a newly allocated response. -/
def AsFresh (p : Job × Bytes) : Prop := (p.1.serve reg none).map Prod.fst = some p.2

/-- No call of `Bytes` was interrupted by a panic of a `MarshalTTLV`. -/
def Handled.Uninterrupted (out : Handled) : Prop := ∀ x ∈ out.sizings, ∃ message, x = .bytes message

/-- No call of `Bytes` by the handler is interrupted by a panic of a `MarshalTTLV`. -/
def Job.Uninterrupted (job : Job) : Prop :=
  ∀ req resp, admission reg job.handler job.env job.request (newResponse none) = .ok (req, resp) →
    ∀ out, job.handler.messageHandler req resp = some out → out.Uninterrupted

/-! ## The pool holds idle responses -/

/-- A call of `Bytes` that is not interrupted closes what it opens. -/
theorem closed_sizings {resp : Response} (hc : resp.Closed) {sizings : List Sizing}
    (h : ∀ x ∈ sizings, ∃ message, x = .bytes message) :
    (sizings.foldl (Response.sizing reg) resp).Closed := by
  induction sizings generalizing resp with
  | nil => exact hc
  | cons x sizings ih =>
    obtain ⟨message, rfl⟩ := h x (List.mem_cons_self ..)
    refine ih ?_ fun y hy => h y (List.mem_cons_of_mem _ hy)
    exact closed_bytes reg (r := { resp with message := message }) hc

theorem closed_callHandler {h : StandardProtocolHandler} {req : Request} {resp : Response} (hc : resp.Closed)
    (hquiet : ∀ out, h.messageHandler req resp = some out → out.Uninterrupted) {called : Request × Response}
    (hcall : callHandler reg h req resp = some called) : called.2.Closed := by
  obtain ⟨out, hout, rfl⟩ := Option.map_eq_some_iff.mp hcall
  exact closed_sizings reg hc (hquiet out hout)

/-- When `handleRequest` returns, its response is idle again. -/
theorem idle_handleRequest {h : StandardProtocolHandler} {env : Env} {req : Request}
    {resp resp' : Response} (hidle : Idle resp.enc)
    (hquiet : ∀ req₁ resp₁, admission reg h env req resp = .ok (req₁, resp₁) →
      ∀ out, h.messageHandler req₁ resp₁ = some out → out.Uninterrupted)
    (hreq : handleRequest reg h env req resp = some resp') : Idle resp'.enc := by
  rcases (handleRequest_eq_some reg).mp hreq with hearly | ⟨req₁, resp₁, called, hadm, hcall, hconclude⟩
  · rw [admission_enc_of_err reg hearly]
    exact hidle
  · obtain ⟨message, -, -, -, hresp₁⟩ := (admission_eq_ok_iff reg).mp hadm
    have hc : resp₁.Closed := by
      rw [hresp₁]
      exact hidle.1
    obtain ⟨m, b, -, -, rfl⟩ := conclude_eq_some reg
      (closed_callHandler reg hc (hquiet req₁ resp₁ hadm) hcall) hconclude
    split
    · exact ⟨rfl, rfl⟩
    · exact ⟨rfl, rfl⟩

/-- Writing a response leaves an idle encoder idle. -/
theorem idle_writeOut {log : Bool} {last resp : Response} {written : Bytes} (hidle : Idle last.enc)
    (h : writeOut reg log last = some (written, resp)) : Idle resp.enc := by
  cases log with
  | false =>
    cases h
    exact hidle
  | true =>
    rw [writeOut, if_pos rfl, ← Prod.eta (last.bytes reg)] at h
    cases hout : (last.bytes reg).2 with
    | none =>
      rw [hout] at h
      cases h
    | some out =>
      obtain ⟨b, -, heq⟩ := encoding_of_bytes reg hidle.1 hout
      rw [heq] at h
      cases h
      exact ⟨rfl, rfl⟩

theorem serve_of_idle (job : Job) {pooled : Option Response} (h : ∀ r, pooled = some r → Idle r.enc) :
    job.serve reg pooled = job.serve reg none := by
  rw [Job.serve, Job.serve, serveKMIP, serveKMIP, newResponse_of_idle h]

/-- Serving a request from an idle response releases an idle response. -/
theorem idle_serve {job : Job} (hjob : job.Uninterrupted reg) {pooled : Option Response}
    (hpool : ∀ r, pooled = some r → Idle r.enc) {written : Bytes} {resp : Response}
    (hserve : job.serve reg pooled = some (written, resp)) : Idle resp.enc := by
  rw [serve_of_idle reg job hpool, Job.serve, serveKMIP] at hserve
  cases hreq : handleRequest reg job.handler job.env job.request (newResponse none) with
  | none =>
    rw [hreq] at hserve
    cases hserve
  | some last =>
    rw [hreq] at hserve
    exact idle_writeOut reg (idle_handleRequest reg idle_newEncoder hjob hreq) hserve

/-- What holds in each state of a run without interruptions. -/
structure PoolInv (s : PoolState) : Prop where
  pool : ∀ r ∈ s.pool, Idle r.enc
  running : ∀ p ∈ s.running, p.1.Uninterrupted reg ∧ ∀ r, p.2 = some r → Idle r.enc
  done : ∀ p ∈ s.done, AsFresh reg p

theorem poolInv_init : PoolInv reg PoolState.init :=
  ⟨fun _ h => absurd h List.not_mem_nil, fun _ h => absurd h List.not_mem_nil,
    fun _ h => absurd h List.not_mem_nil⟩

theorem poolInv_step {s s' : PoolState} (hs : PoolInv reg s) (hstep : PoolStep reg (Job.Uninterrupted reg) s s') :
    PoolInv reg s' := by
  cases hstep with
  | startNew job hP =>
    refine ⟨hs.pool, fun p hp => ?_, hs.done⟩
    cases hp with
    | head => exact ⟨hP, fun r hr => by cases hr⟩
    | tail _ hp => exact hs.running p hp
  | startPooled job hP htake =>
    refine ⟨fun r hr => hs.pool r (htake.mem_iff.mpr (List.mem_cons_of_mem _ hr)), fun p hp => ?_, hs.done⟩
    cases hp with
    | head =>
      refine ⟨hP, fun r hr => ?_⟩
      cases hr
      exact hs.pool _ (htake.mem_iff.mpr (List.mem_cons_self ..))
    | tail _ hp => exact hs.running p hp
  | finish hrun hserve =>
    obtain ⟨hjob, htaken⟩ := hs.running _ (hrun.mem_iff.mpr (List.mem_cons_self ..))
    refine ⟨fun r hr => ?_, fun p hp => hs.running p (hrun.mem_iff.mpr (List.mem_cons_of_mem _ hp)),
      fun p hp => ?_⟩
    · cases hr with
      | head => exact idle_serve reg hjob htaken hserve
      | tail _ hr => exact hs.pool r hr
    · cases hp with
      | head =>
        rw [serve_of_idle reg _ htaken] at hserve
        rw [AsFresh, hserve]
        rfl
      | tail _ hp => exact hs.done p hp
  | panic hrun => exact ⟨hs.pool, fun p hp => hs.running p (hrun.mem_iff.mpr (List.mem_cons_of_mem _ hp)), hs.done⟩
  | forget hdrop =>
    exact ⟨fun r hr => hs.pool r (hdrop.mem_iff.mpr (List.mem_cons_of_mem _ hr)), hs.running, hs.done⟩

theorem poolInv_reaches {s : PoolState} (h : PoolReaches reg (Job.Uninterrupted reg) s) : PoolInv reg s := by
  induction h with
  | refl => exact poolInv_init reg
  | tail _ hstep ih => exact poolInv_step reg ih hstep

/-- Pooled responses do not leak between requests: in every run in which no handler recovers from a
    panic of a `MarshalTTLV` inside `Bytes`, the bytes written for each request are those that a new
    response would have produced. -/
theorem written_as_fresh {s : PoolState} (h : PoolReaches reg (Job.Uninterrupted reg) s) :
    ∀ p ∈ s.done, AsFresh reg p :=
  (poolInv_reaches reg h).done

end

/-! ## Two requests, one after the other -/

/-- A request to a handler that makes these calls of `Bytes` and leaves the message as it is. -/
def sizingJob (sizings : ResponseMessage → List Sizing) : Job where
  handler := { plainHandler with messageHandler := fun req resp => some ⟨sizings resp.message, resp.message, req⟩ }
  env := plainEnv
  request := versionRequest 1

def quietJob : Job := sizingJob (fun m => [.bytes m])

theorem uninterrupted_quietJob (reg : Registry) : quietJob.Uninterrupted reg := by
  intro req resp _ out hout x hx
  cases hout
  exact ⟨resp.message, List.mem_singleton.mp hx⟩

/-- The second request takes the response that the first one released. -/
theorem reaches_second (reg : Registry) {P : Job → Prop} {first second : Job} (hfirst : P first)
    (hsecond : P second) {p q : Bytes × Response} (hp : first.serve reg none = some p)
    (hq : second.serve reg (some p.2) = some q) :
    PoolReaches reg P ⟨[q.2], [], [(second, q.1), (first, p.1)]⟩ :=
  (((Relation.ReflTransGen.single (.startNew first hfirst)).tail
    (.finish (List.Perm.refl _) hp)).tail
    (.startPooled second hsecond (List.Perm.refl _))).tail
    (.finish (List.Perm.refl _) hq)

/-- A payload whose `MarshalTTLV` panics before it has written anything. -/
def panickingPayload : GoVal .iface :=
  .iface (.marshaler (.fail (lit "out of range")) : GoVal (.marshaler (lit "Payload") false))

/-- `Bytes` on the message with one more item, which has that payload. -/
def panickingSizing (m : ResponseMessage) : Sizing :=
  .interrupted { m with
    batchItem := m.batchItem ++ [{ ResponseBatchItem.zero with responsePayload := panickingPayload }] }

def interruptedJob : Job := sizingJob (fun m => [panickingSizing m])

/-- A new response is written with 136 bytes, and the one an interrupted request used with none: the
    message and the item are open in its encoder. -/
theorem serve_quietJob :
    (quietJob.serve Message.messageRegistry none).map (fun p => p.1.length) = some 136 ∧
    (interruptedJob.serve Message.messageRegistry none).map (fun p => p.2.enc.encodeDepth) = some 2 ∧
    ((interruptedJob.serve Message.messageRegistry none).bind fun p =>
      (quietJob.serve Message.messageRegistry (some p.2)).map Prod.fst) = some [] := by
  decide +kernel

theorem written_as_fresh_quietJob :
    ∃ s : PoolState, PoolReaches Message.messageRegistry (Job.Uninterrupted Message.messageRegistry) s ∧
      s.done.map (fun p => p.2.length) = [136, 136] ∧ ∀ p ∈ s.done, AsFresh Message.messageRegistry p := by
  obtain ⟨p, hp, hplen⟩ := Option.map_eq_some_iff.mp serve_quietJob.1
  have hidle := idle_serve Message.messageRegistry (uninterrupted_quietJob _) (fun r hr => by cases hr) hp
  have hq : quietJob.serve Message.messageRegistry (some p.2) = some p :=
    (serve_of_idle Message.messageRegistry quietJob (fun r hr => by cases hr; exact hidle)).trans hp
  have hreach := reaches_second Message.messageRegistry (uninterrupted_quietJob Message.messageRegistry)
    (uninterrupted_quietJob Message.messageRegistry) hp hq
  refine ⟨_, hreach, ?_, written_as_fresh Message.messageRegistry hreach⟩
  simp only [List.map_cons, List.map_nil, hplen]

/-- The request after an interrupted one is answered by nothing; a new response would have been
    written with 136 bytes. -/
theorem interrupted_leaks :
    ∃ s : PoolState, PoolReaches Message.messageRegistry (fun _ => True) s ∧
      (quietJob, []) ∈ s.done ∧
      (quietJob.serve Message.messageRegistry none).map (fun p => p.1.length) = some 136 ∧
      ¬ AsFresh Message.messageRegistry (quietJob, []) := by
  obtain ⟨hfresh, -, hleak⟩ := serve_quietJob
  obtain ⟨p, hp, hsecond⟩ := Option.bind_eq_some_iff.mp hleak
  obtain ⟨q, hq, hempty⟩ := Option.map_eq_some_iff.mp hsecond
  refine ⟨_, reaches_second Message.messageRegistry trivial trivial hp hq, ?_, hfresh, fun has => ?_⟩
  · rw [hempty]
    exact List.mem_cons_self ..
  · obtain ⟨r, hr, hlen⟩ := Option.map_eq_some_iff.mp hfresh
    rw [AsFresh, hr, Option.map_some, Option.some.injEq] at has
    rw [has] at hlen
    cases hlen

end KmipGo.Server
