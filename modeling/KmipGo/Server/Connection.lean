import KmipGo.Decoder.Framing
import KmipGo.Lib.Interleave
import KmipGo.Server.Pool

/-! # Connections

`conn.serve` and `conn.readRequest` of `requests.go`.  Each connection has a
goroutine of its own, which reads a request, lets `ServeKMIP` write the response to
a buffered writer, flushes the writer, and reads on.  It returns at the end of the
stream and, through its `recover`, on a panic: in `ServeKMIP`, for a header that is
not valid, or when the network fails in a read or a write.  All connections share
the pool of responses.

What a client sends is a stream of bytes, which arrives in chunks; `Denotes` says
which requests it is made of, in terms of the bytes alone.

* `connection_serves` — in every run whose handlers do not recover from a panic of a
  `MarshalTTLV`, the client has received the responses to the first of its requests,
  in order, each as a server without other connections and without a pool would
  write it; where the connection is closed there is a reason for it.
* `connection_ends` — a connection never gets stuck, and takes a bounded number of
  steps.
-/

namespace KmipGo.Server

open KmipGo.Lib KmipGo.Ttlv KmipGo.Reg KmipGo.Go KmipGo.Encoder KmipGo.Decoder

/-! ## What a client sends -/

/-- The stream is made of these requests, and reading on ends with this error. -/
inductive Denotes : Bytes → List TTLV → DecErr → Prop where
  | ends {b : Bytes} {e : DecErr} (h : nextTTLV b = .err e) : Denotes b [] e
  | request {b m rest : Bytes} {ms : List TTLV} {e : DecErr} (hb : b = m ++ rest) (h : nextTTLV b = .ok m)
      (hrest : Denotes rest ms e) : Denotes b (m :: ms) e

/-- What `NextTTLV` returns: the end of the stream, a header that is not valid, or a block. -/
theorem nextTTLV_cases (b : Bytes) :
    nextTTLV b = .err .eof ∨ (∃ e, nextTTLV b = .err (.invalidHeader e)) ∨
      ∃ m rest, nextTTLV b = .ok m ∧ b = m ++ rest ∧ 0 < m.length := by
  rw [nextTTLV]
  split
  · exact .inl rfl
  · cases hhdr : TTLV.validHeader (b.take lenHeader) with
    | some e => exact .inr (.inl ⟨e, rfl⟩)
    | none =>
      obtain ⟨ty, -, hvalid, hfull⟩ := fullLen_of_validHeader hhdr
      have hpos := add_le_blockLen hvalid
      simp only [hfull]
      split
      · exact .inl rfl
      · rename_i hlong
        refine .inr (.inr ⟨_, b.drop _, rfl, (List.take_append_drop _ b).symm, ?_⟩)
        rw [List.length_take]
        omega

theorem denotes_exists (b : Bytes) : ∃ ms e, Denotes b ms e := by
  induction hlen : b.length using Nat.strong_induction_on generalizing b with
  | _ n ih =>
    rcases nextTTLV_cases b with heof | ⟨e, hbad⟩ | ⟨m, rest, hnext, hb, hpos⟩
    · exact ⟨[], _, .ends heof⟩
    · exact ⟨[], _, .ends hbad⟩
    · have hless : rest.length < n := by
        rw [← hlen, hb, List.length_append]
        omega
      obtain ⟨ms, e, hrest⟩ := ih rest.length hless rest rfl
      exact ⟨m :: ms, e, .request hb hnext hrest⟩

/-- A stream is made of requests in one way. -/
theorem Denotes.unique {b : Bytes} {ms ms' : List TTLV} {e e' : DecErr} (h : Denotes b ms e)
    (h' : Denotes b ms' e') : ms = ms' ∧ e = e' := by
  induction h generalizing ms' e' with
  | ends herr =>
    cases h' with
    | ends herr' =>
      rw [herr] at herr'
      cases herr'
      exact ⟨rfl, rfl⟩
    | request hb' hok' _ =>
      rw [herr] at hok'
      cases hok'
  | request hb hok _ ih =>
    cases h' with
    | ends herr' =>
      rw [hok] at herr'
      cases herr'
    | request hb' hok' hrest' =>
      rw [hok] at hok'
      cases hok'
      rw [hb] at hb'
      rw [← List.append_cancel_left hb'] at hrest'
      obtain ⟨hms, he⟩ := ih hrest'
      exact ⟨congrArg _ hms, he⟩

/-! ## Connections -/

/-- Why `serve` has returned.  It recovers from a panic in the last four cases. -/
inductive Closing where
  /-- the TLS handshake failed -/
  | handshake
  /-- the client closed the connection -/
  | eof
  /-- what the client sends has a header that is not valid -/
  | invalidHeader
  /-- a read returned another error -/
  | readFailed
  /-- `ServeKMIP` panicked on this request -/
  | panicked (job : Job)
  /-- a write of this response returned an error -/
  | writeFailed (job : Job) (out : Bytes)

/-- Where the goroutine of a connection is. -/
inductive ConnPc where
  | handshaking
  /-- before `readRequest` -/
  | reading
  /-- in `ServeKMIP`, with what `newResponse` took from the pool -/
  | serving (job : Job) (taken : Option Response)
  /-- before `Flush`, with what the writer holds -/
  | flushing (job : Job) (out : Bytes)
  | closed (why : Closing)

/-- A connection, with what happened on it so far. -/
structure Conn (ρ : Type) where
  dec : ρ
  pc : ConnPc
  /-- the requests whose responses are written in full, with the responses -/
  answered : List (Job × Bytes)
  /-- what the client has received -/
  sent : Bytes

namespace Conn

variable {ρ : Type}

def requests (a : Conn ρ) : List TTLV := a.answered.map fun p => p.1.request.ttlv

def responses (a : Conn ρ) : Bytes := (a.answered.map Prod.snd).flatten

def complete (a : Conn ρ) (job : Job) (out : Bytes) : Conn ρ :=
  { a with pc := .reading, answered := a.answered ++ [(job, out)], sent := a.sent ++ out }

/-- `close`, when `part` of a response could be written. -/
def close (a : Conn ρ) (why : Closing) (part : Bytes) : Conn ρ :=
  { a with pc := .closed why, sent := a.sent ++ part }

theorem requests_complete (a : Conn ρ) (job : Job) (out : Bytes) :
    (a.complete job out).requests = a.requests ++ [job.request.ttlv] := by
  simp [requests, complete]

theorem responses_complete (a : Conn ρ) (job : Job) (out : Bytes) :
    (a.complete job out).responses = a.responses ++ out := by
  simp [responses, complete]

end Conn

/-- The size of the buffer of `bufio.NewWriter`. -/
def writerSize : Nat := 4096

section

variable (reg : Registry) (r : BufferedReader UInt8) (P : Job → Prop)

/-- A step of a connection; `P` holds of each request that is taken up.  The pool returns nothing, or any
    of the responses it holds. -/
inductive ConnStep : List Response → Conn r.State → List Response → Conn r.State → Prop where
  | handshake {pool : List Response} {a : Conn r.State} (hpc : a.pc = .handshaking) :
      ConnStep pool a pool { a with pc := .reading }
  | handshakeFails {pool : List Response} {a : Conn r.State} (hpc : a.pc = .handshaking) :
      ConnStep pool a pool (a.close .handshake [])
  | request {pool : List Response} {a : Conn r.State} {dec : r.State} {m : TTLV} (hpc : a.pc = .reading)
      (hread : readTTLV r a.dec = (dec, .ok m)) (job : Job) (hjob : job.request = Request.ofTTLV m)
      (hP : P job) : ConnStep pool a pool { a with dec := dec, pc := .serving job none }
  | requestPooled {pool rest : List Response} {a : Conn r.State} {dec : r.State} {m : TTLV} {resp : Response}
      (hpc : a.pc = .reading) (hread : readTTLV r a.dec = (dec, .ok m)) (job : Job)
      (hjob : job.request = Request.ofTTLV m) (hP : P job) (htake : pool.Perm (resp :: rest)) :
      ConnStep pool a rest { a with dec := dec, pc := .serving job (some resp) }
  | eof {pool : List Response} {a : Conn r.State} {dec : r.State} (hpc : a.pc = .reading)
      (hread : readTTLV r a.dec = (dec, .err .eof)) :
      ConnStep pool a pool ({ a with dec := dec }.close .eof [])
  | invalidHeader {pool : List Response} {a : Conn r.State} {dec : r.State} {e : ValidErr}
      (hpc : a.pc = .reading) (hread : readTTLV r a.dec = (dec, .err (.invalidHeader e))) :
      ConnStep pool a pool ({ a with dec := dec }.close .invalidHeader [])
  /-- the network may fail at any time -/
  | readFails {pool : List Response} {a : Conn r.State} {dec : r.State} (hpc : a.pc = .reading) :
      ConnStep pool a pool ({ a with dec := dec }.close .readFailed [])
  /-- a response that fits into the buffer of the writer -/
  | buffer {pool : List Response} {a : Conn r.State} {job : Job} {taken : Option Response} {out : Bytes}
      {resp : Response} (hpc : a.pc = .serving job taken) (hserve : job.serve reg taken = some (out, resp))
      (hsize : out.length ≤ writerSize) :
      ConnStep pool a (resp :: pool) { a with pc := .flushing job out }
  /-- a larger one is written at once -/
  | write {pool : List Response} {a : Conn r.State} {job : Job} {taken : Option Response} {out : Bytes}
      {resp : Response} (hpc : a.pc = .serving job taken) (hserve : job.serve reg taken = some (out, resp))
      (hsize : writerSize < out.length) : ConnStep pool a (resp :: pool) (a.complete job out)
  -- the response is released only after a write without an error
  | writeFails {pool : List Response} {a : Conn r.State} {job : Job} {taken : Option Response}
      {out part : Bytes} {resp : Response} (hpc : a.pc = .serving job taken)
      (hserve : job.serve reg taken = some (out, resp)) (hsize : writerSize < out.length)
      (hpart : part <+: out) : ConnStep pool a pool (a.close (.writeFailed job out) part)
  | panic {pool : List Response} {a : Conn r.State} {job : Job} {taken : Option Response}
      (hpc : a.pc = .serving job taken) (hserve : job.serve reg taken = none) :
      ConnStep pool a pool (a.close (.panicked job) [])
  | flush {pool : List Response} {a : Conn r.State} {job : Job} {out : Bytes}
      (hpc : a.pc = .flushing job out) : ConnStep pool a pool (a.complete job out)
  | flushFails {pool : List Response} {a : Conn r.State} {job : Job} {out part : Bytes}
      (hpc : a.pc = .flushing job out) (hout : out ≠ []) (hpart : part <+: out) :
      ConnStep pool a pool (a.close (.writeFailed job out) part)

variable {τ : Type}

/-- The connections of a server and the pool that they share. -/
abbrev Conns (τ : Type) := Threads (List Response) (Conn r.State) τ

/-- The connections when they are accepted: `input` is what the clients will send, and some of them
    use TLS. -/
def Conns.accepted (tls : τ → Bool) (input : τ → List (Chunk UInt8)) : Conns r τ :=
  ⟨[], fun c => ⟨r.new (input c), if tls c then .handshaking else .reading, [], []⟩⟩

/-! ## Where a connection stands -/

variable {r}

/-- What the client has received when these requests are not answered yet, and its stream ends
    with `e`. -/
def Conn.Stands {ρ : Type} (todo : List TTLV) (e : DecErr) (a : Conn ρ) : Prop :=
  match a.pc with
  | .handshaking | .closed .handshake => a.answered = [] ∧ a.sent = []
  | .reading | .closed .readFailed => a.sent = a.responses
  | .serving job _ | .flushing job _ => P job ∧ todo.head? = some job.request.ttlv ∧ a.sent = a.responses
  | .closed .eof => todo = [] ∧ e = .eof ∧ a.sent = a.responses
  | .closed .invalidHeader => todo = [] ∧ e ≠ .eof ∧ a.sent = a.responses
  -- the next request makes `ServeKMIP` panic
  | .closed (.panicked job) => P job ∧ todo.head? = some job.request.ttlv ∧ job.serve reg none = none ∧
      a.sent = a.responses
  -- the client received only a part of the next response
  | .closed (.writeFailed job out) => P job ∧ todo.head? = some job.request.ttlv ∧ AsFresh reg (job, out) ∧
      out ≠ [] ∧ ∃ part, part <+: out ∧ a.sent = a.responses ++ part

/-- What the goroutine relies on: the reader has the requests that follow, and the response was idle in
    the pool. -/
def Conn.Ready (left : r.State → Bytes) (todo : List TTLV) (e : DecErr) (a : Conn r.State) : Prop :=
  match a.pc with
  | .handshaking | .reading => Denotes (left a.dec) todo e
  | .serving _ taken => Denotes (left a.dec) todo.tail e ∧ ∀ resp, taken = some resp → Idle resp.enc
  | .flushing job out => Denotes (left a.dec) todo.tail e ∧ AsFresh reg (job, out)
  | .closed _ => True

structure ConnInv (left : r.State → Bytes) (ms : List TTLV) (e : DecErr) (a : Conn r.State) : Prop where
  fresh : ∀ p ∈ a.answered, P p.1 ∧ AsFresh reg p
  todo : ∃ todo, ms = a.requests ++ todo ∧ a.Stands reg P todo e ∧ a.Ready reg left todo e

variable {P}

/-- What the pool is trusted with. -/
def PoolIdle (pool : List Response) : Prop := ∀ resp ∈ pool, Idle resp.enc

section

variable {left : r.State → Bytes} (hr : r.Documented left) {ms : List TTLV} {e : DecErr}

/-- A request that is taken off the stream is the next one. -/
theorem Denotes.read {s dec : r.State} {m : TTLV} {todo : List TTLV} (hr : r.Documented left)
    (h : Denotes (left s) todo e) (hread : readTTLV r s = (dec, .ok m)) :
    ∃ rest, todo = m :: rest ∧ Denotes (left dec) rest e := by
  obtain ⟨hresult, htaken⟩ := readTTLV_spec hr s
  rw [hread] at hresult htaken
  have hsplit := htaken m rfl
  cases h with
  | ends herr =>
    rw [herr] at hresult
    cases hresult
  | request hb hok hrest =>
    rw [hok] at hresult
    cases hresult
    rw [hb] at hsplit
    rw [List.append_cancel_left hsplit] at hrest
    exact ⟨_, rfl, hrest⟩

/-- The stream ends where reading fails. -/
theorem Denotes.fails {s dec : r.State} {x : DecErr} {todo : List TTLV} (hr : r.Documented left)
    (h : Denotes (left s) todo e) (hread : readTTLV r s = (dec, .err x)) : todo = [] ∧ e = x := by
  have hresult := (readTTLV_spec hr s).1
  rw [hread] at hresult
  cases h with
  | ends herr =>
    rw [herr] at hresult
    cases hresult
    exact ⟨rfl, rfl⟩
  | request hb hok hrest =>
    rw [hok] at hresult
    cases hresult

/-- The next request is taken up, with an idle response or a new one. -/
theorem ConnInv.request {a : Conn r.State} (ha : ConnInv reg P left ms e a) (hr : r.Documented left)
    (hpc : a.pc = .reading) {dec : r.State} {m : TTLV} (hread : readTTLV r a.dec = (dec, .ok m)) {job : Job}
    (hjob : job.request = Request.ofTTLV m) (hP : P job) {taken : Option Response}
    (htaken : ∀ resp, taken = some resp → Idle resp.enc) :
    ConnInv reg P left ms e { a with dec := dec, pc := .serving job taken } := by
  obtain ⟨todo, hms, hstands, hready⟩ := ha.todo
  simp only [Conn.Stands, Conn.Ready, hpc] at hstands hready
  obtain ⟨rest, rfl, hrest⟩ := hready.read hr hread
  have hm : job.request.ttlv = m := by rw [hjob]; rfl
  exact ⟨ha.fresh, m :: rest, hms, ⟨hP, congrArg some hm.symm, hstands⟩, hrest, htaken⟩

/-- The response in progress is written. -/
theorem ConnInv.complete {a : Conn r.State} (ha : ∀ p ∈ a.answered, P p.1 ∧ AsFresh reg p) {job : Job}
    {out : Bytes} (hP : P job) (hfresh : AsFresh reg (job, out)) {todo : List TTLV}
    (hms : ms = a.requests ++ todo) (hhead : todo.head? = some job.request.ttlv) (hsent : a.sent = a.responses)
    (hleft : Denotes (left a.dec) todo.tail e) : ConnInv reg P left ms e (a.complete job out) := by
  obtain ⟨rest, rfl⟩ := List.head?_eq_some_iff.mp hhead
  refine ⟨fun p hp => ?_, rest, ?_, ?_, hleft⟩
  · rcases List.mem_append.mp hp with hp | hp
    · exact ha p hp
    · rw [List.mem_singleton.mp hp]
      exact ⟨hP, hfresh⟩
  · rw [Conn.requests_complete, List.append_assoc]
    exact hms
  · show a.sent ++ out = _
    rw [hsent, Conn.responses_complete]

theorem asFresh_of_serve {job : Job} {taken : Option Response} (htaken : ∀ resp, taken = some resp → Idle resp.enc)
    {out : Bytes} {resp : Response} (hserve : job.serve reg taken = some (out, resp)) :
    AsFresh reg (job, out) := by
  rw [serve_of_idle reg job htaken] at hserve
  rw [AsFresh, hserve]
  rfl

/-- What a step does to the connection that takes it, and to the pool. -/
theorem connInv_step (hP : ∀ job, P job → job.Uninterrupted reg) (hr : r.Documented left)
    {pool pool' : List Response} {a a' : Conn r.State} (hpool : PoolIdle pool) (ha : ConnInv reg P left ms e a)
    (hstep : ConnStep reg r P pool a pool' a') : PoolIdle pool' ∧ ConnInv reg P left ms e a' := by
  obtain ⟨todo, hms, hstands, hready⟩ := ha.todo
  cases hstep with
  | handshake hpc =>
    simp only [Conn.Stands, Conn.Ready, hpc] at hstands hready
    refine ⟨hpool, ha.fresh, todo, hms, ?_, hready⟩
    show a.sent = a.responses
    rw [hstands.2, Conn.responses, hstands.1]
    rfl
  | handshakeFails hpc =>
    simp only [Conn.Stands, hpc] at hstands
    exact ⟨hpool, ha.fresh, todo, hms, ⟨hstands.1, by rw [Conn.close, hstands.2]; rfl⟩, trivial⟩
  | request hpc hread job hjob hPjob =>
    exact ⟨hpool, ha.request reg hr hpc hread hjob hPjob (fun resp h => by cases h)⟩
  | requestPooled hpc hread job hjob hPjob htake =>
    refine ⟨fun resp h => hpool resp (htake.mem_iff.mpr (List.mem_cons_of_mem _ h)),
      ha.request reg hr hpc hread hjob hPjob fun resp h => ?_⟩
    cases h
    exact hpool _ (htake.mem_iff.mpr (List.mem_cons_self ..))
  | eof hpc hread =>
    simp only [Conn.Stands, Conn.Ready, hpc] at hstands hready
    obtain ⟨rfl, rfl⟩ := hready.fails hr hread
    exact ⟨hpool, ha.fresh, [], hms, ⟨rfl, rfl, (List.append_nil _).trans hstands⟩, trivial⟩
  | invalidHeader hpc hread =>
    simp only [Conn.Stands, Conn.Ready, hpc] at hstands hready
    obtain ⟨rfl, rfl⟩ := hready.fails hr hread
    exact ⟨hpool, ha.fresh, [], hms, ⟨rfl, by simp, (List.append_nil _).trans hstands⟩, trivial⟩
  | readFails hpc =>
    simp only [Conn.Stands, hpc] at hstands
    exact ⟨hpool, ha.fresh, todo, hms, (List.append_nil _).trans hstands, trivial⟩
  | buffer hpc hserve hsize =>
    simp only [Conn.Stands, Conn.Ready, hpc] at hstands hready
    obtain ⟨hleft, htaken⟩ := hready
    refine ⟨fun resp h => ?_, ha.fresh, todo, hms, hstands, hleft, asFresh_of_serve reg htaken hserve⟩
    cases h with
    | head => exact idle_serve reg (hP _ hstands.1) htaken hserve
    | tail _ h => exact hpool resp h
  | write hpc hserve hsize =>
    simp only [Conn.Stands, Conn.Ready, hpc] at hstands hready
    obtain ⟨hleft, htaken⟩ := hready
    obtain ⟨hPjob, hhead, hsent⟩ := hstands
    refine ⟨fun resp h => ?_, ConnInv.complete reg ha.fresh hPjob (asFresh_of_serve reg htaken hserve) hms hhead
      hsent hleft⟩
    cases h with
    | head => exact idle_serve reg (hP _ hPjob) htaken hserve
    | tail _ h => exact hpool resp h
  | writeFails hpc hserve hsize hpart =>
    simp only [Conn.Stands, Conn.Ready, hpc] at hstands hready
    obtain ⟨hPjob, hhead, hsent⟩ := hstands
    exact ⟨hpool, ha.fresh, todo, hms, ⟨hPjob, hhead, asFresh_of_serve reg hready.2 hserve,
      fun hnil => by simp [hnil] at hsize, _, hpart, congrArg (· ++ _) hsent⟩, trivial⟩
  | panic hpc hserve =>
    simp only [Conn.Stands, Conn.Ready, hpc] at hstands hready
    obtain ⟨hPjob, hhead, hsent⟩ := hstands
    rw [serve_of_idle reg _ hready.2] at hserve
    exact ⟨hpool, ha.fresh, todo, hms, ⟨hPjob, hhead, hserve, (List.append_nil _).trans hsent⟩, trivial⟩
  | flush hpc =>
    simp only [Conn.Stands, Conn.Ready, hpc] at hstands hready
    obtain ⟨hPjob, hhead, hsent⟩ := hstands
    exact ⟨hpool, ConnInv.complete reg ha.fresh hPjob hready.2 hms hhead hsent hready.1⟩
  | flushFails hpc hout hpart =>
    simp only [Conn.Stands, Conn.Ready, hpc] at hstands hready
    obtain ⟨hPjob, hhead, hsent⟩ := hstands
    exact ⟨hpool, ha.fresh, todo, hms, ⟨hPjob, hhead, hready.2, hout, _, hpart, congrArg (· ++ _) hsent⟩, trivial⟩

end

/-! ## All connections -/

variable [DecidableEq τ]

/-- Any number of steps of any connections. -/
def ConnRuns (P : Job → Prop) : Conns r τ → Conns r τ → Prop :=
  Threads.Steps fun _ => ConnStep reg r P

omit [DecidableEq τ] in
theorem connInv_accepted {left : r.State → Bytes} (hr : r.Documented left) (tls : τ → Bool)
    {input : τ → List (Chunk UInt8)} {ms : τ → List TTLV} {e : τ → DecErr}
    (hms : ∀ c, Denotes (stream (input c)) (ms c) (e c)) :
    Threads.Holds PoolIdle (fun c _ a => ConnInv reg P left (ms c) (e c) a) (Conns.accepted r tls input) := by
  refine ⟨fun _ h => absurd h List.not_mem_nil, fun c => ⟨fun _ h => absurd h List.not_mem_nil, ms c, rfl, ?_⟩⟩
  have hleft : Denotes (left (r.new (input c))) (ms c) (e c) := by
    rw [hr.new]
    exact hms c
  cases htls : tls c with
  | true => simp only [Conns.accepted, htls, if_true, Conn.Stands, Conn.Ready, hleft, and_self]
  | false =>
    simp only [Conns.accepted, htls, Bool.false_eq_true, if_false, Conn.Stands, Conn.Ready, hleft, and_true]
    rfl

/-- The clients are served in order and apart from each other.  Let no call of `Bytes` by a handler be
    interrupted.  Then in every run, each connection has answered the first of the requests that its stream is
    made of, each as a new response alone would have been written, and the client has received these
    responses one after the other.  A connection that is closed has failed its handshake, is at the end of its
    stream or at a header that is not valid with all requests answered, or could not be read; or
    `ServeKMIP` panics on its next request, or the response to it could not be written in full. -/
theorem connection_serves (hP : ∀ job, P job → job.Uninterrupted reg) {left : r.State → Bytes}
    (hr : r.Documented left) (tls : τ → Bool) (input : τ → List (Chunk UInt8)) {t : Conns r τ}
    (h : ConnRuns reg P (Conns.accepted r tls input) t) (c : τ) :
    ∃ ms e todo, Denotes (stream (input c)) ms e ∧ ms = (t.own c).requests ++ todo ∧
      (∀ p ∈ (t.own c).answered, P p.1 ∧ AsFresh reg p) ∧ (t.own c).Stands reg P todo e := by
  choose ms e hms using fun c => denotes_exists (stream (input c))
  have houtline : Threads.Outline (fun _ : τ => ConnStep reg r P) PoolIdle
      (fun c _ a => ConnInv reg P left (ms c) (e c) a) :=
    ⟨fun hpool ha hstep => connInv_step reg hP hr hpool ha hstep, fun _ _ _ hd _ => hd⟩
  obtain ⟨hfresh, todo, hsplit, hstands, -⟩ := (houtline.steps (connInv_accepted reg hr tls hms) h).own c
  exact ⟨ms c, e c, todo, hms c, hsplit, hfresh, hstands⟩

/-! ## Connections end -/

/-- An upper bound of the steps that a connection still takes: three for each request, each of which has
    at least one byte. -/
def Conn.potential (left : r.State → Bytes) (a : Conn r.State) : Nat :=
  match a.pc with
  | .handshaking => 3 * (left a.dec).length + 2
  | .reading => 3 * (left a.dec).length + 1
  | .serving _ _ => 3 * (left a.dec).length + 3
  | .flushing _ _ => 3 * (left a.dec).length + 2
  | .closed _ => 0

/-- A request that is read leaves fewer bytes. -/
theorem length_left_readTTLV {left : r.State → Bytes} (hr : r.Documented left) {s dec : r.State} {m : TTLV}
    (hread : readTTLV r s = (dec, .ok m)) : (left dec).length < (left s).length := by
  obtain ⟨hresult, htaken⟩ := readTTLV_spec hr s
  rw [hread] at hresult htaken
  rcases nextTTLV_cases (left s) with heof | ⟨e, hbad⟩ | ⟨m', rest, hnext, -, hpos⟩
  · rw [heof] at hresult
    cases hresult
  · rw [hbad] at hresult
    cases hresult
  · rw [hnext] at hresult
    cases hresult
    have hsplit : left s = m ++ left dec := htaken m rfl
    rw [hsplit, List.length_append]
    omega

theorem potential_step {left : r.State → Bytes} (hr : r.Documented left) {pool pool' : List Response}
    {a a' : Conn r.State} (hstep : ConnStep reg r P pool a pool' a') :
    a'.potential left < a.potential left := by
  -- apart from a request that is read, a step is one phase on
  cases hstep with
  | request hpc hread job hjob hP =>
    have hless := length_left_readTTLV hr hread
    simp only [Conn.potential, hpc]
    omega
  | requestPooled hpc hread job hjob hP htake =>
    have hless := length_left_readTTLV hr hread
    simp only [Conn.potential, hpc]
    omega
  | handshake hpc => simp only [Conn.potential, hpc]; omega
  | handshakeFails hpc => simp only [Conn.potential, Conn.close, hpc]; omega
  | eof hpc hread => simp only [Conn.potential, Conn.close, hpc]; omega
  | invalidHeader hpc hread => simp only [Conn.potential, Conn.close, hpc]; omega
  | readFails hpc => simp only [Conn.potential, Conn.close, hpc]; omega
  | buffer hpc hserve hsize => simp only [Conn.potential, hpc]; omega
  | write hpc hserve hsize => simp only [Conn.potential, Conn.complete, hpc]; omega
  | writeFails hpc hserve hsize hpart => simp only [Conn.potential, Conn.close, hpc]; omega
  | panic hpc hserve => simp only [Conn.potential, Conn.close, hpc]; omega
  | flush hpc => simp only [Conn.potential, Conn.complete, hpc]; omega
  | flushFails hpc hout hpart => simp only [Conn.potential, Conn.close, hpc]; omega

/-- The goroutine can only panic: the header is not valid, or `ServeKMIP` panics.  It does so where the
    request cannot even be parsed without a panic, where the handler panics or removes the message of the
    request, and where the response cannot be encoded. -/
def Conn.Doomed (left : r.State → Bytes) (a : Conn r.State) : Prop :=
  (a.pc = .reading ∧ ∃ e, nextTTLV (left a.dec) = .err (.invalidHeader e)) ∨
    ∃ job taken, a.pc = .serving job taken ∧ job.serve reg taken = none

/-- A connection that is not closed can go on, and is not closed by the step unless its stream has ended or
    there is nothing else. -/
theorem exists_connStep {left : r.State → Bytes} (hr : r.Documented left)
    (hP : ∀ m, ∃ job, job.request = Request.ofTTLV m ∧ P job) (pool : List Response) {a : Conn r.State}
    (hopen : ∀ why, a.pc ≠ .closed why) :
    ∃ pool' a', ConnStep reg r P pool a pool' a' ∧
      ∀ why, a'.pc = .closed why → why = .eof ∨ a.Doomed reg left := by
  cases hpc : a.pc with
  | handshaking => exact ⟨_, _, .handshake hpc, fun why h => by cases h⟩
  | reading =>
    have hresult := (readTTLV_spec hr a.dec).1
    rcases nextTTLV_cases (left a.dec) with heof | ⟨e, hbad⟩ | ⟨m, rest, hnext, -, -⟩
    · refine ⟨_, _, .eof hpc (Prod.ext rfl (hresult.trans heof)), fun why h => ?_⟩
      cases h
      exact .inl rfl
    · exact ⟨_, _, .invalidHeader hpc (Prod.ext rfl (hresult.trans hbad)), fun _ _ => .inr (.inl ⟨hpc, e, hbad⟩)⟩
    · obtain ⟨job, hjob, hPjob⟩ := hP m
      exact ⟨_, _, .request hpc (Prod.ext rfl (hresult.trans hnext)) job hjob hPjob, fun why h => by cases h⟩
  | serving job taken =>
    cases hserve : job.serve reg taken with
    | none => exact ⟨_, _, .panic hpc hserve, fun _ _ => .inr (.inr ⟨job, taken, hpc, hserve⟩)⟩
    | some p =>
      by_cases hsize : p.1.length ≤ writerSize
      · exact ⟨_, _, .buffer hpc hserve hsize, fun why h => by cases h⟩
      · exact ⟨_, _, .write hpc hserve (Nat.lt_of_not_le hsize), fun why h => by cases h⟩
  | flushing job out => exact ⟨_, _, .flush hpc, fun why h => by cases h⟩
  | closed why => exact absurd hpc (hopen why)

/-- Whatever the schedule, a connection takes at most three steps for each byte that its client sends, and
    two more.  As long as it is not closed it can take a step, and one that does not close it unless the
    stream has ended, the header is not valid or `ServeKMIP` panics. -/
theorem connection_ends {left : r.State → Bytes} (hr : r.Documented left) (tls : τ → Bool)
    (input : τ → List (Chunk UInt8)) (hP : ∀ m, ∃ job, job.request = Request.ofTTLV m ∧ P job)
    {schedule : List τ} {t : Conns r τ}
    (h : Threads.Trace (fun _ => ConnStep reg r P) (Conns.accepted r tls input) schedule t) (c : τ) :
    schedule.count c ≤ 3 * (stream (input c)).length + 2 ∧
      ((∃ why, (t.own c).pc = .closed why) ∨
        ∃ pool a, ConnStep reg r P t.shared (t.own c) pool a ∧
          ∀ why, a.pc = .closed why → why = .eof ∨ (t.own c).Doomed reg left) := by
  constructor
  · have hcount := h.count_le (fun hstep => potential_step reg hr hstep) c
    have hinit : ((Conns.accepted r tls input).own c).potential left ≤ 3 * (stream (input c)).length + 2 := by
      rw [← hr.new (input c)]
      cases htls : tls c with
      | true => simp [Conns.accepted, htls, Conn.potential]
      | false => simp [Conns.accepted, htls, Conn.potential]
    omega
  · by_cases hclosed : ∃ why, (t.own c).pc = .closed why
    · exact .inl hclosed
    · exact .inr (exists_connStep reg hr hP t.shared fun why hpc => hclosed ⟨why, hpc⟩)

end

/-! ## A connection with one request -/

/-- A request that arrives in two chunks, the first of which ends inside a header. -/
def versionInput : Unit → List (Chunk UInt8) := fun _ =>
  byteChunks [(versionRequest 1).ttlv.take 5, (versionRequest 1).ttlv.drop 5]

theorem versionInput_eval :
    stream (versionInput ()) = (versionRequest 1).ttlv ∧
      nextTTLV (versionRequest 1).ttlv = .ok (versionRequest 1).ttlv := by
  decide +kernel

/-- The connection is read, answered and closed. -/
theorem versionInput_trace :
    ∃ t : Conns (bufio UInt8 4096) Unit,
      Threads.Trace (fun _ => ConnStep Message.messageRegistry _ (Job.Uninterrupted Message.messageRegistry))
        (Conns.accepted _ (fun _ => false) versionInput) [(), (), (), ()] t ∧
      (t.own ()).pc = .closed .eof ∧ (t.own ()).sent.length = 136 := by
  have hr := bufio_documented UInt8 4096
  obtain ⟨hstream, hnext⟩ := versionInput_eval
  obtain ⟨p, hserve, hlen⟩ := Option.map_eq_some_iff.mp serve_quietJob.1
  let dec := (bufio UInt8 4096).new (versionInput ())
  obtain ⟨hresult, htaken⟩ := readTTLV_spec hr dec
  have hleft : dec.1.left = (versionRequest 1).ttlv := (hr.new _).trans hstream
  rw [hleft, hnext] at hresult
  have hrest : (readTTLV (bufio UInt8 4096) dec).1.1.left = [] := by
    have hsplit := htaken _ hresult
    rw [hleft] at hsplit
    exact List.append_right_eq_self.mp hsplit.symm
  have hend := (readTTLV_spec hr (readTTLV (bufio UInt8 4096) dec).1).1
  rw [hrest] at hend
  have hsize : p.1.length ≤ writerSize := by
    rw [hlen]
    decide
  let reg := Message.messageRegistry
  have hrequest : ConnStep reg (bufio UInt8 4096) (Job.Uninterrupted reg) [] ⟨dec, .reading, [], []⟩ []
      ⟨_, .serving quietJob none, [], []⟩ :=
    .request rfl (Prod.ext rfl hresult) quietJob rfl (uninterrupted_quietJob _)
  have hstart : Threads.Trace (fun _ : Unit => ConnStep reg (bufio UInt8 4096) (Job.Uninterrupted reg))
      (Conns.accepted _ (fun _ => false) versionInput) [] (Conns.accepted _ (fun _ => false) versionInput) :=
    .nil
  obtain ⟨t₁, h₁⟩ := Threads.Trace.next ⟨hstart, rfl, rfl⟩ hrequest
  obtain ⟨t₂, h₂⟩ := Threads.Trace.next h₁ (ConnStep.buffer rfl hserve hsize)
  obtain ⟨t₃, h₃⟩ := Threads.Trace.next h₂ (ConnStep.flush rfl)
  obtain ⟨t₄, htrace, -, hown⟩ := Threads.Trace.next h₃ (ConnStep.eof rfl (Prod.ext rfl hend))
  refine ⟨t₄, htrace, by rw [hown]; rfl, ?_⟩
  rw [hown, ← hlen]
  exact congrArg List.length (List.append_nil p.1)

theorem connection_serves_versionInput :
    ∃ t : Conns (bufio UInt8 4096) Unit, (t.own ()).pc = .closed .eof ∧ (t.own ()).sent.length = 136 ∧
      ∃ ms e todo, Denotes (stream (versionInput ())) ms e ∧ ms = (t.own ()).requests ++ todo ∧
        (∀ p ∈ (t.own ()).answered, p.1.Uninterrupted Message.messageRegistry ∧ AsFresh Message.messageRegistry p) ∧
        (t.own ()).Stands Message.messageRegistry (Job.Uninterrupted Message.messageRegistry) todo e := by
  obtain ⟨t, htrace, hpc, hlen⟩ := versionInput_trace
  exact ⟨t, hpc, hlen, connection_serves Message.messageRegistry (fun _ hjob => hjob) (bufio_documented UInt8 4096) _
    versionInput htrace.steps ()⟩

theorem connection_ends_versionInput :
    ∃ t : Conns (bufio UInt8 4096) Unit, [(), (), (), ()].count () ≤ 3 * (stream (versionInput ())).length + 2 ∧
      ((∃ why, (t.own ()).pc = .closed why) ∨
        ∃ pool a, ConnStep Message.messageRegistry _ (Job.Uninterrupted Message.messageRegistry) t.shared
          (t.own ()) pool a ∧ ∀ why, a.pc = .closed why → why = .eof ∨
            (t.own ()).Doomed Message.messageRegistry fun s : (bufio UInt8 4096).State => s.1.left) := by
  obtain ⟨t, htrace, -, -⟩ := versionInput_trace
  refine ⟨t, connection_ends Message.messageRegistry (bufio_documented UInt8 4096) _ versionInput (fun m => ?_)
    htrace ()⟩
  refine ⟨{ quietJob with request := Request.ofTTLV m }, rfl, fun req resp _ out hout x hx => ?_⟩
  cases hout
  exact ⟨resp.message, List.mem_singleton.mp hx⟩

end KmipGo.Server
