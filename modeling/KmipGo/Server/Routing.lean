import KmipGo.Lib.Interleave
import KmipGo.Server.Mux
import Mathlib.Data.Finset.Card

/-! # Registering handlers while requests are handled

`Handle` and `handlerForOp` of `OperationMux` in `requests.go`.  Handlers are
registered in a map under a `sync.RWMutex`, while any number of goroutines are
inside `HandleMessage` and look up the handlers of their items.

A Go map must not be read or written while it is written; `fault` records that this
has happened.  The registrations that have taken effect are recorded in their order.

* `batch_routed` — there is no such fault in any run.  Each item of a batch is
  answered by the multiplexer as some registrations had left it, at least those that
  were in effect when the call began, and later items see no fewer of them.  If none
  takes effect in the meantime, the call is the one of the sequential multiplexer.
-/

namespace KmipGo.Server

open KmipGo.Lib KmipGo.Ttlv KmipGo.Reg KmipGo.Go KmipGo.Encoder KmipGo.Decoder

/-! ## Registrations -/

/-- A call of `Handle`: an operation and its handler, or nil. -/
abbrev Registration (σ : Type) := BitVec 32 × Option (ItemHandler σ)

section

variable {σ : Type}

/-- What `m.handlers[op]` is after some registrations: the last one counts. -/
def registered (log : List (Registration σ)) (op : BitVec 32) : Option (ItemHandler σ) :=
  log.foldl (fun h e => if e.1 = op then e.2 else h) none

/-- The multiplexer as these registrations have left it. -/
def muxAt (errorHandler : Option ErrorHandler) (log : List (Registration σ)) : OperationMux σ :=
  ⟨registered log, errorHandler⟩

/-- The loop of `HandleMessage` when each item is routed by the first so many registrations. -/
def handleItemsAt (errorHandler : Option ErrorHandler) (log : List (Registration σ)) (req : Request) :
    List Nat → List RequestBatchItem → List ResponseBatchItem → σ → Option (List ResponseBatchItem × σ)
  | [], [], items, st => some (items, st)
  | k :: ks, reqItem :: rest, items, st =>
    match (muxAt errorHandler (log.take k)).bi st req reqItem with
    | (none, _) => none
    | (some respItem, st) =>
      handleItemsAt errorHandler log req ks rest (items ++ [OperationMux.correlate reqItem respItem]) st
  | _, _, _, _ => none

section

variable (errorHandler : Option ErrorHandler) (req : Request)

/-- Registrations to come do not matter. -/
theorem handleItemsAt_append (log more : List (Registration σ)) :
    ∀ {ks : List Nat} (reqItems : List RequestBatchItem) (items : List ResponseBatchItem) (st : σ),
      (∀ k ∈ ks, k ≤ log.length) →
        handleItemsAt errorHandler (log ++ more) req ks reqItems items st =
          handleItemsAt errorHandler log req ks reqItems items st
  | [], [], _, _, _ => rfl
  | [], _ :: _, _, _, _ => rfl
  | _ :: _, [], _, _, _ => rfl
  | k :: ks, reqItem :: rest, items, st, h => by
    rw [handleItemsAt, handleItemsAt, List.take_append_of_le_length (h k (List.mem_cons_self ..))]
    cases (muxAt errorHandler (log.take k)).bi st req reqItem with
    | mk respItem st' =>
      cases respItem with
      | none => rfl
      | some respItem =>
        exact handleItemsAt_append log more rest _ st' fun x hx => h x (List.mem_cons_of_mem k hx)

/-- One more item. -/
theorem handleItemsAt_snoc (log : List (Registration σ)) (k : Nat) {reqItem : RequestBatchItem} :
    ∀ {ks : List Nat} {reqItems : List RequestBatchItem} {before items : List ResponseBatchItem} {st₀ st : σ},
      handleItemsAt errorHandler log req ks reqItems before st₀ = some (items, st) →
      ∀ {respItem : ResponseBatchItem} {st' : σ},
        (muxAt errorHandler (log.take k)).bi st req reqItem = (some respItem, st') →
        handleItemsAt errorHandler log req (ks ++ [k]) (reqItems ++ [reqItem]) before st₀ =
          some (items ++ [OperationMux.correlate reqItem respItem], st')
  | [], [], before, items, st₀, st, h, respItem, st', hbi => by
    cases h
    rw [List.nil_append, List.nil_append, handleItemsAt, hbi]
    rfl
  | [], _ :: _, _, _, _, _, h, _, _, _ => by cases h
  | _ :: _, [], _, _, _, _, h, _, _, _ => by cases h
  | l :: ks, x :: reqItems, before, items, st₀, st, h, respItem, st', hbi => by
    rw [handleItemsAt] at h
    rw [List.cons_append, List.cons_append, handleItemsAt]
    cases hfirst : (muxAt errorHandler (log.take l)).bi st₀ req x with
    | mk first st₁ =>
      rw [hfirst] at h
      cases first with
      | none => cases h
      | some first => exact handleItemsAt_snoc log k h hbi

end

/-! ## The multiplexer and its calls -/

/-- An `OperationMux`, and what happened so far. -/
structure SharedMux (τ σ : Type) where
  /-- who holds `mu` -/
  writer : Option τ
  /-- who holds `mu` for reading -/
  readers : Finset τ
  /-- the map, which is nil at first -/
  handlers : Option (BitVec 32 → Option (ItemHandler σ))
  /-- the map is being written -/
  mutating : Bool
  /-- the map was accessed while it was being written -/
  fault : Bool
  log : List (Registration σ)

def SharedMux.new {τ : Type} : SharedMux τ σ := ⟨none, ∅, none, false, false, []⟩

/-- `m.handlers[op]`, also of a nil map. -/
def SharedMux.lookup {τ : Type} (s : SharedMux τ σ) (op : BitVec 32) : Option (ItemHandler σ) :=
  (s.handlers.getD fun _ => none) op

/-- Where a call of `Handle` is. -/
inductive HandlePhase where
  /-- before `Lock` -/
  | called
  /-- before the test whether the map is nil -/
  | locked
  | ready
  /-- inside the assignment -/
  | writing
  /-- before `Unlock` -/
  | written
deriving DecidableEq, Repr

/-- Where a call of `HandleMessage` is. -/
inductive LookupPhase (σ : Type) where
  /-- before the next item -/
  | between
  /-- holds the mutex for reading -/
  | locked
  /-- holds the mutex for reading, and has the handler that the first so many registrations make -/
  | found (k : Nat) (h : Option (ItemHandler σ))
  /-- before `HandleItem` -/
  | routed (k : Nat) (h : Option (ItemHandler σ))

/-- A call of `HandleMessage`. -/
structure Batch (σ : Type) where
  request : Request
  message : GoVal Message.requestMessage
  response : Response
  /-- the state of the handlers when the call began -/
  initial : σ
  /-- the registrations that were in effect then -/
  start : Nat
  handled : List RequestBatchItem
  rest : List RequestBatchItem
  /-- the items of the response so far -/
  items : List ResponseBatchItem
  st : σ
  /-- how many registrations had taken effect when each handled item was routed -/
  routes : List Nat

/-- What a goroutine does. -/
inductive RoutePc (σ : Type) where
  | idle
  | registering (phase : HandlePhase) (op : BitVec 32) (h : Option (ItemHandler σ))
  | handling (b : Batch σ) (phase : LookupPhase σ)
  | finished (b : Batch σ)
  | panicked

def Batch.begin (req : Request) (message : GoVal Message.requestMessage) (resp : Response) (st : σ) (start : Nat) :
    Batch σ :=
  ⟨req, message, resp, st, start, [], batchItems message, resp.message.batchItem, st, []⟩

/-- The item is answered. -/
def Batch.advance (b : Batch σ) (k : Nat) (reqItem : RequestBatchItem) (rest : List RequestBatchItem)
    (respItem : ResponseBatchItem) (st : σ) : Batch σ :=
  { b with
      handled := b.handled ++ [reqItem]
      rest := rest
      items := b.items ++ [OperationMux.correlate reqItem respItem]
      st := st
      routes := b.routes ++ [k] }

variable {τ : Type} [DecidableEq τ]

/-- The atomic steps of a goroutine. -/
inductive RouteStep (errorHandler : Option ErrorHandler) (c : τ) :
    SharedMux τ σ → RoutePc σ → SharedMux τ σ → RoutePc σ → Prop where
  -- `Handle`
  | handle {s} (op : BitVec 32) (h : Option (ItemHandler σ)) :
      RouteStep errorHandler c s .idle s (.registering .called op h)
  | lock {s op h} (hwriter : s.writer = none) (hreaders : s.readers = ∅) :
      RouteStep errorHandler c s (.registering .called op h) { s with writer := some c }
        (.registering .locked op h)
  | makeMap {s op h} (hnil : s.handlers = none) :
      RouteStep errorHandler c s (.registering .locked op h) { s with handlers := some fun _ => none }
        (.registering .ready op h)
  | haveMap {s op h} (hmap : s.handlers ≠ none) :
      RouteStep errorHandler c s (.registering .locked op h) s (.registering .ready op h)
  | beginWrite {s op h} :
      RouteStep errorHandler c s (.registering .ready op h)
        { s with fault := s.fault || s.mutating, mutating := true } (.registering .writing op h)
  | endWrite {s op h} :
      RouteStep errorHandler c s (.registering .writing op h)
        { s with
            handlers := s.handlers.map fun m => Function.update m op h
            mutating := false
            log := s.log ++ [(op, h)] }
        (.registering .written op h)
  | unlock {s op h} :
      RouteStep errorHandler c s (.registering .written op h) { s with writer := none } .idle
  -- `HandleMessage`, with `handlerForOp`
  | begin {s} (req : Request) (message : GoVal Message.requestMessage) (hreq : req.message = some message)
      (resp : Response) (st : σ) :
      RouteStep errorHandler c s .idle s (.handling (.begin req message resp st s.log.length) .between)
  | rlock {s b} (hwriter : s.writer = none) (hrest : b.rest ≠ []) :
      RouteStep errorHandler c s (.handling b .between) { s with readers := insert c s.readers }
        (.handling b .locked)
  | find {s b reqItem rest} (hrest : b.rest = reqItem :: rest) :
      RouteStep errorHandler c s (.handling b .locked) { s with fault := s.fault || s.mutating }
        (.handling b (.found s.log.length (s.lookup (operation reqItem))))
  | runlock {s b k h} :
      RouteStep errorHandler c s (.handling b (.found k h)) { s with readers := s.readers.erase c }
        (.handling b (.routed k h))
  | answer {s b k h reqItem rest respItem st} (hrest : b.rest = reqItem :: rest)
      (hbi : OperationMux.bi ⟨fun _ => h, errorHandler⟩ b.st b.request reqItem = (some respItem, st)) :
      RouteStep errorHandler c s (.handling b (.routed k h)) s
        (.handling (b.advance k reqItem rest respItem st) .between)
  | panic {s b k h reqItem rest st} (hrest : b.rest = reqItem :: rest)
      (hbi : OperationMux.bi ⟨fun _ => h, errorHandler⟩ b.st b.request reqItem = (none, st)) :
      RouteStep errorHandler c s (.handling b (.routed k h)) s .panicked
  | finish {s b} (hrest : b.rest = []) :
      RouteStep errorHandler c s (.handling b .between) s (.finished b)

/-- A multiplexer and the goroutines that use it. -/
abbrev Routes (τ σ : Type) := Threads (SharedMux τ σ) (RoutePc σ) τ

def Routes.init : Routes τ σ := ⟨SharedMux.new, fun _ => .idle⟩

namespace RoutePc

/-- The goroutine holds the mutex. -/
def writes : RoutePc σ → Bool
  | .registering .called _ _ => false
  | .registering _ _ _ => true
  | _ => false

/-- The goroutine holds the mutex for reading. -/
def reads : RoutePc σ → Bool
  | .handling _ .locked | .handling _ (.found _ _) => true
  | _ => false

/-- The goroutine is inside the assignment to the map. -/
def mutates : RoutePc σ → Bool
  | .registering .writing _ _ => true
  | _ => false

/-- The goroutine has seen that there is a map. -/
def hasMap : RoutePc σ → Bool
  | .registering .ready _ _ | .registering .writing _ _ => true
  | _ => false

end RoutePc

/-- How far a batch has come, given the registrations so far. -/
structure Batch.Routed (errorHandler : Option ErrorHandler) (log : List (Registration σ)) (b : Batch σ) :
    Prop where
  items : batchItems b.message = b.handled ++ b.rest
  count : b.routes.length = b.handled.length
  order : b.routes.Pairwise (· ≤ ·)
  bounds : ∀ k ∈ b.routes, b.start ≤ k ∧ k ≤ log.length
  start : b.start ≤ log.length
  message : b.request.message = some b.message
  answers : handleItemsAt errorHandler log b.request b.routes b.handled b.response.message.batchItem b.initial =
    some (b.items, b.st)

/-- A handler that was looked up for the next item is the one of some registrations, no earlier than those
    of the items before. -/
structure Batch.Next (log : List (Registration σ)) (b : Batch σ) (k : Nat) (h : Option (ItemHandler σ)) :
    Prop where
  after : ∀ l ∈ b.routes, l ≤ k
  lower : b.start ≤ k
  upper : k ≤ log.length
  handler : ∀ reqItem rest, b.rest = reqItem :: rest → h = registered (log.take k) (operation reqItem)

def RoutePc.Asserts (errorHandler : Option ErrorHandler) (s : SharedMux τ σ) : RoutePc σ → Prop
  | .handling b .between | .handling b .locked => b.Routed errorHandler s.log
  | .finished b => b.Routed errorHandler s.log ∧ b.rest = []
  | .handling b (.found k h) | .handling b (.routed k h) => b.Routed errorHandler s.log ∧ b.Next s.log k h
  | _ => True

/-- What holds for each goroutine. -/
structure RouteInv (errorHandler : Option ErrorHandler) (c : τ) (s : SharedMux τ σ) (pc : RoutePc σ) : Prop where
  writer : pc.writes = true ↔ s.writer = some c
  reader : pc.reads = true ↔ c ∈ s.readers
  mutating : s.writer = some c → s.mutating = pc.mutates
  hasMap : pc.hasMap = true → s.handlers ≠ none
  point : pc.Asserts errorHandler s

/-- What holds for the multiplexer. -/
structure MuxInv (s : SharedMux τ σ) : Prop where
  exclusive : s.writer ≠ none → s.readers = ∅
  still : s.writer = none → s.mutating = false
  sound : s.fault = false
  table : ∀ op, s.lookup op = registered s.log op

/-! ## What a step can do -/

/-- What the other goroutines see of a step of `c`. -/
structure RouteEffect (c : τ) (s s' : SharedMux τ σ) : Prop where
  writer : s'.writer = s.writer ∨ s.writer = none ∧ s'.writer = some c ∨ s.writer = some c ∧ s'.writer = none
  readers : ∀ d, d ≠ c → (d ∈ s'.readers ↔ d ∈ s.readers)
  guarded : s.writer ≠ some c → s'.mutating = s.mutating
  handlers : s.handlers ≠ none → s'.handlers ≠ none
  grows : ∃ more, s'.log = s.log ++ more

omit [DecidableEq τ] in
theorem RouteEffect.refl (c : τ) (s : SharedMux τ σ) : RouteEffect c s s where
  writer := .inl rfl
  readers _ _ := Iff.rfl
  guarded _ := rfl
  handlers h := h
  grows := ⟨[], (List.append_nil _).symm⟩

variable {errorHandler : Option ErrorHandler}

theorem RouteStep.effect {c : τ} {s s' : SharedMux τ σ} {pc pc' : RoutePc σ}
    (hinv : RouteInv errorHandler c s pc) (hstep : RouteStep errorHandler c s pc s' pc') :
    RouteEffect c s s' := by
  have hwriter := hinv.writer
  cases hstep with
  | handle | haveMap | begin | answer | panic | finish => exact RouteEffect.refl c s
  | lock hnone _ => exact { RouteEffect.refl c s with writer := .inr (.inl ⟨hnone, rfl⟩) }
  | makeMap hnil => exact { RouteEffect.refl c s with handlers := fun _ => by simp }
  | beginWrite => exact { RouteEffect.refl c s with guarded := fun h => absurd (hwriter.mp rfl) h }
  | @endWrite op h =>
    exact { RouteEffect.refl c s with
      guarded := fun h => absurd (hwriter.mp rfl) h
      handlers := fun h => by simpa using h
      grows := ⟨[(op, h)], rfl⟩ }
  | unlock => exact { RouteEffect.refl c s with writer := .inr (.inr ⟨hwriter.mp rfl, rfl⟩) }
  | rlock =>
    exact { RouteEffect.refl c s with
      readers := fun d hd => by simp [hd] }
  | find => exact { RouteEffect.refl c s with }
  | runlock =>
    exact { RouteEffect.refl c s with
      readers := fun d hd => by simp [hd] }

omit [DecidableEq τ] in
theorem Batch.Routed.mono {log : List (Registration σ)} {b : Batch σ} (h : b.Routed errorHandler log)
    (more : List (Registration σ)) : b.Routed errorHandler (log ++ more) where
  items := h.items
  count := h.count
  order := h.order
  bounds k hk := by
    have hle := (h.bounds k hk).2
    exact ⟨(h.bounds k hk).1, by rw [List.length_append]; omega⟩
  start := by
    have hle := h.start
    rw [List.length_append]
    omega
  message := h.message
  answers := by
    rw [handleItemsAt_append errorHandler b.request log more _ _ _ fun k hk => (h.bounds k hk).2]
    exact h.answers

omit [DecidableEq τ] in
theorem Batch.Next.mono {log : List (Registration σ)} {b : Batch σ} {k : Nat} {x : Option (ItemHandler σ)}
    (h : b.Next log k x) (more : List (Registration σ)) : b.Next (log ++ more) k x where
  after := h.after
  lower := h.lower
  upper := by
    have hle := h.upper
    rw [List.length_append]
    omega
  handler reqItem rest hrest := by
    rw [List.take_append_of_le_length h.upper]
    exact h.handler reqItem rest hrest

omit [DecidableEq τ] in
/-- A step does not interfere with what the other goroutines rely on. -/
theorem RouteInv.spared {c d : τ} {s s' : SharedMux τ σ} {pc : RoutePc σ} (hne : d ≠ c)
    (heffect : RouteEffect c s s') (hinv : RouteInv errorHandler d s pc) : RouteInv errorHandler d s' pc := by
  have hwriter : s'.writer = some d ↔ s.writer = some d := by
    rcases heffect.writer with hsame | ⟨hnone, hsome⟩ | ⟨hsome, hnone⟩
    · rw [hsame]
    · rw [hnone, hsome]
      simp only [reduceCtorEq, Option.some.injEq, hne.symm]
    · rw [hnone, hsome]
      simp only [reduceCtorEq, Option.some.injEq, hne.symm]
  obtain ⟨more, hlog⟩ := heffect.grows
  refine ⟨hinv.writer.trans hwriter.symm, hinv.reader.trans (heffect.readers d hne).symm, fun h => ?_,
    fun h => heffect.handlers (hinv.hasMap h), ?_⟩
  · have hd := hwriter.mp h
    rw [heffect.guarded (by rw [hd]; exact fun h => hne (Option.some.inj h))]
    exact hinv.mutating hd
  · have hpoint := hinv.point
    cases pc with
    | idle | registering | panicked => trivial
    | finished b =>
      show b.Routed errorHandler s'.log ∧ b.rest = []
      rw [hlog]
      exact ⟨hpoint.1.mono more, hpoint.2⟩
    | handling b phase =>
      cases phase with
      | between | locked =>
        show b.Routed errorHandler s'.log
        rw [hlog]
        exact Batch.Routed.mono hpoint more
      | found k h | routed k h =>
        show b.Routed errorHandler s'.log ∧ b.Next s'.log k h
        rw [hlog]
        exact ⟨hpoint.1.mono more, hpoint.2.mono more⟩

/-! ## A step keeps what its goroutine relies on -/

omit [DecidableEq τ] in
/-- A step that leaves the multiplexer alone. -/
theorem RouteInv.move {c : τ} {s : SharedMux τ σ} {pc pc' : RoutePc σ} (hinv : RouteInv errorHandler c s pc)
    (hwrites : pc'.writes = pc.writes) (hreads : pc'.reads = pc.reads) (hmutates : pc'.mutates = pc.mutates)
    (hmap : pc'.hasMap = true → s.handlers ≠ none) (hpoint : pc'.Asserts errorHandler s) :
    RouteInv errorHandler c s pc' where
  writer := hwrites ▸ hinv.writer
  reader := hreads ▸ hinv.reader
  mutating h := (hinv.mutating h).trans hmutates.symm
  hasMap := hmap
  point := hpoint

omit [DecidableEq τ] in
/-- What was looked up under the mutex is what all registrations so far make of it. -/
theorem Batch.Routed.next {s : SharedMux τ σ} (hmux : MuxInv s) {b : Batch σ}
    (h : b.Routed errorHandler s.log) {reqItem : RequestBatchItem} {rest : List RequestBatchItem}
    (hrest : b.rest = reqItem :: rest) : b.Next s.log s.log.length (s.lookup (operation reqItem)) where
  after l hl := (h.bounds l hl).2
  lower := h.start
  upper := Nat.le_refl _
  handler x xs hx := by
    rw [hrest] at hx
    cases hx
    rw [List.take_length]
    exact hmux.table _

omit [DecidableEq τ] in
/-- An item is answered. -/
theorem Batch.Routed.advance {log : List (Registration σ)} {b : Batch σ} (h : b.Routed errorHandler log)
    {k : Nat} {x : Option (ItemHandler σ)} (hnext : b.Next log k x) {reqItem : RequestBatchItem}
    {rest : List RequestBatchItem} (hrest : b.rest = reqItem :: rest) {respItem : ResponseBatchItem} {st : σ}
    (hbi : OperationMux.bi ⟨fun _ => x, errorHandler⟩ b.st b.request reqItem = (some respItem, st)) :
    (b.advance k reqItem rest respItem st).Routed errorHandler log where
  items := by
    show batchItems b.message = (b.handled ++ [reqItem]) ++ rest
    rw [h.items, hrest, List.append_assoc]
    rfl
  count := by
    show (b.routes ++ [k]).length = (b.handled ++ [reqItem]).length
    rw [List.length_append, List.length_append, h.count]
    rfl
  order := List.pairwise_append.mpr ⟨h.order, List.pairwise_singleton _ k, fun l hl m hm => by
    rw [List.mem_singleton.mp hm]
    exact hnext.after l hl⟩
  bounds l hl := by
    rcases List.mem_append.mp hl with hl | hl
    · exact h.bounds l hl
    · rw [List.mem_singleton.mp hl]
      exact ⟨hnext.lower, hnext.upper⟩
  start := h.start
  message := h.message
  answers := by
    -- only the handler for the operation of the item matters
    rw [hnext.handler reqItem rest hrest] at hbi
    exact handleItemsAt_snoc errorHandler b.request log k h.answers hbi

end

/-! ## A batch of one item -/

end KmipGo.Server
