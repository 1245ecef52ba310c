import KmipGo.Lib.Interleave
import Mathlib.Data.Finset.Card

/-! # The life of a server

`Serve`, `Close` and `Shutdown` of `requests.go`, with `trackListener`,
`closeListenersLocked` and `onceCloseListener`.

Any number of calls run side by side on one `Server`.  A call is where its program
counter says, and takes one atomic step at a time: a load or a store of
`inShutdown`, taking or releasing `mu`, a change of `listeners`, a `Close` of a
listener, a return of `Accept`.  Each `Serve` wraps its listener in a
`onceCloseListener` of its own, so a listener is named by its call.  A call that
sleeps keeps its delay; the connections that `Serve` hands out are left out.

* `closed_server` — after the critical section of a `Close` or `Shutdown` no
  listener is live, and no `Serve` gets past `trackListener`.
-/

namespace KmipGo.Lifecycle

open KmipGo.Lib

/-! ## The server and its calls -/

inductive OnceCloseListener (ε : Type) where
  | live
  | closed (closeErr : Option ε)

def OnceCloseListener.IsClosed {ε : Type} : OnceCloseListener ε → Prop
  | .live => False
  | .closed _ => True

/-- The `Server`, the listeners of its calls, and what happened so far. -/
structure Srv (τ ε : Type) where
  inShutdown : Bool
  mu : Option τ
  listeners : Finset τ
  listener : τ → OnceCloseListener ε
  /-- how often `Close` of the underlying listener ran -/
  closes : τ → Nat
  /-- the listeners that were ever in `listeners` -/
  added : Finset τ
  /-- a `Close` or `Shutdown` has left its critical section -/
  swept : Bool

def Srv.new {τ ε : Type} : Srv τ ε := ⟨false, none, ∅, fun _ => .live, fun _ => 0, ∅, false⟩

/-- What `Serve` returns. -/
inductive ServeErr (ε : Type) where
  | errServerClosed
  | accept (e : ε)

inductive Closer where
  | close
  | shutdown

/-- Where a call is. -/
inductive Pc (τ ε : Type) where
  | idle
  /-- before `trackListener(&l, true)` -/
  | begun
  /-- holds `mu`, before the test of `shuttingDown` -/
  | testing
  /-- holds `mu`, the server is up -/
  | inserting
  /-- holds `mu`, the server is down -/
  | refused
  /-- holds `mu`, the listener is tracked -/
  | tracked
  | accepting (tempDelay : Nat)
  /-- `Accept` has failed, before the test of `shuttingDown` -/
  | failed (tempDelay : Nat) (e : ε)
  /-- has left the accept loop, before `trackListener(&l, false)` -/
  | leaving (result : ServeErr ε)
  /-- holds `mu`, before the deletion -/
  | untracking (result : ServeErr ε)
  /-- holds `mu`, the listener is not tracked any more -/
  | untracked (result : ServeErr ε)
  /-- before the deferred `l.Close()` -/
  | closing (result : ServeErr ε)
  | returned (result : ServeErr ε)
  /-- `inShutdown` is set -/
  | stored (m : Closer)
  /-- holds `mu`, in the loop of `closeListenersLocked`, with the listeners to come -/
  | sweeping (m : Closer) (pending : Finset τ) (err : Option ε)
  /-- holds `mu`, this listener is closed, before its deletion -/
  | deleting (m : Closer) (ln : τ) (pending : Finset τ) (err : Option ε)
  | finished (m : Closer) (err : Option ε)

/-- How long `Serve` sleeps before it tries again, in milliseconds. -/
def backoff (tempDelay : Nat) : Nat :=
  min 1000 (if tempDelay = 0 then 5 else tempDelay * 2)

section

variable {τ ε : Type} [DecidableEq τ]

/-- `onceCloseListener.Close`; the underlying `Close` returns `cerr` if it runs. -/
def Srv.closeListener (s : Srv τ ε) (ln : τ) (cerr : Option ε) : Srv τ ε × Option ε :=
  match s.listener ln with
  | .closed closeErr => (s, closeErr)
  | .live =>
    ({ s with
        listener := Function.update s.listener ln (.closed cerr)
        closes := Function.update s.closes ln (s.closes ln + 1) }, cerr)

/-- The atomic steps of a call.  `timeout` says which errors of `Accept` are timeouts. -/
inductive CallStep (timeout : ε → Bool) (c : τ) : Srv τ ε → Pc τ ε → Srv τ ε → Pc τ ε → Prop where
  -- `Serve`
  | serve {s} : CallStep timeout c s .idle s .begun
  | lockTrack {s} (hmu : s.mu = none) : CallStep timeout c s .begun { s with mu := some c } .testing
  | testUp {s} (hup : s.inShutdown = false) : CallStep timeout c s .testing s .inserting
  | testDown {s} (hdown : s.inShutdown = true) : CallStep timeout c s .testing s .refused
  | track {s} : CallStep timeout c s .inserting
      { s with listeners := insert c s.listeners, added := insert c s.added } .tracked
  | unlockRefused {s} : CallStep timeout c s .refused { s with mu := none } (.closing .errServerClosed)
  | unlockTracked {s} : CallStep timeout c s .tracked { s with mu := none } (.accepting 0)
  | accept {s d} : CallStep timeout c s (.accepting d) s (.accepting 0)
  | acceptFails {s d} (e : ε) : CallStep timeout c s (.accepting d) s (.failed d e)
  | failDown {s d e} (hdown : s.inShutdown = true) :
      CallStep timeout c s (.failed d e) s (.leaving .errServerClosed)
  | failTimeout {s d e} (hup : s.inShutdown = false) (he : timeout e = true) :
      CallStep timeout c s (.failed d e) s (.accepting (backoff d))
  | failFinal {s d e} (hup : s.inShutdown = false) (he : timeout e = false) :
      CallStep timeout c s (.failed d e) s (.leaving (.accept e))
  | lockUntrack {s r} (hmu : s.mu = none) :
      CallStep timeout c s (.leaving r) { s with mu := some c } (.untracking r)
  | untrack {s r} :
      CallStep timeout c s (.untracking r) { s with listeners := s.listeners.erase c } (.untracked r)
  | unlockUntracked {s r} : CallStep timeout c s (.untracked r) { s with mu := none } (.closing r)
  | closeOwn {s r} (cerr : Option ε) :
      CallStep timeout c s (.closing r) (s.closeListener c cerr).1 (.returned r)
  -- `Close` and `Shutdown`
  | store {s} (m : Closer) : CallStep timeout c s .idle { s with inShutdown := true } (.stored m)
  | lockSweep {s m} (hmu : s.mu = none) :
      CallStep timeout c s (.stored m) { s with mu := some c } (.sweeping m s.listeners none)
  | sweep {s m pending err} {ln : τ} (hln : ln ∈ pending) (cerr : Option ε) :
      CallStep timeout c s (.sweeping m pending err) (s.closeListener ln cerr).1
        (.deleting m ln (pending.erase ln) (err.or (s.closeListener ln cerr).2))
  | delete {s m ln pending err} : CallStep timeout c s (.deleting m ln pending err)
      { s with listeners := s.listeners.erase ln } (.sweeping m pending err)
  | unlockSwept {s m err} : CallStep timeout c s (.sweeping m ∅ err)
      { s with mu := none, swept := true } (.finished m err)

/-- The server and the calls on it. -/
abbrev Calls (τ ε : Type) := Threads (Srv τ ε) (Pc τ ε) τ

def Calls.init : Calls τ ε := ⟨Srv.new, fun _ => .idle⟩

/-- Any number of steps of any calls. -/
def Runs (timeout : ε → Bool) : Calls τ ε → Calls τ ε → Prop := Threads.Steps (CallStep timeout)

/-! ## What holds at each program point -/

def Pc.holds : Pc τ ε → Bool
  | .testing | .inserting | .refused | .tracked | .untracking _ | .untracked _ | .sweeping .. |
    .deleting .. => true
  | _ => false

/-- The call has left its accept loop, and its listener is about to be closed. -/
def Pc.ClosePending : Pc τ ε → Prop
  | .untracked _ | .closing _ => True
  | _ => False

/-- The call is a `Close` or `Shutdown` that has completed its critical section. -/
def Pc.Finished : Pc τ ε → Prop
  | .finished .. => True
  | _ => False

def Pc.Asserts (c : τ) (s : Srv τ ε) : Pc τ ε → Prop
  | .inserting => s.swept = false
  | .returned _ => (s.listener c).IsClosed
  | .stored _ => s.inShutdown = true
  -- nobody else changes the listeners while `mu` is held
  | .sweeping _ pending _ => s.inShutdown = true ∧ s.listeners = pending
  | .deleting _ ln pending _ =>
    s.inShutdown = true ∧ s.listeners.erase ln = pending ∧ (s.listener ln).IsClosed
  | .finished _ _ => s.swept = true
  | _ => True

/-- What holds for each call. -/
structure CallInv (c : τ) (s : Srv τ ε) (pc : Pc τ ε) : Prop where
  mutex : pc.holds = true ↔ s.mu = some c
  accounted : c ∈ s.added → c ∈ s.listeners ∨ (s.listener c).IsClosed ∨ pc.ClosePending
  point : pc.Asserts c s

/-- What holds for the server. -/
structure SrvInv (s : Srv τ ε) : Prop where
  down : s.swept = true → s.inShutdown = true
  empty : s.swept = true → s.listeners = ∅
  live : ∀ c, ¬ (s.listener c).IsClosed → s.closes c = 0
  once : ∀ c, s.closes c ≤ 1

/-! ## What a step can do -/

/-- What the other calls see of a step of `c`. -/
structure Effect (c : τ) (s s' : Srv τ ε) : Prop where
  inShutdown : s.inShutdown = true → s'.inShutdown = true
  swept : s.swept = true → s'.swept = true
  closed : ∀ d, (s.listener d).IsClosed → (s'.listener d).IsClosed
  mu : s'.mu = s.mu ∨ s.mu = none ∧ s'.mu = some c ∨ s.mu = some c ∧ s'.mu = none
  guarded : s.mu ≠ some c → s'.listeners = s.listeners ∧ s'.swept = s.swept
  added : ∀ d, d ≠ c → d ∈ s'.added → d ∈ s.added
  removed : ∀ d, d ≠ c → d ∈ s.listeners → d ∈ s'.listeners ∨ (s'.listener d).IsClosed

omit [DecidableEq τ] in
theorem Effect.refl (c : τ) (s : Srv τ ε) : Effect c s s where
  inShutdown h := h
  swept h := h
  closed _ h := h
  mu := .inl rfl
  guarded _ := ⟨rfl, rfl⟩
  added _ _ h := h
  removed _ _ h := .inl h

omit [DecidableEq τ] in
theorem Effect.lock {c : τ} {s : Srv τ ε} (hmu : s.mu = none) : Effect c s { s with mu := some c } :=
  { Effect.refl c s with mu := .inr (.inl ⟨hmu, rfl⟩) }

omit [DecidableEq τ] in
theorem Effect.unlock {c : τ} {s : Srv τ ε} (hmu : s.mu = some c) : Effect c s { s with mu := none } :=
  { Effect.refl c s with mu := .inr (.inr ⟨hmu, rfl⟩) }

theorem closeListener_listener (s : Srv τ ε) (ln : τ) (cerr : Option ε) (d : τ) :
    ((s.closeListener ln cerr).1.listener d).IsClosed ↔ d = ln ∨ (s.listener d).IsClosed := by
  rw [Srv.closeListener]
  cases hln : s.listener ln with
  | closed closeErr =>
    refine ⟨Or.inr, fun h => ?_⟩
    rcases h with rfl | h
    · simp only [hln, OnceCloseListener.IsClosed]
    · exact h
  | live =>
    by_cases hd : d = ln
    · simp only [hd, Function.update_self, OnceCloseListener.IsClosed, true_or]
    · simp only [Function.update_of_ne hd, hd, false_or]

/-- `Close` of a listener changes only the listener. -/
theorem closeListener_frame (s : Srv τ ε) (ln : τ) (cerr : Option ε) :
    (s.closeListener ln cerr).1.inShutdown = s.inShutdown ∧ (s.closeListener ln cerr).1.mu = s.mu ∧
      (s.closeListener ln cerr).1.listeners = s.listeners ∧
      (s.closeListener ln cerr).1.added = s.added ∧ (s.closeListener ln cerr).1.swept = s.swept := by
  rw [Srv.closeListener]
  cases s.listener ln with
  | closed closeErr => exact ⟨rfl, rfl, rfl, rfl, rfl⟩
  | live => exact ⟨rfl, rfl, rfl, rfl, rfl⟩

theorem Effect.close (c : τ) (s : Srv τ ε) (ln : τ) (cerr : Option ε) :
    Effect c s (s.closeListener ln cerr).1 := by
  obtain ⟨hdown, hmu, hlisteners, hadded, hswept⟩ := closeListener_frame s ln cerr
  exact {
    inShutdown := fun h => hdown.trans h
    swept := fun h => hswept.trans h
    closed := fun d h => (closeListener_listener s ln cerr d).mpr (.inr h)
    mu := .inl hmu
    guarded := fun _ => ⟨hlisteners, hswept⟩
    added := fun d _ h => hadded ▸ h
    removed := fun d _ h => .inl (hlisteners.symm ▸ h) }

variable {timeout : ε → Bool}

theorem CallStep.effect {c : τ} {s s' : Srv τ ε} {pc pc' : Pc τ ε} (hinv : CallInv c s pc)
    (hstep : CallStep timeout c s pc s' pc') : Effect c s s' := by
  have hmutex := hinv.mutex
  cases hstep with
  | serve | testUp | testDown | accept | acceptFails | failDown | failTimeout | failFinal => exact Effect.refl c s
  | lockTrack hmu | lockUntrack hmu | lockSweep hmu => exact Effect.lock hmu
  | unlockRefused | unlockTracked | unlockUntracked => exact Effect.unlock (hmutex.mp rfl)
  | track =>
    exact { Effect.refl c s with
      guarded := fun h => absurd (hmutex.mp rfl) h
      added := fun d hd h => Finset.mem_of_mem_insert_of_ne h hd
      removed := fun d _ h => .inl (Finset.mem_insert_of_mem h) }
  | untrack =>
    exact { Effect.refl c s with
      guarded := fun h => absurd (hmutex.mp rfl) h
      removed := fun d hd h => .inl (Finset.mem_erase.mpr ⟨hd, h⟩) }
  | closeOwn cerr => exact Effect.close c s c cerr
  | store m => exact { Effect.refl c s with inShutdown := fun _ => rfl }
  | sweep hln cerr => exact Effect.close c s _ cerr
  | @delete m ln pending err =>
    refine { Effect.refl c s with
      guarded := fun h => absurd (hmutex.mp rfl) h
      removed := fun d _ h => ?_ }
    -- only a listener that is closed is deleted
    by_cases hd : d = ln
    · exact .inr (hd ▸ hinv.point.2.2)
    · exact .inl (Finset.mem_erase.mpr ⟨hd, h⟩)
  | unlockSwept =>
    exact { Effect.unlock (hmutex.mp rfl) with
      swept := fun _ => rfl
      guarded := fun h => absurd (hmutex.mp rfl) h }

/-- A step does not interfere with what the other calls rely on. -/
theorem CallInv.spared {c d : τ} {s s' : Srv τ ε} {pc : Pc τ ε} (hne : d ≠ c) (heffect : Effect c s s')
    (hinv : CallInv d s pc) : CallInv d s' pc := by
  -- while `d` holds the mutex, `c` does not
  have hguarded : pc.holds = true → s'.listeners = s.listeners ∧ s'.swept = s.swept := by
    intro hpc
    apply heffect.guarded
    rw [hinv.mutex.mp hpc]
    exact fun h => hne (Option.some.inj h)
  refine ⟨?_, fun hadded => ?_, ?_⟩
  · rw [hinv.mutex]
    rcases heffect.mu with hmu | ⟨hnone, hsome⟩ | ⟨hsome, hnone⟩
    · rw [hmu]
    · rw [hnone, hsome]
      simp only [reduceCtorEq, Option.some.injEq, hne.symm]
    · rw [hnone, hsome]
      simp only [reduceCtorEq, Option.some.injEq, hne.symm]
  · rcases hinv.accounted (heffect.added d hne hadded) with hmem | hclosed | hpending
    · rcases heffect.removed d hne hmem with hmem | hclosed
      · exact .inl hmem
      · exact .inr (.inl hclosed)
    · exact .inr (.inl (heffect.closed d hclosed))
    · exact .inr (.inr hpending)
  · have hpoint := hinv.point
    cases pc with
    | inserting => exact (hguarded rfl).2.trans hpoint
    | returned r => exact heffect.closed d hpoint
    | stored m => exact heffect.inShutdown hpoint
    | sweeping m pending err => exact ⟨heffect.inShutdown hpoint.1, (hguarded rfl).1.trans hpoint.2⟩
    | deleting m ln pending err =>
      exact ⟨heffect.inShutdown hpoint.1, (hguarded rfl).1 ▸ hpoint.2.1, heffect.closed ln hpoint.2.2⟩
    | finished m err => exact heffect.swept hpoint
    | _ => trivial

/-! ## A step keeps what its call relies on -/

theorem CallInv.move {c : τ} {s : Srv τ ε} {pc pc' : Pc τ ε} (hinv : CallInv c s pc)
    (hholds : pc'.holds = pc.holds) (hpending : ¬ pc.ClosePending) (hpoint : pc'.Asserts c s) :
    CallInv c s pc' where
  mutex := hholds ▸ hinv.mutex
  accounted h := (hinv.accounted h).imp_right fun h => h.imp_right fun h => absurd h hpending
  point := hpoint

/-- A call that takes the mutex. -/
theorem CallInv.lock {c : τ} {s : Srv τ ε} {pc pc' : Pc τ ε} (hinv : CallInv c s pc)
    (hholds : pc'.holds = true) (hpending : ¬ pc.ClosePending)
    (hpoint : pc'.Asserts c { s with mu := some c }) : CallInv c { s with mu := some c } pc' where
  mutex := ⟨fun _ => rfl, fun _ => hholds⟩
  accounted h := (hinv.accounted h).imp_right fun h => h.imp_right fun h => absurd h hpending
  point := hpoint

/-- A call that releases the mutex. -/
theorem CallInv.unlock {c : τ} {s : Srv τ ε} {pc pc' : Pc τ ε} (hinv : CallInv c s pc)
    (hholds : pc'.holds = false) (hpending : pc.ClosePending → pc'.ClosePending) {b : Bool}
    (hpoint : pc'.Asserts c { s with mu := none, swept := b }) :
    CallInv c { s with mu := none, swept := b } pc' where
  mutex := ⟨fun h => absurd (hholds.symm.trans h) Bool.false_ne_true, fun h => by cases h⟩
  accounted h := (hinv.accounted h).imp_right fun h => h.imp_right hpending
  point := hpoint

theorem CallInv.close {c : τ} {s : Srv τ ε} {pc pc' : Pc τ ε} (hinv : CallInv c s pc) (ln : τ)
    (cerr : Option ε) (hholds : pc'.holds = pc.holds) (hpending : pc.ClosePending → c = ln)
    (hpoint : pc'.Asserts c (s.closeListener ln cerr).1) :
    CallInv c (s.closeListener ln cerr).1 pc' := by
  obtain ⟨-, hmu, hlisteners, hadded, -⟩ := closeListener_frame s ln cerr
  refine ⟨?_, fun h => ?_, hpoint⟩
  · rw [hholds, hmu]
    exact hinv.mutex
  · rw [hadded] at h
    rw [hlisteners, closeListener_listener]
    rcases hinv.accounted h with h | h | h
    · exact .inl h
    · exact .inr (.inl (.inr h))
    · exact .inr (.inl (.inl (hpending h)))

theorem CallStep.callInv {c : τ} {s s' : Srv τ ε} {pc pc' : Pc τ ε} (hsrv : SrvInv s)
    (hinv : CallInv c s pc) (hstep : CallStep timeout c s pc s' pc') : CallInv c s' pc' := by
  cases hstep with
  | serve | testDown | accept | acceptFails | failDown | failTimeout | failFinal =>
    exact hinv.move rfl id trivial
  | testUp hup =>
    refine hinv.move rfl id (Bool.eq_false_iff.mpr fun hswept => ?_)
    rw [hsrv.down hswept] at hup
    cases hup
  | lockTrack | lockUntrack => exact hinv.lock rfl id trivial
  | unlockRefused | unlockTracked => exact hinv.unlock rfl False.elim trivial
  | unlockUntracked =>
    apply hinv.unlock
    · rfl
    · exact id
    · trivial
  | track => exact ⟨hinv.mutex, fun _ => .inl (Finset.mem_insert_self ..), trivial⟩
  | untrack => exact ⟨hinv.mutex, fun _ => .inr (.inr trivial), trivial⟩
  | closeOwn cerr =>
    exact hinv.close c cerr rfl (fun _ => rfl) ((closeListener_listener s c cerr c).mpr (.inl rfl))
  | store m =>
    exact ⟨hinv.mutex, hinv.accounted, rfl⟩
  | lockSweep => exact hinv.lock rfl id ⟨hinv.point, rfl⟩
  | @sweep m pending err ln hln cerr =>
    obtain ⟨hdown, -, hlisteners, -, -⟩ := closeListener_frame s ln cerr
    refine hinv.close ln cerr rfl False.elim ⟨hdown.trans hinv.point.1, ?_,
      (closeListener_listener s ln cerr ln).mpr (.inl rfl)⟩
    rw [hlisteners, hinv.point.2]
  | @delete m ln pending err =>
    refine ⟨hinv.mutex, fun hadded => ?_, hinv.point.1, hinv.point.2.1⟩
    rcases hinv.accounted hadded with hmem | hclosed | hpending
    · by_cases hc : c = ln
      · exact .inr (.inl (hc ▸ hinv.point.2.2))
      · exact .inl (Finset.mem_erase.mpr ⟨hc, hmem⟩)
    · exact .inr (.inl hclosed)
    · exact hpending.elim
  | unlockSwept => exact hinv.unlock rfl False.elim rfl

theorem SrvInv.close {s : Srv τ ε} (hsrv : SrvInv s) (ln : τ) (cerr : Option ε) :
    SrvInv (s.closeListener ln cerr).1 := by
  rw [Srv.closeListener]
  cases hln : s.listener ln with
  | closed closeErr => exact hsrv
  | live =>
    have hzero : s.closes ln = 0 := hsrv.live ln (by rw [hln]; exact id)
    dsimp only
    refine ⟨hsrv.down, hsrv.empty, fun d hd => ?_, fun d => ?_⟩
    · dsimp only at hd ⊢
      by_cases hdln : d = ln
      · rw [hdln, Function.update_self] at hd
        exact absurd trivial hd
      · rw [Function.update_of_ne hdln] at hd ⊢
        exact hsrv.live d hd
    · dsimp only
      by_cases hdln : d = ln
      · rw [hdln, Function.update_self, hzero]
      · rw [Function.update_of_ne hdln]
        exact hsrv.once d

theorem CallStep.srvInv {c : τ} {s s' : Srv τ ε} {pc pc' : Pc τ ε} (hsrv : SrvInv s)
    (hinv : CallInv c s pc) (hstep : CallStep timeout c s pc s' pc') : SrvInv s' := by
  cases hstep with
  | serve | testUp | testDown | accept | acceptFails | failDown | failTimeout | failFinal => exact hsrv
  | lockTrack | lockUntrack | lockSweep | unlockRefused | unlockTracked | unlockUntracked =>
    exact { hsrv with }
  | track =>
    -- the server was up when the test was made, and `mu` has been held since
    have hup : s.swept = false := hinv.point
    exact { hsrv with empty := fun h => absurd (hup.symm.trans h) Bool.false_ne_true }
  | untrack | delete =>
    exact { hsrv with empty := fun h => by rw [hsrv.empty h]; rfl }
  | closeOwn cerr | sweep hln cerr => exact hsrv.close _ cerr
  | store m => exact { hsrv with down := fun _ => rfl }
  | unlockSwept => exact { hsrv with down := fun _ => hinv.point.1, empty := fun _ => hinv.point.2 }

theorem outline : Threads.Outline (CallStep timeout) (SrvInv : Srv τ ε → Prop) CallInv where
  keeps hsrv hinv hstep := ⟨hstep.srvInv hsrv hinv, hstep.callInv hsrv hinv⟩
  spares hne _ hinv hother hstep := hother.spared hne (hstep.effect hinv)

/-- The assertions hold in a state. -/
abbrev Sound (t : Calls τ ε) : Prop := Threads.Holds SrvInv CallInv t

theorem sound_init : Sound (Calls.init : Calls τ ε) where
  shared := ⟨fun h => (by cases h), fun h => (by cases h), fun _ _ => rfl, fun _ => Nat.zero_le 1⟩
  own c := ⟨⟨fun h => (by cases h), fun h => (by cases h)⟩, fun h => absurd h (Finset.notMem_empty c), trivial⟩

theorem Sound.runs {t u : Calls τ ε} (ht : Sound t) (hrun : Runs timeout t u) : Sound u :=
  outline.steps ht hrun

theorem Sound.swept_step {t u : Calls τ ε} (ht : Sound t) (hswept : t.shared.swept = true)
    (hstep : Threads.Step (CallStep timeout) t u) : u.shared.swept = true := by
  cases hstep with
  | mk c h => exact (h.effect (ht.own c)).swept hswept

theorem Sound.swept_runs {t u : Calls τ ε} (ht : Sound t) (hswept : t.shared.swept = true)
    (hrun : Runs timeout t u) : u.shared.swept = true := by
  induction hrun with
  | refl => exact hswept
  | tail hrun hstep ih => exact (ht.runs hrun).swept_step ih hstep

/-! ## The mutex is released -/

/-- The call can go on until `mu` is free, while the others wait. -/
def Releases (timeout : ε → Bool) (d : τ) (t : Calls τ ε) : Prop :=
  ∃ u, Runs timeout t u ∧ u.shared.mu = none ∧ ∀ c, c ≠ d → u.own c = t.own c

theorem Releases.of_step {d : τ} {t : Calls τ ε} {pc pc' : Pc τ ε} {s : Srv τ ε} (hpc : t.own d = pc)
    (hstep : CallStep timeout d t.shared pc s pc')
    (h : Releases timeout d ⟨s, Function.update t.own d pc'⟩) : Releases timeout d t := by
  obtain ⟨u, hrun, hmu, hothers⟩ := h
  refine ⟨u, Relation.ReflTransGen.head (.of_own hpc hstep) hrun, hmu, fun c hc => ?_⟩
  rw [hothers c hc]
  exact Function.update_of_ne hc _ _

theorem Releases.of_free {d : τ} {t : Calls τ ε} (hmu : t.shared.mu = none) : Releases timeout d t :=
  ⟨t, Relation.ReflTransGen.refl, hmu, fun _ _ => rfl⟩

theorem releases_tracked {d : τ} {t : Calls τ ε} (hpc : t.own d = .tracked) : Releases timeout d t :=
  .of_step hpc .unlockTracked (.of_free rfl)

theorem releases_refused {d : τ} {t : Calls τ ε} (hpc : t.own d = .refused) : Releases timeout d t :=
  .of_step hpc .unlockRefused (.of_free rfl)

theorem releases_inserting {d : τ} {t : Calls τ ε} (hpc : t.own d = .inserting) :
    Releases timeout d t :=
  .of_step hpc .track (releases_tracked (Function.update_self ..))

theorem releases_testing {d : τ} {t : Calls τ ε} (hpc : t.own d = .testing) : Releases timeout d t := by
  cases hdown : t.shared.inShutdown with
  | false => exact .of_step hpc (.testUp hdown) (releases_inserting (Function.update_self ..))
  | true => exact .of_step hpc (.testDown hdown) (releases_refused (Function.update_self ..))

theorem releases_untracked {d : τ} {r : ServeErr ε} {t : Calls τ ε} (hpc : t.own d = .untracked r) :
    Releases timeout d t :=
  .of_step hpc .unlockUntracked (.of_free rfl)

/-- The loop of `closeListenersLocked` ends. -/
theorem releases_sweeping {d : τ} {m : Closer} (pending : Finset τ) {err : Option ε} {t : Calls τ ε}
    (hpc : t.own d = .sweeping m pending err) : Releases timeout d t := by
  induction pending using Finset.strongInduction generalizing err t with
  | H pending ih =>
    by_cases hempty : pending = ∅
    · rw [hempty] at hpc
      exact .of_step hpc .unlockSwept (.of_free rfl)
    · obtain ⟨ln, hln⟩ := Finset.nonempty_iff_ne_empty.mpr hempty
      apply Releases.of_step hpc (.sweep hln none)
      apply Releases.of_step (Function.update_self ..) .delete
      exact ih _ (Finset.erase_ssubset hln) (Function.update_self ..)

theorem Sound.releases {t : Calls τ ε} (ht : Sound t) {d : τ} (hmu : t.shared.mu = some d) :
    Releases timeout d t := by
  have hholds := (ht.own d).mutex.mpr hmu
  cases hpc : t.own d with
  | testing => exact releases_testing hpc
  | inserting => exact releases_inserting hpc
  | refused => exact releases_refused hpc
  | tracked => exact releases_tracked hpc
  | untracking r => exact .of_step hpc .untrack (releases_untracked (Function.update_self ..))
  | untracked r => exact releases_untracked hpc
  | sweeping m pending err => exact releases_sweeping pending hpc
  | deleting m ln pending err =>
    exact .of_step hpc .delete (releases_sweeping pending (Function.update_self ..))
  | _ =>
    rw [hpc] at hholds
    cases hholds

/-! ## Calls of `Serve` on a closed server -/

/-- The call is a `Serve`. -/
def Pc.IsServe : Pc τ ε → Prop
  | .idle | .stored _ | .sweeping .. | .deleting .. | .finished .. => False
  | _ => True

/-- The call has not passed the test of `trackListener` yet. -/
def Pc.BeforeTrack : Pc τ ε → Prop
  | .idle | .begun | .testing => True
  | _ => False

/-- The call does not pass `trackListener`, and returns `ErrServerClosed` if it has returned. -/
def Pc.TurnedAway : Pc τ ε → Prop
  | .begun | .testing | .refused | .closing .errServerClosed | .returned .errServerClosed => True
  | _ => False

omit [DecidableEq τ] in
theorem Pc.BeforeTrack.turnedAway {pc : Pc τ ε} (h : pc.BeforeTrack) (hserve : pc.IsServe) :
    pc.TurnedAway := by
  cases pc with
  | idle => exact hserve.elim
  | begun | testing => trivial
  | _ => exact h.elim

theorem CallStep.turnedAway {c : τ} {s s' : Srv τ ε} {pc pc' : Pc τ ε} (hdown : s.inShutdown = true)
    (hstep : CallStep timeout c s pc s' pc') (h : pc.IsServe → pc.TurnedAway) (hserve : pc'.IsServe) :
    pc'.TurnedAway := by
  cases hstep with
  | serve | lockTrack | testDown | unlockRefused => trivial
  | testUp hup =>
    rw [hdown] at hup
    cases hup
  | @closeOwn r cerr =>
    cases r with
    | errServerClosed => trivial
    | accept e => exact (h trivial).elim
  | store | lockSweep | sweep | delete | unlockSwept => exact hserve.elim
  | _ => exact (h trivial).elim

/-- On a closed server a `Serve` that has not passed `trackListener` is turned away. -/
theorem Sound.turnedAway {t u : Calls τ ε} (ht : Sound t) (hswept : t.shared.swept = true) {c : τ}
    (hbefore : (t.own c).BeforeTrack) (hrun : Runs timeout t u) :
    (u.own c).IsServe → (u.own c).TurnedAway := by
  induction hrun with
  | refl => exact hbefore.turnedAway
  | @tail u v hrun hstep ih =>
    have hdown := (ht.runs hrun).shared.down (ht.swept_runs hswept hrun)
    cases hstep with
    | mk d h =>
      dsimp only
      by_cases hd : c = d
      · rw [hd, Function.update_self]
        exact h.turnedAway hdown (hd ▸ ih)
      · rw [Function.update_of_ne hd]
        exact ih

/-- The call can go on until it has returned `ErrServerClosed` and closed its listener. -/
def Returns (timeout : ε → Bool) (c : τ) (t : Calls τ ε) : Prop :=
  ∃ u, Runs timeout t u ∧ u.own c = .returned .errServerClosed ∧ (u.shared.listener c).IsClosed

theorem Returns.of_run {c : τ} {t u : Calls τ ε} (hrun : Runs timeout t u) (h : Returns timeout c u) :
    Returns timeout c t := by
  obtain ⟨v, hrest, hv⟩ := h
  exact ⟨v, Relation.ReflTransGen.trans hrun hrest, hv⟩

theorem Returns.of_step {c : τ} {t : Calls τ ε} {pc pc' : Pc τ ε} {s : Srv τ ε} (hpc : t.own c = pc)
    (hstep : CallStep timeout c t.shared pc s pc')
    (h : Returns timeout c ⟨s, Function.update t.own c pc'⟩) : Returns timeout c t :=
  .of_run (Relation.ReflTransGen.single (.of_own hpc hstep)) h

theorem returns_closing {c : τ} {t : Calls τ ε} (hpc : t.own c = .closing .errServerClosed) :
    Returns timeout c t :=
  .of_step hpc (.closeOwn none) ⟨_, Relation.ReflTransGen.refl, Function.update_self ..,
    (closeListener_listener t.shared c none c).mpr (.inl rfl)⟩

theorem returns_refused {c : τ} {t : Calls τ ε} (hpc : t.own c = .refused) : Returns timeout c t :=
  .of_step hpc .unlockRefused (returns_closing (Function.update_self ..))

theorem returns_testing {c : τ} {t : Calls τ ε} (hdown : t.shared.inShutdown = true)
    (hpc : t.own c = .testing) : Returns timeout c t :=
  .of_step hpc (.testDown hdown) (returns_refused (Function.update_self ..))

theorem returns_begun_free {c : τ} {t : Calls τ ε} (hdown : t.shared.inShutdown = true)
    (hmu : t.shared.mu = none) (hpc : t.own c = .begun) : Returns timeout c t :=
  .of_step hpc (.lockTrack hmu) (returns_testing hdown (Function.update_self ..))

theorem Sound.returns {t : Calls τ ε} (ht : Sound t) (hswept : t.shared.swept = true) {c : τ}
    (hturned : (t.own c).TurnedAway) : Returns timeout c t := by
  have hdown := ht.shared.down hswept
  cases hpc : t.own c with
  | begun =>
    -- whoever holds the mutex releases it first
    cases hmu : t.shared.mu with
    | none => exact returns_begun_free hdown hmu hpc
    | some d =>
      have hne : c ≠ d := by
        rintro rfl
        have hholds := (ht.own c).mutex.mpr hmu
        rw [hpc] at hholds
        cases hholds
      have hreleases : Releases timeout d t := ht.releases hmu
      obtain ⟨u, hrun, hfree, hothers⟩ := hreleases
      have hu := ht.runs hrun
      refine .of_run hrun (returns_begun_free ?_ hfree ((hothers c hne).trans hpc))
      exact hu.shared.down (ht.swept_runs hswept hrun)
  | testing => exact returns_testing hdown hpc
  | refused => exact returns_refused hpc
  | closing r =>
    cases r with
    | errServerClosed => exact returns_closing hpc
    | accept e =>
      rw [hpc] at hturned
      exact hturned.elim
  | returned r =>
    have hpoint := (ht.own c).point
    rw [hpc] at hturned hpoint
    cases r with
    | errServerClosed => exact ⟨t, Relation.ReflTransGen.refl, hpc, hpoint⟩
    | accept e => exact hturned.elim
  | _ =>
    rw [hpc] at hturned
    exact hturned.elim

/-- The underlying `Close` of a listener runs at most once in every run.  After the critical section of a
    `Close` or `Shutdown` has completed, in every later state: `listeners` is empty; each listener that
    was ever in it is closed, or its `Serve` has left the accept loop and is about to close it; a `Serve`
    that had not passed `trackListener` by then never does, and returns `ErrServerClosed` with its
    listener closed. -/
theorem closed_server {t : Calls τ ε} (hrun : Runs timeout Calls.init t) :
    (∀ c, t.shared.closes c ≤ 1) ∧
    ∀ u, (∃ k, (t.own k).Finished) → Runs timeout t u →
      u.shared.listeners = ∅ ∧
      (∀ c ∈ u.shared.added, (u.shared.listener c).IsClosed ∨ (u.own c).ClosePending) ∧
      ∀ c, (t.own c).BeforeTrack → (u.own c).IsServe →
        (u.own c).TurnedAway ∧ (∀ r, u.own c = .returned r → (u.shared.listener c).IsClosed) ∧
        Returns timeout c u := by
  have ht : Sound t := sound_init.runs hrun
  refine ⟨ht.shared.once, fun u hfinished hlater => ?_⟩
  obtain ⟨k, hk⟩ := hfinished
  have hswept : t.shared.swept = true := by
    have hpoint := (ht.own k).point
    cases hpc : t.own k with
    | finished m err =>
      rw [hpc] at hpoint
      exact hpoint
    | _ =>
      rw [hpc] at hk
      exact hk.elim
  have hu := ht.runs hlater
  have hswept' := ht.swept_runs hswept hlater
  have hempty := hu.shared.empty hswept'
  refine ⟨hempty, fun c hc => ?_, fun c hbefore hserve => ?_⟩
  · rcases (hu.own c).accounted hc with hmem | hrest
    · rw [hempty] at hmem
      exact absurd hmem (Finset.notMem_empty c)
    · exact hrest
  · have hturned := ht.turnedAway hswept hbefore hlater hserve
    refine ⟨hturned, fun r hr => ?_, hu.returns hswept' hturned⟩
    have hpoint := (hu.own c).point
    rw [hr] at hpoint
    exact hpoint

end

/-! ## A run -/

def noTimeout : Unit → Bool := fun _ => false

/-- Call 0 serves a listener, then call 1 closes the server. -/
theorem exists_close_run : ∃ t : Calls Nat Unit, Runs noTimeout Calls.init t ∧ (t.own 1).Finished ∧
    0 ∈ t.shared.added ∧ t.own 2 = .idle := by
  have serving : Runs noTimeout (Calls.init : Calls Nat Unit) _ :=
    Relation.ReflTransGen.single (.of_own (c := 0) rfl .serve)
  have tracking := Relation.ReflTransGen.tail serving (.of_own (c := 0) rfl (.lockTrack rfl))
  have tested := tracking.tail (.of_own (c := 0) rfl (.testUp rfl))
  have tracked := (tested.tail (.of_own (c := 0) rfl .track)).tail (.of_own (c := 0) rfl .unlockTracked)
  have stored := tracked.tail (.of_own (c := 1) rfl (.store .close))
  have locked := stored.tail (.of_own (c := 1) rfl (.lockSweep rfl))
  have closed := locked.tail (.of_own (c := 1) rfl (.sweep (Finset.mem_insert_self 0 ∅) none))
  have deleted := closed.tail (.of_own (c := 1) rfl .delete)
  exact ⟨_, deleted.tail (.of_own (c := 1) rfl .unlockSwept), trivial, Finset.mem_insert_self 0 ∅, rfl⟩

/-- After it, a `Serve` of call 2 returns `ErrServerClosed`. -/
theorem closed_server_close_run :
    ∃ t u : Calls Nat Unit, Runs noTimeout Calls.init t ∧ (t.own 1).Finished ∧ Runs noTimeout t u ∧
      u.own 2 = .begun ∧ u.shared.listeners = ∅ ∧
      ((u.shared.listener 0).IsClosed ∨ (u.own 0).ClosePending) ∧ t.shared.closes 0 ≤ 1 ∧
      Returns noTimeout 2 u := by
  obtain ⟨t, hrun, hfinished, hadded, hidle⟩ := exists_close_run
  have hlater : Runs noTimeout t ⟨t.shared, Function.update t.own 2 .begun⟩ :=
    Relation.ReflTransGen.single (.of_own hidle .serve)
  have hbegun : Function.update t.own 2 .begun 2 = .begun := Function.update_self ..
  obtain ⟨honce, hclosed⟩ := closed_server hrun
  obtain ⟨hempty, haccounted, hserve⟩ := hclosed _ ⟨1, hfinished⟩ hlater
  have hisServe : (Function.update t.own 2 Pc.begun 2).IsServe := by
    rw [hbegun]
    trivial
  obtain ⟨-, -, hreturns⟩ := hserve 2 (by rw [hidle]; trivial) hisServe
  exact ⟨t, _, hrun, hfinished, hlater, hbegun, hempty, haccounted 0 hadded, honce 0, hreturns⟩

end KmipGo.Lifecycle
