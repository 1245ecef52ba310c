import Mathlib.Algebra.Group.Nat.Defs
import KmipGo.Server.Lifecycle

/-! # The accept loop

What `Serve` of `requests.go` does by the time it returns, next to any number of
other calls on the server.

* `serve_returns` — a `Serve` that has returned has closed its listener, exactly once
  and whoever did it, and does not track it any more.  It returns `ErrServerClosed`
  only if the server is shut down, and otherwise an error of `Accept` that is not a
  timeout.  The time it sleeps after a timeout is 5 ms doubled, and at most 1 s.
-/

namespace KmipGo.Lifecycle

open KmipGo.Lib

/-! ## Delays -/

/-- A delay that `Serve` may be in: none after a connection, then doubled up to a second. -/
def Delay (d : Nat) : Prop := d = 0 ∨ ∃ k, d = min 1000 (5 * 2 ^ k)

theorem delay_backoff {d : Nat} (h : Delay d) : Delay (backoff d) := by
  rcases h with rfl | ⟨k, rfl⟩
  · exact .inr ⟨0, rfl⟩
  · have hpos : 0 < 2 ^ k := Nat.two_pow_pos k
    refine .inr ⟨k + 1, ?_⟩
    rw [backoff, if_neg (by omega), Nat.pow_succ]
    omega

section

variable {τ ε : Type}

/-- The delay of a `Serve` in its loop. -/
def Pc.tempDelay? : Pc τ ε → Option Nat
  | .accepting d | .failed d _ => some d
  | _ => none

/-- What a `Serve` that has left its loop returns. -/
def Pc.result? : Pc τ ε → Option (ServeErr ε)
  | .leaving r | .untracking r | .untracked r | .closing r | .returned r => some r
  | _ => none

/-- The call has not tracked a listener yet, or does not track one any more. -/
def Pc.Apart : Pc τ ε → Prop
  | .tracked | .accepting _ | .failed _ _ | .leaving _ | .untracking _ => False
  | _ => True

/-- The result has its reason. -/
def Justified (timeout : ε → Bool) (s : Srv τ ε) : ServeErr ε → Prop
  | .errServerClosed => s.inShutdown = true
  | .accept e => timeout e = false

variable [DecidableEq τ] {timeout : ε → Bool}

/-! ## What holds at each program point -/

/-- What holds for each call, next to `CallInv`. -/
structure ServeInv (timeout : ε → Bool) (c : τ) (s : Srv τ ε) (pc : Pc τ ε) : Prop where
  delay : ∀ d, pc.tempDelay? = some d → Delay d
  result : ∀ r, pc.result? = some r → Justified timeout s r
  refused : pc = .refused → s.inShutdown = true
  apart : pc.Apart → c ∉ s.listeners
  closed : ∀ r, pc = .returned r → s.closes c = 1

/-- A listener is closed once. -/
def ClosedOnce (s : Srv τ ε) : Prop := ∀ c, (s.listener c).IsClosed → s.closes c = 1

/-- `Close` closes a listener that is live, and counts that. -/
theorem closeListener_closes {s : Srv τ ε} (hsrv : SrvInv s) (ln : τ) (cerr : Option ε) (d : τ) :
    (s.closeListener ln cerr).1.closes d = 1 ∨
      (s.closeListener ln cerr).1.closes d = s.closes d ∧ (d = ln → (s.listener ln).IsClosed) := by
  rw [Srv.closeListener]
  cases hln : s.listener ln with
  | closed closeErr => exact .inr ⟨rfl, fun _ => trivial⟩
  | live =>
    have hzero : s.closes ln = 0 := hsrv.live ln (by rw [hln]; exact id)
    dsimp only
    by_cases hd : d = ln
    · rw [hd, Function.update_self, hzero]
      exact .inl rfl
    · rw [Function.update_of_ne hd]
      exact .inr ⟨rfl, fun h => absurd h hd⟩

theorem ClosedOnce.close {s : Srv τ ε} (hsrv : SrvInv s) (h : ClosedOnce s) (ln : τ) (cerr : Option ε) :
    ClosedOnce (s.closeListener ln cerr).1 := by
  intro d hd
  rcases closeListener_closes hsrv ln cerr d with hone | ⟨hsame, hclosed⟩
  · exact hone
  · rw [hsame]
    rcases (closeListener_listener s ln cerr d).mp hd with rfl | hd
    · exact h d (hclosed rfl)
    · exact h d hd

theorem CallStep.closedOnce {c : τ} {s s' : Srv τ ε} {pc pc' : Pc τ ε} (hsrv : SrvInv s) (h : ClosedOnce s)
    (hstep : CallStep timeout c s pc s' pc') : ClosedOnce s' := by
  cases hstep with
  | closeOwn cerr | sweep hln cerr => exact h.close hsrv _ cerr
  | _ => exact h

/-- A step of another call does not track this listener. -/
theorem CallStep.mem_listeners {c d : τ} {s s' : Srv τ ε} {pc pc' : Pc τ ε} (hne : d ≠ c)
    (hstep : CallStep timeout c s pc s' pc') (hd : d ∈ s'.listeners) : d ∈ s.listeners := by
  cases hstep with
  | track => exact Finset.mem_of_mem_insert_of_ne hd hne
  | untrack | delete => exact Finset.mem_of_mem_erase hd
  | closeOwn cerr | sweep hln cerr =>
    obtain ⟨-, -, hlisteners, -, -⟩ := closeListener_frame s _ cerr
    rwa [hlisteners] at hd
  | _ => exact hd

/-- A listener that is closed stays so. -/
theorem CallStep.closes_one {c d : τ} {s s' : Srv τ ε} {pc pc' : Pc τ ε} (hsrv : SrvInv s)
    (hstep : CallStep timeout c s pc s' pc') (hd : s.closes d = 1) : s'.closes d = 1 := by
  cases hstep with
  | closeOwn cerr | sweep hln cerr =>
    rcases closeListener_closes hsrv _ cerr d with hone | ⟨hsame, -⟩
    · exact hone
    · exact hsame.trans hd
  | _ => exact hd

omit [DecidableEq τ] in
theorem Justified.mono {s s' : Srv τ ε} (hdown : s.inShutdown = true → s'.inShutdown = true) {r : ServeErr ε}
    (h : Justified timeout s r) : Justified timeout s' r := by
  cases r with
  | errServerClosed => exact hdown h
  | accept e => exact h

/-- A step does not interfere with what the other calls rely on. -/
theorem ServeInv.spared {c d : τ} {s s' : Srv τ ε} {pc pc' pc₂ : Pc τ ε} (hne : d ≠ c) (hsrv : SrvInv s)
    (hinv : CallInv c s pc) (hstep : CallStep timeout c s pc s' pc') (h : ServeInv timeout d s pc₂) :
    ServeInv timeout d s' pc₂ where
  delay := h.delay
  result r hr := (h.result r hr).mono (hstep.effect hinv).inShutdown
  refused hpc := (hstep.effect hinv).inShutdown (h.refused hpc)
  apart hpc hmem := h.apart hpc (hstep.mem_listeners hne hmem)
  closed r hr := hstep.closes_one hsrv (h.closed r hr)

/-! ## A step keeps what its call relies on -/

namespace ServeInv

omit [DecidableEq τ] in
/-- At a point outside the loop, before there is a result. -/
theorem outside {c : τ} {s : Srv τ ε} {pc : Pc τ ε} (hdelay : pc.tempDelay? = none) (hresult : pc.result? = none)
    (hrefused : pc ≠ .refused) (hapart : pc.Apart → c ∉ s.listeners) : ServeInv timeout c s pc where
  delay d hd := by
    rw [hdelay] at hd
    cases hd
  result r hr := by
    rw [hresult] at hr
    cases hr
  refused hpc := absurd hpc hrefused
  apart := hapart
  closed r hr := by
    rw [hr] at hresult
    cases hresult

omit [DecidableEq τ] in
theorem accepting {c : τ} {s : Srv τ ε} {d : Nat} (hd : Delay d) : ServeInv timeout c s (.accepting d) where
  delay d' hd' := by
    cases hd'
    exact hd
  result r hr := by cases hr
  refused hpc := by cases hpc
  apart hpc := hpc.elim
  closed r hr := by cases hr

omit [DecidableEq τ] in
/-- After the loop. -/
theorem after {c : τ} {s : Srv τ ε} {pc : Pc τ ε} {r : ServeErr ε} (hdelay : pc.tempDelay? = none)
    (hpc : pc.result? = some r) (hr : Justified timeout s r) (hapart : pc.Apart → c ∉ s.listeners)
    (hclosed : pc = .returned r → s.closes c = 1) : ServeInv timeout c s pc where
  delay d hd := by
    rw [hdelay] at hd
    cases hd
  result r' hr' := by
    rw [hpc] at hr'
    cases hr'
    exact hr
  refused h := by
    rw [h] at hpc
    cases hpc
  apart := hapart
  closed r' hr' := by
    rw [hr'] at hpc
    cases hpc
    exact hclosed hr'

end ServeInv

theorem CallStep.serveInv {c : τ} {s s' : Srv τ ε} {pc pc' : Pc τ ε} (hsrv : SrvInv s) (honce : ClosedOnce s)
    (h : ServeInv timeout c s pc) (hstep : CallStep timeout c s pc s' pc') : ServeInv timeout c s' pc' := by
  cases hstep with
  | serve | lockTrack _ | testUp _ | store _ | lockSweep _ | unlockSwept =>
    exact .outside rfl rfl (by simp) fun _ => h.apart trivial
  | testDown hdown =>
    exact ⟨fun d hd => (by cases hd), fun r hr => (by cases hr), fun _ => hdown, fun _ => h.apart trivial,
      fun r hr => (by cases hr)⟩
  | track => exact .outside rfl rfl (by simp) False.elim
  | unlockTracked | accept => exact .accepting (.inl rfl)
  | acceptFails e =>
    exact ⟨fun d hd => h.delay d hd, fun r hr => (by cases hr), fun hpc => (by cases hpc), False.elim,
      fun r hr => (by cases hr)⟩
  | failTimeout hup he => exact .accepting (delay_backoff (h.delay _ rfl))
  -- the reason for the result
  | unlockRefused => exact .after rfl rfl (h.refused rfl) (fun _ => h.apart trivial) (fun hr => by cases hr)
  | failDown hdown => exact .after rfl rfl hdown False.elim (fun hr => by cases hr)
  | failFinal hup he => exact .after rfl rfl he False.elim (fun hr => by cases hr)
  -- the result is kept
  | lockUntrack hmu => exact .after rfl rfl (h.result _ rfl) False.elim (fun hr => by cases hr)
  | untrack =>
    exact .after rfl rfl (h.result _ rfl) (fun _ => Finset.notMem_erase c _) (fun hr => by cases hr)
  | unlockUntracked =>
    exact .after rfl rfl (h.result _ rfl) (fun _ => h.apart trivial) (fun hr => by cases hr)
  | closeOwn cerr =>
    obtain ⟨hdown, -, hlisteners, -, -⟩ := closeListener_frame s c cerr
    refine .after rfl rfl ((h.result _ rfl).mono hdown.trans) (fun _ => ?_) fun _ => ?_
    · rw [hlisteners]
      exact h.apart trivial
    · exact honce.close hsrv c cerr c ((closeListener_listener s c cerr c).mpr (.inl rfl))
  | sweep hln cerr =>
    obtain ⟨-, -, hlisteners, -, -⟩ := closeListener_frame s _ cerr
    refine .outside rfl rfl (by simp) fun _ => ?_
    rw [hlisteners]
    exact h.apart trivial
  | delete => exact .outside rfl rfl (by simp) fun _ hc => h.apart trivial (Finset.mem_of_mem_erase hc)

theorem serveOutline : Threads.Outline (CallStep timeout) (fun s : Srv τ ε => SrvInv s ∧ ClosedOnce s)
    (fun c s pc => CallInv c s pc ∧ ServeInv timeout c s pc) where
  keeps hsrv hinv hstep :=
    ⟨⟨hstep.srvInv hsrv.1 hinv.1, hstep.closedOnce hsrv.1 hsrv.2⟩, hstep.callInv hsrv.1 hinv.1,
      hstep.serveInv hsrv.1 hsrv.2 hinv.2⟩
  spares hne hsrv hinv hother hstep :=
    ⟨hother.1.spared hne (hstep.effect hinv.1), hother.2.spared hne hsrv.1 hinv.1 hstep⟩

/-- In every run of any calls on a server, the delay of a `Serve` in its loop is zero or 5 ms doubled
    some number of times, and at most 1 s.  When it has returned, its listener is closed and not tracked,
    and the underlying `Close` has run exactly once.  The error is `ErrServerClosed` only on a server
    that is shut down, and otherwise an error of `Accept` that is not a timeout. -/
theorem serve_returns {t : Calls τ ε} (hrun : Runs timeout Calls.init t) (c : τ) :
    (∀ d, (t.own c).tempDelay? = some d → Delay d) ∧
      ∀ r, t.own c = .returned r →
        (t.shared.listener c).IsClosed ∧ t.shared.closes c = 1 ∧ c ∉ t.shared.listeners ∧
          Justified timeout t.shared r := by
  have hinit : Threads.Holds (fun s : Srv τ ε => SrvInv s ∧ ClosedOnce s)
      (fun c s pc => CallInv c s pc ∧ ServeInv timeout c s pc) Calls.init :=
    ⟨⟨sound_init.shared, fun _ h => h.elim⟩, fun c => ⟨sound_init.own c,
      .outside rfl rfl (by simp [Calls.init]) fun _ => Finset.notMem_empty c⟩⟩
  obtain ⟨hcall, hserve⟩ := (serveOutline.steps hinit hrun).own c
  refine ⟨hserve.delay, fun r hr => ?_⟩
  have hclosed := hcall.point
  have hapart := hserve.apart
  rw [hr] at hclosed hapart
  exact ⟨hclosed, hserve.closed r hr, hapart trivial, hserve.result r (by rw [hr]; rfl)⟩

end

/-! ## A `Serve` that fails -/

/-- Errors are numbers here, and 0 is a timeout. -/
def zeroTimeout : Nat → Bool := fun e => e == 0

/-- After a timeout, another error of `Accept` ends the call. -/
theorem exists_failed_serve : ∃ t : Calls Unit Nat, Runs zeroTimeout Calls.init t ∧
    t.own () = .returned (.accept 1) := by
  have started : Runs zeroTimeout (Calls.init : Calls Unit Nat) _ :=
    Relation.ReflTransGen.single (.of_own (c := ()) rfl .serve)
  have tested := Relation.ReflTransGen.tail (Relation.ReflTransGen.tail started
    (.of_own (c := ()) rfl (.lockTrack rfl))) (.of_own (c := ()) rfl (.testUp rfl))
  have accepting := (tested.tail (.of_own (c := ()) rfl .track)).tail (.of_own (c := ()) rfl .unlockTracked)
  have slept := (accepting.tail (.of_own (c := ()) rfl (.acceptFails 0))).tail
    (.of_own (c := ()) rfl (.failTimeout rfl rfl))
  have failed := (slept.tail (.of_own (c := ()) rfl (.acceptFails 1))).tail
    (.of_own (c := ()) rfl (.failFinal rfl rfl))
  have untracked := ((failed.tail (.of_own (c := ()) rfl (.lockUntrack rfl))).tail
    (.of_own (c := ()) rfl .untrack)).tail (.of_own (c := ()) rfl .unlockUntracked)
  exact ⟨_, untracked.tail (.of_own (c := ()) rfl (.closeOwn none)), rfl⟩

theorem serve_returns_failed :
    ∃ t : Calls Unit Nat, t.own () = .returned (.accept 1) ∧ (t.shared.listener ()).IsClosed ∧
      t.shared.closes () = 1 ∧ () ∉ t.shared.listeners ∧ Justified zeroTimeout t.shared (.accept 1) := by
  obtain ⟨t, hrun, hreturned⟩ := exists_failed_serve
  exact ⟨t, hreturned, (serve_returns hrun ()).2 _ hreturned⟩

end KmipGo.Lifecycle
