import KmipGo.Lib.Result

/-! # Runs that follow a plan

A loop works through a list of inputs, changes a state and stops at the first
input that fails.  A plan for it says, without running anything, which cases
each input gives rise to and how an abstract state develops; a judge says what
becomes of a single case.  The run follows the plan when its outcome is that of
the first case judged to fail, and the states stay related as long as none does.

* `Follows.loop` — a loop follows the collected plan if each step follows its own.
* `agrees_err_iff`, `agrees_panic_iff` — what the first failing case says about
  the outcome of a run.
-/

namespace KmipGo.Lib

section

variable {σ τ α γ ε κ : Type}

/-- Works through a list up to the first failure. -/
def loop (step : σ → α → σ × Res ε Unit) : σ → List α → σ × Res ε Unit
  | s, [] => (s, .ok ())
  | s, a :: as =>
    match step s a with
    | (s', .ok ()) => loop step s' as
    | (s', .err e) => (s', .err e)
    | (s', .panic) => (s', .panic)

/-- The cases of each input in turn, with the abstract state threaded through. -/
def collect (plan : τ → α → List γ × τ) : τ → List α → List γ × τ
  | p, [] => ([], p)
  | p, a :: as =>
    match plan p a with
    | (cases, p') =>
      match collect plan p' as with
      | (more, p'') => (cases ++ more, p'')

/-- What the first case that does not succeed decides. -/
def firstFailure (judge : γ → Res κ Unit) : List γ → Res κ Unit
  | [] => .ok ()
  | c :: cs =>
    match judge c with
    | .ok () => firstFailure judge cs
    | .err e => .err e
    | .panic => .panic

/-- Two outcomes of the same kind, with related errors. -/
def Agrees (err : ε → κ → Prop) : Res ε Unit → Res κ Unit → Prop
  | .ok (), .ok () => True
  | .err e, .err k => err e k
  | .panic, .panic => True
  | _, _ => False

structure Follows (R : σ → τ → Prop) (err : ε → κ → Prop) (judge : γ → Res κ Unit)
    (run : σ × Res ε Unit) (plan : List γ × τ) : Prop where
  outcome : Agrees err run.2 (firstFailure judge plan.1)
  state : run.2 = .ok () → R run.1 plan.2

variable {R : σ → τ → Prop} {err : ε → κ → Prop} {judge : γ → Res κ Unit}

theorem loop_single {step : σ → α → σ × Res ε Unit} (s : σ) (a : α) : loop step s [a] = step s a := by
  rw [loop]
  cases step s a with
  | mk s' r => cases r <;> rfl

theorem loop_cons_ok {step : σ → α → σ × Res ε Unit} {s s' : σ} {a : α} {as : List α} :
    loop step s (a :: as) = (s', .ok ()) ↔
      ∃ t, step s a = (t, .ok ()) ∧ loop step t as = (s', .ok ()) := by
  rw [loop]
  cases hs : step s a with
  | mk t r =>
    cases r with
    | ok u =>
      constructor
      · exact fun h => ⟨t, rfl, h⟩
      · rintro ⟨t', ht, h⟩
        cases ht
        exact h
    | err e => simp
    | panic => simp

theorem loop_append {step : σ → α → σ × Res ε Unit} {s s' : σ} {as : List α} (bs : List α)
    (h : loop step s as = (s', .ok ())) : loop step s (as ++ bs) = loop step s' bs := by
  induction as generalizing s with
  | nil =>
    cases h
    rfl
  | cons a as ih =>
    rw [List.cons_append, loop]
    rw [loop] at h
    cases hs : step s a with
    | mk t r =>
      rw [hs] at h
      cases r with
      | ok u => exact ih h
      | err e => cases h
      | panic => cases h

/-- A loop that fails on the first inputs does not see the others. -/
theorem loop_append_of_ne {step : σ → α → σ × Res ε Unit} {s : σ} {as : List α} (bs : List α)
    (h : (loop step s as).2 ≠ .ok ()) : loop step s (as ++ bs) = loop step s as := by
  induction as generalizing s with
  | nil => exact absurd rfl h
  | cons a as ih =>
    rw [List.cons_append, loop, loop]
    rw [loop] at h
    cases hs : step s a with
    | mk t r =>
      rw [hs] at h
      cases r with
      | ok u => exact ih h
      | err e => rfl
      | panic => rfl

/-- A loop on part of a state, when each step touches only that part. -/
theorem loop_map {σ' : Type} {step : σ → α → σ × Res ε Unit} {step' : σ' → α → σ' × Res ε Unit}
    (f : σ → σ') {as : List α}
    (h : ∀ s, ∀ a ∈ as, step' (f s) a = (f (step s a).1, (step s a).2)) (s : σ) :
    loop step' (f s) as = (f (loop step s as).1, (loop step s as).2) := by
  induction as generalizing s with
  | nil => rfl
  | cons a as ih =>
    rw [loop, loop, h s a (List.mem_cons_self ..)]
    cases step s a with
    | mk t r =>
      cases r with
      | ok u => exact ih (fun s b hb => h s b (List.mem_cons_of_mem a hb)) t
      | err e => rfl
      | panic => rfl

theorem Follows.map {σ' τ' : Type} {R' : σ' → τ' → Prop} {f : σ → σ'} {g : τ → τ'}
    {run : σ × Res ε Unit} {plan : List γ × τ} (h : Follows R err judge run plan)
    (hR : ∀ s p, R s p → R' (f s) (g p)) :
    Follows R' err judge (f run.1, run.2) (plan.1, g plan.2) :=
  ⟨h.outcome, fun hok => hR _ _ (h.state hok)⟩

theorem Follows.one {run : σ × Res ε Unit} {c : γ} {p : τ} (hout : Agrees err run.2 (judge c))
    (hstate : run.2 = .ok () → R run.1 p) : Follows R err judge run ([c], p) := by
  refine ⟨?_, hstate⟩
  rw [firstFailure]
  cases hc : judge c with
  | ok u => rwa [hc] at hout
  | err e => rwa [hc] at hout
  | panic => rwa [hc] at hout

theorem firstFailure_append (xs ys : List γ) :
    firstFailure judge (xs ++ ys) =
      match firstFailure judge xs with
      | .ok () => firstFailure judge ys
      | .err e => .err e
      | .panic => .panic := by
  induction xs with
  | nil => rfl
  | cons x xs ih =>
    rw [List.cons_append, firstFailure, firstFailure]
    cases judge x with
    | ok u => exact ih
    | err e => rfl
    | panic => rfl

theorem mem_collect {plan : τ → α → List γ × τ} {c : γ} : ∀ {as : List α} {p : τ},
    c ∈ (collect plan p as).1 → ∃ a ∈ as, ∃ q, c ∈ (plan q a).1
  | [], _, h => absurd h List.not_mem_nil
  | a :: as, p, h => by
    rw [collect] at h
    cases List.mem_append.mp h with
    | inl h => exact ⟨a, List.mem_cons_self .., p, h⟩
    | inr h =>
      obtain ⟨b, hb, q, hq⟩ := mem_collect h
      exact ⟨b, List.mem_cons_of_mem a hb, q, hq⟩

/-- The rule for what a plan keeps true of its abstract state. -/
theorem collect_invariant {plan : τ → α → List γ × τ} {P : τ → Prop} : ∀ {as : List α} {p : τ},
    (∀ q, ∀ a ∈ as, P q → P (plan q a).2) → P p → P (collect plan p as).2
  | [], _, _, hp => hp
  | a :: as, p, hstep, hp => by
    rw [collect]
    exact collect_invariant (fun q b hb => hstep q b (List.mem_cons_of_mem a hb))
      (hstep p a (List.mem_cons_self ..) hp)

/-- The rule for loops. -/
theorem Follows.loop {step : σ → α → σ × Res ε Unit} {plan : τ → α → List γ × τ}
    (hstep : ∀ s p a, R s p → Follows R err judge (step s a) (plan p a)) :
    ∀ (as : List α) (s : σ) (p : τ), R s p →
      Follows R err judge (loop step s as) (collect plan p as)
  | [], _, _, hR => ⟨trivial, fun _ => hR⟩
  | a :: as, s, p, hR => by
    obtain ⟨hout, hstate⟩ := hstep s p a hR
    rw [Lib.loop, collect]
    cases hs : step s a with
    | mk s' r =>
      rw [hs] at hout hstate
      cases r with
      | ok u =>
        obtain ⟨houts, hstates⟩ := Follows.loop hstep as s' (plan p a).2 (hstate rfl)
        refine ⟨?_, hstates⟩
        rw [firstFailure_append]
        cases hf : firstFailure judge (plan p a).1 with
        | ok u => exact houts
        | err k => simp only [hf, Agrees] at hout
        | panic => simp only [hf, Agrees] at hout
      | err e =>
        refine ⟨?_, fun h => by cases h⟩
        rw [firstFailure_append]
        cases hf : firstFailure judge (plan p a).1 with
        | ok u => simp only [hf, Agrees] at hout
        | err k => rwa [hf] at hout
        | panic => simp only [hf, Agrees] at hout
      | panic =>
        refine ⟨?_, fun h => by cases h⟩
        rw [firstFailure_append]
        cases hf : firstFailure judge (plan p a).1 with
        | ok u => simp only [hf, Agrees] at hout
        | err k => simp only [hf, Agrees] at hout
        | panic => trivial

/-- The first case that does not succeed, if there is one, with the cases before it. -/
theorem firstFailure_eq_iff {cs : List γ} {r : Res κ Unit} (hr : r ≠ .ok ()) :
    firstFailure judge cs = r ↔
      ∃ before c after, cs = before ++ c :: after ∧ (∀ d ∈ before, judge d = .ok ()) ∧ judge c = r := by
  induction cs with
  | nil =>
    refine ⟨fun h => absurd h.symm hr, ?_⟩
    rintro ⟨before, c, after, heq, -⟩
    cases before <;> cases heq
  | cons x xs ih =>
    rw [firstFailure]
    constructor
    · intro h
      cases hx : judge x with
      | ok u =>
        rw [hx] at h
        obtain ⟨before, c, after, rfl, hbefore, hc⟩ := ih.mp h
        refine ⟨x :: before, c, after, rfl, ?_, hc⟩
        intro d hd
        cases hd with
        | head => exact hx
        | tail _ hd => exact hbefore d hd
      | err e =>
        rw [hx] at h
        exact ⟨[], x, xs, rfl, fun d hd => absurd hd List.not_mem_nil, hx.trans h⟩
      | panic =>
        rw [hx] at h
        exact ⟨[], x, xs, rfl, fun d hd => absurd hd List.not_mem_nil, hx.trans h⟩
    · rintro ⟨before, c, after, heq, hbefore, hc⟩
      cases before with
      | nil =>
        obtain ⟨rfl, rfl⟩ := List.cons.inj heq
        subst hc
        cases hx : judge x with
        | ok u => exact absurd hx hr
        | err e => rfl
        | panic => rfl
      | cons d before =>
        obtain ⟨rfl, rfl⟩ := List.cons.inj heq
        rw [hbefore x (List.mem_cons_self ..)]
        exact ih.mpr ⟨before, c, after, rfl, fun d hd => hbefore d (List.mem_cons_of_mem _ hd), hc⟩

theorem agrees_panic_iff {r : Res ε Unit} {k : Res κ Unit} (h : Agrees err r k) :
    r = .panic ↔ k = .panic := by
  cases r <;> cases k <;> simp_all [Agrees]

theorem agrees_ok_iff {r : Res ε Unit} {k : Res κ Unit} (h : Agrees err r k) :
    r = .ok () ↔ k = .ok () := by
  cases r <;> cases k <;> simp_all [Agrees]

theorem agrees_err_iff {r : Res ε Unit} {k : Res κ Unit} (h : Agrees err r k) :
    (∃ e, r = .err e) ↔ ∃ e, k = .err e := by
  cases r <;> cases k <;> simp_all [Agrees]

end

end KmipGo.Lib
