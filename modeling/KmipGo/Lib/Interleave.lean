import Mathlib.Logic.Function.Basic
import Mathlib.Logic.Relation

/-! # Threads over a shared state

Any number of threads, each with a state of its own, take atomic steps on a
state they share.  A property of all schedules is proved from assertions: one on
the shared state, and one for each thread on the shared state and its own.  What the
threads do to an object that they share is a history of events.
-/

namespace KmipGo.Lib

structure Threads (σ α τ : Type) where
  shared : σ
  own : τ → α

namespace Threads

variable {σ α τ : Type} [DecidableEq τ]

/-- One thread takes a step of its program. -/
inductive Step (program : τ → σ → α → σ → α → Prop) : Threads σ α τ → Threads σ α τ → Prop where
  | mk {t : Threads σ α τ} (c : τ) {s : σ} {a : α} (h : program c t.shared (t.own c) s a) :
      Step program t ⟨s, Function.update t.own c a⟩

def Steps (program : τ → σ → α → σ → α → Prop) : Threads σ α τ → Threads σ α τ → Prop :=
  Relation.ReflTransGen (Step program)

variable {program : τ → σ → α → σ → α → Prop}

theorem Step.of_own {t : Threads σ α τ} {c : τ} {s : σ} {a b : α} (hown : t.own c = a)
    (h : program c t.shared a s b) : Step program t ⟨s, Function.update t.own c b⟩ :=
  .mk c (hown ▸ h)

/-- The assertions hold in a state. -/
structure Holds (I : σ → Prop) (A : τ → σ → α → Prop) (t : Threads σ α τ) : Prop where
  shared : I t.shared
  own : ∀ c, A c t.shared (t.own c)

/-- The steps of a thread keep the shared assertion and its own, and do not interfere with those of
    the others. -/
structure Outline (program : τ → σ → α → σ → α → Prop) (I : σ → Prop) (A : τ → σ → α → Prop) : Prop where
  keeps : ∀ {c s a s' a'}, I s → A c s a → program c s a s' a' → I s' ∧ A c s' a'
  spares : ∀ {c d s a b s' a'}, d ≠ c → I s → A c s a → A d s b → program c s a s' a' → A d s' b

variable {I : σ → Prop} {A : τ → σ → α → Prop}

theorem Outline.step (ho : Outline program I A) {t u : Threads σ α τ} (ht : Holds I A t)
    (hstep : Step program t u) : Holds I A u := by
  cases hstep with
  | mk c h =>
    obtain ⟨hI, hA⟩ := ho.keeps ht.shared (ht.own c) h
    refine ⟨hI, fun d => ?_⟩
    dsimp only
    by_cases hd : d = c
    · rw [hd, Function.update_self]
      exact hA
    · rw [Function.update_of_ne hd]
      exact ho.spares hd ht.shared (ht.own c) (ht.own d) h

theorem Outline.steps (ho : Outline program I A) {t u : Threads σ α τ} (ht : Holds I A t)
    (hsteps : Steps program t u) : Holds I A u := by
  induction hsteps with
  | refl => exact ht
  | tail _ hstep ih => exact ho.step ih hstep

/-! ## Schedules -/

/-- The steps of a schedule, which says whose turn it is. -/
inductive Trace (program : τ → σ → α → σ → α → Prop) (t : Threads σ α τ) :
    List τ → Threads σ α τ → Prop where
  | nil : Trace program t [] t
  | snoc {cs : List τ} {u : Threads σ α τ} (h : Trace program t cs u) (c : τ) {s : σ} {a : α}
      (hstep : program c u.shared (u.own c) s a) :
      Trace program t (cs ++ [c]) ⟨s, Function.update u.own c a⟩

theorem Trace.steps {t u : Threads σ α τ} {cs : List τ} (h : Trace program t cs u) :
    Steps program t u := by
  induction h with
  | nil => exact .refl
  | snoc _ c hstep ih => exact ih.tail (.mk c hstep)

/-- A thread goes on from the state it is in. -/
theorem Trace.next {t u : Threads σ α τ} {cs : List τ} {c : τ} {s s' : σ} {a a' : α}
    (h : Trace program t cs u ∧ u.shared = s ∧ u.own c = a) (hstep : program c s a s' a') :
    ∃ v, Trace program t (cs ++ [c]) v ∧ v.shared = s' ∧ v.own c = a' := by
  obtain ⟨htrace, rfl, rfl⟩ := h
  exact ⟨_, htrace.snoc c hstep, rfl, Function.update_self ..⟩

/-- A thread whose every step uses up some of its potential takes only so many steps, whatever the
    others do. -/
theorem Trace.count_le {φ : α → Nat} (hφ : ∀ {c s a s' a'}, program c s a s' a' → φ a' < φ a)
    {t u : Threads σ α τ} {cs : List τ} (h : Trace program t cs u) (c : τ) :
    cs.count c + φ (u.own c) ≤ φ (t.own c) := by
  induction h with
  | nil => simp
  | @snoc cs u _ d s a hstep ih =>
    have hless := hφ hstep
    dsimp only
    rw [List.count_append, List.count_singleton]
    by_cases hd : d = c
    · rw [hd, beq_self_eq_true, if_pos rfl, Function.update_self]
      rw [hd] at hless
      omega
    · rw [if_neg (by simpa using hd), Function.update_of_ne (Ne.symm hd)]
      omega

end Threads

/-! ## Histories -/

section

variable {σ ε α : Type}

/-- What happens to a state, event by event. -/
inductive History (step : σ → ε → σ → Prop) (init : σ) : List ε → σ → Prop where
  | nil : History step init [] init
  | snoc {es : List ε} {s : σ} (h : History step init es s) {e : ε} {s' : σ} (hstep : step s e s') :
      History step init (es ++ [e]) s'

/-- Events that come in groups, each with the number of its group. -/
def numbered (groups : List (List α)) : List (Nat × α) :=
  groups.zipIdx.flatMap fun g => g.1.map (Prod.mk g.2)

theorem numbered_snoc (groups : List (List α)) (g : List α) :
    numbered (groups ++ [g]) = numbered groups ++ g.map (Prod.mk groups.length) := by
  simp [numbered, List.zipIdx_append]

theorem lt_of_mem_numbered {groups : List (List α)} {x : Nat × α} (h : x ∈ numbered groups) :
    x.1 < groups.length := by
  obtain ⟨⟨g, n⟩, hg, hx⟩ := List.mem_flatMap.mp h
  obtain ⟨y, -, rfl⟩ := List.mem_map.mp hx
  have hlt := (List.mem_zipIdx hg).2.1
  omega

end

end KmipGo.Lib
