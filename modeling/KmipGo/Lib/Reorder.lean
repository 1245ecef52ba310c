import KmipGo.Lib.Plan

/-! # Loops over edited inputs

What an edit of its inputs does to a loop that succeeds: an input that is replaced
(`loop_replace`), one that is added (`loop_insert`), and inputs that are put in
another order (`loop_reorder`).

For the last, inputs carry a key.  Two lists agree key by key when, for each key,
they have the same inputs with that key in the same order.  If inputs with
different keys may be exchanged, the loop succeeds on both lists with the same
result.

`loop_guarded` compares two loops of which one asks more of each input.
-/

namespace KmipGo.Lib

section

variable {σ α ε κ : Type} [DecidableEq κ]

/-- The lists have the same inputs for each key, in the same order. -/
def SameByKey (key : α → κ) (as bs : List α) : Prop :=
  ∀ k, as.filter (fun a => key a = k) = bs.filter (fun a => key a = k)

/-- Inputs with different keys may be exchanged. -/
def Exchangeable (key : α → κ) (step : σ → α → σ × Res ε Unit) : Prop :=
  ∀ s s₁ s₂ a b, key a ≠ key b → step s a = (s₁, .ok ()) → step s₁ b = (s₂, .ok ()) →
    ∃ t, step s b = (t, .ok ()) ∧ step t a = (s₂, .ok ())

variable {key : α → κ}

/-- The first input of one list is the first one with its key in the other. -/
theorem SameByKey.exists_front {b : α} {as bs : List α} (h : SameByKey key as (b :: bs)) :
    ∃ pre post, as = pre ++ b :: post ∧ (∀ a ∈ pre, key a ≠ key b) ∧
      SameByKey key (pre ++ post) bs := by
  have hb : as.filter (fun a => key a = key b) = b :: bs.filter (fun a => key a = key b) := by
    rw [h (key b), List.filter_cons_of_pos (by simp)]
  obtain ⟨pre, post, rfl, hpre, -, hpost⟩ := List.filter_eq_cons_iff.mp hb
  have hpre : ∀ a ∈ pre, key a ≠ key b := by
    intro a ha
    simpa using hpre a ha
  refine ⟨pre, post, rfl, hpre, fun k => ?_⟩
  have hk := h k
  rw [List.filter_append] at hk ⊢
  by_cases hkey : key b = k
  · have hnone : pre.filter (fun a => key a = k) = [] := by
      rw [List.filter_eq_nil_iff]
      intro a ha
      simpa [hkey] using hkey ▸ hpre a ha
    rw [hnone, List.filter_cons_of_pos (by simpa using hkey), List.filter_cons_of_pos (by simpa using hkey),
      List.nil_append] at hk
    rw [hnone, List.nil_append]
    exact (List.cons.inj hk).2
  · rw [List.filter_cons_of_neg (by simpa using hkey), List.filter_cons_of_neg (by simpa using hkey)] at hk
    exact hk

theorem SameByKey.perm : ∀ {bs as : List α}, SameByKey key as bs → as.Perm bs
  | [], as, h => by
    have hnil : as = [] := by
      cases as with
      | nil => rfl
      | cons a as =>
        have ha := h (key a)
        rw [List.filter_cons_of_pos (by simp)] at ha
        cases ha
    rw [hnil]
  | b :: bs, as, h => by
    obtain ⟨pre, post, rfl, -, hrest⟩ := h.exists_front
    exact List.perm_middle.trans (List.Perm.cons b hrest.perm)

variable {step : σ → α → σ × Res ε Unit}

omit [DecidableEq κ] in
/-- An input may be moved to the front past inputs with other keys. -/
theorem loop_move_front (h : Exchangeable key step) {b : α} {post : List α} :
    ∀ {pre : List α} {s s' : σ}, (∀ a ∈ pre, key a ≠ key b) →
      loop step s (pre ++ b :: post) = (s', .ok ()) → loop step s (b :: (pre ++ post)) = (s', .ok ())
  | [], _, _, _, hloop => hloop
  | a :: pre, s, s', hpre, hloop => by
    obtain ⟨s₁, ha, hloop⟩ := loop_cons_ok.mp hloop
    have hmoved := loop_move_front h (fun c hc => hpre c (List.mem_cons_of_mem a hc)) hloop
    obtain ⟨s₂, hb, hrest⟩ := loop_cons_ok.mp hmoved
    obtain ⟨t, hb', ha'⟩ := h s s₁ s₂ a b (hpre a (List.mem_cons_self ..)) ha hb
    exact loop_cons_ok.mpr ⟨t, hb', loop_cons_ok.mpr ⟨s₂, ha', hrest⟩⟩

/-- The rule for reordered inputs. -/
theorem loop_reorder (h : Exchangeable key step) : ∀ {bs as : List α} {s s' : σ},
    SameByKey key as bs → loop step s as = (s', .ok ()) → loop step s bs = (s', .ok ())
  | [], as, s, s', hsame, hloop => by
    rw [List.perm_nil.mp hsame.perm] at hloop
    exact hloop
  | b :: bs, as, s, s', hsame, hloop => by
    obtain ⟨pre, post, rfl, hpre, hrest⟩ := hsame.exists_front
    obtain ⟨t, hb, hloop⟩ := loop_cons_ok.mp (loop_move_front h hpre hloop)
    exact loop_cons_ok.mpr ⟨t, hb, loop_reorder h hrest hloop⟩

end

section

variable {σ α ε : Type} {step : σ → α → σ × Res ε Unit}

theorem loop_replace {a b : α} {post : List α}
    (h : ∀ s s', step s a = (s', .ok ()) → step s b = (s', .ok ())) :
    ∀ {pre : List α} {s s' : σ}, loop step s (pre ++ a :: post) = (s', .ok ()) →
      loop step s (pre ++ b :: post) = (s', .ok ())
  | [], s, s', hloop => by
    obtain ⟨t, ha, hrest⟩ := loop_cons_ok.mp hloop
    exact loop_cons_ok.mpr ⟨t, h s t ha, hrest⟩
  | c :: pre, s, s', hloop => by
    obtain ⟨t, hc, hrest⟩ := loop_cons_ok.mp hloop
    exact loop_cons_ok.mpr ⟨t, hc, loop_replace h hrest⟩

/-- An input that changes nothing may be added anywhere. -/
theorem loop_insert {a : α} {post : List α} (h : ∀ s, step s a = (s, .ok ())) :
    ∀ {pre : List α} {s s' : σ}, loop step s (pre ++ post) = (s', .ok ()) →
      loop step s (pre ++ a :: post) = (s', .ok ())
  | [], s, _, hloop => loop_cons_ok.mpr ⟨s, h s, hloop⟩
  | c :: pre, s, s', hloop => by
    obtain ⟨t, hc, hrest⟩ := loop_cons_ok.mp hloop
    exact loop_cons_ok.mpr ⟨t, hc, loop_insert h hrest⟩

/-- A step that succeeds only on inputs with a property, and there as another step does. -/
theorem loop_guarded {step' : σ → α → σ × Res ε Unit} {P : α → Prop} :
    ∀ {as : List α} {s s' : σ},
      (∀ a ∈ as, ∀ s s', step' s a = (s', .ok ()) ↔ step s a = (s', .ok ()) ∧ P a) →
      (loop step' s as = (s', .ok ()) ↔ loop step s as = (s', .ok ()) ∧ ∀ a ∈ as, P a)
  | [], s, s', _ => by simp [loop]
  | a :: as, s, s', h => by
    have hrest : ∀ t, loop step' t as = (s', .ok ()) ↔ loop step t as = (s', .ok ()) ∧ ∀ b ∈ as, P b :=
      fun t => loop_guarded fun b hb => h b (List.mem_cons_of_mem a hb)
    rw [loop_cons_ok, loop_cons_ok, List.forall_mem_cons]
    constructor
    · rintro ⟨t, ha, hloop⟩
      obtain ⟨ha, hP⟩ := (h a (List.mem_cons_self ..) s t).mp ha
      obtain ⟨hloop, hall⟩ := (hrest t).mp hloop
      exact ⟨⟨t, ha, hloop⟩, hP, hall⟩
    · rintro ⟨⟨t, ha, hloop⟩, hP, hall⟩
      exact ⟨t, (h a (List.mem_cons_self ..) s t).mpr ⟨ha, hP⟩, (hrest t).mpr ⟨hloop, hall⟩⟩

end

end KmipGo.Lib
