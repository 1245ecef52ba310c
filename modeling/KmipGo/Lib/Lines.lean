import KmipGo.Lib.Json
import KmipGo.Lib.Xml
import Mathlib.Data.List.TakeWhile

/-! # Documents on lines of their own

A stream of documents with a newline between two of them, and readers for such
streams: `Compact.readLines` for compact JSON texts, which may have newlines in
their strings, and `CompactXml.readLines` for compact XML texts, which have none.
-/

namespace KmipGo.Lib

/-- Documents one after the other, each but the first after a newline. -/
def lines : List Bytes → Bytes
  | [] => []
  | d :: ds => d ++ ds.flatMap (10 :: ·)

theorem lines_cons_cons (d e : Bytes) (ds : List Bytes) : lines (d :: e :: ds) = d ++ 10 :: lines (e :: ds) := rfl

namespace Compact

/-- The values of a text that is not empty. -/
def readLines : Nat → Bytes → Option (List Json)
  | 0, _ => none
  | n + 1, s =>
    match readValue s.length s with
    | some (j, []) => some [j]
    | some (j, b :: rest) => if b = 10 then (readLines n rest).map (j :: ·) else none
    | none => none

theorem readLines_lines (j : Json) (js : List Json) {n : Nat} (hn : js.length < n)
    (h : ∀ x ∈ j :: js, x.Writable) :
    readLines n (lines ((j :: js).map fun x => x.render quote)) = some (j :: js) := by
  induction js generalizing j n with
  | nil =>
    cases n with
    | zero => cases hn
    | succ n =>
      have hread := readValue_render j _ [] (h j (List.mem_cons_self ..)) (Nat.le_refl _) noDigit_nil
      rw [List.append_nil] at hread
      simp only [List.map_cons, List.map_nil, lines, List.flatMap_nil, List.append_nil, readLines, hread]
  | cons k js ih =>
    cases n with
    | zero => cases hn
    | succ n =>
      have hmore := ih k (Nat.lt_of_succ_lt_succ hn) fun x hx => h x (List.mem_cons_of_mem j hx)
      rw [List.map_cons] at hmore
      rw [List.map_cons, List.map_cons, lines_cons_cons, readLines,
        readValue_render j _ _ (h j (List.mem_cons_self ..)) (by simp) (noDigit_cons (by decide) _)]
      simp only [if_true, hmore, Option.map_some]

end Compact

namespace CompactXml

/-- The elements of a text that is not empty. -/
def readLines : Nat → Bytes → Option (List Xml)
  | 0, _ => none
  | n + 1, s =>
    match read (s.takeWhile (· != 10)), s.dropWhile (· != 10) with
    | some x, [] => some [x]
    | some x, _ :: rest => (readLines n rest).map (x :: ·)
    | none, _ => none

theorem not_newline_of_mem_escape {s : Bytes} {c : UInt8} (h : c ∈ escape s) : c ≠ 10 := by
  have hentity : ∀ p ∈ entities, ((38 :: (p.2 ++ [59]) : Bytes).all fun c => decide (c ≠ 10)) = true := by
    decide
  rw [escape, List.mem_flatMap] at h
  obtain ⟨b, -, hc⟩ := h
  rw [escapeByte] at hc
  split at hc
  · rename_i name hname
    have hmem : (b, name) ∈ entities := by
      obtain ⟨l₁, l₂, heq, -⟩ := List.lookup_eq_some_iff.mp hname
      rw [heq]
      simp
    exact forall_mem_of_all (hentity _ hmem) c hc
  · rename_i hnone
    rw [List.mem_singleton] at hc
    rintro rfl
    rw [← hc] at hnone
    cases hnone

theorem not_newline_of_mem_name {name : Bytes} (h : IsWord name) {c : UInt8} (hc : c ∈ name) : c ≠ 10 := by
  rintro rfl
  exact absurd (h.2 10 hc) (by decide)

theorem not_newline_of_mem_token {t : XmlToken} (h : TokenWorded t) {c : UInt8} (hc : c ∈ writeToken t) :
    c ≠ 10 := by
  cases t with
  | stop name =>
    simp only [writeToken, List.mem_cons, List.mem_append, List.not_mem_nil, or_false] at hc
    rcases hc with rfl | rfl | hc | rfl
    · decide
    · decide
    · exact not_newline_of_mem_name h hc
    · decide
  | start name attrs =>
    simp only [writeToken, List.mem_cons, List.mem_append, List.not_mem_nil, or_false, List.mem_flatMap] at hc
    rcases hc with rfl | (hc | ⟨a, ha, hc⟩) | rfl
    · decide
    · exact not_newline_of_mem_name h.1 hc
    · simp only [writeAttr, List.mem_cons, List.mem_append, List.not_mem_nil, or_false] at hc
      rcases hc with rfl | ((hc | rfl | rfl) | hc) | rfl
      · decide
      · exact not_newline_of_mem_name (h.2 a ha).1 hc
      · decide
      · decide
      · exact not_newline_of_mem_escape hc
      · decide
    · decide

theorem not_newline_of_mem_write {x : Xml} (h : x.Writable) {c : UInt8} (hc : c ∈ write x.tokens) : c ≠ 10 := by
  rw [write, List.mem_flatMap] at hc
  obtain ⟨t, ht, hc⟩ := hc
  exact not_newline_of_mem_token (tokenWorded_tokens x h.1 t ht) hc

theorem readLines_lines (x : Xml) (xs : List Xml) {n : Nat} (hn : xs.length < n)
    (h : ∀ y ∈ x :: xs, y.Writable) :
    readLines n (lines ((x :: xs).map fun y => write y.tokens)) = some (x :: xs) := by
  have hread (y : Xml) (hy : y.Writable) : read (write y.tokens) = some y := compactXml_lawful.read_write y hy
  have hnot (y : Xml) (hy : y.Writable) : ∀ c ∈ write y.tokens, (c != 10) = true :=
    fun c hc => bne_iff_ne.mpr (not_newline_of_mem_write hy hc)
  induction xs generalizing x n with
  | nil =>
    cases n with
    | zero => cases hn
    | succ n =>
      have hx := h x (List.mem_cons_self ..)
      simp only [List.map_cons, List.map_nil, lines, List.flatMap_nil, List.append_nil, readLines,
        List.takeWhile_eq_self_iff.mpr (hnot x hx), List.dropWhile_eq_nil_iff.mpr (hnot x hx), hread x hx]
  | cons y xs ih =>
    cases n with
    | zero => cases hn
    | succ n =>
      have hx := h x (List.mem_cons_self ..)
      have hmore := ih y (Nat.lt_of_succ_lt_succ hn) fun z hz => h z (List.mem_cons_of_mem x hz)
      rw [List.map_cons] at hmore
      rw [List.map_cons, List.map_cons, lines_cons_cons, readLines,
        takeWhile_append_stop (hnot x hx) (by decide), dropWhile_append_stop (hnot x hx) (by decide), hread x hx]
      simp only [hmore, Option.map_some]

end CompactXml

end KmipGo.Lib
