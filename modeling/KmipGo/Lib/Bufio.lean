import Mathlib.Data.List.Basic

/-! # Buffered readers

A reader delivers a stream in chunks that are not empty, and then ends.  A
buffered reader on top of it has two operations: `peek` shows the next elements
without taking them, and `read` takes some of the next elements, at least one, but
not always as many as were asked for.

`Documented` is what the documentation of `bufio.Reader` promises, in terms of the
elements that are left; `bufio_documented` shows it for the usual implementation.
-/

namespace KmipGo.Lib

/-- What one read of the underlying reader delivers. -/
abbrev Chunk (α : Type) := { c : List α // c ≠ [] }

/-- The stream that the chunks make up. -/
def stream {α : Type} (chunks : List (Chunk α)) : List α := (chunks.map Subtype.val).flatten

structure BufferedReader (α : Type) where
  State : Type
  new : List (Chunk α) → State
  /-- `Peek(n)`, without a result if the stream ends before -/
  peek : State → Nat → State × Option (List α)
  /-- `Read(p)` with `n` elements of room, without a result at the end of the stream -/
  read : State → Nat → State × Option (Chunk α)

/-- The size below which no buffer goes. -/
def minReadBufferSize : Nat := 16

/-- The behaviour that is documented, where `left` are the elements that have not been read. -/
structure BufferedReader.Documented {α : Type} (r : BufferedReader α) (left : r.State → List α) : Prop where
  new : ∀ chunks, left (r.new chunks) = stream chunks
  peek : ∀ s n, n ≤ minReadBufferSize →
    (r.peek s n).2 = if (left s).length < n then none else some ((left s).take n)
  left_peek : ∀ s n, left (r.peek s n).1 = left s
  read_end : ∀ s n, left s = [] → (r.read s n).2 = none
  read : ∀ s n, 0 < n → left s ≠ [] → ∃ c : Chunk α, (r.read s n).2 = some c ∧ c.1.length ≤ n ∧
    left s = c.1 ++ left (r.read s n).1

/-! ## An implementation -/

/-- A buffer, and what the underlying reader will still deliver. -/
structure Buffered (α : Type) where
  size : Nat
  buf : List α
  chunks : List (Chunk α)

section

variable {α : Type}

/-- A read of the underlying reader with `n` elements of room. -/
def pull (n : Nat) : List (Chunk α) → List α × List (Chunk α)
  | [] => ([], [])
  | c :: cs => if h : c.1.drop n = [] then (c.1, cs) else (c.1.take n, ⟨c.1.drop n, h⟩ :: cs)

theorem stream_cons (c : Chunk α) (cs : List (Chunk α)) : stream (c :: cs) = c.1 ++ stream cs := rfl

theorem pull_append (n : Nat) (cs : List (Chunk α)) : (pull n cs).1 ++ stream (pull n cs).2 = stream cs := by
  cases cs with
  | nil => rfl
  | cons c cs =>
    rw [pull]
    split
    · rfl
    · rw [stream_cons, stream_cons, ← List.append_assoc, List.take_append_drop]

theorem pull_ne_nil {n : Nat} (hn : 0 < n) (c : Chunk α) (cs : List (Chunk α)) : (pull n (c :: cs)).1 ≠ [] := by
  rw [pull]
  split
  · exact c.2
  · have hc := List.length_pos_iff.mpr c.2
    apply List.length_pos_iff.mp
    rw [List.length_take]
    omega

theorem length_pull_le (n : Nat) (cs : List (Chunk α)) : (pull n cs).1.length ≤ n := by
  cases cs with
  | nil => simp [pull]
  | cons c cs =>
    rw [pull]
    split
    · rename_i h
      exact List.drop_eq_nil_iff.mp h
    · exact List.length_take_le n c.1

namespace Buffered

/-- The elements that have not been read. -/
def left (s : Buffered α) : List α := s.buf ++ stream s.chunks

/-- One read into the free part of the buffer. -/
def fill (s : Buffered α) : Buffered α :=
  { s with
      buf := s.buf ++ (pull (s.size - s.buf.length) s.chunks).1
      chunks := (pull (s.size - s.buf.length) s.chunks).2 }

theorem left_fill (s : Buffered α) : s.fill.left = s.left := by
  rw [left, left, fill, List.append_assoc, pull_append]

theorem length_fill {s : Buffered α} (hroom : s.buf.length < s.size) (hmore : s.chunks ≠ []) :
    s.buf.length < s.fill.buf.length := by
  obtain ⟨c, cs, hcs⟩ := List.exists_cons_of_ne_nil hmore
  have hpos := List.length_pos_iff.mpr (pull_ne_nil (Nat.sub_pos_of_lt hroom) c cs)
  rw [fill, List.length_append, hcs]
  omega

/-- Reads until `n` elements are in the buffer, the buffer is full, or the stream has ended. -/
def fillTo (n : Nat) (s : Buffered α) : Buffered α :=
  if s.buf.length < n ∧ s.buf.length < s.size ∧ s.chunks ≠ [] then fillTo n s.fill else s
termination_by s.size - s.buf.length
decreasing_by
  rename_i h
  have hlt := length_fill h.2.1 h.2.2
  have hsize : s.fill.size = s.size := rfl
  rw [hsize]
  omega

theorem left_fillTo (n : Nat) (s : Buffered α) : (fillTo n s).left = s.left := by
  induction s using fillTo.induct n with
  | case1 s h ih => rw [fillTo, if_pos h, ih, left_fill]
  | case2 s h => rw [fillTo, if_neg h]

theorem size_fillTo (n : Nat) (s : Buffered α) : (fillTo n s).size = s.size := by
  induction s using fillTo.induct n with
  | case1 s h ih =>
    rw [fillTo, if_pos h, ih]
    rfl
  | case2 s h => rw [fillTo, if_neg h]

/-- What ends the loop. -/
theorem fillTo_stops (n : Nat) (s : Buffered α) :
    n ≤ (fillTo n s).buf.length ∨ s.size ≤ (fillTo n s).buf.length ∨ (fillTo n s).chunks = [] := by
  induction s using fillTo.induct n with
  | case1 s h ih =>
    rw [fillTo, if_pos h]
    exact ih
  | case2 s h =>
    rw [fillTo, if_neg h]
    by_contra hnot
    simp only [not_or, Nat.not_le] at hnot
    exact h hnot

def peek (s : Buffered α) (n : Nat) : Buffered α × Option (List α) :=
  (fillTo n s, if (fillTo n s).buf.length < n then none else some ((fillTo n s).buf.take n))

/-- A result unless there are no elements. -/
def deliver (c : List α) : Option (Chunk α) := if h : c = [] then none else some ⟨c, h⟩

theorem deliver_of_ne {c : List α} (h : c ≠ []) : deliver c = some ⟨c, h⟩ := dif_neg h

/-- What is in the buffer is returned first.  An empty buffer is filled by one read, unless there is
    more room outside. -/
def read (s : Buffered α) (n : Nat) : Buffered α × Option (Chunk α) :=
  if s.buf ≠ [] then ({ s with buf := s.buf.drop n }, deliver (s.buf.take n))
  else if s.size ≤ n then ({ s with chunks := (pull n s.chunks).2 }, deliver (pull n s.chunks).1)
  else ({ s.fill with buf := s.fill.buf.drop n }, deliver (s.fill.buf.take n))

end Buffered

end

/-- `bufio.Reader` with a buffer of some size. -/
def bufio (α : Type) (size : Nat) : BufferedReader α where
  State := { s : Buffered α // minReadBufferSize ≤ s.size }
  new chunks := ⟨⟨max size minReadBufferSize, [], chunks⟩, Nat.le_max_right ..⟩
  peek s n := (⟨(s.1.peek n).1, (Buffered.size_fillTo n s.1).symm ▸ s.2⟩, (s.1.peek n).2)
  read s n := (⟨(s.1.read n).1, by
    unfold Buffered.read
    split
    · exact s.2
    · split <;> exact s.2⟩, (s.1.read n).2)

theorem take_ne_nil {α : Type} {l : List α} {n : Nat} (hn : 0 < n) (hl : l ≠ []) : l.take n ≠ [] := by
  have hpos := List.length_pos_iff.mpr hl
  apply List.length_pos_iff.mp
  rw [List.length_take]
  omega

theorem bufio_documented (α : Type) (size : Nat) :
    (bufio α size).Documented fun s => s.1.left where
  new chunks := rfl
  left_peek s n := Buffered.left_fillTo n s.1
  peek s n hn := by
    have hleft := Buffered.left_fillTo n s.1
    have hbuf : ((Buffered.fillTo n s.1).buf ++ stream (Buffered.fillTo n s.1).chunks) = s.1.left := hleft
    show (if (Buffered.fillTo n s.1).buf.length < n then none
      else some ((Buffered.fillTo n s.1).buf.take n)) = _
    rw [← hbuf]
    by_cases hshort : (Buffered.fillTo n s.1).buf.length < n
    · -- the buffer has room for `n` elements, so the stream has ended
      have hsize := s.2
      have hend : (Buffered.fillTo n s.1).chunks = [] := by
        rcases Buffered.fillTo_stops n s.1 with h | h | h
        · omega
        · omega
        · exact h
      rw [hend, if_pos hshort, if_pos]
      simpa [stream] using hshort
    · rw [if_neg hshort, if_neg (by rw [List.length_append]; omega),
        List.take_append_of_le_length (Nat.not_lt.mp hshort)]
  read_end s n hs := by
    obtain ⟨hbuf, hchunks⟩ := List.append_eq_nil_iff.mp hs
    have hnone : s.1.chunks = [] := by
      cases hc : s.1.chunks with
      | nil => rfl
      | cons c cs =>
        rw [hc, stream_cons] at hchunks
        exact absurd (List.append_eq_nil_iff.mp hchunks).1 c.2
    show (s.1.read n).2 = none
    unfold Buffered.read
    rw [if_neg (not_not_intro hbuf)]
    split
    · rw [hnone]
      rfl
    · simp [Buffered.fill, hbuf, hnone, pull, Buffered.deliver]
  read s n hn hs := by
    show ∃ c : Chunk α, (s.1.read n).2 = some c ∧ c.1.length ≤ n ∧ s.1.left = c.1 ++ (s.1.read n).1.left
    unfold Buffered.read
    by_cases hbuf : s.1.buf ≠ []
    · rw [if_pos hbuf]
      refine ⟨_, Buffered.deliver_of_ne (take_ne_nil hn hbuf), List.length_take_le n s.1.buf, ?_⟩
      simp only [Buffered.left]
      rw [← List.append_assoc, List.take_append_drop]
    · have hnil := not_not.mp hbuf
      rw [if_neg hbuf]
      obtain ⟨c, cs, hcs⟩ : ∃ c cs, s.1.chunks = c :: cs := by
        refine List.exists_cons_of_ne_nil fun hnone => hs ?_
        show s.1.buf ++ stream s.1.chunks = []
        rw [hnil, hnone]
        rfl
      by_cases hlarge : s.1.size ≤ n
      · rw [if_pos hlarge]
        have hne : (pull n s.1.chunks).1 ≠ [] := hcs ▸ pull_ne_nil hn c cs
        refine ⟨_, Buffered.deliver_of_ne hne, length_pull_le n s.1.chunks, ?_⟩
        simp only [Buffered.left, hnil, List.nil_append, pull_append]
      · rw [if_neg hlarge]
        have hne : s.1.fill.buf ≠ [] := by
          have hsize : 0 < s.1.size := Nat.lt_of_lt_of_le (by decide) s.2
          have hlt := Buffered.length_fill (s := s.1) (by rw [hnil]; exact hsize) (by rw [hcs]; simp)
          exact List.length_pos_iff.mp (Nat.lt_of_le_of_lt (Nat.zero_le _) hlt)
        refine ⟨_, Buffered.deliver_of_ne (take_ne_nil hn hne), List.length_take_le n _, ?_⟩
        rw [← Buffered.left_fill]
        simp only [Buffered.left]
        rw [← List.append_assoc, List.take_append_drop]

end KmipGo.Lib
