import KmipGo.Lib.BigEndian

/-! # UTF-8

The runes of a byte string, as Go's `utf8` package decodes them.
-/

namespace KmipGo.Lib

def runeError : Nat := 0xFFFD

def contByte (b : UInt8) : Bool := decide (0x80 ≤ b.toNat ∧ b.toNat ≤ 0xBF)

/-- `utf8.DecodeRune` on a nonempty string: the first rune and its width.  A byte that starts no
    valid sequence is an error rune of width 1. -/
def decodeRune (b0 : UInt8) (rest : Bytes) : Nat × Nat :=
  if b0.toNat < 0x80 then (b0.toNat, 1)
  else match rest with
    | b1 :: rest1 =>
      if 0xC2 ≤ b0.toNat ∧ b0.toNat ≤ 0xDF then
        if contByte b1 then ((b0.toNat - 0xC0) * 64 + (b1.toNat - 0x80), 2) else (runeError, 1)
      else match rest1 with
        | b2 :: rest2 =>
          if 0xE0 ≤ b0.toNat ∧ b0.toNat ≤ 0xEF then
            if contByte b1 && contByte b2 && !(b0.toNat == 0xE0 && decide (b1.toNat < 0xA0)) &&
                !(b0.toNat == 0xED && decide (0x9F < b1.toNat)) then
              ((b0.toNat - 0xE0) * 4096 + (b1.toNat - 0x80) * 64 + (b2.toNat - 0x80), 3)
            else (runeError, 1)
          else match rest2 with
            | b3 :: _ =>
              if decide (0xF0 ≤ b0.toNat ∧ b0.toNat ≤ 0xF4) && contByte b1 && contByte b2 &&
                  contByte b3 && !(b0.toNat == 0xF0 && decide (b1.toNat < 0x90)) &&
                  !(b0.toNat == 0xF4 && decide (0x8F < b1.toNat)) then
                ((b0.toNat - 0xF0) * 262144 + (b1.toNat - 0x80) * 4096 + (b2.toNat - 0x80) * 64 +
                  (b3.toNat - 0x80), 4)
              else (runeError, 1)
            | [] => (runeError, 1)
        | [] => (runeError, 1)
    | [] => (runeError, 1)

/-- The runes of a string, as a range loop over it visits them. -/
def runes : Bytes → List Nat
  | [] => []
  | b :: rest => (decodeRune b rest).1 :: runes (rest.drop ((decodeRune b rest).2 - 1))
termination_by s => s.length
decreasing_by
  simp only [List.length_drop, List.length_cons]
  omega

/-- `utf8.Valid`: no byte starts an invalid sequence. -/
def validUTF8 : Bytes → Bool
  | [] => true
  | b :: rest =>
    decodeRune b rest != (runeError, 1) && validUTF8 (rest.drop ((decodeRune b rest).2 - 1))
termination_by s => s.length
decreasing_by
  simp only [List.length_drop, List.length_cons]
  omega

theorem decodeRune_of_ascii {b : UInt8} (h : b.toNat < 0x80) (rest : Bytes) :
    decodeRune b rest = (b.toNat, 1) := by
  unfold decodeRune
  rw [if_pos h]

theorem validUTF8_of_ascii {s : Bytes} (h : ∀ b ∈ s, b.toNat < 0x80) : validUTF8 s = true := by
  induction s with
  | nil => rw [validUTF8]
  | cons b rest ih =>
    have hb := h b (List.mem_cons_self ..)
    rw [validUTF8, decodeRune_of_ascii hb, Nat.sub_self, List.drop_zero, ih (fun c hc => h c (List.mem_cons_of_mem _ hc)),
      Bool.and_true, bne_iff_ne]
    intro heq
    have hrune : b.toNat = runeError := congrArg Prod.fst heq
    rw [hrune] at hb
    exact absurd hb (by decide)

/-! ## ASCII runes -/

theorem runes_of_ascii {s : Bytes} (h : ∀ b ∈ s, b.toNat < 0x80) : runes s = s.map UInt8.toNat := by
  induction s with
  | nil => rw [runes, List.map_nil]
  | cons b rest ih =>
    have hb := h b (List.mem_cons_self ..)
    rw [runes, decodeRune_of_ascii hb, Nat.sub_self, List.drop_zero,
      ih (fun c hc => h c (List.mem_cons_of_mem _ hc)), List.map_cons]

theorem contByte_ge {b : UInt8} (h : contByte b = true) : 0x80 ≤ b.toNat :=
  (of_decide_eq_true h).1

/-- A byte outside of ASCII starts no ASCII rune, nor a sequence with an ASCII byte in it. -/
theorem decodeRune_of_ge {b : UInt8} (h : 0x80 ≤ b.toNat) (rest : Bytes) :
    0x80 ≤ (decodeRune b rest).1 ∧ ∀ c ∈ rest.take ((decodeRune b rest).2 - 1), 0x80 ≤ c.toNat := by
  have herror : 0x80 ≤ ((runeError, 1) : Nat × Nat).1 ∧
      ∀ c ∈ rest.take (((runeError, 1) : Nat × Nat).2 - 1), 0x80 ≤ c.toNat :=
    ⟨by decide, nofun⟩
  unfold decodeRune
  rw [if_neg (by omega)]
  split
  · rename_i b1 rest1
    split
    · split
      · rename_i hlead hcont
        have h1 := contByte_ge hcont
        refine ⟨by dsimp only; omega, ?_⟩
        simpa using h1
      · exact herror
    · split
      · rename_i b2 rest2
        split
        · split
          · rename_i hlead hcond
            simp only [Bool.and_eq_true, Bool.not_eq_true', Bool.and_eq_false_iff, beq_eq_false_iff_ne,
              decide_eq_false_iff_not] at hcond
            obtain ⟨⟨⟨hcont1, hcont2⟩, hlow⟩, -⟩ := hcond
            have h1 := contByte_ge hcont1
            have h2 := contByte_ge hcont2
            refine ⟨by dsimp only; omega, ?_⟩
            simpa using ⟨h1, h2⟩
          · exact herror
        · split
          · rename_i b3 rest3
            split
            · rename_i hcond
              simp only [Bool.and_eq_true, Bool.not_eq_true', Bool.and_eq_false_iff, beq_eq_false_iff_ne,
                decide_eq_false_iff_not, decide_eq_true_eq] at hcond
              obtain ⟨⟨⟨⟨⟨hlead, hcont1⟩, hcont2⟩, hcont3⟩, hlow⟩, -⟩ := hcond
              have h1 := contByte_ge hcont1
              have h2 := contByte_ge hcont2
              have h3 := contByte_ge hcont3
              refine ⟨by dsimp only; omega, ?_⟩
              simpa using ⟨h1, h2, h3⟩
            · exact herror
          · exact herror
      · exact herror
  · exact herror

/-- A filter that keeps ASCII runes only is a filter of the bytes, on any byte string. -/
theorem filter_runes {p : Nat → Bool} (hp : ∀ r, p r = true → r < 0x80) (s : Bytes) :
    (runes s).filter p = (s.filter fun b => p b.toNat).map UInt8.toNat := by
  have hdrop : ∀ bs : Bytes, (∀ b ∈ bs, 0x80 ≤ b.toNat) → (bs.filter fun b => p b.toNat) = [] := by
    intro bs hbs
    rw [List.filter_eq_nil_iff]
    intro b hb hkept
    have := hp _ hkept
    have := hbs b hb
    omega
  induction s using runes.induct with
  | case1 => rw [runes, List.filter_nil, List.filter_nil, List.map_nil]
  | case2 b rest ih =>
    rw [runes, List.filter_cons, List.filter_cons]
    by_cases hb : b.toNat < 0x80
    · rw [decodeRune_of_ascii hb] at ih ⊢
      rw [Nat.sub_self, List.drop_zero] at ih ⊢
      rw [ih]
      split <;> rfl
    · obtain ⟨hrune, hskipped⟩ := decodeRune_of_ge (Nat.le_of_not_lt hb) rest
      have hrune' : ¬ p (decodeRune b rest).1 = true := fun hkept => by
        have := hp _ hkept
        omega
      have hbyte : ¬ p b.toNat = true := fun hkept => hb (hp _ hkept)
      rw [if_neg hrune', if_neg hbyte, ih]
      -- the bytes of the sequence are filtered out one by one
      conv_rhs => rw [← List.take_append_drop ((decodeRune b rest).2 - 1) rest]
      rw [List.filter_append, hdrop _ hskipped, List.nil_append]

end KmipGo.Lib
