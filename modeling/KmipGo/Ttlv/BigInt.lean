import KmipGo.Lib.BigEndian

/-! # Big integers on the wire

`encodeBigInt`, `unpadBigInt` and `unmarshalBigInt` of the `ttlv` package.  The
encoder writes the magnitude bytes of a positive number and the bytes of
`n + 2^k` for a negative one, strips at most one redundant byte and fills up to
a multiple of eight bytes in front.

* `bigIntValue` — the value bytes the encoder writes.
* `twosValue_bigIntValue` — they denote the number in two's complement.
* `shortest8_bigIntValue` — no shorter multiple of eight bytes does.
* `valueBigInteger_eq` — the reader returns the number a byte string denotes.
* `bigIntValue_unmarshalBigInt` — writing what was read drops redundant sign groups.
-/

namespace KmipGo.Ttlv

open KmipGo.Lib

/-- `b & 0x80 > 0`. -/
def hiBit (b : UInt8) : Bool := decide (b &&& 0x80 > 0)

theorem hiBit_iff (b : UInt8) : hiBit b = true ↔ 128 ≤ b.toNat := by
  have hall : ∀ x : BitVec 8, (0#8 < x &&& 128#8) ↔ 128 ≤ x.toNat := by decide
  have hx := hall b.toBitVec
  rw [hiBit, decide_eq_true_iff]
  exact hx

theorem signBit_cons (b : UInt8) (bs : Bytes) : signBit (b :: bs) = hiBit b := by
  rw [signBit, Bool.eq_iff_iff, decide_eq_true_iff, hiBit_iff]

/-! ## Writing -/

/-- The bytes between the length field and the end of a BigInteger, as `encodeBigInt` writes them. -/
def bigIntValue (i : Int) : Bytes :=
  match i with
  | .ofNat 0 => List.replicate 8 0
  | .ofNat (n + 1) =>
    -- `i.Bytes()`, with a zero in front when it would read as a negative number
    if hiBit ((natBytes (n + 1)).headD 0) then
      0 :: List.replicate (padTo8 ((natBytes (n + 1)).length + 1)) 0 ++ natBytes (n + 1)
    else List.replicate (padTo8 (natBytes (n + 1)).length) 0 ++ natBytes (n + 1)
  | .negSucc n =>
    -- `j.Add(i, j).Bytes()` for `j = 1 << length`, less one sign byte it may have too many
    match natBytes (2 ^ ((bitLen (n + 1) / 8 + 1) * 8) - (n + 1)) with
    | b0 :: b1 :: rest =>
      if b0 == 0xff && hiBit b1 then List.replicate (padTo8 (rest.length + 1)) 0xff ++ b1 :: rest
      else List.replicate (padTo8 (rest.length + 2)) 0xff ++ b0 :: b1 :: rest
    | b => List.replicate (padTo8 b.length) 0xff ++ b

/-- A two's complement numeral of a positive multiple of eight bytes that has no shorter form. -/
structure Shortest8 (d : Bytes) : Prop where
  dvd : 8 ∣ d.length
  pos : 0 < d.length
  least : 8 < d.length → ¬ FitsTwos (d.length - 8) (twosValue d)

instance (d : Bytes) : Decidable (Shortest8 d) :=
  decidable_of_iff (8 ∣ d.length ∧ 0 < d.length ∧ (8 < d.length → ¬ FitsTwos (d.length - 8) (twosValue d)))
    ⟨fun h => ⟨h.1, h.2.1, h.2.2⟩, fun h => ⟨h.dvd, h.pos, h.least⟩⟩

/-- The shortest form of a number is unique. -/
theorem Shortest8.unique {d e : Bytes} (hd : Shortest8 d) (he : Shortest8 e)
    (hval : twosValue d = twosValue e) : d = e := by
  have hfd := fitsTwos_twosValue (List.length_pos_iff.mp hd.pos)
  have hfe := fitsTwos_twosValue (List.length_pos_iff.mp he.pos)
  obtain ⟨a, ha⟩ := hd.dvd
  obtain ⟨c, hc⟩ := he.dvd
  apply twosValue_inj _ hval
  -- of two lengths the smaller one fits, so the larger one is not least
  rcases Nat.lt_trichotomy d.length e.length with hlt | heq | hlt
  · refine absurd ?_ (he.least (by have := hd.pos; omega))
    rw [← hval]
    exact hfd.mono (by omega)
  · exact heq
  · refine absurd ?_ (hd.least (by have := he.pos; omega))
    rw [hval]
    exact hfe.mono (by omega)

theorem padTo8_lt (n : Nat) : padTo8 n < 8 := by
  rw [padTo8]
  omega

/-- Filling a minimal numeral up to a multiple of eight gives the shortest form. -/
theorem shortest8_of_minimal {d : Bytes} {l : Nat} (hl : 0 < l) (hlen : d.length = l + padTo8 l)
    (hmin : ∀ w, w < l → ¬ FitsTwos w (twosValue d)) : Shortest8 d := by
  have hlt := padTo8_lt l
  refine ⟨?_, by omega, fun h8 => hmin _ (by omega)⟩
  rw [hlen]
  exact padTo8_add_dvd l

theorem natBytes_ne_nil {n : Nat} (hn : n ≠ 0) : natBytes n ≠ [] := by
  intro hnil
  have hval := beNat_natBytes n
  rw [hnil, beNat_nil] at hval
  exact hn hval.symm

theorem not_fitsTwos_of_pow_le {w n : Nat} (h : 256 ^ w ≤ 2 * n) : ¬ FitsTwos w (n : Int) := by
  rintro ⟨-, hhi⟩
  have hcast : ((256 ^ w : Nat) : Int) ≤ ((2 * n : Nat) : Int) := by exact_mod_cast h
  push_cast at hcast
  linarith

theorem signBit_false_value {d : Bytes} (h : signBit d = false) : twosValue d = beNat d := by
  rw [twosValue, h]
  rfl

theorem signBit_replicate_zero_append {k : Nat} {b : Bytes} (h : k ≠ 0 ∨ signBit b = false) :
    signBit (List.replicate k 0 ++ b) = false := by
  cases k with
  | zero => simpa using h
  | succ k => rfl

section Positive

variable (n : Nat)

theorem bigIntValue_pos : ∃ k l, bigIntValue (.ofNat (n + 1)) = List.replicate k 0 ++ natBytes (n + 1) ∧
    signBit (List.replicate k 0 ++ natBytes (n + 1)) = false ∧ 0 < l ∧
    k + (natBytes (n + 1)).length = l + padTo8 l ∧ ∀ w, w < l → 256 ^ w ≤ 2 * (n + 1) := by
  obtain ⟨b, rest, hb⟩ := List.exists_cons_of_ne_nil (natBytes_ne_nil n.succ_ne_zero)
  have hsign : signBit (natBytes (n + 1)) = hiBit ((natBytes (n + 1)).headD 0) := by
    rw [hb, signBit_cons]
    rfl
  rw [bigIntValue]
  by_cases hhi : hiBit ((natBytes (n + 1)).headD 0) = true
  · refine ⟨padTo8 ((natBytes (n + 1)).length + 1) + 1, (natBytes (n + 1)).length + 1, ?_, ?_,
      by omega, by omega, ?_⟩
    · rw [if_pos hhi, List.replicate_succ]
    · exact signBit_replicate_zero_append (Or.inl (by omega))
    · intro w hw
      have hle : 256 ^ (natBytes (n + 1)).length ≤ 2 * beNat (natBytes (n + 1)) :=
        (signBit_iff (natBytes_ne_nil n.succ_ne_zero)).mp (hsign.trans hhi)
      rw [beNat_natBytes] at hle
      exact (Nat.pow_le_pow_right (by norm_num) (by omega)).trans hle
  · rw [Bool.not_eq_true] at hhi
    refine ⟨padTo8 (natBytes (n + 1)).length, (natBytes (n + 1)).length, ?_, ?_, ?_, by omega, ?_⟩
    · rw [if_neg (by simp only [hhi]; decide)]
    · exact signBit_replicate_zero_append (Or.inr (hsign.trans hhi))
    · rw [hb, List.length_cons]
      omega
    · intro w hw
      have hle := pow_le_of_lt_length_natBytes hw
      omega

theorem twosValue_bigIntValue_pos : twosValue (bigIntValue (.ofNat (n + 1))) = (n + 1 : Nat) := by
  obtain ⟨k, l, hval, hsign, -, -, -⟩ := bigIntValue_pos n
  rw [hval, signBit_false_value hsign, beNat_append, beNat_replicate_zero, beNat_natBytes]
  simp

theorem shortest8_bigIntValue_pos : Shortest8 (bigIntValue (.ofNat (n + 1))) := by
  obtain ⟨k, l, hval, -, hl, hlen, hmin⟩ := bigIntValue_pos n
  refine shortest8_of_minimal hl ?_ (fun w hw => ?_)
  · rw [hval, List.length_append, List.length_replicate]
    exact hlen
  · rw [twosValue_bigIntValue_pos]
    exact not_fitsTwos_of_pow_le (hmin w hw)

end Positive

section Negative

variable (n : Nat)

/-- The bytes of `n + 2^k` for a negative number: its two's complement form, with the bounds that
    say how far from minimal it can be. -/
theorem natBytes_neg : ∃ w, 0 < w ∧ natBytes (2 ^ ((bitLen (n + 1) / 8 + 1) * 8) - (n + 1)) =
      twosBytes w (.negSucc n) ∧ FitsTwos w (.negSucc n) ∧
    ∀ v, v + 1 < w → ¬ FitsTwos v (.negSucc n) := by
  obtain ⟨w, hw⟩ : ∃ w, bitLen (n + 1) / 8 + 1 = w := ⟨_, rfl⟩
  have hlt := lt_two_pow_bitLen (n + 1)
  have hge := two_pow_le_of_bitLen (show n + 1 ≠ 0 by omega)
  have hhalf : 2 * 2 ^ bitLen (n + 1) ≤ 256 ^ w := by
    rw [pow_256, ← pow_succ']
    exact Nat.pow_le_pow_right (by norm_num) (by omega)
  have hj : 2 ^ (w * 8) = 256 ^ w := by rw [pow_256, Nat.mul_comm]
  have hneg : (Int.negSucc n) = -((n + 1 : Nat) : Int) := rfl
  have hmod : ((Int.negSucc n) % 256 ^ w).toNat = 256 ^ w - (n + 1) := by
    have hcast : (((256 ^ w : Nat)) : Int) = 256 ^ w := by push_cast; rfl
    rw [hneg, ← Int.add_emod_right, ← hcast, Int.emod_eq_of_lt] <;> omega
  refine ⟨w, by omega, ?_, ?_, ?_⟩
  · rw [hw, hj]
    have hlen : (natBytes (256 ^ w - (n + 1))).length = w := by
      have hup := lt_pow_length_natBytes (256 ^ w - (n + 1))
      by_contra hne
      rcases Nat.lt_or_gt_of_ne hne with hshort | hlong
      · have : 256 ^ (natBytes (256 ^ w - (n + 1))).length * 256 ≤ 256 ^ w := by
          rw [← pow_succ]
          exact Nat.pow_le_pow_right (by norm_num) hshort
        omega
      · have := pow_le_of_lt_length_natBytes hlong
        omega
    apply beNat_inj
    · rw [hlen, length_twosBytes]
    · rw [beNat_natBytes, twosBytes, hmod, beNat_beBytes_of_lt (by omega)]
  · rw [FitsTwos, hneg]
    have hcast : (((256 ^ w : Nat)) : Int) = 256 ^ w := by push_cast; rfl
    rw [← hcast]
    omega
  · rintro v hv ⟨hlo, -⟩
    have hpow : 256 ^ v * 256 ≤ 2 ^ bitLen (n + 1) := by
      rw [← pow_succ, pow_256]
      exact Nat.pow_le_pow_right (by norm_num) (by omega)
    have hcast : (((256 ^ v : Nat)) : Int) = 256 ^ v := by push_cast; rfl
    have hpos : 0 < 256 ^ v := by positivity
    rw [hneg, ← hcast] at hlo
    omega

theorem signBit_of_neg {d : Bytes} (h : twosValue d < 0) : signBit d = true := by
  by_contra hs
  rw [Bool.not_eq_true] at hs
  rw [signBit_false_value hs] at h
  omega

/-- A negative number that fits in one byte less starts with a redundant sign byte. -/
theorem twosBytes_succ_of_fits {v : Nat} (hv : 0 < v) (h : FitsTwos v (.negSucc n)) :
    twosBytes (v + 1) (.negSucc n) = 0xff :: twosBytes v (.negSucc n) ∧
      signBit (twosBytes v (.negSucc n)) = true := by
  have hval := twosValue_twosBytes hv h
  have hsign : signBit (twosBytes v (.negSucc n)) = true := by
    apply signBit_of_neg
    rw [hval]
    exact Int.negSucc_lt_zero n
  refine ⟨?_, hsign⟩
  have hones := twosValue_replicate_ones 1 hsign
  apply twosValue_inj
  · simp
  · rw [twosValue_twosBytes (by omega) (h.mono (by omega))]
    exact (hones.trans hval).symm

theorem bigIntValue_neg : ∃ l, 0 < l ∧ FitsTwos l (.negSucc n) ∧
    bigIntValue (.negSucc n) =
      List.replicate (padTo8 l) 0xff ++ twosBytes l (.negSucc n) ∧
    ∀ w, w < l → ¬ FitsTwos w (.negSucc n) := by
  obtain ⟨w, hw, hbytes, hfits, hmin⟩ := natBytes_neg n
  have hzero : ¬ FitsTwos 0 (.negSucc n) := by
    rintro ⟨hlo, -⟩
    have := Int.negSucc_lt_zero n
    omega
  rw [bigIntValue, hbytes]
  have hlen := length_twosBytes w (.negSucc n)
  -- the three shapes the encoder distinguishes: one byte, a redundant sign byte, none
  split
  · rename_i b0 b1 rest heq
    rw [heq, List.length_cons, List.length_cons] at hlen
    by_cases hff : (b0 == 0xff && hiBit b1) = true
    · rw [if_pos hff]
      rw [Bool.and_eq_true, beq_iff_eq] at hff
      have hsign : signBit (b1 :: rest) = true := by rw [signBit_cons]; exact hff.2
      have hval : twosValue (b1 :: rest) = .negSucc n := by
        rw [← twosValue_twosBytes hw hfits, heq, hff.1]
        exact (twosValue_ones_cons ((hiBit_iff b1).mp hff.2)).symm
      refine ⟨rest.length + 1, by omega, ?_, ?_, ?_⟩
      · rw [← hval]
        exact fitsTwos_twosValue (List.cons_ne_nil _ _)
      · rw [← hval]
        exact congrArg _ (twosBytes_twosValue (b1 :: rest)).symm
      · intro v hv
        exact hmin v (by omega)
    · rw [if_neg hff]
      refine ⟨w, hw, hfits, ?_, fun v hv hfit => ?_⟩
      · rw [heq, ← hlen]
      · rcases Nat.lt_or_ge (v + 1) w with hlt | hge
        · exact hmin v hlt hfit
        · have hvw : v + 1 = w := by omega
          have hv0 : 0 < v := by omega
          obtain ⟨hcons, hsign⟩ := twosBytes_succ_of_fits n hv0 hfit
          rw [hvw, heq] at hcons
          apply hff
          rw [← (List.cons.inj hcons).2, signBit_cons] at hsign
          rw [(List.cons.inj hcons).1, hsign]
          rfl
  · rename_i hshape
    have hone : w = 1 := by
      cases hb : twosBytes w (.negSucc n) with
      | nil => rw [hb] at hlen; simp at hlen; omega
      | cons b0 tail =>
        cases tail with
        | nil => rw [hb] at hlen; simpa using hlen.symm
        | cons b1 rest => exact absurd hb (hshape b0 b1 rest)
    refine ⟨w, hw, hfits, by rw [hlen], fun v hv => ?_⟩
    have hv0 : v = 0 := by omega
    rw [hv0]
    exact hzero

theorem twosValue_bigIntValue_neg : twosValue (bigIntValue (.negSucc n)) = .negSucc n := by
  obtain ⟨l, hl, hfits, hval, -⟩ := bigIntValue_neg n
  have htwos := twosValue_twosBytes hl hfits
  have hsign : signBit (twosBytes l (.negSucc n)) = true := by
    apply signBit_of_neg
    rw [htwos]
    exact Int.negSucc_lt_zero n
  rw [hval, twosValue_replicate_ones _ hsign, htwos]

theorem shortest8_bigIntValue_neg : Shortest8 (bigIntValue (.negSucc n)) := by
  obtain ⟨l, hl, -, hval, hmin⟩ := bigIntValue_neg n
  refine shortest8_of_minimal hl ?_ (fun w hw => ?_)
  · rw [hval, List.length_append, List.length_replicate, length_twosBytes, Nat.add_comm]
  · rw [twosValue_bigIntValue_neg]
    exact hmin w hw

end Negative

theorem twosValue_bigIntValue (i : Int) : twosValue (bigIntValue i) = i := by
  match i with
  | .ofNat 0 => rfl
  | .ofNat (n + 1) => exact twosValue_bigIntValue_pos n
  | .negSucc n => exact twosValue_bigIntValue_neg n

theorem shortest8_bigIntValue (i : Int) : Shortest8 (bigIntValue i) := by
  match i with
  | .ofNat 0 => exact ⟨⟨1, rfl⟩, by decide, fun h => absurd h (by decide)⟩
  | .ofNat (n + 1) => exact shortest8_bigIntValue_pos n
  | .negSucc n => exact shortest8_bigIntValue_neg n

/-- A shortest numeral is what the encoder writes for the number it denotes. -/
theorem bigIntValue_twosValue {d : Bytes} (hd : Shortest8 d) : bigIntValue (twosValue d) = d :=
  (shortest8_bigIntValue _).unique hd (twosValue_bigIntValue _)

/-! ## Reading -/

/-- `unpadBigInt`: drop leading bytes that only repeat the sign of the byte after them. -/
def unpadBigInt : Bytes → Bytes
  | b0 :: b1 :: rest =>
    if b0 == 0xff && decide (b1 &&& 0x80 > 1) then unpadBigInt (b1 :: rest)
    else if b0 == 0x00 && b1 &&& 0x80 == 0 then unpadBigInt (b1 :: rest)
    else b0 :: b1 :: rest
  | d => d

/-- `unmarshalBigInt`. -/
def unmarshalBigInt (data : Bytes) : Int :=
  if hiBit (data.headD 0) then (beNat data : Int) - 2 ^ (data.length * 8) else beNat data

theorem unmarshalBigInt_eq (data : Bytes) : unmarshalBigInt data = twosValue data := by
  have hsign : hiBit (data.headD 0) = signBit data := by
    cases data with
    | nil => rfl
    | cons b bs => exact (signBit_cons b bs).symm
  have hpow : (2 : Int) ^ (data.length * 8) = 256 ^ data.length := by
    rw [Nat.mul_comm, pow_mul]
    norm_num
  rw [unmarshalBigInt, twosValue, hsign, hpow]

theorem padByte_iff (b : UInt8) :
    (decide (b &&& 0x80 > 1) = true ↔ 128 ≤ b.toNat) ∧
      ((b &&& 0x80 == 0) = true ↔ b.toNat < 128) := by
  have hall : ∀ x : BitVec 8, ((1#8 < x &&& 128#8) ↔ 128 ≤ x.toNat) ∧
      (x &&& 128#8 = 0#8 ↔ x.toNat < 128) := by decide
  obtain ⟨hone, hzero⟩ := hall b.toBitVec
  refine ⟨?_, ?_⟩
  · rw [decide_eq_true_iff]
    exact hone
  · rw [beq_iff_eq, ← UInt8.toBitVec_inj]
    exact hzero

theorem twosValue_unpadBigInt (d : Bytes) : twosValue (unpadBigInt d) = twosValue d := by
  fun_induction unpadBigInt d with
  | case1 b0 b1 rest hff ih =>
    rw [Bool.and_eq_true, beq_iff_eq] at hff
    rw [ih, hff.1, twosValue_ones_cons ((padByte_iff b1).1.mp hff.2)]
  | case2 b0 b1 rest _ hzero ih =>
    rw [Bool.and_eq_true, beq_iff_eq] at hzero
    rw [ih, hzero.1, twosValue_zero_cons ((padByte_iff b1).2.mp hzero.2)]
  | case3 b0 b1 rest _ _ => rfl
  | case4 d _ => rfl

/-- The reader drops redundant sign bytes first, which does not change the number. -/
theorem valueBigInteger_eq (d : Bytes) : unmarshalBigInt (unpadBigInt d) = twosValue d := by
  rw [unmarshalBigInt_eq, twosValue_unpadBigInt]

/-! ## Sign groups -/

/-- The numeral starts with eight bytes that only repeat the sign of what follows them. -/
def RedundantGroup (d : Bytes) : Prop :=
  8 < d.length ∧ d.take 8 = List.replicate 8 (if signBit (d.drop 8) then 0xff else 0)

instance (d : Bytes) : Decidable (RedundantGroup d) := inferInstanceAs (Decidable (_ ∧ _))

/-- `d` without its redundant leading groups of eight sign bytes. -/
def stripSignGroups (d : Bytes) : Bytes :=
  if RedundantGroup d then stripSignGroups (d.drop 8) else d
termination_by d.length
decreasing_by
  rename_i h
  have := h.1
  rw [List.length_drop]
  omega

theorem twosValue_replicate_sign {d : Bytes} (n : Nat) (hne : d ≠ []) :
    twosValue (List.replicate n (if signBit d then 0xff else 0) ++ d) = twosValue d := by
  cases hs : signBit d with
  | true => exact twosValue_replicate_ones n hs
  | false => exact twosValue_replicate_zero n hs hne

theorem RedundantGroup.twosValue_drop {d : Bytes} (h : RedundantGroup d) :
    twosValue (d.drop 8) = twosValue d := by
  obtain ⟨hlen, htake⟩ := h
  have hne : d.drop 8 ≠ [] := by
    rw [ne_eq, List.drop_eq_nil_iff]
    omega
  have hd := List.take_append_drop 8 d
  rw [htake] at hd
  rw [← twosValue_replicate_sign 8 hne, hd]

/-- A group is redundant exactly when the number has a form that is eight bytes shorter. -/
theorem redundantGroup_iff {d : Bytes} (hlen : 8 < d.length) :
    RedundantGroup d ↔ FitsTwos (d.length - 8) (twosValue d) := by
  constructor
  · intro h
    have hne : d.drop 8 ≠ [] := by
      rw [ne_eq, List.drop_eq_nil_iff]
      omega
    have hfits := fitsTwos_twosValue hne
    rwa [h.twosValue_drop, List.length_drop] at hfits
  · intro hfits
    -- the shorter form with eight sign bytes in front has the length and the value of `d`
    have hvalue := twosValue_twosBytes (by omega) hfits
    have hshort : (twosBytes (d.length - 8) (twosValue d)).length = d.length - 8 := by simp
    generalize twosBytes (d.length - 8) (twosValue d) = e at hvalue hshort
    have hne : e ≠ [] := List.length_pos_iff.mp (by omega)
    have hd : List.replicate 8 (if signBit e then 0xff else 0) ++ e = d := by
      apply twosValue_inj
      · rw [List.length_append, List.length_replicate, hshort]
        omega
      · rw [twosValue_replicate_sign 8 hne, hvalue]
    have hdrop : d.drop 8 = e := by
      rw [← hd]
      exact List.drop_left' List.length_replicate
    refine ⟨hlen, ?_⟩
    rw [hdrop, ← hd]
    exact List.take_left' List.length_replicate

theorem shortest8_stripSignGroups {d : Bytes} (hdvd : 8 ∣ d.length) (hne : d ≠ []) :
    Shortest8 (stripSignGroups d) ∧ twosValue (stripSignGroups d) = twosValue d := by
  fun_induction stripSignGroups d with
  | case1 d h ih =>
    have hlen := h.1
    have hdrop : 8 ∣ (d.drop 8).length := by
      rw [List.length_drop]
      omega
    have hrest : d.drop 8 ≠ [] := by
      rw [ne_eq, List.drop_eq_nil_iff]
      omega
    obtain ⟨hshort, hvalue⟩ := ih hdrop hrest
    exact ⟨hshort, hvalue.trans h.twosValue_drop⟩
  | case2 d h =>
    have hpos := List.length_pos_iff.mpr hne
    exact ⟨⟨hdvd, hpos, fun hlen hfits => h ((redundantGroup_iff hlen).mpr hfits)⟩, rfl⟩

/-- Writing the number of `d` again drops its redundant groups; the empty numeral becomes eight
    zero bytes. -/
theorem bigIntValue_unmarshalBigInt {d : Bytes} (hdvd : 8 ∣ d.length) :
    bigIntValue (unmarshalBigInt d) = if d = [] then List.replicate 8 0 else stripSignGroups d := by
  by_cases hne : d = []
  · rw [if_pos hne, hne]
    rfl
  · obtain ⟨hshort, hvalue⟩ := shortest8_stripSignGroups hdvd hne
    rw [if_neg hne, unmarshalBigInt_eq, ← hvalue]
    exact bigIntValue_twosValue hshort

/-- No positive multiple of eight bytes below the length written holds the number. -/
theorem length_bigIntValue_le {i : Int} {w : Nat} (hdvd : 8 ∣ w) (hw : 0 < w) (h : FitsTwos w i) :
    (bigIntValue i).length ≤ w := by
  have hshort := shortest8_bigIntValue i
  obtain ⟨a, ha⟩ := hdvd
  obtain ⟨b, hb⟩ := hshort.dvd
  by_contra hlt
  apply hshort.least (by omega)
  rw [twosValue_bigIntValue]
  exact h.mono (by omega)

end KmipGo.Ttlv
