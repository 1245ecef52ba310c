import Mathlib.Data.List.Basic
import Mathlib.Data.List.Induction
import Mathlib.Data.Int.Init
import Mathlib.Tactic.Ring
import Mathlib.Tactic.NormNum
import Mathlib.Tactic.Linarith
import Mathlib.Tactic.Positivity
import Mathlib.Tactic.Zify
import Mathlib.Tactic.GCongr

/-! # Big-endian byte strings

Fixed-width big-endian numerals and their two's complement reading, over plain
lists of bytes.

* `beNat` / `beBytes` — the number a byte string denotes, and its digits at a
  given width; inverse to each other (`beNat_beBytes`, `beBytes_beNat`).
* `twosValue` / `twosBytes` — the same for signed numbers, with `FitsTwos w i`
  the range a width can hold.
* `padTo8` — how many bytes are missing up to the next multiple of eight.
-/

namespace KmipGo.Lib

abbrev Bytes := List UInt8

/-! ## Unsigned numerals -/

/-- The number denoted by a big-endian byte string. -/
def beNat (bs : Bytes) : Nat :=
  bs.foldl (fun acc b => acc * 256 + b.toNat) 0

/-- The `w` low-order big-endian digits of `n`. -/
def beBytes : Nat → Nat → Bytes
  | 0, _ => []
  | w + 1, n => beBytes w (n / 256) ++ [UInt8.ofNat n]

@[simp] theorem beNat_nil : beNat [] = 0 := rfl

@[simp] theorem beNat_snoc (bs : Bytes) (b : UInt8) :
    beNat (bs ++ [b]) = beNat bs * 256 + b.toNat := by
  simp [beNat]

private theorem foldl_be_acc (bs : Bytes) (acc : Nat) :
    bs.foldl (fun acc b => acc * 256 + b.toNat) acc = acc * 256 ^ bs.length + beNat bs := by
  induction bs using List.reverseRecOn with
  | nil => simp
  | append_singleton bs b ih =>
    rw [List.foldl_append, ih, beNat_snoc]
    simp only [List.foldl_cons, List.foldl_nil, List.length_append, List.length_singleton, pow_succ]
    ring

theorem beNat_cons (b : UInt8) (bs : Bytes) :
    beNat (b :: bs) = b.toNat * 256 ^ bs.length + beNat bs := by
  have h := foldl_be_acc bs b.toNat
  simpa [beNat] using h

theorem beNat_append (xs ys : Bytes) :
    beNat (xs ++ ys) = beNat xs * 256 ^ ys.length + beNat ys := by
  have h := foldl_be_acc ys (beNat xs)
  simpa [beNat] using h

@[simp] theorem length_beBytes (w n : Nat) : (beBytes w n).length = w := by
  induction w generalizing n with
  | zero => rfl
  | succ w ih => simp [beBytes, ih]

theorem beNat_lt (bs : Bytes) : beNat bs < 256 ^ bs.length := by
  induction bs using List.reverseRecOn with
  | nil => simp
  | append_singleton bs b ih =>
    have hb : b.toNat < 256 := b.toNat_lt
    simp only [beNat_snoc, List.length_append, List.length_singleton, pow_succ]
    omega

theorem beNat_beBytes (w n : Nat) : beNat (beBytes w n) = n % 256 ^ w := by
  induction w generalizing n with
  | zero => simp [beBytes, Nat.mod_one]
  | succ w ih =>
    have hdigit : (UInt8.ofNat n).toNat = n % 256 := by simp
    rw [beBytes, beNat_snoc, ih, hdigit, pow_succ, Nat.mul_comm (256 ^ w) 256, Nat.mod_mul]
    ring

theorem beNat_beBytes_of_lt {w n : Nat} (h : n < 256 ^ w) : beNat (beBytes w n) = n := by
  rw [beNat_beBytes, Nat.mod_eq_of_lt h]

theorem beBytes_beNat (bs : Bytes) : beBytes bs.length (beNat bs) = bs := by
  induction bs using List.reverseRecOn with
  | nil => rfl
  | append_singleton bs b ih =>
    have hb : b.toNat < 256 := b.toNat_lt
    have hquot : (beNat bs * 256 + b.toNat) / 256 = beNat bs := by omega
    have hlast : UInt8.ofNat (beNat bs * 256 + b.toNat) = b := by
      apply UInt8.toNat_inj.mp
      simp
    simp only [List.length_append, List.length_singleton, beBytes, beNat_snoc, hquot, ih, hlast]

/-- A byte string is determined by its length and its value. -/
theorem beNat_inj {xs ys : Bytes} (hlen : xs.length = ys.length) (hval : beNat xs = beNat ys) :
    xs = ys := by
  rw [← beBytes_beNat xs, ← beBytes_beNat ys, hlen, hval]

theorem beNat_replicate_zero (n : Nat) : beNat (List.replicate n 0) = 0 := by
  induction n with
  | zero => rfl
  | succ n ih => simp [List.replicate_succ, beNat_cons, ih]

/-- Without its leading zeros a numeral has as many bytes as the number needs. -/
theorem length_dropWhile_zero_le_iff (bs : Bytes) (w : Nat) :
    (bs.dropWhile (· == 0)).length ≤ w ↔ beNat bs < 256 ^ w := by
  induction bs with
  | nil => exact iff_of_true (Nat.zero_le w) (Nat.pos_of_neZero _)
  | cons b bs ih =>
    by_cases hb : b = 0
    · rw [hb, List.dropWhile_cons_of_pos rfl, ih, beNat_cons]
      simp
    · rw [List.dropWhile_cons_of_neg (by simpa using hb)]
      constructor
      · intro hle
        exact (beNat_lt (b :: bs)).trans_le (Nat.pow_le_pow_right (by omega) hle)
      · intro hlt
        by_contra hgt
        have hpos : 1 ≤ b.toNat := by
          have hne : b.toNat ≠ 0 := fun h0 => hb (UInt8.toNat_inj.mp h0)
          omega
        have hpow : 256 ^ w ≤ 256 ^ bs.length :=
          Nat.pow_le_pow_right (by omega) (by rw [List.length_cons] at hgt; omega)
        have hhead : 256 ^ bs.length ≤ beNat (b :: bs) := by
          rw [beNat_cons]
          exact (Nat.le_mul_of_pos_left _ hpos).trans (Nat.le_add_right _ _)
        omega

/-- The first `w` bytes are the number without the places of the others. -/
theorem beNat_take (bs : Bytes) (w : Nat) : beNat (bs.take w) = beNat bs / 256 ^ (bs.length - w) := by
  have hsplit := beNat_append (bs.take w) (bs.drop w)
  have hlt := beNat_lt (bs.drop w)
  rw [List.take_append_drop, List.length_drop] at hsplit
  rw [List.length_drop] at hlt
  rw [hsplit, Nat.add_comm, Nat.add_mul_div_right _ _ (Nat.pos_of_neZero _),
    Nat.div_eq_of_lt hlt, Nat.zero_add]

/-! ## Shortest numerals -/

/-- The number of bits of `n`, 0 for 0. -/
def bitLen (n : Nat) : Nat := if n = 0 then 0 else n.log2 + 1

/-- The big-endian digits of `n` without leading zeros; none at all for 0. -/
def natBytes (n : Nat) : Bytes := beBytes ((bitLen n + 7) / 8) n

theorem lt_two_pow_bitLen (n : Nat) : n < 2 ^ bitLen n := by
  rw [bitLen]
  split
  · simp [*]
  · exact Nat.lt_log2_self

theorem two_pow_le_of_bitLen {n : Nat} (hn : n ≠ 0) : 2 ^ bitLen n ≤ 2 * n := by
  have hle := Nat.log2_self_le hn
  rw [bitLen, if_neg hn, pow_succ]
  omega

theorem pow_256 (w : Nat) : 256 ^ w = 2 ^ (8 * w) := by
  rw [pow_mul]
  norm_num

theorem length_natBytes (n : Nat) : (natBytes n).length = (bitLen n + 7) / 8 :=
  length_beBytes _ _

theorem lt_pow_length_natBytes (n : Nat) : n < 256 ^ (natBytes n).length := by
  have hpow : 2 ^ bitLen n ≤ 2 ^ (8 * ((bitLen n + 7) / 8)) :=
    Nat.pow_le_pow_right (by norm_num) (by omega)
  rw [length_natBytes, pow_256]
  exact (lt_two_pow_bitLen n).trans_le hpow

theorem beNat_natBytes (n : Nat) : beNat (natBytes n) = n := by
  have hlt := lt_pow_length_natBytes n
  rw [length_natBytes] at hlt
  exact beNat_beBytes_of_lt hlt

/-- No shorter numeral holds `n`. -/
theorem pow_le_of_lt_length_natBytes {n w : Nat} (hw : w < (natBytes n).length) : 256 ^ w ≤ n := by
  rw [length_natBytes] at hw
  have hn : n ≠ 0 := by
    rintro rfl
    simp [bitLen] at hw
  have hbits := two_pow_le_of_bitLen hn
  have hpow : 2 ^ (8 * w + 1) ≤ 2 ^ bitLen n := Nat.pow_le_pow_right (by norm_num) (by omega)
  rw [pow_256]
  rw [pow_succ] at hpow
  omega

/-! ## Padding -/

/-- Bytes missing from `n` up to the next multiple of eight. -/
def padTo8 (n : Nat) : Nat := (8 - n % 8) % 8

theorem padTo8_add_dvd (n : Nat) : 8 ∣ n + padTo8 n := by
  unfold padTo8; omega

theorem padTo8_eq_zero {n : Nat} (h : 8 ∣ n) : padTo8 n = 0 := by
  unfold padTo8; omega

/-! ## Two's complement -/

/-- The most significant bit of the first byte. -/
def signBit : Bytes → Bool
  | [] => false
  | b :: _ => decide (128 ≤ b.toNat)

/-- The two's complement number denoted by a big-endian byte string. -/
def twosValue (bs : Bytes) : Int :=
  if signBit bs then (beNat bs : Int) - 256 ^ bs.length else beNat bs

/-- `i` is in the range of `w`-byte two's complement. -/
def FitsTwos (w : Nat) (i : Int) : Prop :=
  -(256 ^ w : Int) ≤ 2 * i ∧ 2 * i < 256 ^ w

instance (w : Nat) (i : Int) : Decidable (FitsTwos w i) :=
  inferInstanceAs (Decidable (_ ∧ _))

/-- `i` written in `w` bytes of two's complement. -/
def twosBytes (w : Nat) (i : Int) : Bytes :=
  beBytes w (i % 256 ^ w).toNat

@[simp] theorem length_twosBytes (w : Nat) (i : Int) : (twosBytes w i).length = w := by
  simp [twosBytes]

/-- The sign bit splits the unsigned range in half. -/
theorem signBit_iff {bs : Bytes} (hne : bs ≠ []) :
    signBit bs = true ↔ 256 ^ bs.length ≤ 2 * beNat bs := by
  cases bs with
  | nil => exact absurd rfl hne
  | cons b bs =>
    have hrest := beNat_lt bs
    have hb : b.toNat < 256 := b.toNat_lt
    rw [signBit, beNat_cons, List.length_cons, pow_succ]
    generalize 256 ^ bs.length = p at *
    simp only [decide_eq_true_eq]
    constructor
    · intro h
      nlinarith
    · intro h
      by_contra hlt
      have : b.toNat ≤ 127 := by omega
      nlinarith

theorem fitsTwos_twosValue {bs : Bytes} (hne : bs ≠ []) : FitsTwos bs.length (twosValue bs) := by
  have hlt := beNat_lt bs
  have hsign := signBit_iff hne
  unfold FitsTwos twosValue
  zify at hlt hsign
  split
  · rename_i hneg
    have := hsign.mp hneg
    constructor <;> linarith
  · rename_i hpos
    have : ¬ (256 : Int) ^ bs.length ≤ 2 * (beNat bs : Int) := fun h => hpos (hsign.mpr h)
    constructor
    · have : (0 : Int) ≤ beNat bs := Int.natCast_nonneg _
      linarith [pow_nonneg (show (0 : Int) ≤ 256 by norm_num) bs.length]
    · linarith

theorem twosValue_emod (bs : Bytes) : twosValue bs % 256 ^ bs.length = beNat bs := by
  have hlt := beNat_lt bs
  have hmod : ((beNat bs : Int)) % 256 ^ bs.length = beNat bs := by
    apply Int.emod_eq_of_lt (Int.natCast_nonneg _)
    exact_mod_cast hlt
  unfold twosValue
  split
  · rw [Int.sub_emod_right, hmod]
  · exact hmod

/-- Writing the value of a byte string at its own width gives the byte string back. -/
theorem twosBytes_twosValue (bs : Bytes) : twosBytes bs.length (twosValue bs) = bs := by
  rw [twosBytes, twosValue_emod, Int.toNat_natCast, beBytes_beNat]

/-- A number in range is read back from its two's complement bytes. -/
theorem twosValue_twosBytes {w : Nat} {i : Int} (hw : 0 < w) (h : FitsTwos w i) :
    twosValue (twosBytes w i) = i := by
  have hpos : (0 : Int) < 256 ^ w := by positivity
  have hnonneg := Int.emod_nonneg i hpos.ne'
  have hlt := Int.emod_lt_of_pos i hpos
  have hval : (beNat (twosBytes w i) : Int) = i % 256 ^ w := by
    rw [twosBytes, beNat_beBytes_of_lt]
    · exact Int.toNat_of_nonneg hnonneg
    · zify
      rw [Int.toNat_of_nonneg hnonneg]
      exact hlt
  have hne : twosBytes w i ≠ [] := by
    intro hnil
    have := length_twosBytes w i
    simp [hnil] at this
    omega
  have hsign := signBit_iff hne
  zify at hsign
  rw [length_twosBytes, hval] at hsign
  obtain ⟨hlo, hhi⟩ := h
  -- the residue of `i` is `i` itself when it is non-negative, and one period up otherwise
  rcases lt_or_ge i 0 with hneg | hge
  · have hres : i % 256 ^ w = i + 256 ^ w := by
      rw [← Int.add_emod_right, Int.emod_eq_of_lt] <;> linarith
    have hs : signBit (twosBytes w i) = true := hsign.mpr (by linarith)
    rw [twosValue, if_pos hs, hval, length_twosBytes, hres]
    ring
  · have hres : i % 256 ^ w = i := Int.emod_eq_of_lt hge (by linarith)
    have hs : ¬ signBit (twosBytes w i) = true := fun hs => by
      have := hsign.mp hs
      linarith
    rw [twosValue, if_neg hs, hval, hres]

theorem twosValue_inj {xs ys : Bytes} (hlen : xs.length = ys.length)
    (hval : twosValue xs = twosValue ys) : xs = ys := by
  rw [← twosBytes_twosValue xs, ← twosBytes_twosValue ys, hlen, hval]

theorem FitsTwos.mono {v w : Nat} {i : Int} (h : FitsTwos v i) (hvw : v ≤ w) : FitsTwos w i := by
  have hpow : (256 : Int) ^ v ≤ 256 ^ w := by gcongr; norm_num
  obtain ⟨hlo, hhi⟩ := h
  constructor <;> linarith

/-! ### Redundant sign bytes -/

theorem twosValue_zero_cons {b : UInt8} {bs : Bytes} (hb : b.toNat < 128) :
    twosValue (0 :: b :: bs) = twosValue (b :: bs) := by
  have hleft : signBit (0 :: b :: bs) = false := rfl
  have hright : signBit (b :: bs) = false := by simp [signBit]; omega
  simp [twosValue, hleft, hright, beNat_cons]

theorem twosValue_ones_cons {b : UInt8} {bs : Bytes} (hb : 128 ≤ b.toNat) :
    twosValue (255 :: b :: bs) = twosValue (b :: bs) := by
  have hleft : signBit (255 :: b :: bs) = true := rfl
  have hright : signBit (b :: bs) = true := by simp [signBit]; omega
  have h255 : (255 : UInt8).toNat = 255 := rfl
  simp only [twosValue, hleft, hright, if_true]
  rw [beNat_cons 255, h255]
  push_cast [List.length_cons, pow_succ]
  ring

/-- Bytes in front of a number change nothing, if one of them does not and they agree with its sign. -/
theorem twosValue_replicate {f : UInt8} {bs : Bytes} (hf : signBit [f] = signBit bs)
    (hcons : ∀ b rest, signBit (b :: rest) = signBit bs → twosValue (f :: b :: rest) = twosValue (b :: rest))
    (hne : bs ≠ []) (n : Nat) : twosValue (List.replicate n f ++ bs) = twosValue bs := by
  have hsign : ∀ n, signBit (List.replicate n f ++ bs) = signBit bs := by
    intro n
    cases n with
    | zero => rfl
    | succ n => exact hf
  induction n with
  | zero => rfl
  | succ n ih =>
    obtain ⟨b, rest, hb⟩ := List.exists_cons_of_ne_nil
      (show List.replicate n f ++ bs ≠ [] by simp [hne])
    have hb' := hsign n
    rw [hb] at hb'
    rw [List.replicate_succ, List.cons_append, hb, hcons b rest hb', ← hb, ih]

/-- Zero bytes in front of a non-negative number change nothing. -/
theorem twosValue_replicate_zero {bs : Bytes} (n : Nat) (hs : signBit bs = false) (hne : bs ≠ []) :
    twosValue (List.replicate n 0 ++ bs) = twosValue bs := by
  refine twosValue_replicate (by rw [hs]; rfl) (fun b rest hb => twosValue_zero_cons ?_) hne n
  rw [hs] at hb
  simpa [signBit] using hb

/-- Ones in front of a negative number change nothing. -/
theorem twosValue_replicate_ones {bs : Bytes} (n : Nat) (hs : signBit bs = true) :
    twosValue (List.replicate n 255 ++ bs) = twosValue bs := by
  have hne : bs ≠ [] := fun h => by simp [h, signBit] at hs
  refine twosValue_replicate (by rw [hs]; rfl) (fun b rest hb => twosValue_ones_cons ?_) hne n
  rw [hs] at hb
  simpa [signBit] using hb

end KmipGo.Lib
