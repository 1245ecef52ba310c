import KmipGo.Lib.BigEndian
import Mathlib.Data.Nat.Digits.Defs

/-! # Text as bytes

Strings are byte strings, as in Go.  Literals, prefixes, splitting, and the
decimal and hexadecimal notations with their readers.
-/

namespace KmipGo.Lib

/-- A literal of ASCII characters. -/
def lit (s : String) : Bytes := s.toList.map fun c => UInt8.ofNat c.toNat

theorem forall_mem_of_all {P : UInt8 → Prop} [DecidablePred P] {s : Bytes}
    (h : (s.all fun b => decide (P b)) = true) : ∀ b ∈ s, P b := by
  intro b hb
  exact of_decide_eq_true (List.all_eq_true.mp h b hb)

/-- `strings.HasPrefix`. -/
def hasPrefix (s p : Bytes) : Bool := p.isPrefixOf s

/-- `strings.Split` at a separator of one byte; never the empty list. -/
def splitAt (sep : UInt8) : Bytes → List Bytes
  | [] => [[]]
  | b :: bs =>
    if b = sep then [] :: splitAt sep bs
    else match splitAt sep bs with
      | [] => [[b]]
      | w :: ws => (b :: w) :: ws

theorem splitAt_ne_nil (sep : UInt8) (s : Bytes) : splitAt sep s ≠ [] := by
  cases s with
  | nil => exact List.cons_ne_nil _ _
  | cons b bs =>
    rw [splitAt]
    split
    · exact List.cons_ne_nil _ _
    · split <;> exact List.cons_ne_nil _ _

theorem splitAt_append_sep (sep : UInt8) (s t : Bytes) :
    splitAt sep (s ++ sep :: t) = splitAt sep s ++ splitAt sep t := by
  induction s with
  | nil => simp [splitAt]
  | cons b bs ih =>
    obtain ⟨w, ws, hw⟩ := List.exists_cons_of_ne_nil (splitAt_ne_nil sep bs)
    simp only [List.cons_append, splitAt, ih, hw]
    split <;> rfl

theorem splitAt_of_notMem {sep : UInt8} {s : Bytes} (h : sep ∉ s) : splitAt sep s = [s] := by
  induction s with
  | nil => rfl
  | cons b bs ih =>
    rw [List.mem_cons, not_or] at h
    rw [splitAt, if_neg (Ne.symm h.1), ih h.2]

/-- `strings.ToLower`, on ASCII. -/
def toLower (s : Bytes) : Bytes :=
  s.map fun b => if 65 ≤ b.toNat ∧ b.toNat ≤ 90 then b + 32 else b

/-! ## Hexadecimal -/

def hexDigit (d : Nat) : UInt8 := UInt8.ofNat (if d < 10 then 48 + d else 87 + d)

/-- The value of a hex digit of either case. -/
def hexVal (b : UInt8) : Option Nat :=
  if 48 ≤ b.toNat ∧ b.toNat ≤ 57 then some (b.toNat - 48)
  else if 97 ≤ b.toNat ∧ b.toNat ≤ 102 then some (b.toNat - 87)
  else if 65 ≤ b.toNat ∧ b.toNat ≤ 70 then some (b.toNat - 55)
  else none

/-- `hex.EncodeToString`. -/
def hexEncode : Bytes → Bytes
  | [] => []
  | b :: bs => hexDigit (b.toNat / 16) :: hexDigit (b.toNat % 16) :: hexEncode bs

/-- `hex.DecodeString`; `none` is an invalid digit or an odd number of digits. -/
def hexDecode : Bytes → Option Bytes
  | [] => some []
  | [_] => none
  | a :: b :: rest =>
    match hexVal a, hexVal b, hexDecode rest with
    | some x, some y, some bs => some (UInt8.ofNat (16 * x + y) :: bs)
    | _, _, _ => none

/-- A hex digit of either case. -/
def IsHex (b : UInt8) : Prop := (hexVal b).isSome = true

instance (b : UInt8) : Decidable (IsHex b) := inferInstanceAs (Decidable (_ = true))

/-- The number denoted by a string of hex digits. -/
def hexNat (ds : Bytes) : Nat := ds.foldl (fun n d => 16 * n + (hexVal d).getD 0) 0

/-- The `w` low-order hex digits of `n`. -/
def nibbles : Nat → Nat → Bytes
  | 0, _ => []
  | w + 1, n => nibbles w (n / 16) ++ [hexDigit (n % 16)]

/-- `n` in lower-case hex, with zeros in front up to `w` digits. -/
def hexPad (w n : Nat) : Bytes := nibbles (max w ((bitLen n + 3) / 4)) n

theorem hexVal_hexDigit {d : Nat} (h : d < 16) : hexVal (hexDigit d) = some d := by
  have hall : ∀ d : Fin 16, hexVal (hexDigit d.val) = some d.val := by decide
  exact hall ⟨d, h⟩

theorem hexDecode_hexEncode (bs : Bytes) : hexDecode (hexEncode bs) = some bs := by
  induction bs with
  | nil => rfl
  | cons b bs ih =>
    have hb := b.toNat_lt
    have hbyte : 16 * (b.toNat / 16) + b.toNat % 16 = b.toNat := by omega
    rw [hexEncode, hexDecode, hexVal_hexDigit (by omega), hexVal_hexDigit (by omega), ih]
    simp only [hbyte, UInt8.ofNat_toNat]

theorem hexVal_lt {b : UInt8} {d : Nat} (h : hexVal b = some d) : d < 16 := by
  rw [hexVal] at h
  split at h
  · cases h
    omega
  · split at h
    · cases h
      omega
    · split at h
      · cases h
        omega
      · cases h

theorem hexNat_append (xs ys : Bytes) : hexNat (xs ++ ys) = hexNat xs * 16 ^ ys.length + hexNat ys := by
  induction ys using List.reverseRecOn with
  | nil => simp [hexNat]
  | append_singleton ys y ih =>
    have hsnoc : ∀ zs : Bytes, hexNat (zs ++ [y]) = 16 * hexNat zs + (hexVal y).getD 0 := by
      intro zs
      rw [hexNat, List.foldl_append]
      rfl
    rw [← List.append_assoc, hsnoc, hsnoc, ih, List.length_append, List.length_singleton, pow_succ]
    ring

/-- An even number of hex digits denotes bytes, of the same number. -/
theorem hexDecode_of_even {ds : Bytes} (h : ∀ d ∈ ds, IsHex d) (heven : ds.length % 2 = 0) :
    ∃ bs, hexDecode ds = some bs ∧ 2 * bs.length = ds.length ∧ beNat bs = hexNat ds := by
  fun_induction hexDecode ds with
  | case1 => exact ⟨[], rfl, rfl, rfl⟩
  | case2 b => simp at heven
  | case3 a b rest x y bs hbs hy hx ih =>
    rw [List.length_cons, List.length_cons] at heven
    obtain ⟨bs', hsome, hlen, hval⟩ := ih (fun d hd => h d (by simp [hd])) (by omega)
    rw [hbs] at hsome
    cases hsome
    have hx16 := hexVal_lt hx
    have hy16 := hexVal_lt hy
    refine ⟨_, rfl, by simp [← hlen]; omega, ?_⟩
    have hhead : hexNat [a, b] = 16 * x + y := by simp [hexNat, hx, hy]
    have hbyte : (UInt8.ofNat (16 * x + y)).toNat = 16 * x + y := by
      rw [UInt8.toNat_ofNat']
      omega
    have hpow : 16 ^ rest.length = 256 ^ bs.length := by
      rw [← hlen, pow_mul]
      norm_num
    rw [show a :: b :: rest = [a, b] ++ rest from rfl, hexNat_append, hhead, beNat_cons, hbyte, hpow, hval]
  | case4 a b rest hnone ih =>
    rw [List.length_cons, List.length_cons] at heven
    obtain ⟨bs', hsome, -, -⟩ := ih (fun d hd => h d (by simp [hd])) (by omega)
    obtain ⟨x, hx⟩ := Option.isSome_iff_exists.mp (h a (by simp))
    obtain ⟨y, hy⟩ := Option.isSome_iff_exists.mp (h b (by simp))
    exact absurd hsome (hnone x y bs' hx hy)

theorem hexDecode_of_odd {ds : Bytes} (hodd : ds.length % 2 = 1) : hexDecode ds = none := by
  fun_induction hexDecode ds with
  | case1 => cases hodd
  | case2 b => rfl
  | case3 a b rest x y bs hbs hy hx ih =>
    rw [List.length_cons, List.length_cons] at hodd
    rw [ih (by omega)] at hbs
    cases hbs
  | case4 => rfl

theorem hexEncode_append (xs ys : Bytes) : hexEncode (xs ++ ys) = hexEncode xs ++ hexEncode ys := by
  induction xs with
  | nil => rfl
  | cons x xs ih => simp only [List.cons_append, hexEncode, ih]

/-- Twice as many hex digits as big-endian bytes. -/
theorem length_hexEncode (bs : Bytes) : (hexEncode bs).length = 2 * bs.length := by
  induction bs with
  | nil => rfl
  | cons b bs ih =>
    rw [hexEncode, List.length_cons, List.length_cons, List.length_cons, ih]
    omega

/-- What holds of every digit holds of every byte of an encoding. -/
theorem mem_hexEncode {P : UInt8 → Prop} (hdigit : ∀ i : Fin 16, P (hexDigit i.val)) {bs : Bytes} {d : UInt8}
    (h : d ∈ hexEncode bs) : P d := by
  induction bs with
  | nil => cases h
  | cons b bs ih =>
    have hb := b.toNat_lt
    rw [hexEncode, List.mem_cons, List.mem_cons] at h
    rcases h with rfl | rfl | h
    · exact hdigit ⟨b.toNat / 16, by omega⟩
    · exact hdigit ⟨b.toNat % 16, by omega⟩
    · exact ih h

theorem isHex_of_mem_hexEncode {bs : Bytes} {d : UInt8} (h : d ∈ hexEncode bs) : IsHex d :=
  mem_hexEncode (by decide) h

theorem nibbles_two_mul (w n : Nat) : nibbles (2 * w) n = hexEncode (beBytes w n) := by
  induction w generalizing n with
  | zero => rfl
  | succ w ih =>
    have hlow : n % 16 = n % 256 % 16 := by omega
    have hhigh : n / 16 % 16 = n % 256 / 16 := by omega
    rw [show 2 * (w + 1) = 2 * w + 1 + 1 by omega, nibbles, nibbles, Nat.div_div_eq_div_mul, ih,
      beBytes, hexEncode_append]
    have hbyte : (UInt8.ofNat n).toNat = n % 256 := by simp
    rw [List.append_assoc, hexEncode, hexEncode, hbyte, hlow, hhigh]
    rfl

theorem bitLen_le_of_lt {n k : Nat} (h : n < 2 ^ k) : bitLen n ≤ k := by
  rw [bitLen]
  split
  · omega
  · rename_i hn
    have := (Nat.log2_lt hn).mpr h
    omega

/-- A number that fits in `w` bytes is padded to exactly `2 * w` digits. -/
theorem hexPad_eq {w n : Nat} (h : n < 256 ^ w) : hexPad (2 * w) n = hexEncode (beBytes w n) := by
  rw [pow_256] at h
  have hbits := bitLen_le_of_lt h
  rw [hexPad, Nat.max_eq_left (by omega), nibbles_two_mul]

theorem hexNat_nibbles (w n : Nat) : hexNat (nibbles w n) = n % 16 ^ w := by
  induction w generalizing n with
  | zero => rw [pow_zero, Nat.mod_one]; rfl
  | succ w ih =>
    have hdigit : hexNat [hexDigit (n % 16)] = n % 16 := by
      rw [hexNat, List.foldl_cons, List.foldl_nil, hexVal_hexDigit (by omega), Option.getD_some]
      omega
    rw [nibbles, hexNat_append, ih, hdigit, List.length_singleton, pow_one, pow_succ', Nat.mod_mul]
    omega

/-- The digits of a number denote it. -/
theorem hexNat_hexPad (w n : Nat) : hexNat (hexPad w n) = n := by
  have hbits := lt_two_pow_bitLen n
  have hpow : 2 ^ bitLen n ≤ 16 ^ max w ((bitLen n + 3) / 4) := by
    rw [show 16 = 2 ^ 4 by rfl, ← pow_mul]
    exact Nat.pow_le_pow_right (by decide) (by omega)
  rw [hexPad, hexNat_nibbles, Nat.mod_eq_of_lt (Nat.lt_of_lt_of_le hbits hpow)]

/-! ## Decimal -/

def decDigit (d : Nat) : UInt8 := UInt8.ofNat (48 + d)

def decVal (b : UInt8) : Option Nat :=
  if 48 ≤ b.toNat ∧ b.toNat ≤ 57 then some (b.toNat - 48) else none

/-- The decimal digits of `n`, most significant first. -/
def natDec (n : Nat) : Bytes :=
  if n = 0 then [48] else (Nat.digits 10 n).reverse.map decDigit

/-- `strconv.FormatInt(i, 10)`. -/
def intDec (i : Int) : Bytes :=
  if i < 0 then 45 :: natDec i.natAbs else natDec i.natAbs

/-- The number denoted by a string of decimal digits; `none` on any other byte. -/
def decNat (s : Bytes) : Option Nat :=
  s.foldl (fun acc b => acc.bind fun n => (decVal b).map fun d => n * 10 + d) (some 0)

/-- `strconv.ParseUint(s, 10, bits)`. -/
def parseUint (bits : Nat) (s : Bytes) : Option Nat :=
  if s = [] then none
  else (decNat s).bind fun n => if n < 2 ^ bits then some n else none

/-- `strconv.ParseInt(s, 10, bits)`: an optional sign, then digits. -/
def parseInt (bits : Nat) (s : Bytes) : Option Int :=
  match s with
  | [] => none
  | b :: rest =>
    if b = 45 then
      if rest = [] then none
      else (decNat rest).bind fun n => if n ≤ 2 ^ (bits - 1) then some (-(n : Int)) else none
    else if b = 43 then
      if rest = [] then none
      else (decNat rest).bind fun n => if n < 2 ^ (bits - 1) then some (n : Int) else none
    else (decNat (b :: rest)).bind fun n => if n < 2 ^ (bits - 1) then some (n : Int) else none

/-! ### Reading what was written -/

def IsDigit (b : UInt8) : Prop := 48 ≤ b.toNat ∧ b.toNat ≤ 57

instance (b : UInt8) : Decidable (IsDigit b) := inferInstanceAs (Decidable (_ ∧ _))

theorem decVal_decDigit {d : Nat} (h : d < 10) : decVal (decDigit d) = some d := by
  have hbyte : (decDigit d).toNat = 48 + d := by
    rw [decDigit, UInt8.toNat_ofNat']
    omega
  rw [decVal, hbyte, if_pos (by omega)]
  simp

theorem isDigit_decDigit {d : Nat} (h : d < 10) : IsDigit (decDigit d) := by
  have hbyte : (decDigit d).toNat = 48 + d := by
    rw [decDigit, UInt8.toNat_ofNat']
    omega
  rw [IsDigit, hbyte]
  omega

theorem isDigit_of_mem_natDec {n : Nat} {b : UInt8} (h : b ∈ natDec n) : IsDigit b := by
  rw [natDec] at h
  split at h
  · rw [List.mem_singleton] at h
    rw [h]
    exact ⟨by decide, by decide⟩
  · rw [List.mem_map] at h
    obtain ⟨d, hd, rfl⟩ := h
    exact isDigit_decDigit (Nat.digits_lt_base (by decide) (List.mem_reverse.mp hd))

theorem natDec_ne_nil (n : Nat) : natDec n ≠ [] := by
  rw [natDec]
  split
  · simp
  · rename_i hn
    simp [Nat.digits_ne_nil_iff_ne_zero.mpr hn]

theorem decNat_digits {ds : List Nat} (h : ∀ d ∈ ds, d < 10) :
    decNat (ds.map decDigit) = some (ds.foldl (fun n d => n * 10 + d) 0) := by
  have hfold : ∀ n, (ds.map decDigit).foldl
      (fun acc b => acc.bind fun n => (decVal b).map fun d => n * 10 + d) (some n) =
      some (ds.foldl (fun n d => n * 10 + d) n) := by
    induction ds with
    | nil => intro n; rfl
    | cons d ds ih =>
      intro n
      rw [List.map_cons, List.foldl_cons, List.foldl_cons, Option.bind_some,
        decVal_decDigit (h d (List.mem_cons_self ..)), Option.map_some]
      exact ih (fun e he => h e (List.mem_cons_of_mem _ he)) _
  exact hfold 0

theorem decNat_natDec (n : Nat) : decNat (natDec n) = some n := by
  rw [natDec]
  split
  · rename_i hn
    rw [hn]
    rfl
  · rw [decNat_digits (fun d hd => Nat.digits_lt_base (by decide) (List.mem_reverse.mp hd)),
      List.foldl_reverse]
    have hdigits := Nat.ofDigits_digits 10 n
    rw [Nat.ofDigits_eq_foldr] at hdigits
    rw [Option.some.injEq]
    refine Eq.trans ?_ hdigits
    congr
    funext d m
    simp only [Nat.cast_id]
    omega

theorem parseUint_natDec {bits n : Nat} (h : n < 2 ^ bits) : parseUint bits (natDec n) = some n := by
  rw [parseUint, if_neg (natDec_ne_nil n), decNat_natDec, Option.bind_some, if_pos h]

theorem decVal_of_not_isDigit {b : UInt8} (h : ¬ IsDigit b) : decVal b = none := by
  rw [IsDigit] at h
  rw [decVal, if_neg h]

/-- A string with any other byte is not a numeral. -/
theorem decNat_eq_none {s : Bytes} {b : UInt8} (hb : b ∈ s) (h : ¬ IsDigit b) : decNat s = none := by
  have hstuck : ∀ s : Bytes, s.foldl
      (fun acc b => acc.bind fun n => (decVal b).map fun d => n * 10 + d) none = none := by
    intro s
    induction s with
    | nil => rfl
    | cons c s ih => exact ih
  have hfold : ∀ acc : Option Nat, s.foldl
      (fun acc b => acc.bind fun n => (decVal b).map fun d => n * 10 + d) acc = none := by
    induction s with
    | nil => cases hb
    | cons c s ih =>
      intro acc
      rw [List.foldl_cons]
      rw [List.mem_cons] at hb
      rcases hb with rfl | hb
      · rw [decVal_of_not_isDigit h]
        cases acc with
        | none => exact hstuck s
        | some n => exact hstuck s
      · exact ih hb _
  exact hfold (some 0)

theorem parseUint_eq_none {bits : Nat} {s : Bytes} {b : UInt8} (hb : b ∈ s) (h : ¬ IsDigit b) :
    parseUint bits s = none := by
  rw [parseUint, decNat_eq_none hb h]
  split <;> rfl

theorem parseInt_eq_none {bits : Nat} {c : UInt8} {s : Bytes} {b : UInt8} (hb : b ∈ s)
    (h : ¬ IsDigit b) : parseInt bits (c :: s) = none := by
  rw [parseInt, decNat_eq_none hb h, decNat_eq_none (List.mem_cons_of_mem c hb) h]
  split
  · split <;> rfl
  · split
    · split <;> rfl
    · rfl

/-- A byte that is no digit and no sign spoils a number wherever it stands. -/
theorem parseInt_eq_none_of_mem {bits : Nat} {s : Bytes} {b : UInt8} (hb : b ∈ s) (h : ¬ IsDigit b)
    (hminus : b ≠ 45) (hplus : b ≠ 43) : parseInt bits s = none := by
  cases s with
  | nil => cases hb
  | cons c s =>
    rcases List.mem_cons.mp hb with rfl | hrest
    · rw [parseInt, if_neg hminus, if_neg hplus, decNat_eq_none hb h]
      rfl
    · exact parseInt_eq_none hrest h

/-- The first byte of a numeral is a digit, so it is neither sign. -/
theorem natDec_eq_cons (n : Nat) : ∃ b rest, natDec n = b :: rest ∧ b ≠ 45 ∧ b ≠ 43 := by
  cases h : natDec n with
  | nil => exact absurd h (natDec_ne_nil n)
  | cons b rest =>
    have hd : IsDigit b := isDigit_of_mem_natDec (n := n) (by rw [h]; exact List.mem_cons_self ..)
    refine ⟨b, rest, rfl, ?_, ?_⟩
    · rintro rfl
      exact absurd hd.1 (by decide)
    · rintro rfl
      exact absurd hd.1 (by decide)

theorem parseInt_intDec {bits : Nat} {i : Int} (hlo : -(2 ^ (bits - 1) : Int) ≤ i)
    (hhi : i < 2 ^ (bits - 1)) : parseInt bits (intDec i) = some i := by
  have hcast : ((2 ^ (bits - 1) : Nat) : Int) = 2 ^ (bits - 1) := by norm_cast
  rw [intDec]
  split
  · rename_i hneg
    have habs : i.natAbs ≤ 2 ^ (bits - 1) := by omega
    rw [parseInt, if_pos rfl, if_neg (natDec_ne_nil _), decNat_natDec, Option.bind_some, if_pos habs]
    congr
    omega
  · rename_i hpos
    have habs : i.natAbs < 2 ^ (bits - 1) := by omega
    obtain ⟨b, rest, heq, hminus, hplus⟩ := natDec_eq_cons i.natAbs
    rw [heq, parseInt, if_neg hminus, if_neg hplus, ← heq, decNat_natDec, Option.bind_some,
      if_pos habs]
    congr
    omega

end KmipGo.Lib
