import KmipGo.Ttlv.EncBuf
import KmipGo.Ttlv.Grammar

/-! # The value accessors

`ValueInteger` and its siblings in `ttlv/ttlv.go`.  They do not check the type
or the length of the block they read: reading past the end of the value segment
panics, which is `none` here.

The second half reads a leaf back: on the canonical item of a primitive value
each accessor returns that value.
-/

namespace KmipGo.Ttlv

open KmipGo.Lib

/-- `binary.BigEndian.Uint32`; it panics on fewer than four bytes. -/
def uint32BE (b : Bytes) : Option (BitVec 32) :=
  if b.length < 4 then none else some (BitVec.ofNat 32 (beNat (b.take 4)))

/-- `binary.BigEndian.Uint64`; it panics on fewer than eight bytes. -/
def uint64BE (b : Bytes) : Option (BitVec 64) :=
  if b.length < 8 then none else some (BitVec.ofNat 64 (beNat (b.take 8)))

namespace TTLV

def valueInteger (t : TTLV) : Option (BitVec 32) := uint32BE t.raw

def valueLongInteger (t : TTLV) : Option (BitVec 64) := uint64BE t.raw

def valueBigInteger (t : TTLV) : Int := unmarshalBigInt (unpadBigInt t.raw)

def valueEnumeration (t : TTLV) : Option (BitVec 32) := uint32BE t.raw

def valueBoolean (t : TTLV) : Option Bool := (t.raw[7]?).map fun b => b != 0

def valueTextString (t : TTLV) : Bytes := t.raw

/-- `ValueByteString`; nil (`none`) for a zero length. -/
def valueByteString (t : TTLV) : Option Bytes := t.valueRaw

def valueDateTime (t : TTLV) : Option Time :=
  t.valueLongInteger.map fun i =>
    if t.typ = some .DateTimeExtended then Time.ofUnixNano (i * 1000) else Time.ofUnix i

/-- The `Time` of `ValueDateTimeExtended`. -/
def valueDateTimeExtended (t : TTLV) : Option Time :=
  t.valueLongInteger.map fun i =>
    if t.typ = some .DateTimeExtended then Time.ofUnixNano (i * 1000) else Time.ofUnix i

/-- `ValueInterval`: seconds, as a `time.Duration` in nanoseconds. -/
def valueInterval (t : TTLV) : Option (BitVec 64) :=
  (uint32BE t.raw).map fun s => s.setWidth 64 * 1000000000

/-- `ValueStructure`; nil (`none`) for a zero length. -/
def valueStructure (t : TTLV) : Option TTLV := t.valueRaw

end TTLV

/-! ## Reading fixed-width values -/

theorem uint32BE_of_length {b : Bytes} (h : b.length = 4) :
    uint32BE b = some (BitVec.ofNat 32 (beNat b)) := by
  rw [uint32BE, if_neg (by omega), List.take_of_length_le (by omega)]

theorem uint64BE_of_length {b : Bytes} (h : b.length = 8) :
    uint64BE b = some (BitVec.ofNat 64 (beNat b)) := by
  rw [uint64BE, if_neg (by omega), List.take_of_length_le (by omega)]

theorem uint32BE_beBytes (v : BitVec 32) : uint32BE (beBytes 4 v.toNat) = some v := by
  rw [uint32BE_of_length (length_beBytes 4 _), beNat_beBytes_of_lt (by have := v.isLt; omega)]
  simp

theorem uint64BE_beBytes (v : BitVec 64) : uint64BE (beBytes 8 v.toNat) = some v := by
  rw [uint64BE_of_length (length_beBytes 8 _), beNat_beBytes_of_lt (by have := v.isLt; omega)]
  simp

/-- Four bytes are the digits of the number read from them. -/
theorem beBytes_uint32BE {b : Bytes} {v : BitVec 32} (hlen : b.length = 4)
    (h : uint32BE b = some v) : beBytes 4 v.toNat = b := by
  have hlt := beNat_lt b
  rw [hlen] at hlt
  rw [uint32BE_of_length hlen, Option.some.injEq] at h
  rw [← h, BitVec.toNat_ofNat, Nat.mod_eq_of_lt (by omega), ← hlen, beBytes_beNat]

theorem beBytes_uint64BE {b : Bytes} {v : BitVec 64} (hlen : b.length = 8)
    (h : uint64BE b = some v) : beBytes 8 v.toNat = b := by
  have hlt := beNat_lt b
  rw [hlen] at hlt
  rw [uint64BE_of_length hlen, Option.some.injEq] at h
  rw [← h, BitVec.toNat_ofNat, Nat.mod_eq_of_lt (by omega), ← hlen, beBytes_beNat]

/-- The length field holds the length modulo `2 ^ 32`, and that many bytes are read. -/
theorem raw_item_mod (tag : Tag) (ty : Typ) (value : Bytes) :
    TTLV.raw (item tag ty value) = value.take (value.length % 2 ^ 32) := by
  have hlen : TTLV.len (item tag ty value) = value.length % 2 ^ 32 :=
    len_header_append_mod tag ty value.length _
  have hdrop : (item tag ty value).drop lenHeader =
      value ++ List.replicate (padTo8 value.length) 0 :=
    List.drop_left' (length_header _ _ _)
  have hle : value.length % 2 ^ 32 ≤ value.length := Nat.mod_le _ _
  rw [TTLV.raw, TTLV.valueRaw, hlen, hdrop]
  by_cases h0 : value.length % 2 ^ 32 = 0
  · rw [if_pos h0, h0]
    rfl
  · have hroom : ¬ (item tag ty value).length < lenHeader + value.length % 2 ^ 32 := by
      rw [length_item, lenHeader]
      omega
    rw [if_neg h0, if_neg hroom, Option.getD_some, List.take_append_of_le_length hle]

theorem raw_item (tag : Tag) (ty : Typ) {value : Bytes} (h : value.length < 2 ^ 32) :
    TTLV.raw (item tag ty value) = value := by
  rw [raw_item_mod, Nat.mod_eq_of_lt h, List.take_length]

theorem valueLongInteger_item (tag : Tag) (ty : Typ) (v : BitVec 64) :
    TTLV.valueLongInteger (item tag ty (beBytes 8 v.toNat)) = some v := by
  rw [TTLV.valueLongInteger, raw_item tag ty (by rw [length_beBytes]; norm_num), uint64BE_beBytes]

/-! ## Instants and durations -/

/-- An instant in whole microseconds, with its nanosecond count in the range of `int64`. -/
def Time.MicroExact (t : Time) : Prop :=
  t.nanosecond.val % 1000 = 0 ∧
    -(2 ^ 63 : Int) ≤ t.unix.toInt * 1000000000 + t.nanosecond.val ∧
    t.unix.toInt * 1000000000 + t.nanosecond.val < 2 ^ 63

instance (t : Time) : Decidable t.MicroExact := inferInstanceAs (Decidable (_ ∧ _))

theorem toInt_ofInt_of_range {i : Int} (hlo : -(2 ^ 63) ≤ i) (hhi : i < 2 ^ 63) :
    (BitVec.ofInt 64 i).toInt = i := by
  rw [BitVec.toInt_ofInt]
  exact Int.bmod_eq_of_le (by norm_num; omega) (by norm_num; omega)

theorem Time.micros_toInt (t : Time) :
    t.micros = BitVec.ofInt 64 (t.unix.toInt * 1000000 + t.nanosecond.val / 1000) := by
  apply BitVec.eq_of_toInt_eq
  rw [Time.micros, BitVec.toInt_add, BitVec.toInt_mul, BitVec.toInt_ofInt]
  have hsmall : (BitVec.ofNat 64 (t.nanosecond.val / 1000)).toInt = ((t.nanosecond.val / 1000 : Nat) : Int) := by
    have := t.nanosecond.isLt
    rw [BitVec.toInt_ofNat', Int.bmod_eq_of_le] <;> omega
  have hlit : (1000000 : BitVec 64).toInt = 1000000 := by decide
  rw [hsmall, hlit, Int.bmod_add_bmod]
  push_cast
  rfl

/-- The reader undoes the microsecond count of the writer on such instants. -/
theorem Time.ofUnixNano_micros {t : Time} (h : t.MicroExact) :
    Time.ofUnixNano (t.micros * 1000) = t := by
  obtain ⟨hmod, hlo, hhi⟩ := h
  have hns := t.nanosecond.isLt
  have hnano : (t.micros * 1000).toInt = t.unix.toInt * 1000000000 + t.nanosecond.val := by
    have hlit : (1000 : BitVec 64).toInt = 1000 := by decide
    have hmicros : t.micros.toInt = t.unix.toInt * 1000000 + t.nanosecond.val / 1000 := by
      rw [Time.micros_toInt t]
      exact toInt_ofInt_of_range (by omega) (by omega)
    rw [BitVec.toInt_mul, hmicros, hlit, Int.bmod_eq_of_le] <;> omega
  have hdiv : (t.unix.toInt * 1000000000 + t.nanosecond.val) / 1000000000 = t.unix.toInt := by omega
  have hrem : (t.unix.toInt * 1000000000 + t.nanosecond.val) % 1000000000 = t.nanosecond.val := by
    omega
  rw [Time.ofUnixNano, hnano, hdiv, hrem, BitVec.ofInt_toInt, Int.toNat_natCast]
  cases t
  simp

/-- A microsecond count whose nanosecond count fits `int64`. -/
def NanosFit (i : BitVec 64) : Prop :=
  -(2 ^ 63 : Int) ≤ i.toInt * 1000 ∧ i.toInt * 1000 < 2 ^ 63

instance (i : BitVec 64) : Decidable (NanosFit i) := inferInstanceAs (Decidable (_ ∧ _))

/-- The writer undoes the reader on such counts. -/
theorem Time.micros_ofUnixNano {i : BitVec 64} (h : NanosFit i) :
    (Time.ofUnixNano (i * 1000)).micros = i := by
  obtain ⟨hlo, hhi⟩ := h
  have hnano : (i * 1000).toInt = i.toInt * 1000 := by
    have hlit : (1000 : BitVec 64).toInt = 1000 := by decide
    rw [BitVec.toInt_mul, hlit, Int.bmod_eq_of_le] <;> omega
  have hsec : (BitVec.ofInt 64 (i.toInt * 1000 / 1000000000)).toInt = i.toInt * 1000 / 1000000000 :=
    toInt_ofInt_of_range (by omega) (by omega)
  have hrem : ((Fin.ofNat 1000000000 (i.toInt * 1000 % 1000000000).toNat).val : Int) =
      i.toInt * 1000 % 1000000000 := by
    simp only [Fin.ofNat]
    omega
  rw [Time.micros_toInt, Time.ofUnixNano, hnano]
  simp only [hsec, hrem]
  have hsum : i.toInt * 1000 / 1000000000 * 1000000 + i.toInt * 1000 % 1000000000 / 1000 = i.toInt := by
    omega
  rw [hsum, BitVec.ofInt_toInt]

/-- On no other count does it. -/
theorem NanosFit.of_micros {i : BitVec 64} (h : (Time.ofUnixNano (i * 1000)).micros = i) : NanosFit i := by
  obtain ⟨j, hj⟩ : ∃ j, (i * 1000).toInt = j := ⟨_, rfl⟩
  have hlo := BitVec.le_toInt (i * 1000)
  have hhi := BitVec.toInt_lt (x := i * 1000)
  rw [hj] at hlo hhi
  have hmul : (i.toInt * 1000).bmod (2 ^ 64) = j := by
    have hlit : (1000 : BitVec 64).toInt = 1000 := by decide
    rw [← hj, BitVec.toInt_mul, hlit]
  have hsec : (BitVec.ofInt 64 (j / 1000000000)).toInt = j / 1000000000 :=
    toInt_ofInt_of_range (by omega) (by omega)
  have hrem : ((Fin.ofNat 1000000000 (j % 1000000000).toNat).val : Int) = j % 1000000000 := by
    simp only [Fin.ofNat]
    omega
  rw [Time.micros_toInt, Time.ofUnixNano, hj] at h
  simp only [hsec, hrem] at h
  -- the count is what is left of the nanoseconds, which then have not wrapped around
  have hcount : i.toInt = j / 1000 := by
    rw [← h, toInt_ofInt_of_range (by omega) (by omega)]
    omega
  have hsame : i.toInt * 1000 = j := by
    rw [Int.bmod_def] at hmul
    omega
  exact ⟨by omega, by omega⟩

/-- Durations that an Interval item can hold: whole seconds in the range of `uint32`. -/
def IntervalExact (d : BitVec 64) : Prop :=
  d.toInt % 1000000000 = 0 ∧ 0 ≤ d.toInt ∧ d.toInt < 2 ^ 32 * 1000000000

instance (d : BitVec 64) : Decidable (IntervalExact d) := inferInstanceAs (Decidable (_ ∧ _))

theorem intervalSeconds_read {d : BitVec 64} (h : IntervalExact d) :
    (intervalSeconds d).setWidth 64 * 1000000000 = d := by
  obtain ⟨hmod, hlo, hhi⟩ := h
  have hnat : (d.toNat : Int) = d.toInt := by
    rw [BitVec.toInt_eq_toNat_of_msb]
    rw [BitVec.msb_eq_toInt]
    simp
    omega
  have hdiv : d.toInt.tdiv 1000000000 = ((d.toNat / 1000000000 : Nat) : Int) := by
    rw [Int.tdiv_eq_ediv_of_nonneg hlo, ← hnat]
    rfl
  apply BitVec.eq_of_toNat_eq
  have hsec : (intervalSeconds d).toNat = d.toNat / 1000000000 := by
    rw [intervalSeconds, hdiv, BitVec.ofInt_natCast, BitVec.toNat_ofNat]
    exact Nat.mod_eq_of_lt (by omega)
  rw [BitVec.toNat_mul, BitVec.toNat_setWidth, hsec]
  have hlit : (1000000000 : BitVec 64).toNat = 1000000000 := by decide
  rw [hlit]
  have := d.isLt
  omega

theorem intervalSeconds_of_seconds (s : BitVec 32) :
    intervalSeconds (s.setWidth 64 * 1000000000) = s := by
  have hs := s.isLt
  have hlit : (1000000000 : BitVec 64).toNat = 1000000000 := by decide
  have hnat : (s.setWidth 64 * 1000000000).toNat = s.toNat * 1000000000 := by
    rw [BitVec.toNat_mul, BitVec.toNat_setWidth, hlit]
    omega
  have hint : (s.setWidth 64 * 1000000000).toInt = ((s.toNat * 1000000000 : Nat) : Int) := by
    rw [BitVec.toInt_eq_toNat_cond, hnat]
    split
    · rfl
    · omega
  have hdiv : ((s.toNat * 1000000000 : Nat) : Int).tdiv 1000000000 = (s.toNat : Int) := by
    rw [Int.tdiv_eq_ediv_of_nonneg (by omega)]
    omega
  rw [intervalSeconds, hint, hdiv, BitVec.ofInt_natCast]
  simp

end KmipGo.Ttlv
