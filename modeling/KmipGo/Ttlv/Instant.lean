import KmipGo.Ttlv.Access

/-! # The range of DateTimeExtended

`encodeDateTimeExtended` counts microseconds in `int64`, which its comment gives
as the range of the type.  `ValueDateTime` and `ValueDateTimeExtended` multiply
the count by a thousand, in `int64` again, before they hand it to `time.Unix`.

An instant is compared by its distance from the epoch in nanoseconds, as an
integer: the reader's instant is at the product as it wraps, the instant that
was written is at the product itself.
-/

namespace KmipGo.Ttlv

open KmipGo.Lib

namespace Time

/-- Nanoseconds since the epoch. -/
def nanos (t : Time) : Int := t.unix.toInt * 1000000000 + t.nanosecond.val

/-- Whole microseconds since the epoch. -/
def wholeMicros (t : Time) : Int := t.nanos / 1000

/-- The instants that the comment in `encodeDateTimeExtended` speaks of. -/
def MicrosFit (t : Time) : Prop := -(2 ^ 63) ≤ t.wholeMicros ∧ t.wholeMicros < 2 ^ 63

instance (t : Time) : Decidable t.MicrosFit := inferInstanceAs (Decidable (_ ∧ _))

/-- `t` truncated to the microsecond. -/
def truncMicro (t : Time) : Time :=
  ⟨t.unix, ⟨t.nanosecond.val - t.nanosecond.val % 1000, by have := t.nanosecond.isLt; omega⟩⟩

theorem nanos_inj {t u : Time} (h : t.nanos = u.nanos) : t = u := by
  obtain ⟨s, n⟩ := t
  obtain ⟨s', n'⟩ := u
  simp only [nanos] at h
  have hn := n.isLt
  have hn' := n'.isLt
  have hsec : s = s' := BitVec.eq_of_toInt_eq (by omega)
  have hnano : n = n' := Fin.ext (by omega)
  rw [hsec, hnano]

theorem val_ofNat_emod (x : Int) :
    ((Fin.ofNat 1000000000 (x % 1000000000).toNat).val : Int) = x % 1000000000 := by
  simp only [Fin.ofNat]
  omega

theorem nanos_ofUnixNano (n : BitVec 64) : (Time.ofUnixNano n).nanos = n.toInt := by
  have hlt := n.toInt_lt
  have hle := n.le_toInt
  have hsec : (BitVec.ofInt 64 (n.toInt / 1000000000)).toInt = n.toInt / 1000000000 :=
    toInt_ofInt_of_range (by omega) (by omega)
  simp only [nanos, ofUnixNano, hsec, val_ofNat_emod]
  omega

theorem nanos_truncMicro (t : Time) : t.truncMicro.nanos = t.wholeMicros * 1000 := by
  have := t.nanosecond.isLt
  simp only [nanos, truncMicro, wholeMicros]
  omega

theorem micros_eq (t : Time) : t.micros = BitVec.ofInt 64 t.wholeMicros := by
  have hcount : t.unix.toInt * 1000000 + (t.nanosecond.val : Int) / 1000 = t.wholeMicros := by
    rw [wholeMicros, nanos]
    omega
  rw [micros_toInt, hcount]

theorem toInt_micros {t : Time} (h : t.MicrosFit) : t.micros.toInt = t.wholeMicros := by
  rw [micros_eq]
  exact toInt_ofInt_of_range h.1 h.2

end Time

/-! ## The product of the reader -/

/-- A product that wraps is off by a multiple of `2 ^ 64`. -/
theorem toInt_mul_thousand (m : BitVec 64) :
    ∃ k : Int, (m * 1000).toInt = m.toInt * 1000 + 2 ^ 64 * k := by
  have hlit : (1000 : BitVec 64).toInt = 1000 := by decide
  obtain ⟨k, hk⟩ := Int.dvd_bmod_sub_self (x := m.toInt * 1000) (m := 2 ^ 64)
  refine ⟨k, ?_⟩
  rw [BitVec.toInt_mul, hlit]
  push_cast at hk ⊢
  omega

theorem toInt_mul_thousand_iff (m : BitVec 64) :
    (m * 1000).toInt = m.toInt * 1000 ↔ NanosFit m := by
  obtain ⟨k, hk⟩ := toInt_mul_thousand m
  have hlt := (m * 1000).toInt_lt
  have hle := (m * 1000).le_toInt
  rw [NanosFit]
  constructor
  · intro h
    rw [← h]
    omega
  · intro h
    omega

/-- The microseconds of the wrapped product are the count again only if it did not wrap. -/
theorem toInt_mul_thousand_div_iff (m : BitVec 64) :
    (m * 1000).toInt / 1000 = m.toInt ↔ NanosFit m := by
  obtain ⟨k, hk⟩ := toInt_mul_thousand m
  rw [← toInt_mul_thousand_iff]
  omega

/-! ## Writing and reading -/

/-- What the two accessors read from the item of a microsecond count. -/
theorem valueDateTime_item (tag : Tag) (m : BitVec 64) :
    TTLV.valueDateTime (item tag .DateTimeExtended (beBytes 8 m.toNat)) =
        some (Time.ofUnixNano (m * 1000)) ∧
      TTLV.valueDateTimeExtended (item tag .DateTimeExtended (beBytes 8 m.toNat)) =
        some (Time.ofUnixNano (m * 1000)) := by
  rw [TTLV.valueDateTime, TTLV.valueDateTimeExtended, valueLongInteger_item, typ_item]
  exact ⟨rfl, rfl⟩

/-- The reader's instant is the one that was written, to the microsecond. -/
theorem ofUnixNano_micros_iff {t : Time} (h : t.MicrosFit) :
    Time.ofUnixNano (t.micros * 1000) = t.truncMicro ↔ NanosFit t.micros := by
  rw [← toInt_mul_thousand_iff]
  constructor
  · intro heq
    rw [← Time.nanos_ofUnixNano, heq, Time.nanos_truncMicro, Time.toInt_micros h]
  · intro hnanos
    apply Time.nanos_inj
    rw [Time.nanos_ofUnixNano, hnanos, Time.nanos_truncMicro, Time.toInt_micros h]

/-- The writer's count is the one that was read. -/
theorem micros_ofUnixNano_iff (m : BitVec 64) :
    (Time.ofUnixNano (m * 1000)).micros = m ↔ NanosFit m := by
  have hlt := (m * 1000).toInt_lt
  have hle := (m * 1000).le_toInt
  have hcount := toInt_ofInt_of_range (i := (m * 1000).toInt / 1000) (by omega) (by omega)
  rw [← toInt_mul_thousand_div_iff, Time.micros_eq, Time.wholeMicros, Time.nanos_ofUnixNano]
  constructor
  · intro h
    rw [← hcount, h]
  · intro h
    rw [h, BitVec.ofInt_toInt]

/-- On instants for which the reader's product does not wrap, and on no others of the encoder's range,
    DateTimeExtended reads back the instant to the microsecond; and such counts, and no others, are
    written again as they were read. -/
theorem dateTimeExtended_exact_iff (tag : Tag) :
    (∀ t : Time, t.MicrosFit →
      (TTLV.valueDateTimeExtended (EncBuf.encodeDateTimeExtended [] tag t) = some t.truncMicro ↔
        NanosFit t.micros) ∧
      (TTLV.valueDateTime (EncBuf.encodeDateTimeExtended [] tag t) = some t.truncMicro ↔
        NanosFit t.micros)) ∧
    ∀ m : BitVec 64,
      (TTLV.valueDateTimeExtended (item tag .DateTimeExtended (beBytes 8 m.toNat))).map
          (EncBuf.encodeDateTimeExtended [] tag) = some (item tag .DateTimeExtended (beBytes 8 m.toNat)) ↔
        NanosFit m := by
  have hwrite : ∀ t, EncBuf.encodeDateTimeExtended [] tag t =
      item tag .DateTimeExtended (beBytes 8 t.micros.toNat) := by
    intro t
    rw [EncBuf.encodeDateTimeExtended, EncBuf.writeLongIntVal_eq, List.nil_append]
  constructor
  · intro t ht
    have hiff := ofUnixNano_micros_iff ht
    rw [hwrite, (valueDateTime_item tag t.micros).1, (valueDateTime_item tag t.micros).2,
      Option.some.injEq]
    exact ⟨hiff, hiff⟩
  · intro m
    rw [(valueDateTime_item tag m).2, Option.map_some, hwrite, ← micros_ofUnixNano_iff,
      Option.some.injEq]
    constructor
    · intro h
      have hread := congrArg TTLV.valueLongInteger h
      rw [valueLongInteger_item, valueLongInteger_item] at hread
      exact Option.some.inj hread
    · intro h
      rw [h]

/-- A second and a half after the epoch. -/
theorem dateTimeExtended_exact_epoch :
    let t : Time := ⟨1, 500000000⟩
    t.MicrosFit ∧ NanosFit t.micros ∧
      TTLV.valueDateTimeExtended (EncBuf.encodeDateTimeExtended [] 0x420001 t) = some t.truncMicro := by
  refine ⟨by decide, by decide, ?_⟩
  exact (((dateTimeExtended_exact_iff 0x420001).1 _ (by decide)).1).mpr (by decide)

/-- The year 2514 is in the encoder's range and is read back as the year 1929. -/
theorem dateTimeExtended_wraps :
    let t : Time := ⟨17179869184, 0⟩
    t.MicrosFit ∧
      TTLV.valueDateTimeExtended (EncBuf.encodeDateTimeExtended [] 0x420001 t) =
        some ⟨BitVec.ofInt 64 (-1266874890), 290448384⟩ ∧
      TTLV.valueDateTimeExtended (EncBuf.encodeDateTimeExtended [] 0x420001 t) ≠ some t.truncMicro := by
  decide +kernel

end KmipGo.Ttlv
