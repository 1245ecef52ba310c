import KmipGo.Ttlv.Access

/-! # Every access is inside its slice

The accessors and checks of `ttlv/ttlv.go` once more, with each index and slice
expression of the source written as one: outside of the slice it panics, and so
does `FullLen` on a byte that is no type.  `Valid`, the loop in it and `Next`
call each other as they do in the source, on a fuel; a call that has none left
counts as a panic.

* `Checked.tag_eq` and its siblings — the accessors of the header never panic.
* `Checked.valid_eq`, `Checked.next_eq` — nor do `Valid` and `Next`, and a fuel that
  is linear in the length of the slice is enough for them to return.
* `next_iterate` — how often `Next` can be called before it returns nil.
-/

namespace KmipGo.Ttlv

open KmipGo.Lib

namespace Checked

section

variable {ε : Type}

/-- The expression `b[i]`. -/
def index (b : Bytes) (i : Nat) : Res ε UInt8 := Res.ofOption b[i]?

/-- The expression `b[i:j]`. -/
def slice (b : Bytes) (i j : Nat) : Res ε Bytes :=
  if i ≤ j ∧ j ≤ b.length then .ok ((b.take j).drop i) else .panic

theorem index_of_lt {b : Bytes} {i : Nat} (h : i < b.length) :
    (index b i : Res ε UInt8) = .ok (b.get ⟨i, h⟩) := by
  rw [index, List.getElem?_eq_getElem h]
  rfl

theorem slice_of_le {b : Bytes} {i j : Nat} (hij : i ≤ j) (hj : j ≤ b.length) :
    (slice b i j : Res ε Bytes) = .ok ((b.take j).drop i) := by
  rw [slice, if_pos ⟨hij, hj⟩]

/-! ## The header -/

def tag (t : TTLV) : Res ε Tag :=
  if t.length < 3 then .ok tagNone
  else do
    let b2 ← index t 2
    let b1 ← index t 1
    let b0 ← index t 0
    return BitVec.ofNat 32 (beNat [b0, b1, b2])

def typeByte (t : TTLV) : Res ε UInt8 :=
  if t.length < 4 then .ok 0 else index t 3

def len (t : TTLV) : Res ε Nat :=
  if t.length < lenHeader then .ok 0
  else do
    let b ← slice t 4 8
    let l ← Res.ofOption (uint32BE b)
    return l.toNat

def fullLen (t : TTLV) : Res ε Nat := do
  let b ← typeByte t
  let l ← len t
  Res.ofOption ((Typ.ofCode b).map fun ty => ty.blockLen l)

def valueRaw (t : TTLV) : Res ε (Option Bytes) := do
  let l ← len t
  if l = 0 then return none
  else if t.length < lenHeader + l then do
    let b ← slice t lenHeader t.length
    return some b
  else do
    let b ← slice t lenHeader (lenHeader + l)
    return some b

def validTag (t : TTLV) : Res ε Bool := do
  let b ← index t 0
  return b == 0x42 || b == 0x54

def validHeader (t : TTLV) : Res ε (Option ValidErr) :=
  if t.length < lenHeader then .ok (some .headerTruncated)
  else do
    let known ← validTag t
    if !known then return some .invalidTag
    else do
      let b ← typeByte t
      let l ← len t
      return match Typ.ofCode b with
        | none => some .invalidType
        | some ty => if ty.validLen l then none else some .invalidLen

variable (t : TTLV)

theorem tag_eq : (tag t : Res ε Tag) = .ok t.tag := by
  rw [tag, TTLV.tag]
  split
  · rfl
  · rename_i hlen
    rw [not_lt] at hlen
    rcases t with _ | ⟨b0, _ | ⟨b1, _ | ⟨b2, rest⟩⟩⟩
    · exact absurd hlen (by decide)
    · exact absurd hlen (by simp)
    · exact absurd hlen (by simp)
    · rfl

theorem typeByte_eq : (typeByte t : Res ε UInt8) = .ok t.typeByte := by
  rw [typeByte, TTLV.typeByte]
  split
  · rename_i hlen
    rw [List.getElem?_eq_none (by omega)]
    rfl
  · rename_i hlen
    rw [index, List.getElem?_eq_getElem (by omega)]
    rfl

theorem len_eq : (len t : Res ε Nat) = .ok t.len := by
  have hlt := len_lt t
  rw [TTLV.len] at hlt
  rw [len, TTLV.len]
  split
  · rfl
  · rename_i hlen
    rw [if_neg hlen] at hlt
    simp only [lenHeader] at hlen
    have hbytes : (t.take 8).drop 4 = (t.drop 4).take 4 := by rw [List.drop_take]
    have hlength : ((t.drop 4).take 4).length = 4 := by
      rw [List.length_take, List.length_drop]
      omega
    rw [slice_of_le (by omega) (by omega), hbytes, Res.ok_bind, uint32BE_of_length hlength,
      Res.ofOption_some, Res.ok_bind, BitVec.toNat_ofNat, Nat.mod_eq_of_lt hlt]
    rfl

theorem fullLen_eq : (fullLen t : Res ε Nat) = Res.ofOption t.fullLen := by
  rw [fullLen, typeByte_eq, Res.ok_bind, len_eq, Res.ok_bind, TTLV.fullLen, TTLV.typ]

theorem valueRaw_eq : (valueRaw t : Res ε (Option Bytes)) = .ok t.valueRaw := by
  rw [valueRaw, len_eq, Res.ok_bind, TTLV.valueRaw]
  split
  · rfl
  · rename_i hlen
    -- a length other than 0 was read from a whole header
    have hheader : lenHeader ≤ t.length := by
      rw [TTLV.len] at hlen
      by_contra hshort
      rw [if_pos (by omega)] at hlen
      exact hlen rfl
    split
    · rw [slice_of_le hheader (Nat.le_refl _), List.take_length]
      rfl
    · rw [slice_of_le (by omega) (by omega), List.drop_take, Nat.add_sub_cancel_left]
      rfl

theorem validTag_eq (h : 0 < t.length) : (validTag t : Res ε Bool) = .ok t.validTag := by
  rw [validTag, index_of_lt h, TTLV.validTag, List.getElem?_eq_getElem h]
  rfl

theorem validHeader_eq : (validHeader t : Res ε (Option ValidErr)) = .ok t.validHeader := by
  rw [validHeader, TTLV.validHeader]
  split
  · rfl
  · rename_i hlen
    simp only [lenHeader] at hlen
    rw [validTag_eq t (by omega), Res.ok_bind]
    split
    · rfl
    · rw [typeByte_eq, Res.ok_bind, len_eq, Res.ok_bind, TTLV.typ]
      rfl

end

/-! ## `Valid` and `Next` -/

mutual
def valid : Nat → TTLV → Res ValidError Unit
  | 0, _ => .panic
  | fuel + 1, t => do
    match ← validHeader t with
    | some e => .err ⟨[], e⟩
    | none =>
      let n ← fullLen t
      if t.length < n then .err ⟨[], .valueTruncated⟩
      else do
        let b ← typeByte t
        if Typ.ofCode b = some .Structure then do
          let inner ← valueRaw t
          let tag ← tag t
          validInner fuel tag (inner.getD [])
        else return ()

def validInner : Nat → Tag → TTLV → Res ValidError Unit
  | 0, _, _ => .panic
  | fuel + 1, tag, inner =>
    if inner.length = 0 then .ok ()
    else match valid fuel inner with
      | .err e => .err (e.prepend tag)
      | .panic => .panic
      | .ok () => do
        let n ← next fuel inner
        validInner fuel tag (n.getD [])

def next : Nat → TTLV → Res ValidError (Option TTLV)
  | 0, _ => .panic
  | fuel + 1, t =>
    match valid fuel t with
    | .err _ => .ok none
    | .panic => .panic
    | .ok () => do
      let n ← fullLen t
      let m ← slice t n t.length
      if m.length = 0 then return none else return some m
end

end Checked

theorem valid_of_badHeader {t : TTLV} {e : ValidErr} (h : t.validHeader = some e) :
    t.valid = .err ⟨[], e⟩ := by
  rw [TTLV.valid]
  split
  · rename_i e' he
    rw [h, Option.some.injEq] at he
    rw [he]
  · rename_i hnone
    rw [h] at hnone
    cases hnone

/-- `Valid` after its check of the header. -/
theorem valid_of_validHeader {t : TTLV} {n : Nat} (h : t.validHeader = none) (hn : t.fullLen = some n) :
    t.valid =
      if t.length < n then .err ⟨[], .valueTruncated⟩
      else if t.typ = some .Structure then TTLV.validInner t.tag t.raw
      else .ok () := by
  rw [TTLV.valid]
  split
  · rename_i e he
    rw [h] at he
    cases he
  · rw [hn]

/-- The bytes of a valid block are there. -/
theorem fullLen_le_of_isValid {t : TTLV} (h : t.IsValid) :
    ∃ n, t.fullLen = some n ∧ n ≤ t.length := by
  obtain ⟨b, hsize, rest, rfl⟩ := isValid_iff.mp h
  exact ⟨_, fullLen_bytes_append b rest hsize, by rw [List.length_append]; omega⟩

namespace Checked

/-- One call of `Next`, where `Valid` returns. -/
theorem next_of_valid {fuel : Nat} {t : TTLV} (h : valid fuel t = t.valid) :
    next (fuel + 1) t = .ok t.next := by
  rw [next, h]
  cases hv : t.valid with
  | panic => exact absurd hv (valid_ne_panic t).1
  | err e =>
    have hbad : ¬ t.IsValid := by
      rw [TTLV.IsValid, hv]
      exact nofun
    rw [TTLV.next, if_neg hbad]
  | ok u =>
    have hgood : t.IsValid := hv
    obtain ⟨n, hn, hle⟩ := fullLen_le_of_isValid hgood
    simp only [fullLen_eq, TTLV.next, if_pos hgood, hn, Res.ofOption_some, Res.ok_bind,
      slice_of_le hle (Nat.le_refl _), List.take_length]
    split <;> rfl

/-- The three functions return what the model says, given a fuel for each. -/
theorem eq_of_fuel (fuel : Nat) : ∀ t : TTLV,
    (t.length + 1 ≤ fuel → valid fuel t = t.valid) ∧
    (t.length + 2 ≤ fuel → next fuel t = .ok t.next) ∧
    (t.length + 3 ≤ fuel → ∀ tag, validInner fuel tag t = TTLV.validInner tag t) := by
  induction fuel with
  | zero =>
    intro t
    exact ⟨nofun, nofun, nofun⟩
  | succ fuel ih =>
    intro t
    refine ⟨?_, ?_, ?_⟩
    · intro hfuel
      rw [valid, validHeader_eq, Res.ok_bind]
      cases hhdr : t.validHeader with
      | some e => exact (valid_of_badHeader hhdr).symm
      | none =>
        obtain ⟨ty, -, -, hfull⟩ := fullLen_of_validHeader hhdr
        have hlen := length_of_validHeader hhdr
        have hraw := raw_length_le t
        simp only [lenHeader] at hlen hraw
        simp only [valid_of_validHeader hhdr hfull, fullLen_eq, hfull, Res.ofOption_some, Res.ok_bind,
          typeByte_eq, valueRaw_eq, tag_eq]
        split
        · rfl
        · rw [TTLV.typ]
          split
          · -- the header is not part of the value, so the fuel that is left covers it
            exact ((ih t.raw).2.2 (by omega)) t.tag
          · rfl
    · intro hfuel
      exact next_of_valid ((ih t).1 (by omega))
    · intro hfuel tag
      rw [validInner, validInner_eq]
      split
      · rfl
      · rename_i hne
        rw [(ih t).1 (by omega), (ih t).2.1 (by omega)]
        cases t.valid with
        | err e => rfl
        | panic => rfl
        | ok u =>
          simp only [Res.ok_bind]
          apply (ih (t.next.getD [])).2.2
          cases hnext : t.next with
          | none =>
            rw [Option.getD_none, List.length_nil]
            omega
          | some m =>
            have := next_length_lt hnext
            rw [Option.getD_some]
            omega

theorem valid_eq {fuel : Nat} {t : TTLV} (h : t.length < fuel) : valid fuel t = t.valid :=
  (eq_of_fuel fuel t).1 h

theorem next_eq {fuel : Nat} {t : TTLV} (h : t.length + 1 < fuel) : next fuel t = .ok t.next :=
  (eq_of_fuel fuel t).2.1 h

end Checked

/-! ## Iterating `Next` -/

/-- `t = t.Next()`; `Next` of nil is nil. -/
def stepNext (t : Option TTLV) : Option TTLV := t.bind TTLV.next

/-- After `n` steps at least `8 * n` bytes have been passed. -/
theorem iterate_stepNext {t : TTLV} (n : Nat) {m : TTLV} (h : stepNext^[n] (some t) = some m) :
    m.length + 8 * n ≤ t.length := by
  induction n generalizing m with
  | zero =>
    rw [Function.iterate_zero, id, Option.some.injEq] at h
    rw [h]
    omega
  | succ n ih =>
    rw [Function.iterate_succ_apply', stepNext, Option.bind_eq_some_iff] at h
    obtain ⟨k, hk, hnext⟩ := h
    have hshort := next_length_lt hnext
    have hrun := ih hk
    omega

theorem next_iterate (t : TTLV) : stepNext^[t.length / 8 + 1] (some t) = none := by
  cases h : stepNext^[t.length / 8 + 1] (some t) with
  | none => rfl
  | some m =>
    have := iterate_stepNext _ h
    omega

end KmipGo.Ttlv
