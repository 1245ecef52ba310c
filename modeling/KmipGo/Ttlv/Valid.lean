import KmipGo.Ttlv.Header

/-! # `Valid`, `ValidHeader` and `Next`

The checks of `ttlv/ttlv.go`.  `Valid` descends into the value of a Structure
and walks it with `Next`; `Next` validates the block it steps over once more.
`valid` and `validInner` follow that recursion, by descent on the slice length;
`validInner_eq` is the loop of the source, with the second validation in place.
-/

namespace KmipGo.Ttlv

open KmipGo.Lib

inductive ValidErr where
  | valueTruncated | headerTruncated | invalidLen | invalidType | invalidTag
deriving DecidableEq, Repr

/-- An error of `Valid`: the cause, and the tags of the structures around it, outermost first,
    which the source prepends to the message. -/
structure ValidError where
  path : List Tag
  cause : ValidErr
deriving DecidableEq, Repr

def ValidError.prepend (tag : Tag) (e : ValidError) : ValidError :=
  { e with path := tag :: e.path }

def TTLV.validTag (t : TTLV) : Bool :=
  match t[0]? with
  | some b => b == 0x42 || b == 0x54
  | none => false

/-- The length fields `ValidHeader` accepts for each type. -/
def Typ.validLen : Typ → Nat → Bool
  | .Structure, _ | .TextString, _ | .ByteString, _ => true
  | .Integer, l | .Enumeration, l | .Interval, l => l == 4
  | .LongInteger, l | .Boolean, l | .DateTime, l | .DateTimeExtended, l => l == 8
  | .BigInteger, l => l % 8 == 0

/-- `TTLV.ValidHeader`; `none` when the header is valid. -/
def TTLV.validHeader (t : TTLV) : Option ValidErr :=
  if t.length < lenHeader then some .headerTruncated
  else if !t.validTag then some .invalidTag
  else match t.typ with
    | none => some .invalidType
    | some ty => if ty.validLen t.len then none else some .invalidLen

theorem raw_length_le (t : TTLV) : t.raw.length ≤ t.length - lenHeader := by
  unfold TTLV.raw TTLV.valueRaw
  split
  · simp
  · split <;> simp

theorem blockLen_textString (l : Nat) : Typ.TextString.blockLen l = 8 + l + padTo8 l := by
  show (if (l + 8) % 8 > 0 then l + 8 + (8 - (l + 8) % 8) else l + 8) = 8 + l + (8 - l % 8) % 8
  by_cases h : (l + 8) % 8 > 0
  · rw [if_pos h]; omega
  · rw [if_neg h]; omega

theorem blockLen_byteString (l : Nat) : Typ.ByteString.blockLen l = 8 + l + padTo8 l :=
  blockLen_textString l

theorem blockLen_ge (ty : Typ) (l : Nat) : 8 ≤ ty.blockLen l := by
  cases ty with
  | TextString => rw [blockLen_textString]; omega
  | ByteString => rw [blockLen_byteString]; omega
  | _ => simp [Typ.blockLen, lenHeader]

theorem fullLen_ge {t : TTLV} {n : Nat} (h : t.fullLen = some n) : 8 ≤ n := by
  unfold TTLV.fullLen at h
  cases hty : t.typ with
  | none => simp [hty] at h
  | some ty =>
    rw [hty, Option.map_some, Option.some.injEq] at h
    rw [← h]
    exact blockLen_ge ty t.len

theorem length_of_validHeader {t : TTLV} (h : t.validHeader = none) : lenHeader ≤ t.length := by
  unfold TTLV.validHeader at h
  split at h
  · cases h
  · omega

mutual
/-- `TTLV.Valid`. -/
def TTLV.valid (t : TTLV) : Res ValidError Unit :=
  match _h : t.validHeader with
  | some e => .err ⟨[], e⟩
  | none =>
    match t.fullLen with
    | none => .panic
    | some n =>
      if t.length < n then .err ⟨[], .valueTruncated⟩
      else if t.typ = some .Structure then TTLV.validInner t.tag t.raw
      else .ok ()
termination_by 2 * t.length
decreasing_by
  have hlen := length_of_validHeader _h
  have hraw := raw_length_le t
  simp only [lenHeader] at hlen hraw
  omega

/-- The loop of `Valid` over the value `inner` of the structure `tag`. -/
def TTLV.validInner (tag : Tag) (inner : TTLV) : Res ValidError Unit :=
  if _h : inner.length = 0 then .ok ()
  else match TTLV.valid inner with
    | .err e => .err (e.prepend tag)
    | .panic => .panic
    | .ok () =>
      -- `inner = inner.Next()`; the block has just been found valid
      match _hn : inner.fullLen with
      | none => .panic
      | some n => TTLV.validInner tag (inner.drop n)
termination_by 2 * inner.length + 1
decreasing_by
  · omega
  · have := fullLen_ge _hn
    simp only [List.length_drop]
    omega
end

/-- `t.Valid() == nil`. -/
def TTLV.IsValid (t : TTLV) : Prop := t.valid = .ok ()

instance (t : TTLV) : Decidable t.IsValid := inferInstanceAs (Decidable (_ = _))

/-- `TTLV.Next`: nil when the block is not valid or nothing follows it. -/
def TTLV.next (t : TTLV) : Option TTLV :=
  if t.IsValid then
    match t.fullLen with
    | none => none
    | some n => if (t.drop n).length = 0 then none else some (t.drop n)
  else none

/-! ## `Valid` never panics, and never reaches the panic of `FullLen` -/

theorem fullLen_of_validHeader {t : TTLV} (h : t.validHeader = none) :
    ∃ ty, t.typ = some ty ∧ ty.validLen t.len = true ∧ t.fullLen = some (ty.blockLen t.len) := by
  unfold TTLV.validHeader at h
  split at h
  · cases h
  · split at h
    · cases h
    · cases hty : t.typ with
      | none => simp [hty] at h
      | some ty =>
        refine ⟨ty, rfl, ?_, by simp [TTLV.fullLen, hty]⟩
        simpa [hty] using h

theorem validHeader_of_isValid {t : TTLV} (h : t.IsValid) : t.validHeader = none := by
  unfold TTLV.IsValid at h
  rw [TTLV.valid] at h
  split at h
  · cases h
  · assumption

theorem valid_ne_panic (t : TTLV) : t.valid ≠ .panic ∧ ∀ tag, TTLV.validInner tag t ≠ .panic := by
  -- strong induction on the length: the value of a structure and the rest of the loop are shorter
  induction hl : t.length using Nat.strong_induction_on generalizing t with
  | _ k ih =>
    subst hl
    have hvalid : t.valid ≠ .panic := by
      rw [TTLV.valid]
      split
      · simp
      · rename_i hhdr
        obtain ⟨ty, -, -, hfull⟩ := fullLen_of_validHeader hhdr
        simp only [hfull]
        split
        · simp
        · split
          · have hlen := length_of_validHeader hhdr
            have hraw := raw_length_le t
            simp only [lenHeader] at hlen hraw
            exact (ih t.raw.length (by omega) t.raw rfl).2 t.tag
          · simp
    refine ⟨hvalid, fun tag => ?_⟩
    rw [TTLV.validInner]
    split
    · simp
    · rename_i hne
      cases hv : t.valid with
      | err e => simp
      | panic => exact absurd hv hvalid
      | ok u =>
        obtain ⟨ty, -, -, hfull⟩ := fullLen_of_validHeader (validHeader_of_isValid hv)
        have hge := fullLen_ge hfull
        simp only
        split
        · simp_all
        · rename_i n hn
          have hge := fullLen_ge hn
          exact (ih (t.drop n).length (by simp only [List.length_drop]; omega) _ rfl).2 tag

/-- The loop as the source writes it, stepping with `Next`. -/
theorem validInner_eq (tag : Tag) (inner : TTLV) :
    TTLV.validInner tag inner =
      if inner.length = 0 then .ok ()
      else match inner.valid with
        | .err e => .err (e.prepend tag)
        | .panic => .panic
        | .ok () => TTLV.validInner tag (inner.next.getD []) := by
  rw [TTLV.validInner]
  by_cases hne : inner.length = 0
  · simp [hne]
  · rw [dif_neg hne, if_neg hne]
    cases hv : inner.valid with
    | err e => rfl
    | panic => rfl
    | ok u =>
      obtain ⟨ty, -, -, hfull⟩ := fullLen_of_validHeader (validHeader_of_isValid hv)
      have hnext : inner.next.getD [] = inner.drop (ty.blockLen inner.len) := by
        have hv' : inner.IsValid := hv
        rw [TTLV.next, if_pos hv', hfull]
        simp only
        split
        · rename_i hz
          exact (List.length_eq_zero_iff.mp hz).symm
        · rfl
      rw [hnext]
      simp only
      split
      · simp_all
      · rename_i n hn
        rw [hfull, Option.some.injEq] at hn
        rw [hn]

end KmipGo.Ttlv
