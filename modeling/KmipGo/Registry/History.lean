import KmipGo.Registry.Consistent

/-! # Tables over a history of registrations

`RegisterValue` writes four maps and never clears an entry: a value that is
registered again keeps its old names as texts that denote it.  What a table
answers after any history is said in terms of the history alone.

* `value_normalized`, `value_canonical` — the names that still denote a value.
* `mem_values_register` — the values a table lists.
* `register_inverse` — names and values are inverse to each other.
-/

namespace KmipGo.Reg

open KmipGo.Lib KmipGo.Ttlv

/-! ## Canonical names -/

section

variable (title : Bytes → Bytes)

/-- Every registered name is in the table of canonical names, with the value it was last given to. -/
theorem canonicalNamesToValue_register (e : Enum) {hist : History}
    (hdistinct : ∀ r ∈ hist, ∀ s ∈ hist, r.2 = s.2 → r.1 = s.1) :
    ∀ r ∈ hist, (e.register title hist).canonicalNamesToValue.lookup r.2 = some r.1 := by
  induction hist using List.reverseRecOn with
  | nil =>
    intro r hr
    cases hr
  | append_singleton hist q ih =>
    intro r hr
    rw [register_snoc]
    simp only [Enum.registerValue]
    -- the last registration writes the entry of its own name and no other one
    by_cases hname : r.2 = q.2
    · rw [hname, AList.lookup_insert, hdistinct r hr q (by simp) hname]
    · rw [AList.lookup_insert_ne hname]
      rw [List.mem_append, List.mem_singleton] at hr
      cases hr with
      | inl hr => exact ih (fun a ha b hb => hdistinct a (by simp [ha]) b (by simp [hb])) r hr
      | inr hr => exact absurd (by rw [hr]) hname

/-- What the table of normalized names holds was registered under that name. -/
theorem mem_of_nameToValue_register {e : Enum} (hempty : ∀ s, e.value s = none) {hist : History}
    {s : GoString} {v : BitVec 32} (h : (e.register title hist).nameToValue.lookup s = some v) :
    ∃ r ∈ hist, r.1 = v ∧ normalizeName title r.2 = s := by
  induction hist using List.reverseRecOn with
  | nil =>
    have hnone := hempty s
    rw [Enum.register, List.foldl_nil] at h
    rw [Enum.value, h] at hnone
    cases hnone
  | append_singleton hist q ih =>
    rw [register_snoc] at h
    simp only [Enum.registerValue] at h
    by_cases hname : s = normalizeName title q.2
    · rw [hname, AList.lookup_insert, Option.some.injEq] at h
      exact ⟨q, by simp, h, hname.symm⟩
    · rw [AList.lookup_insert_ne hname] at h
      obtain ⟨r, hr, hval, hnorm⟩ := ih h
      exact ⟨r, by simp [hr], hval, hnorm⟩

theorem value_normalized (e : Enum) {hist : History} (h : hist.Consistent title)
    {r : BitVec 32 × GoString} (hr : r ∈ hist) :
    (e.register title hist).value (normalizeName title r.2) = some r.1 := by
  rw [Enum.value, nameToValue_register title e h.distinct r hr]

/-- `Value` looks among the normalized names first, so a canonical name denotes its value unless it
    is the normalized name of another one. -/
theorem value_canonical {e : Enum} (hempty : ∀ s, e.value s = none) {hist : History}
    (h : hist.Consistent title) {r : BitVec 32 × GoString} (hr : r ∈ hist)
    (hother : ∀ q ∈ hist, normalizeName title q.2 = r.2 → q.1 = r.1) :
    (e.register title hist).value r.2 = some r.1 := by
  rw [Enum.value]
  cases hfirst : (e.register title hist).nameToValue.lookup r.2 with
  | some v =>
    obtain ⟨q, hq, hval, hnorm⟩ := mem_of_nameToValue_register title hempty hfirst
    rw [← hval, hother q hq hnorm]
  | none =>
    apply canonicalNamesToValue_register title e _ r hr
    intro a ha b hb hname
    exact h.distinct a ha b hb (by rw [hname])

theorem mem_values_register {e : Enum} (hempty : ∀ v, e.name v = none) {hist : History} (v : BitVec 32) :
    v ∈ (e.register title hist).values ↔ ∃ r ∈ hist, r.1 = v := by
  rw [Enum.mem_values]
  constructor
  · rintro ⟨s, hs⟩
    obtain ⟨r, hr, hval, -⟩ := name_register title hempty hs
    exact ⟨r, hr, hval⟩
  · rintro ⟨r, hr, rfl⟩
    exact exists_name_register title e r hr

end

/-! ## Names and values -/

/-- Names and values stay inverse to each other over every history that gives no two values one
    normalized name, nor a name that reads as a number.  A value may be registered any number of times:
    each of its names still denotes it, and it is listed once. -/
theorem register_inverse (title : Bytes → Bytes) {hist : History} (h : hist.Consistent title)
    {e : Enum} (he : e = newEnum.register title hist ∨ e = newBitmask.register title hist) :
    (∀ v, parseEnum (formatEnum v (some e)) (some e) = .ok v) ∧
    (∀ v : BitVec 32, v.toNat < 2 ^ 24 → parseTag (formatTag v (some e)) (some e) = .ok v) ∧
    (∀ r ∈ hist, e.value (normalizeName title r.2) = some r.1 ∧
      ((∀ q ∈ hist, normalizeName title q.2 = r.2 → q.1 = r.1) → e.value r.2 = some r.1)) ∧
    (e.values.Pairwise fun a b => a.toNat < b.toNat) ∧
    ∀ v, v ∈ e.values ↔ ∃ r ∈ hist, r.1 = v := by
  have hcons : e.Consistent title := ⟨hist, h, he⟩
  obtain ⟨e₀, rfl, hnames, hvalues⟩ := exists_empty_table title he
  refine ⟨fun v => hcons.parse_formatEnum v, fun v hv => hcons.parse_formatTag hv, ?_,
    Enum.values_ascending _, mem_values_register title hnames⟩
  intro r hr
  exact ⟨value_normalized title e₀ h hr, value_canonical title hvalues h hr⟩

/-- A value that is renamed, beside one whose canonical name is no normalized name. -/
def renamed : History := [(1, lit "Symmetric Key"), (2, lit "OpaqueObject"), (1, lit "Secret")]

theorem register_inverse_renamed :
    renamed.Consistent id ∧
      (newEnum.register id renamed).value (normalizeName id (lit "Symmetric Key")) = some 1 ∧
      (newEnum.register id renamed).value (lit "Symmetric Key") = some 1 ∧
      parseEnum (formatEnum 1 (some (newEnum.register id renamed))) (some (newEnum.register id renamed)) = .ok 1 := by
  have hcons : renamed.Consistent id := by decide +kernel
  have hall := register_inverse id hcons (Or.inl rfl)
  have hkey := hall.2.2.1 (1, lit "Symmetric Key") (by decide)
  exact ⟨hcons, hkey.1, hkey.2 (by decide +kernel), hall.1 1⟩

/-! ## Distinct names -/

/-- The text of a tag is its name or a hex form, and tells it from every other tag. -/
theorem Enum.Consistent.formatTag_injective {title : Bytes → Bytes} {e : Enum} (h : e.Consistent title)
    {v w : BitVec 32} (heq : formatTag v (some e) = formatTag w (some e)) : v = w := by
  rw [formatTag, formatTag, formatOr, formatOr, Option.bind_some, Option.bind_some] at heq
  cases hv : e.name v with
  | some s =>
    obtain ⟨hvalue, hread, -⟩ := h.value_of_name title hv
    cases hw : e.name w with
    | some s' =>
      rw [hv, hw] at heq
      have hsame : e.value s = some w := by
        rw [show s = s' from heq]
        exact (h.value_of_name title hw).1
      rw [hvalue, Option.some.injEq] at hsame
      exact hsame
    | none =>
      -- a name is refused if it reads as a number, so it is not the hex form of the other tag
      rw [hv, hw] at heq
      have hhex := hread.not_hex
      rw [show s = _ from heq, hasPrefix_append] at hhex
      cases hhex
  | none =>
    cases hw : e.name w with
    | some s' =>
      rw [hv, hw] at heq
      have hhex := (h.value_of_name title hw).2.1.not_hex
      rw [← show _ = s' from heq, hasPrefix_append] at hhex
      cases hhex
    | none =>
      rw [hv, hw] at heq
      have hdigits := congrArg hexNat (List.append_cancel_left heq)
      rw [hexNat_hexPad, hexNat_hexPad] at hdigits
      exact BitVec.eq_of_toNat_eq hdigits

end KmipGo.Reg
