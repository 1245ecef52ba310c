import KmipGo.Decoder.Decode

/-! # The field a tag belongs to

`getTypeInfo` refuses struct types in which two fields have the same tag.  The
decoder's search for the field of a child therefore finds, for the tag of a
field, that field.
-/

namespace KmipGo.Codec

open KmipGo.Lib KmipGo.Ttlv KmipGo.Reg KmipGo.Go KmipGo.Decoder

/-- The tag of a field is its own among the fields a child is matched by. -/
def TagsDiffer (f g : FieldInfo) : Prop :=
  f.flags.any = false → g.flags.any = false → f.tag ≠ tagNone → f.tag ≠ g.tag

theorem checkTags_ok {fields : List FieldInfo} {names : List (Tag × GoString)}
    (h : checkTags fields names = .ok ()) :
    fields.Pairwise TagsDiffer ∧
      ∀ f ∈ fields, f.flags.any = false → f.tag ≠ tagNone → names.lookup f.tag = none := by
  induction fields generalizing names with
  | nil => exact ⟨List.Pairwise.nil, fun f hf => absurd hf List.not_mem_nil⟩
  | cons f rest ih =>
    rw [checkTags] at h
    by_cases hskip : (f.flags.any || f.tag == tagNone) = true
    · rw [if_pos hskip] at h
      obtain ⟨hpair, hnames⟩ := ih h
      have hno : ¬ (f.flags.any = false ∧ f.tag ≠ tagNone) := by
        rintro ⟨hany, htag⟩
        simp [hany, htag] at hskip
      refine ⟨List.Pairwise.cons (fun g _ hany _ htag => absurd ⟨hany, htag⟩ hno) hpair, ?_⟩
      intro g hg hany htag
      cases hg with
      | head => exact absurd ⟨hany, htag⟩ hno
      | tail _ hg => exact hnames g hg hany htag
    · rw [if_neg hskip] at h
      cases hlookup : names.lookup f.tag with
      | some fname =>
        rw [hlookup] at h
        cases h
      | none =>
        rw [hlookup] at h
        obtain ⟨hpair, hnames⟩ := ih h
        have hrest : ∀ g ∈ rest, g.flags.any = false → g.tag ≠ tagNone →
            g.tag ≠ f.tag ∧ names.lookup g.tag = none := by
          intro g hg hany htag
          have hnone := hnames g hg hany htag
          rw [List.lookup_cons] at hnone
          by_cases heq : g.tag = f.tag
          · simp [heq] at hnone
          · rw [beq_eq_false_iff_ne.mpr heq] at hnone
            exact ⟨heq, hnone⟩
        refine ⟨List.Pairwise.cons (fun g hg _ hany htag heq => ?_) hpair, ?_⟩
        · exact (hrest g hg hany (heq ▸ htag)).1 heq.symm
        · intro g hg hany htag
          cases hg with
          | head => exact hlookup
          | tail _ hg => exact (hrest g hg hany htag).2

/-- The fields of an accepted struct type have tags of their own. -/
theorem tagsDiffer_of_getTypeInfo {reg : Registry} {n : GoString} {fs : Fields} {ti : TypeInfo}
    (h : getTypeInfo reg (.struct n fs) = .ok ti) : ti.valueFields.Pairwise TagsDiffer := by
  rw [getTypeInfo, structInfo.eq_def] at h
  cases hslots : getFieldsInfo reg n fs with
  | error e =>
    simp only [hslots] at h
    cases h
  | ok slots =>
    simp only [hslots] at h
    cases hcheck : checkTags (TypeInfo.valueFields ⟨tagNone, slots⟩) [] with
    | error e =>
      simp only [hcheck] at h
      cases h
    | ok u =>
      simp only [hcheck, Except.ok.injEq] at h
      subst h
      exact (checkTags_ok hcheck).1

theorem findField_valueField (tag : Tag) (fi : FieldInfo) (slots : List Slot) (i : Nat)
    (candidate : Option (Nat × FieldInfo)) (hany : fi.flags.any = false) :
    findField tag (.valueField fi :: slots) i candidate =
      if fi.tag = tag then some (i, fi) else findField tag slots (i + 1) candidate := by
  cases candidate <;> simp [findField, hany]

/-- Fields with another tag are passed over. -/
theorem findField_skip {tag : Tag} {slots : List Slot} (rest : List Slot)
    (h : ∀ fi, Slot.valueField fi ∈ slots → fi.flags.any = false → fi.tag ≠ tag) :
    ∀ (i : Nat) (candidate : Option (Nat × FieldInfo)), ∃ candidate',
      findField tag (slots ++ rest) i candidate = findField tag rest (i + slots.length) candidate' := by
  induction slots with
  | nil => exact fun i candidate => ⟨candidate, rfl⟩
  | cons slot slots ih =>
    intro i candidate
    have ih := ih (fun fi hfi => h fi (List.mem_cons_of_mem slot hfi)) (i + 1)
    rw [List.length_cons, show i + (slots.length + 1) = i + 1 + slots.length by omega]
    cases slot with
    | skipped => exact ih candidate
    | tagField fi => exact ih candidate
    | valueField fi =>
      rw [List.cons_append]
      by_cases hany : fi.flags.any = true
      · cases candidate with
        | none =>
          simp only [findField, if_pos hany]
          exact ih _
        | some c =>
          simp only [findField, if_pos hany]
          exact ih _
      · have hany := Bool.eq_false_iff.mpr hany
        rw [findField_valueField _ _ _ _ _ hany, if_neg (h fi (List.mem_cons_self ..) hany)]
        exact ih candidate

/-- The search for the tag of a field finds that field. -/
theorem findField_own {pre post : List Slot} {fi : FieldInfo}
    (h : (TypeInfo.valueFields ⟨tagNone, pre ++ .valueField fi :: post⟩).Pairwise TagsDiffer)
    (hany : fi.flags.any = false) (htag : fi.tag ≠ tagNone) :
    findField fi.tag (pre ++ .valueField fi :: post) 0 none = some (pre.length, fi) := by
  have hpre : ∀ gi, Slot.valueField gi ∈ pre → gi.flags.any = false → gi.tag ≠ fi.tag := by
    intro gi hgi hgany heq
    rw [TypeInfo.valueFields, List.filterMap_append, List.pairwise_append] at h
    have hdiffer := h.2.2 gi (List.mem_filterMap.mpr ⟨_, hgi, rfl⟩) fi (by simp)
    exact hdiffer hgany hany (heq ▸ htag) heq
  obtain ⟨candidate, hskip⟩ := findField_skip (.valueField fi :: post) hpre 0 none
  rw [hskip, findField_valueField _ _ _ _ _ hany, if_pos rfl, Nat.zero_add]

end KmipGo.Codec
