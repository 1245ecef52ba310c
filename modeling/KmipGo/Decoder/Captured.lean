import KmipGo.Decoder.Outcome

/-! # Slices that are stored as they came

An interface takes a Structure, and a field of type TTLV takes anything, by
storing the slice it is handed.  The walk over a structure hands out slices that
run to the end of the structure, so what is stored is the matched child and all
of its later siblings.

* `captured` — the slices that a value holds.
* `stored` — the slices that remain stored after a decode, from the types and the
  input alone; `captured_eq_stored` says that these are the captured ones.
* `block_eq_iff_next` — a slice is its own block exactly when nothing follows it.
-/

namespace KmipGo.Decoder

open KmipGo.Lib KmipGo.Ttlv KmipGo.Reg KmipGo.Go

mutual
/-- The slices in a place; the zero TTLV is not one. -/
def Place.raws : Place → List TTLV
  | .raw t => if t.length = 0 then [] else [t]
  | .ptr p => p.raws
  | .tuple ps => placesRaws ps
  | .plain | .bigInt => []
def placesRaws : List Place → List TTLV
  | [] => []
  | p :: ps => p.raws ++ placesRaws ps
end

/-- The raw TTLVs that a value holds in its fields and elements. -/
def captured {ty : GoType} (v : GoVal ty) : List TTLV := (placeOf v).raws

theorem mem_placesRaws {c : TTLV} {ps : List Place} : c ∈ placesRaws ps ↔ ∃ p ∈ ps, c ∈ p.raws := by
  induction ps with
  | nil => simp [placesRaws]
  | cons p ps ih => simp [placesRaws, ih]

mutual
theorem raws_zero : ∀ ty : GoType, (Place.zero ty).raws = []
  | .scalar s => by
    cases s with
    | ttlv => rfl
    | _ => rfl
  | .iface => rfl
  | .ptr _ => rfl
  | .slice _ _ => rfl
  | .array _ _ => rfl
  | .struct _ fs => placesRaws_zeros fs
  | .value => rfl
  | .marshaler _ _ => rfl
theorem placesRaws_zeros : ∀ fs : Fields, placesRaws (Place.zeros fs) = []
  | .nil => rfl
  | .cons _ ty rest => by
    rw [Place.zeros, placesRaws, raws_zero ty, placesRaws_zeros rest]
    rfl
end

section

variable (reg : Registry)

/-- The slices that remain stored after the leading block of `b` has been decoded into a fresh
    destination. -/
def stored (ty : GoType) (b : Bytes) : List TTLV :=
  (arrivals reg false ty (Place.zero ty) (TTLV.block b)).2.raws

theorem captured_eq_stored {ty : GoType} {b : Bytes} {v : GoVal ty}
    (h : unmarshalBytes reg ty b = (v, .ok ())) : captured v = stored reg ty b := by
  by_cases hbad : BadFrame b
  · obtain ⟨e, he⟩ := nextTTLV_of_badFrame hbad
    rw [unmarshalBytes, he] at h
    cases h
  · have hfollow := unmarshal_follows reg ty newDecoder false ty.zero (TTLV.block b) rfl
    rw [unmarshalBytes, nextTTLV_of_not_badFrame hbad] at h
    simp only at h
    rw [h] at hfollow
    rw [captured, stored, ← placeOf_zero, ← hfollow.state rfl]

/-! ## Stored slices are valid -/

/-- Every slice in a place begins with a valid block. -/
def Place.Valid (p : Place) : Prop := ∀ c ∈ p.raws, c.IsValid

theorem valid_zero (ty : GoType) : (Place.zero ty).Valid := by
  intro c hc
  rw [raws_zero] at hc
  exact absurd hc List.not_mem_nil

theorem valid_raw {t : TTLV} (h : t.IsValid) : (Place.raw t).Valid := by
  intro c hc
  rw [Place.raws] at hc
  split at hc
  · exact absurd hc List.not_mem_nil
  · rw [List.mem_singleton.mp hc]
    exact h

theorem valid_plain : Place.plain.Valid := fun _ hc => absurd hc List.not_mem_nil

theorem valid_bigInt : Place.bigInt.Valid := fun _ hc => absurd hc List.not_mem_nil

theorem valid_tuple {ps : List Place} : (Place.tuple ps).Valid ↔ ∀ p ∈ ps, p.Valid := by
  constructor
  · intro h p hp c hc
    exact h c (mem_placesRaws.mpr ⟨p, hp, hc⟩)
  · intro h c hc
    obtain ⟨p, hp, hc⟩ := mem_placesRaws.mp hc
    exact h p hp c hc

theorem valid_parts {p : Place} (h : p.Valid) : ∀ q ∈ p.parts, q.Valid := by
  cases p with
  | tuple ps => exact valid_tuple.mp h
  | _ => exact fun _ hq => absurd hq List.not_mem_nil

mutual
theorem arrivals_valid : ∀ (ty : GoType) (deref : Bool) (p : Place) (t : TTLV), t.IsValid → p.Valid →
    (arrivals reg deref ty p t).2.Valid
  | .scalar s, deref, p, t, hv, hp => by
    rw [arrivals]
    by_cases h0 : t.length = 0
    · rw [if_pos h0]
      exact hp
    · rw [if_neg h0]
      by_cases hs : s = .ttlv
      · simp only [if_pos hs]
        exact valid_raw hv
      · simp only [if_neg hs]
        exact hp
  | .iface, deref, p, t, hv, hp => by
    unfold arrivals
    split
    · exact hp
    · split
      · exact valid_bigInt
      · simp only
        split
        · exact valid_raw hv
        · exact valid_bigInt
        · exact valid_plain
  | .ptr e, deref, p, t, hv, hp => by
    unfold arrivals
    split
    · exact hp
    · split
      · exact arrivals_valid e false _ t hv hp
      · exact arrivals_valid e false _ t hv (valid_zero e)
      · split
        · exact arrivals_valid e false _ t hv hp
        · exact hp
      · exact hp
  | .slice n e, deref, p, t, hv, hp => by
    rw [arrivals]
    split
    · exact hp
    · refine valid_tuple.mpr fun q hq => ?_
      cases List.mem_append.mp hq with
      | inl hq => exact valid_parts hp q hq
      | inr hq =>
        rw [List.mem_singleton.mp hq]
        exact arrivals_valid e true _ t hv (valid_zero e)
  | .struct n fs, deref, p, t, hv, hp => by
    rw [arrivals]
    split
    · exact hp
    · split
      · rename_i hs
        cases getTypeInfo reg (.struct n fs) with
        | error e => exact hp
        | ok ti =>
          refine valid_tuple.mpr (collect_invariant (P := fun ps => ∀ q ∈ ps, Place.Valid q)
            (fun ps c hc hps => ?_) (valid_parts hp))
          -- a child changes one place, to one that is valid
          rw [childArrivals]
          cases findField c.tag ti.slots 0 none with
          | none => exact hps
          | some found =>
            intro q hq
            have hold : ((ps[found.1]?).getD .plain).Valid := by
              cases hget : ps[found.1]? with
              | none => exact valid_plain
              | some r => exact hps r (List.mem_of_getElem? hget)
            cases List.mem_or_eq_of_mem_set hq with
            | inl hq => exact hps q hq
            | inr hq =>
              rw [hq]
              exact fieldArrivals_valid fs found.1 _ c (isValid_of_mem_children hv hs hc) hold
      · exact hp
  | .array l e, deref, p, t, hv, hp => by
    rw [arrivals]
    split <;> exact hp
  | .value, deref, p, t, hv, hp => by
    rw [arrivals]
    split <;> exact hp
  | .marshaler n r, deref, p, t, hv, hp => by
    rw [arrivals]
    split <;> exact hp
theorem fieldArrivals_valid : ∀ (fs : Fields) (i : Nat) (p : Place) (n : TTLV), n.IsValid → p.Valid →
    (fieldArrivals reg fs i p n).2.Valid
  | .nil, _, _, _, _, hp => hp
  | .cons _ ty _, 0, p, n, hv, hp => arrivals_valid ty true p n hv hp
  | .cons _ _ rest, i + 1, p, n, hv, hp => fieldArrivals_valid rest i p n hv hp
end

theorem isValid_of_mem_stored {ty : GoType} {b : Bytes} {c : TTLV} (hv : TTLV.IsValid b)
    (hc : c ∈ stored reg ty b) : c.IsValid :=
  arrivals_valid reg ty false _ _ (isValid_block hv) (valid_zero ty) c hc

end

/-- A valid slice is its own block exactly when it has no `Next`. -/
theorem block_eq_iff_next {c : TTLV} (hv : c.IsValid) : c.block = c ↔ c.next = none := by
  obtain ⟨b, hsize, rest, rfl⟩ := isValid_iff.mp hv
  rw [block_bytes_append b rest hsize, next_bytes_append b rest hsize]
  constructor
  · intro h
    rw [if_pos]
    have hlen := congrArg List.length h
    rw [List.length_append] at hlen
    omega
  · intro h
    by_cases hrest : rest.length = 0
    · rw [List.length_eq_zero_iff.mp hrest, List.append_nil]
    · rw [if_neg hrest] at h
      cases h

end KmipGo.Decoder
