import KmipGo.Registry.Format

/-! # Consistent tables

A table is consistent when it comes from a sequence of `RegisterValue` calls
that never gives two values the same normalized name, nor a name that reads as a
number.  In such a table the name of a value denotes that value
(`Enum.Consistent.value_of_name`), whatever was registered in between.

A registry is standard when its tables are consistent and the types have their
usual names.  The text forms of tags, types and enumeration values are then read
back (`parseTag_formatTag`, `parseType_formatType`, `parseEnum_formatEnum`).
-/

namespace KmipGo.Reg

open KmipGo.Lib KmipGo.Ttlv

/-! ## Word bytes -/

/-- Letters, digits and underscore. -/
def WordByte (b : UInt8) : Prop := isWordRune b.toNat = true

instance (b : UInt8) : Decidable (WordByte b) := inferInstanceAs (Decidable (_ = true))

theorem mem_splitAt {sep b : UInt8} {s w : Bytes} (hw : w ∈ splitAt sep s) (hb : b ∈ w) :
    b ∈ s ∧ b ≠ sep := by
  induction s generalizing w with
  | nil =>
    rw [splitAt, List.mem_singleton] at hw
    rw [hw] at hb
    cases hb
  | cons c s ih =>
    rw [splitAt] at hw
    split at hw
    · rw [List.mem_cons] at hw
      rcases hw with rfl | hw
      · cases hb
      · exact ⟨List.mem_cons_of_mem _ (ih hw hb).1, (ih hw hb).2⟩
    · rename_i hc
      split at hw
      · rw [List.mem_singleton] at hw
        rw [hw, List.mem_singleton] at hb
        rw [hb]
        exact ⟨List.mem_cons_self .., hc⟩
      · rename_i w' ws hsplit
        rw [List.mem_cons] at hw
        rcases hw with rfl | hw
        · rw [List.mem_cons] at hb
          rcases hb with rfl | hb
          · exact ⟨List.mem_cons_self .., hc⟩
          · have hmem := ih (w := w') (by rw [hsplit]; exact List.mem_cons_self ..) hb
            exact ⟨List.mem_cons_of_mem _ hmem.1, hmem.2⟩
        · have hmem := ih (w := w) (by rw [hsplit]; exact List.mem_cons_of_mem _ hw) hb
          exact ⟨List.mem_cons_of_mem _ hmem.1, hmem.2⟩

theorem mem_mapNonWord {rs : List Nat} {b : UInt8} (h : b ∈ mapNonWord rs) : WordByte b ∨ b = 32 := by
  rw [mapNonWord, List.mem_map] at h
  obtain ⟨r, -, rfl⟩ := h
  split
  · rename_i hr
    rw [Bool.or_eq_true, beq_iff_eq] at hr
    rcases hr with hword | rfl
    · left
      have hlt : r < 128 := by
        rw [isWordRune_iff] at hword
        omega
      have hbyte : (UInt8.ofNat r).toNat = r := by
        rw [UInt8.toNat_ofNat']
        omega
      rw [WordByte, hbyte]
      exact hword
    · right
      rfl
  · left
    decide

theorem wordByte_of_mem_nameWords {s : GoString} {w : Bytes} (hw : w ∈ nameWords s) {b : UInt8} (hb : b ∈ w) :
    WordByte b := by
  obtain ⟨hmem, hne⟩ := mem_splitAt hw hb
  rcases mem_mapNonWord hmem with hword | hspace
  · exact hword
  · exact absurd hspace hne

theorem mem_moveDigits {w : Bytes} {b : UInt8} : b ∈ moveDigits w ↔ b ∈ w := by
  rw [moveDigits, List.mem_append, or_comm, ← List.mem_append, List.takeWhile_append_dropWhile]

section

variable (title : Bytes → Bytes)

/-- What is used of `cases.Title`: it changes letters of a word, and only to letters. -/
def KeepsWords : Prop := ∀ w : Bytes, (∀ b ∈ w, WordByte b) → ∀ b ∈ title w, WordByte b

theorem keepsWords_id : KeepsWords id := fun _ h => h

theorem wordByte_of_mem_normalizeName (htitle : KeepsWords title) {s : GoString} {b : UInt8}
    (h : b ∈ normalizeName title s) : WordByte b := by
  rw [normalizeName_eq, List.mem_flatten] at h
  obtain ⟨w, hw, hb⟩ := h
  have hword : ∀ v ∈ nameWords s, ∀ c ∈ v, WordByte c := fun v hv c hc => wordByte_of_mem_nameWords hv hc
  cases hsplit : nameWords s with
  | nil =>
    rw [hsplit, titleWords] at hw
    cases hw
  | cons v vs =>
    rw [hsplit] at hw hword
    rw [titleWords, List.mem_cons, List.mem_map] at hw
    rcases hw with rfl | ⟨u, hu, rfl⟩
    · refine htitle (moveDigits v) ?_ b hb
      intro c hc
      exact hword v (List.mem_cons_self ..) c (mem_moveDigits.mp hc)
    · exact htitle u (hword u (List.mem_cons_of_mem _ hu)) b hb

/-! ## Histories of registrations -/

/-- A name that no parser takes for a number. -/
structure Readable (s : GoString) : Prop where
  ne_nil : s ≠ []
  not_hex : hasPrefix s (lit "0x") = false
  not_decimal : ¬ ∀ b ∈ s, IsDigit b

instance (s : GoString) : Decidable (Readable s) :=
  decidable_of_iff
    (s ≠ [] ∧ hasPrefix s (lit "0x") = false ∧ ¬ (s.all fun b => decide (IsDigit b)) = true)
    ⟨fun h => ⟨h.1, h.2.1, fun hall => h.2.2 (List.all_eq_true.mpr fun b hb => decide_eq_true (hall b hb))⟩,
      fun h => ⟨h.ne_nil, h.not_hex, fun hall => h.not_decimal (forall_mem_of_all hall)⟩⟩

/-- The calls `RegisterValue(v, name)` on a table, the first one first. -/
abbrev History := List (BitVec 32 × GoString)

def Enum.register (e : Enum) (hist : History) : Enum :=
  hist.foldl (fun e r => e.registerValue title r.1 r.2) e

structure History.Consistent (hist : History) : Prop where
  distinct : ∀ r ∈ hist, ∀ s ∈ hist, normalizeName title r.2 = normalizeName title s.2 → r.1 = s.1
  readable : ∀ r ∈ hist, Readable (normalizeName title r.2)

instance (hist : History) : Decidable (hist.Consistent title) :=
  decidable_of_iff
    ((∀ r ∈ hist, ∀ s ∈ hist, normalizeName title r.2 = normalizeName title s.2 → r.1 = s.1) ∧
      ∀ r ∈ hist, Readable (normalizeName title r.2))
    ⟨fun h => ⟨h.1, h.2⟩, fun h => ⟨h.distinct, h.readable⟩⟩

/-- The table of a consistent history. -/
def Enum.Consistent (e : Enum) : Prop :=
  ∃ hist : History, hist.Consistent title ∧
    (e = newEnum.register title hist ∨ e = newBitmask.register title hist)

theorem register_snoc (e : Enum) (hist : History) (r : BitVec 32 × GoString) :
    e.register title (hist ++ [r]) = (e.register title hist).registerValue title r.1 r.2 := by
  rw [Enum.register, List.foldl_append]
  rfl

/-- Every name in the table was registered. -/
theorem name_register {e : Enum} (hempty : ∀ v, e.name v = none) {hist : History} {v : BitVec 32}
    {s : GoString} (h : (e.register title hist).name v = some s) :
    ∃ r ∈ hist, r.1 = v ∧ normalizeName title r.2 = s := by
  induction hist using List.reverseRecOn with
  | nil =>
    rw [Enum.register, List.foldl_nil, hempty] at h
    cases h
  | append_singleton hist r ih =>
    rw [register_snoc] at h
    simp only [Enum.name, Enum.registerValue] at h
    by_cases hv : v = r.1
    · subst hv
      rw [AList.lookup_insert, Option.some.injEq] at h
      exact ⟨r, by simp, rfl, h⟩
    · rw [AList.lookup_insert_ne hv] at h
      obtain ⟨q, hq, hval, hname⟩ := ih h
      exact ⟨q, by simp [hq], hval, hname⟩

/-- A value that is registered once has the name it was registered with. -/
theorem name_register_of_nodup (e : Enum) {hist : History} (hnodup : (hist.map Prod.fst).Nodup) :
    ∀ r ∈ hist, (e.register title hist).name r.1 = some (normalizeName title r.2) := by
  induction hist using List.reverseRecOn with
  | nil =>
    intro r hr
    cases hr
  | append_singleton hist q ih =>
    intro r hr
    rw [List.map_append, List.nodup_append] at hnodup
    obtain ⟨hfirst, -, hlast⟩ := hnodup
    rw [register_snoc]
    simp only [Enum.name, Enum.registerValue]
    rw [List.mem_append, List.mem_singleton] at hr
    rcases hr with hr | rfl
    · have hne : r.1 ≠ q.1 := hlast r.1 (List.mem_map_of_mem hr) q.1 (by simp)
      rw [AList.lookup_insert_ne hne]
      exact ih hfirst r hr
    · rw [AList.lookup_insert]

/-- Every registered name denotes its value, also after the value was given another name. -/
theorem nameToValue_register (e : Enum) {hist : History}
    (hdistinct : ∀ r ∈ hist, ∀ s ∈ hist, normalizeName title r.2 = normalizeName title s.2 → r.1 = s.1) :
    ∀ r ∈ hist, (e.register title hist).nameToValue.lookup (normalizeName title r.2) = some r.1 := by
  induction hist using List.reverseRecOn with
  | nil =>
    intro r hr
    cases hr
  | append_singleton hist q ih =>
    intro r hr
    rw [register_snoc]
    simp only [Enum.registerValue]
    by_cases hname : normalizeName title r.2 = normalizeName title q.2
    · rw [hname, AList.lookup_insert, hdistinct r hr q (by simp) hname]
    · rw [AList.lookup_insert_ne hname]
      rw [List.mem_append, List.mem_singleton] at hr
      rcases hr with hr | rfl
      · exact ih (fun a ha b hb => hdistinct a (by simp [ha]) b (by simp [hb])) r hr
      · exact absurd rfl hname

/-- A value that was registered has a name. -/
theorem exists_name_register (e : Enum) {hist : History} :
    ∀ r ∈ hist, ∃ s, (e.register title hist).name r.1 = some s := by
  induction hist using List.reverseRecOn with
  | nil =>
    intro r hr
    cases hr
  | append_singleton hist q ih =>
    intro r hr
    rw [register_snoc]
    simp only [Enum.name, Enum.registerValue]
    by_cases hv : r.1 = q.1
    · rw [hv, AList.lookup_insert]
      exact ⟨_, rfl⟩
    · rw [AList.lookup_insert_ne hv]
      rw [List.mem_append, List.mem_singleton] at hr
      rcases hr with hr | rfl
      · exact ih r hr
      · exact absurd rfl hv

/-- Whatever a text denotes was registered. -/
theorem value_register {e : Enum} (hempty : ∀ s, e.value s = none) {hist : History} {s : GoString}
    {v : BitVec 32} (h : (e.register title hist).value s = some v) : ∃ r ∈ hist, r.1 = v := by
  induction hist using List.reverseRecOn with
  | nil =>
    rw [Enum.register, List.foldl_nil, hempty] at h
    cases h
  | append_singleton hist q ih =>
    rw [register_snoc] at h
    simp only [Enum.value, Enum.registerValue] at h ih
    -- the text is one of the two names of the last registration, or denotes what it did before
    by_cases hnorm : s = normalizeName title q.2
    · rw [hnorm, AList.lookup_insert] at h
      exact ⟨q, by simp, Option.some.inj h⟩
    · rw [AList.lookup_insert_ne hnorm] at h
      by_cases hcanon : s = q.2
      · cases hold : (e.register title hist).nameToValue.lookup s with
        | some w =>
          rw [hold] at h ih
          obtain ⟨r, hr, hval⟩ := ih h
          exact ⟨r, by simp [hr], hval⟩
        | none =>
          simp only [hold] at h
          rw [hcanon, AList.lookup_insert] at h
          exact ⟨q, by simp, Option.some.inj h⟩
      · rw [AList.lookup_insert_ne hcanon] at h
        obtain ⟨r, hr, hval⟩ := ih h
        exact ⟨r, by simp [hr], hval⟩

/-- Both kinds of tables start empty. -/
theorem exists_empty_table {e : Enum} {hist : History}
    (h : e = newEnum.register title hist ∨ e = newBitmask.register title hist) :
    ∃ e₀ : Enum, e = e₀.register title hist ∧ (∀ v, e₀.name v = none) ∧ ∀ s, e₀.value s = none := by
  rcases h with h | h
  · exact ⟨newEnum, h, fun v => AList.lookup_empty v, fun s => rfl⟩
  · exact ⟨newBitmask, h, fun v => AList.lookup_empty v, fun s => rfl⟩

/-- In a consistent table the name of a value is readable and denotes the value. -/
theorem Enum.Consistent.value_of_name {e : Enum} (h : e.Consistent title) {v : BitVec 32}
    {s : GoString} (hs : e.name v = some s) :
    e.value s = some v ∧ Readable s ∧ ∃ name, s = normalizeName title name := by
  obtain ⟨hist, hcons, he⟩ := h
  obtain ⟨e₀, rfl, hempty, -⟩ := exists_empty_table title he
  obtain ⟨r, hr, rfl, rfl⟩ := name_register title hempty hs
  refine ⟨?_, hcons.readable r hr, r.2, rfl⟩
  rw [Enum.value, nameToValue_register title e₀ hcons.distinct r hr]

/-- What a text denotes in a consistent table has a name there. -/
theorem Enum.Consistent.name_of_value {e : Enum} (h : e.Consistent title) {s : GoString}
    {v : BitVec 32} (hv : e.value s = some v) : ∃ name, e.name v = some name := by
  obtain ⟨hist, -, he⟩ := h
  obtain ⟨e₀, rfl, -, hempty⟩ := exists_empty_table title he
  obtain ⟨r, hr, rfl⟩ := value_register title hempty hv
  exact exists_name_register title e₀ r hr

end

/-! ## Hex forms -/

theorem hasPrefix_append (p s : Bytes) : hasPrefix (p ++ s) p = true := by
  rw [hasPrefix, List.isPrefixOf_iff_prefix]
  exact List.prefix_append p s

theorem decodeUint32_beBytes {w n : Nat} (hw : w ≤ 4) (h : n < 256 ^ w) :
    decodeUint32 (beBytes w n) = BitVec.ofNat 32 n := by
  have hlen : (pad (beBytes w n) 4).length = 4 := by
    rw [pad, List.length_append, List.length_replicate, length_beBytes]
    omega
  rw [decodeUint32, List.take_of_length_le (by omega), pad, beNat_append, beNat_replicate_zero,
    beNat_beBytes_of_lt h, Nat.zero_mul, Nat.zero_add]

theorem parseHexValue_hex {w n maxLen : Nat} (h : n < 256 ^ w) (hw : w ≤ maxLen) :
    parseHexValue (lit "0x" ++ hexPad (2 * w) n) maxLen = .ok (some (beBytes w n)) := by
  have hshort : ¬ (maxLen > 0 ∧ ((beBytes w n).dropWhile (· == 0)).length > maxLen) := by
    have hle := (List.dropWhile_suffix (l := beBytes w n) (· == 0)).length_le
    rw [length_beBytes] at hle
    omega
  rw [parseHexValue, if_pos (hasPrefix_append _ _), List.drop_left' (by decide), hexPad_eq h,
    hexDecode_hexEncode]
  simp only [if_neg hshort]

/-- The hex form of a number is read back whatever names the table holds. -/
theorem parseHexOrName_hex {w n maxLen : Nat} (h : n < 256 ^ w) (hmax : w ≤ maxLen) (hw : w ≤ 4)
    (enumMap : Option Enum) :
    parseHexOrName (lit "0x" ++ hexPad (2 * w) n) maxLen enumMap = .ok (BitVec.ofNat 32 n) := by
  rw [parseHexOrName, parseHexValue_hex h hmax]
  simp only [decodeUint32_beBytes hw h]

theorem parseUint_hex (bits : Nat) (s : Bytes) : parseUint bits (lit "0x" ++ s) = none := by
  apply parseUint_eq_none (b := 120)
  · rw [List.mem_append]
    left
    decide
  · rintro ⟨-, h⟩
    exact absurd h (by decide)

theorem parseEnum_hex (v : BitVec 32) (enumMap : Option Enum) :
    Reg.parseEnum (lit "0x" ++ hexPad 8 v.toNat) enumMap = .ok v := by
  have hv := v.isLt
  have hread := parseHexOrName_hex (w := 4) (n := v.toNat) (by omega) (Nat.le_refl 4) (Nat.le_refl 4)
    enumMap
  rw [Reg.parseEnum, parseUint_hex, hread, BitVec.ofNat_toNat]
  simp

theorem wordByte_of_mem_hexPad {w n : Nat} {b : UInt8} (h : b ∈ hexPad w n) : WordByte b := by
  have hdigit : ∀ d : Fin 16, WordByte (hexDigit d.val) := by decide
  have hnibbles : ∀ w n, ∀ b ∈ nibbles w n, WordByte b := by
    intro w
    induction w with
    | zero =>
      intro n b hb
      cases hb
    | succ w ih =>
      intro n b hb
      rw [nibbles, List.mem_append, List.mem_singleton] at hb
      rcases hb with hb | rfl
      · exact ih _ b hb
      · exact hdigit ⟨n % 16, Nat.mod_lt _ (by decide)⟩
  exact hnibbles _ _ b h

/-! ## Standard registries -/

/-- The names `RegisterTypes` gives the types. -/
def typeName : Typ → GoString
  | .BigInteger => lit "BigInteger"
  | .Boolean => lit "Boolean"
  | .ByteString => lit "ByteString"
  | .DateTime => lit "DateTime"
  | .Enumeration => lit "Enumeration"
  | .Integer => lit "Integer"
  | .Interval => lit "Interval"
  | .LongInteger => lit "LongInteger"
  | .Structure => lit "Structure"
  | .TextString => lit "TextString"
  | .DateTimeExtended => lit "DateTimeExtended"

/-- The registrations of `RegisterTypes`. -/
def typeHistory : History :=
  [.BigInteger, .Boolean, .ByteString, .DateTime, .Enumeration, .Integer, .Interval, .LongInteger,
    .Structure, .TextString, .DateTimeExtended].map fun ty : Typ =>
      (BitVec.ofNat 32 ty.code.toNat, typeName ty)

/-- `RegisterTypes`. -/
def registerTypes (title : Bytes → Bytes) (r : Registry) : Registry :=
  typeHistory.foldl (fun r p => r.registerType title p.1 p.2) r

theorem foldl_registerType (title : Bytes → Bytes) (hist : History) (r : Registry) :
    hist.foldl (fun r p => r.registerType title p.1 p.2) r =
      { r with types := r.types.register title hist } := by
  induction hist generalizing r with
  | nil => rfl
  | cons p hist ih => exact ih _

structure Registry.Standard (title : Bytes → Bytes) (reg : Registry) : Prop where
  keepsWords : KeepsWords title
  tags : reg.tags.Consistent title
  types : reg.types.Consistent title
  enums : ∀ t e, reg.enumForTag t = some e → e.Consistent title
  typeNames : ∀ ty : Typ, reg.types.name (BitVec.ofNat 32 ty.code.toNat) = some (typeName ty)
  noneUnnamed : reg.enumForTag tagNone = none

/-- The name that `v` has under `t`, if any, denotes `v` under `u` as well. -/
def Registry.SharesName (reg : Registry) (t u : Tag) (v : BitVec 32) : Prop :=
  ∀ e s, reg.enumForTag t = some e → e.name v = some s →
    ((reg.enumForTag u).bind fun e => e.value s) = some v

section

variable {title : Bytes → Bytes}

/-- A text that is no hex number is looked up. -/
theorem parseHexOrName_of_not_hex {s : GoString} (h : hasPrefix s (lit "0x") = false) (maxLen : Nat)
    (enumMap : Option Enum) :
    parseHexOrName s maxLen enumMap =
      (enumMap.bind fun e => e.value s).elim (.error (.unregisteredEnumName s)) .ok := by
  have hhex : parseHexValue s maxLen = .ok none := by
    rw [parseHexValue, h]
    rfl
  rw [parseHexOrName, hhex]
  cases enumMap.bind fun e => e.value s <;> rfl

/-- A name that is not a number is looked up. -/
theorem parseHexOrName_readable {s : GoString} (h : Readable s) (maxLen : Nat) (enumMap : Option Enum) :
    parseHexOrName s maxLen enumMap =
      match enumMap.bind fun e => e.value s with
      | some v => .ok v
      | none => .error (.unregisteredEnumName s) := by
  rw [parseHexOrName_of_not_hex h.not_hex]
  cases enumMap.bind fun e => e.value s <;> rfl

theorem parseEnum_readable {s : GoString} (h : Readable s) (enumMap : Option Enum) :
    Reg.parseEnum s enumMap = parseHexOrName s 4 enumMap := by
  have hdec : parseUint 32 s = none := by
    have hother := h.not_decimal
    push Not at hother
    obtain ⟨b, hb, hnot⟩ := hother
    exact parseUint_eq_none hb hnot
  rw [Reg.parseEnum, hdec]

/-- A registered name is read back. -/
theorem parseHexOrName_name {e : Enum} (h : e.Consistent title) {v : BitVec 32} {s : GoString}
    (hs : e.name v = some s) (maxLen : Nat) : parseHexOrName s maxLen (some e) = .ok v := by
  obtain ⟨hvalue, hread, -⟩ := h.value_of_name title hs
  rw [parseHexOrName_readable hread, Option.bind_some, hvalue]

/-- The text of a tag, which is a number of three bytes, is read back. -/
theorem Enum.Consistent.parse_formatTag {e : Enum} (h : e.Consistent title) {v : BitVec 32}
    (hv : v.toNat < 2 ^ 24) : Reg.parseTag (Reg.formatTag v (some e)) (some e) = .ok v := by
  rw [Reg.formatTag, Reg.parseTag, formatOr, Option.bind_some]
  cases hname : e.name v with
  | some s => exact parseHexOrName_name h hname 3
  | none =>
    simp only
    have hread := parseHexOrName_hex (w := 3) (n := v.toNat) (by omega) (Nat.le_refl 3) (by omega)
      (some e)
    rw [show 6 = 2 * 3 by rfl, hread, BitVec.ofNat_toNat]
    simp

theorem Enum.Consistent.parse_formatEnum {e : Enum} (h : e.Consistent title) (v : BitVec 32) :
    Reg.parseEnum (Reg.formatEnum v (some e)) (some e) = .ok v := by
  rw [Reg.formatEnum, formatOr, Option.bind_some]
  cases hname : e.name v with
  | some s =>
    obtain ⟨-, hread, -⟩ := h.value_of_name title hname
    simp only [parseEnum_readable hread]
    exact parseHexOrName_name h hname 4
  | none => exact parseEnum_hex v (some e)

/-- Whether a name or a hex form is written, it is made of word bytes. -/
theorem wordByte_of_mem_formatOr (htitle : KeepsWords title) {w : Nat} {v : BitVec 32}
    {enumMap : Option Enum} (h : ∀ e, enumMap = some e → e.Consistent title) {b : UInt8}
    (hb : b ∈ formatOr w v enumMap) : WordByte b := by
  rw [formatOr] at hb
  split at hb
  · rename_i s hs
    rw [Option.bind_eq_some_iff] at hs
    obtain ⟨e, he, hname⟩ := hs
    obtain ⟨-, -, name, rfl⟩ := (h e he).value_of_name title hname
    exact wordByte_of_mem_normalizeName title htitle hb
  · rw [List.mem_append] at hb
    rcases hb with hb | hb
    · have hlit : ∀ b ∈ lit "0x", WordByte b := forall_mem_of_all (by decide)
      exact hlit b hb
    · exact wordByte_of_mem_hexPad hb

namespace Registry.Standard

variable {reg : Registry} (h : reg.Standard title)

include h

theorem parseTag_formatTag {t : Tag} (ht : t.toNat < 2 ^ 24) : reg.parseTag (reg.formatTag t) = .ok t :=
  h.tags.parse_formatTag ht

/-- The text of a value under one tag, read under another. -/
theorem parseEnum_formatEnum_iff (t u : Tag) (v : BitVec 32) :
    reg.parseEnum u (reg.formatEnum t v) = .ok v ↔ reg.SharesName t u v := by
  rw [Registry.parseEnum, Registry.formatEnum, Reg.formatEnum, formatOr]
  cases henum : reg.enumForTag t with
  | none =>
    refine iff_of_true (parseEnum_hex v _) ?_
    intro e s he
    rw [henum] at he
    cases he
  | some e =>
    rw [Option.bind_some]
    cases hname : e.name v with
    | none =>
      refine iff_of_true (parseEnum_hex v _) ?_
      intro e' s he hs
      rw [henum] at he
      cases he
      rw [hname] at hs
      cases hs
    | some s =>
      obtain ⟨-, hread, -⟩ := (h.enums t e henum).value_of_name title hname
      simp only [parseEnum_readable hread, parseHexOrName_readable hread]
      constructor
      · intro hparse e' s' he hs
        rw [henum] at he
        cases he
        rw [hname] at hs
        cases hs
        split at hparse
        · rename_i w hw
          cases hparse
          exact hw
        · cases hparse
      · intro hshare
        rw [hshare e s henum hname]

theorem sharesName_self (t : Tag) (v : BitVec 32) : reg.SharesName t t v := by
  intro e s he hs
  rw [he, Option.bind_some, ((h.enums t e he).value_of_name title hs).1]

theorem sharesName_none (u : Tag) (v : BitVec 32) : reg.SharesName tagNone u v := by
  intro e s he
  rw [h.noneUnnamed] at he
  cases he

theorem parseEnum_formatEnum (t : Tag) (v : BitVec 32) :
    reg.parseEnum t (reg.formatEnum t v) = .ok v :=
  (h.parseEnum_formatEnum_iff t t v).mpr (h.sharesName_self t v)

theorem formatType_code (ty : Typ) : reg.formatType ty.code = typeName ty := by
  rw [Registry.formatType, Reg.formatType, formatOr, Option.bind_some, h.typeNames]

theorem parseType_typeName (ty : Typ) : reg.parseType (typeName ty) = .ok ty.code := by
  obtain ⟨hvalue, hread, -⟩ := h.types.value_of_name title (h.typeNames ty)
  have hhex : parseHexValue (typeName ty) 1 = .ok none := by
    rw [parseHexValue, hread.not_hex]
    rfl
  rw [Registry.parseType, Reg.parseType, hhex]
  simp only [Option.bind_some, hvalue]
  cases ty <;> rfl

theorem wordByte_of_mem_formatTag {t : Tag} {b : UInt8} (hb : b ∈ reg.formatTag t) : WordByte b :=
  wordByte_of_mem_formatOr h.keepsWords (fun e he => by cases he; exact h.tags) hb

theorem wordByte_of_mem_formatEnum {t : Tag} {v : BitVec 32} {b : UInt8}
    (hb : b ∈ reg.formatEnum t v) : WordByte b :=
  wordByte_of_mem_formatOr h.keepsWords (fun e he => h.enums t e he) hb

end Registry.Standard

theorem normalizeName_typeHistory (hnames : ∀ ty, normalizeName title (typeName ty) = typeName ty)
    {r : BitVec 32 × GoString} (hr : r ∈ typeHistory) : normalizeName title r.2 = r.2 := by
  rw [typeHistory, List.mem_map] at hr
  obtain ⟨ty, -, rfl⟩ := hr
  exact hnames ty

/-- Consistent tags and enumerations, and the standard types. -/
theorem standard_registerTypes {reg : Registry} (htitle : KeepsWords title)
    (hnames : ∀ ty, normalizeName title (typeName ty) = typeName ty) (htypes : reg.types = newEnum)
    (htags : reg.tags.Consistent title) (henums : ∀ t e, reg.enumForTag t = some e → e.Consistent title)
    (hnone : reg.enumForTag tagNone = none) : (registerTypes title reg).Standard title := by
  rw [registerTypes, foldl_registerType]
  refine ⟨htitle, htags, ?_, henums, fun ty => ?_, hnone⟩
  · refine ⟨typeHistory, ⟨?_, ?_⟩, Or.inl (congrArg (fun e => Enum.register title e typeHistory) htypes)⟩
    · intro r hr s hs heq
      rw [normalizeName_typeHistory hnames hr, normalizeName_typeHistory hnames hs] at heq
      revert r s
      decide
    · intro r hr
      rw [normalizeName_typeHistory hnames hr]
      revert r
      decide
  · have hmem : (BitVec.ofNat 32 ty.code.toNat, typeName ty) ∈ typeHistory := by
      cases ty <;> decide
    have hname := name_register_of_nodup title reg.types
      (by decide : (typeHistory.map Prod.fst).Nodup) _ hmem
    rw [hnames] at hname
    exact hname

end

end KmipGo.Reg
