import KmipGo.Text.Form
import Mathlib.Data.List.TakeWhile

/-! # Normalized names

What `NormalizeName` does to a name that is normalized already.  Such a name is
one word of letters, digits and underscores.  The steps on brackets, boundaries
and other runes do nothing on it, and so the second run is steps 4 and 5 on the
whole name.  Step 5 finds every letter that is first in a word upper-cased.
Step 4 does something: on the first run it moves the digits of the first word
only, so that digits are left in front of the name when the first word has
nothing else.

* `normalizeName_of_word` — the second run.
* `normalizeName_idem_iff` — when it changes nothing.
* `normalizeName_stable` — what can be relied on, for the names of attributes.
-/

namespace KmipGo.Text

open KmipGo.Lib KmipGo.Ttlv KmipGo.Reg

/-! ## Letter case -/

def upperByte (b : UInt8) : UInt8 := if isLowerRune b.toNat then b - 32 else b

theorem toNat_upperByte (b : UInt8) :
    (upperByte b).toNat = if 97 ≤ b.toNat ∧ b.toNat ≤ 122 then b.toNat - 32 else b.toNat := by
  by_cases h : 97 ≤ b.toNat ∧ b.toNat ≤ 122
  · have hle : (32 : UInt8) ≤ b := by
      rw [UInt8.le_iff_toNat_le]
      exact Nat.le_trans (by decide) h.1
    rw [upperByte, isLowerRune, decide_eq_true h, if_pos rfl, if_pos h, UInt8.toNat_sub_of_le _ _ hle]
    rfl
  · rw [upperByte, isLowerRune, decide_eq_false h, if_neg Bool.false_ne_true, if_neg h]

theorem upperByte_upperByte (b : UInt8) : upperByte (upperByte b) = upperByte b := by
  apply UInt8.toNat_inj.mp
  rw [toNat_upperByte, toNat_upperByte]
  split
  · rw [if_neg (by omega)]
  · rfl

theorem upperByte_ite (p : Bool) (b : UInt8) : upperByte (if p then upperByte b else b) = upperByte b := by
  split
  · exact upperByte_upperByte b
  · rfl

theorem isDigit_upperByte (b : UInt8) : IsDigit (upperByte b) ↔ IsDigit b := by
  rw [IsDigit, IsDigit, toNat_upperByte]
  split <;> omega

theorem isDigit_congr {b c : UInt8} (h : upperByte c = upperByte b) : IsDigit c ↔ IsDigit b := by
  rw [← isDigit_upperByte, h, isDigit_upperByte]

theorem wordByte_upperByte (b : UInt8) : WordByte (upperByte b) ↔ WordByte b := by
  rw [WordByte, WordByte, isWordRune_iff, isWordRune_iff, toNat_upperByte]
  split <;> omega

/-- Equal but for the case of letters. -/
def SameLetters (u v : Bytes) : Prop := u.map upperByte = v.map upperByte

theorem SameLetters.exists_mem {u v : Bytes} (h : SameLetters u v) {b : UInt8} (hb : b ∈ u) :
    ∃ c ∈ v, upperByte c = upperByte b := by
  have hmem : upperByte b ∈ u.map upperByte := List.mem_map_of_mem hb
  rw [h] at hmem
  exact List.mem_map.mp hmem

theorem SameLetters.wordByte {u v : Bytes} (h : SameLetters u v) (hv : ∀ c ∈ v, WordByte c) :
    ∀ b ∈ u, WordByte b := by
  intro b hb
  obtain ⟨c, hc, hsame⟩ := h.exists_mem hb
  rw [← wordByte_upperByte, ← hsame, wordByte_upperByte]
  exact hv c hc

theorem SameLetters.append {u v x y : Bytes} (h : SameLetters u v) (h' : SameLetters x y) :
    SameLetters (u ++ x) (v ++ y) := by
  rw [SameLetters, List.map_append, List.map_append, h, h']

/-! ## Capitalisation -/

/-- The letters that are first after what is before them, upper-cased. -/
def titleFrom (first : Bytes → Bool) (before : Bytes) : Bytes → Bytes
  | [] => []
  | b :: w => (if first before then upperByte b else b) :: titleFrom first (before ++ [b]) w

/-- What is assumed of `cases.Title` with `NoLower`: on letters, digits and underscores it upper-cases the
    letters that are first in a word, and does nothing else.  Where words begin is left to the library.
    It tells a first letter by the text before it, whatever the case of that text, and a letter that is
    first after a text is also first after an end of it. -/
structure TitleCases (title : Bytes → Bytes) (first : Bytes → Bool) : Prop where
  title_eq : ∀ w : Bytes, (∀ b ∈ w, WordByte b) → title w = titleFrom first [] w
  first_of_suffix : ∀ u v : Bytes, v.map upperByte <:+ u.map upperByte → first u = true → first v = true

section

variable (first : Bytes → Bool)

theorem titleFrom_append (u x y : Bytes) :
    titleFrom first u (x ++ y) = titleFrom first u x ++ titleFrom first (u ++ x) y := by
  induction x generalizing u with
  | nil => rw [List.nil_append, titleFrom, List.nil_append, List.append_nil]
  | cons b x ih =>
    rw [List.cons_append, titleFrom, ih, titleFrom, List.cons_append, List.append_assoc, List.singleton_append]

theorem sameLetters_titleFrom (u w : Bytes) : SameLetters (titleFrom first u w) w := by
  induction w generalizing u with
  | nil => rfl
  | cons b w ih =>
    rw [SameLetters, titleFrom, List.map_cons, List.map_cons, upperByte_ite, ih (u ++ [b])]

theorem sameLetters_flatten (ws : List Bytes) :
    SameLetters (ws.map (titleFrom first [])).flatten ws.flatten := by
  induction ws with
  | nil => rfl
  | cons w ws ih =>
    rw [List.map_cons, List.flatten_cons, List.flatten_cons]
    exact (sameLetters_titleFrom first [] w).append ih

end

section

variable {title : Bytes → Bytes} {first : Bytes → Bool} (h : TitleCases title first)

include h

/-- What is capitalised stays as it is after any text that ends with what was before it. -/
theorem TitleCases.titleFrom_titleFrom {u v : Bytes} (hcut : v.map upperByte <:+ u.map upperByte) (w : Bytes) :
    titleFrom first u (titleFrom first v w) = titleFrom first v w := by
  induction w generalizing u v with
  | nil => rfl
  | cons b w ih =>
    have hhead : (if first u then upperByte (if first v then upperByte b else b)
        else if first v then upperByte b else b) = if first v then upperByte b else b := by
      by_cases hu : first u = true
      · rw [if_pos hu, if_pos (h.first_of_suffix u v hcut hu), upperByte_upperByte]
      · rw [if_neg hu]
    rw [titleFrom, titleFrom, hhead, ih]
    -- the texts before the rest grow by one byte, which has the same letter in both
    obtain ⟨cut, hcut⟩ := hcut
    refine ⟨cut, ?_⟩
    rw [List.map_append, List.map_append, ← hcut, List.append_assoc, List.map_singleton, List.map_singleton,
      upperByte_ite]

/-- Words that are capitalised one by one are capitalised as one. -/
theorem TitleCases.titleFrom_flatten (u : Bytes) (ws : List Bytes) :
    titleFrom first u (ws.map (titleFrom first [])).flatten = (ws.map (titleFrom first [])).flatten := by
  induction ws generalizing u with
  | nil => rfl
  | cons w ws ih =>
    have hcut : ([] : Bytes).map upperByte <:+ u.map upperByte := List.nil_suffix
    rw [List.map_cons, List.flatten_cons, titleFrom_append, ih, h.titleFrom_titleFrom hcut]

theorem TitleCases.keepsWords : KeepsWords title := by
  intro w hw
  rw [h.title_eq w hw]
  exact (sameLetters_titleFrom first [] w).wordByte hw

end

/-! ## Leading digits -/

/-- Digits, and then something else. -/
def DigitsLead (w : Bytes) : Prop := (∃ d ∈ w.head?, IsDigit d) ∧ ∃ b ∈ w, ¬ IsDigit b

instance decidableDigitsLead (w : Bytes) : Decidable (DigitsLead w) := inferInstanceAs (Decidable (_ ∧ _))

theorem not_digitsLead_cons {c : UInt8} (h : ¬ IsDigit c) (w : Bytes) : ¬ DigitsLead (c :: w) := by
  rintro ⟨⟨d, hd, hdigit⟩, -⟩
  rw [List.head?_cons, Option.mem_some_iff] at hd
  rw [← hd] at hdigit
  exact h hdigit

theorem moveDigits_of_all {w : Bytes} (h : ∀ b ∈ w, IsDigit b) : moveDigits w = w := by
  have hdrop : w.dropWhile (fun b => isDigitRune b.toNat) = [] :=
    List.dropWhile_eq_nil_iff.mpr fun b hb => decide_eq_true (h b hb)
  have hall := @List.takeWhile_append_dropWhile _ (fun b : UInt8 => isDigitRune b.toNat) w
  rw [hdrop, List.append_nil] at hall
  rw [moveDigits, hdrop, List.nil_append, hall]

/-- If there is something behind the digits, it comes to the front. -/
theorem exists_moveDigits {w : Bytes} (h : ∃ b ∈ w, ¬ IsDigit b) :
    ∃ c rest, moveDigits w = c :: rest ∧ ¬ IsDigit c := by
  rw [moveDigits]
  cases hdrop : w.dropWhile (fun b => isDigitRune b.toNat) with
  | nil =>
    obtain ⟨b, hb, hother⟩ := h
    exact absurd (of_decide_eq_true (List.dropWhile_eq_nil_iff.mp hdrop b hb)) hother
  | cons c rest =>
    refine ⟨c, rest ++ w.takeWhile (fun b => isDigitRune b.toNat), List.cons_append, ?_⟩
    have hstop := List.head?_dropWhile_not (fun b : UInt8 => isDigitRune b.toNat) w
    rw [hdrop, List.head?_cons] at hstop
    exact of_decide_eq_false hstop

theorem moveDigits_of_not_digitsLead {w : Bytes} (h : ¬ DigitsLead w) : moveDigits w = w := by
  cases w with
  | nil => rfl
  | cons d w =>
    by_cases hd : IsDigit d
    · -- digits in front and nothing else behind them
      apply moveDigits_of_all
      intro b hb
      by_contra hother
      exact h ⟨⟨d, rfl, hd⟩, b, hb, hother⟩
    · have hstop : ¬ isDigitRune d.toNat = true := fun hdigit => hd (of_decide_eq_true hdigit)
      rw [moveDigits, List.dropWhile_cons, List.takeWhile_cons, if_neg hstop, if_neg hstop, List.append_nil]

/-- Digits lead a name whose first word has its digits moved only if that word has nothing else. -/
theorem digitsLead_moveDigits_append (w rest : Bytes) :
    DigitsLead (moveDigits w ++ rest) ↔ (∀ b ∈ w, IsDigit b) ∧ DigitsLead (w ++ rest) := by
  by_cases hall : ∀ b ∈ w, IsDigit b
  · rw [moveDigits_of_all hall, and_iff_right hall]
  · refine iff_of_false ?_ (fun h => hall h.1)
    push Not at hall
    obtain ⟨c, tail, heq, hc⟩ := exists_moveDigits hall
    rw [heq, List.cons_append]
    exact not_digitsLead_cons hc _

theorem not_digitsLead_moveDigits (w : Bytes) : ¬ DigitsLead (moveDigits w) := by
  intro h
  rw [← List.append_nil (moveDigits w), digitsLead_moveDigits_append, List.append_nil] at h
  obtain ⟨hall, -, b, hb, hother⟩ := h
  exact hother (hall b hb)

theorem SameLetters.digitsLead {u v : Bytes} (h : SameLetters u v) (hu : DigitsLead u) : DigitsLead v := by
  obtain ⟨⟨d, hd, hdigit⟩, b, hb, hother⟩ := hu
  constructor
  · have hhead := congrArg List.head? h
    rw [List.head?_map, List.head?_map, Option.mem_def.mp hd, Option.map_some] at hhead
    obtain ⟨c, hc, hsame⟩ := Option.map_eq_some_iff.mp hhead.symm
    exact ⟨c, hc, (isDigit_congr hsame).mpr hdigit⟩
  · obtain ⟨c, hc, hsame⟩ := h.exists_mem hb
    exact ⟨c, hc, mt (isDigit_congr hsame).mp hother⟩

theorem SameLetters.digitsLead_iff {u v : Bytes} (h : SameLetters u v) : DigitsLead u ↔ DigitsLead v :=
  ⟨h.digitsLead, SameLetters.digitsLead h.symm⟩

/-! ## The second run -/

theorem spaceBoundaries_of_word {rs : List Nat} (h : ∀ r ∈ rs, isWordRune r = true) :
    spaceBoundaries rs = rs := by
  induction rs using spaceBoundaries.induct with
  | case1 r a b rest hmatch ih =>
    -- a match begins with a rune that is not in a word
    have hr := h r (List.mem_cons_self ..)
    rw [hr] at hmatch
    cases hmatch
  | case2 r a b rest hmatch ih =>
    rw [spaceBoundaries, if_neg hmatch, ih fun x hx => h x (List.mem_cons_of_mem _ hx)]
  | case3 rs hshort => rw [spaceBoundaries.eq_2 rs hshort]

/-- A name of letters, digits and underscores is one word. -/
theorem nameWords_of_word {s : GoString} (h : ∀ b ∈ s, WordByte b) : nameWords s = [s] := by
  have hrange : ∀ b ∈ s, b.toNat < 0x80 ∧ ¬ (b.toNat = 40 ∨ b.toNat = 41) ∧ b ≠ 32 := by
    intro b hb
    have hword := h b hb
    have hspace : b ≠ 32 := by
      rintro rfl
      exact absurd hword (by decide)
    rw [WordByte, isWordRune_iff] at hword
    exact ⟨by omega, by omega, hspace⟩
  have hbrackets : mapBrackets (s.map UInt8.toNat) = s.map UInt8.toNat := by
    rw [mapBrackets, List.map_map]
    apply List.map_congr_left
    intro b hb
    exact if_neg (hrange b hb).2.1
  have hboundaries : spaceBoundaries (s.map UInt8.toNat) = s.map UInt8.toNat := by
    apply spaceBoundaries_of_word
    intro r hr
    obtain ⟨b, hb, rfl⟩ := List.mem_map.mp hr
    exact h b hb
  have hkept : mapNonWord (s.map UInt8.toNat) = s := by
    rw [mapNonWord, List.map_map]
    conv_rhs => rw [← List.map_id s]
    apply List.map_congr_left
    intro b hb
    have hword : isWordRune b.toNat = true := h b hb
    simp only [Function.comp_apply, hword, Bool.true_or, if_true, UInt8.ofNat_toNat, id]
  rw [nameWords, runes_of_ascii fun b hb => (hrange b hb).1, hbrackets, hboundaries, hkept]
  exact splitAt_of_notMem fun hspace => (hrange 32 hspace).2.2 rfl

theorem normalizeName_of_word (title : Bytes → Bytes) {s : GoString} (h : ∀ b ∈ s, WordByte b) :
    normalizeName title s = title (moveDigits s) := by
  rw [normalizeName_eq, nameWords_of_word h, titleWords, List.map_nil, List.flatten_singleton]

/-- The part of a name before its first space, as step 4 finds it. -/
def firstWord (s : GoString) : Bytes := (nameWords s).headD []

/-- The first word has nothing to move its digits behind, and digits are in front of the whole name. -/
structure DigitsInFront (s : GoString) : Prop where
  first : ∀ b ∈ firstWord s, IsDigit b
  lead : DigitsLead (nameWords s).flatten

instance decidableDigitsInFront (s : GoString) : Decidable (DigitsInFront s) :=
  decidable_of_iff (((firstWord s).all fun b => decide (IsDigit b)) = true ∧ DigitsLead (nameWords s).flatten)
    ⟨fun h => ⟨forall_mem_of_all h.1, h.2⟩,
      fun h => ⟨List.all_eq_true.mpr fun b hb => decide_eq_true (h.first b hb), h.lead⟩⟩

theorem exists_nameWords (s : GoString) : ∃ w ws, nameWords s = w :: ws :=
  List.exists_cons_of_ne_nil (splitAt_ne_nil 32 _)

theorem firstWord_eq {s : GoString} {w : Bytes} {ws : List Bytes} (hs : nameWords s = w :: ws) :
    firstWord s = w := by
  rw [firstWord, hs, List.headD_cons]

theorem digitsInFront_iff {s : GoString} {w : Bytes} {ws : List Bytes} (hs : nameWords s = w :: ws) :
    DigitsInFront s ↔ (∀ b ∈ w, IsDigit b) ∧ DigitsLead (w ++ ws.flatten) := by
  rw [← List.flatten_cons, ← hs, ← firstWord_eq hs]
  exact ⟨fun h => ⟨h.first, h.lead⟩, fun h => ⟨h.1, h.2⟩⟩

theorem digitsInFront_iff_of_ne_nil {s : GoString} (hne : firstWord s ≠ []) :
    DigitsInFront s ↔ (∀ b ∈ firstWord s, IsDigit b) ∧ ∃ b ∈ (nameWords s).flatten, ¬ IsDigit b := by
  obtain ⟨w, ws, hs⟩ := exists_nameWords s
  rw [firstWord_eq hs] at hne ⊢
  -- the digit in front is the first one of the first word
  obtain ⟨d, tail, rfl⟩ := List.exists_cons_of_ne_nil hne
  rw [digitsInFront_iff hs, hs, List.flatten_cons, DigitsLead]
  constructor
  · rintro ⟨hall, -, hother⟩
    exact ⟨hall, hother⟩
  · rintro ⟨hall, hother⟩
    exact ⟨hall, ⟨d, rfl, hall d (List.mem_cons_self ..)⟩, hother⟩

section

variable {title : Bytes → Bytes} {first : Bytes → Bool} (h : TitleCases title first)

include h

theorem TitleCases.normalizeName_words {s : GoString} {w : Bytes} {ws : List Bytes} (hs : nameWords s = w :: ws) :
    normalizeName title s = ((moveDigits w :: ws).map (titleFrom first [])).flatten := by
  have hword : ∀ v ∈ w :: ws, ∀ b ∈ v, WordByte b := by
    intro v hv b hb
    rw [← hs] at hv
    exact wordByte_of_mem_nameWords hv hb
  have hfirst : title (moveDigits w) = titleFrom first [] (moveDigits w) :=
    h.title_eq _ fun b hb => hword w (List.mem_cons_self ..) b (mem_moveDigits.mp hb)
  have hrest : ws.map title = ws.map (titleFrom first []) := by
    apply List.map_congr_left
    intro v hv
    exact h.title_eq v (hword v (List.mem_cons_of_mem w hv))
  rw [normalizeName_eq, hs, titleWords, hfirst, hrest, List.map_cons]

/-- The digits of a normalized name are where they are in its words. -/
theorem TitleCases.digitsLead_normalizeName (s : GoString) :
    DigitsLead (normalizeName title s) ↔ DigitsInFront s := by
  obtain ⟨w, ws, hs⟩ := exists_nameWords s
  rw [h.normalizeName_words hs, (sameLetters_flatten first (moveDigits w :: ws)).digitsLead_iff,
    List.flatten_cons, digitsLead_moveDigits_append, digitsInFront_iff hs]

theorem TitleCases.titleFrom_normalizeName (s : GoString) :
    titleFrom first [] (normalizeName title s) = normalizeName title s := by
  obtain ⟨w, ws, hs⟩ := exists_nameWords s
  rw [h.normalizeName_words hs]
  exact h.titleFrom_flatten [] _

/-- The second run changes nothing unless digits are in front. -/
theorem TitleCases.normalizeName_idem_iff (s : GoString) :
    normalizeName title (normalizeName title s) = normalizeName title s ↔ ¬ DigitsInFront s := by
  have hword : ∀ b ∈ normalizeName title s, WordByte b :=
    fun b hb => wordByte_of_mem_normalizeName title h.keepsWords hb
  have hmoved : ∀ b ∈ moveDigits (normalizeName title s), WordByte b :=
    fun b hb => hword b (mem_moveDigits.mp hb)
  rw [normalizeName_of_word title hword, h.title_eq _ hmoved, ← h.digitsLead_normalizeName]
  constructor
  · -- no digits lead after the move, and capitalisation does not bring them back
    intro heq hdigits
    have hsame := sameLetters_titleFrom first [] (moveDigits (normalizeName title s))
    rw [heq] at hsame
    exact not_digitsLead_moveDigits _ (hsame.digitsLead hdigits)
  · -- nothing is moved, and the letters that are first were capitalised on the first run
    intro hdigits
    rw [moveDigits_of_not_digitsLead hdigits, h.titleFrom_normalizeName]

end

/-! ## Names of attributes -/

/-- Normalizing the name again changes nothing, and so an AttributeName with the normalized name stands for
    the same tag as one with the name itself. -/
structure Stable (title : Bytes → Bytes) (s : GoString) : Prop where
  idempotent : normalizeName title (normalizeName title s) = normalizeName title s
  resolves : ∀ (reg : Registry) (attr : Tag) (t u : TTLV), t.tag = tagAttributeName → u.tag = tagAttributeName →
    t.valueTextString = s → u.valueTextString = normalizeName title s →
      nextAttr reg title attr u = nextAttr reg title attr t

theorem stable_iff (title : Bytes → Bytes) (s : GoString) :
    Stable title s ↔ normalizeName title (normalizeName title s) = normalizeName title s := by
  refine ⟨Stable.idempotent, fun h => ⟨h, ?_⟩⟩
  intro reg attr t u ht hu htext hutext
  rw [nextAttr, nextAttr, if_pos ht, if_pos hu, htext, hutext, h]

/-- Normalized names stay in their alphabet, and are stable unless digits are in front.  Where there is
    something before the first space, that is iff the first word has more than digits, or there is
    nothing else than digits. -/
theorem normalizeName_stable {title : Bytes → Bytes} {first : Bytes → Bool} (h : TitleCases title first)
    (s : GoString) :
    (∀ b ∈ normalizeName title s, WordByte b) ∧ (¬ DigitsInFront s → Stable title s) ∧
      (firstWord s ≠ [] → (Stable title s ↔
        (∃ b ∈ firstWord s, ¬ IsDigit b) ∨ ∀ b ∈ (nameWords s).flatten, IsDigit b)) := by
  have hiff : Stable title s ↔ ¬ DigitsInFront s := (stable_iff title s).trans (h.normalizeName_idem_iff s)
  refine ⟨fun b hb => wordByte_of_mem_normalizeName title h.keepsWords hb, hiff.mpr, ?_⟩
  intro hne
  rw [hiff, digitsInFront_iff_of_ne_nil hne, not_and_or]
  push Not
  exact Iff.rfl

/-! ## The first letter -/

def isLetter (b : UInt8) : Bool := isLowerRune b.toNat || isUpperRune b.toNat

/-- `cases.Title` with `NoLower` on letters, digits and underscores, which have no word boundary between
    them: the first letter is upper-cased. -/
def titleFirst : Bytes → Bytes
  | [] => []
  | b :: w => if isLetter b then upperByte b :: w else b :: titleFirst w

def noLetter (u : Bytes) : Bool := u.all fun b => !isLetter b

theorem titleFrom_noLetter (u w : Bytes) :
    titleFrom noLetter u w = if noLetter u then titleFirst w else w := by
  induction w generalizing u with
  | nil => rw [titleFrom, titleFirst, ite_self]
  | cons b w ih =>
    have hsnoc : noLetter (u ++ [b]) = (noLetter u && !isLetter b) := by
      rw [noLetter, List.all_append, List.all_cons, List.all_nil, Bool.and_true, ← noLetter]
    rw [titleFrom, ih, hsnoc, titleFirst]
    cases hu : noLetter u with
    | false => rfl
    | true =>
      cases hb : isLetter b with
      | true => rfl
      | false =>
        have hcase : upperByte b = b := by
          rw [isLetter, Bool.or_eq_false_iff] at hb
          rw [upperByte, hb.1, if_neg Bool.false_ne_true]
        simp [hcase]

theorem isLetter_upperByte (b : UInt8) : isLetter (upperByte b) = isLetter b := by
  rw [Bool.eq_iff_iff]
  simp only [isLetter, isLowerRune, isUpperRune, Bool.or_eq_true, decide_eq_true_eq, toNat_upperByte]
  split <;> omega

theorem titleCases_titleFirst : TitleCases titleFirst noLetter where
  title_eq w _ := by
    rw [titleFrom_noLetter]
    rfl
  first_of_suffix u v hcut hu := by
    have hmap : ∀ x : Bytes, noLetter (x.map upperByte) = noLetter x := by
      intro x
      rw [noLetter, List.all_map]
      simp only [Function.comp_def, isLetter_upperByte]
      rfl
    rw [← hmap, noLetter, List.all_eq_true] at hu ⊢
    exact fun b hb => hu b (hcut.subset hb)

/-- A name with digits to move, and one that begins with a bracket. -/
theorem normalizeName_stable_des :
    (normalizeName titleFirst (lit "3DES (key 1)") = lit "DES3Key1" ∧ Stable titleFirst (lit "3DES (key 1)")) ∧
      normalizeName titleFirst (lit "(key) 3DES") = lit "Key3DES" ∧ Stable titleFirst (lit "(key) 3DES") := by
  obtain ⟨-, -, hword⟩ := normalizeName_stable titleCases_titleFirst (lit "3DES (key 1)")
  obtain ⟨-, hbracket, -⟩ := normalizeName_stable titleCases_titleFirst (lit "(key) 3DES")
  have hfirst : firstWord (lit "3DES (key 1)") = lit "3DES" := by decide +kernel
  rw [hfirst] at hword
  refine ⟨⟨by decide +kernel, ?_⟩, by decide +kernel, hbracket (by decide +kernel)⟩
  exact (hword (by decide)).mpr (Or.inl (by decide))

/-- A tag whose name begins with a word of digits. -/
def desRegistry : Registry := Registry.empty.registerTag titleFirst 0x540001 (lit "3 DES")

/-- The normalized name of the tag does not stand for it. -/
theorem normalizeName_unstable :
    TitleCases titleFirst noLetter ∧ normalizeName titleFirst (lit "3 DES") = lit "3DES" ∧
      normalizeName titleFirst (normalizeName titleFirst (lit "3 DES")) = lit "DES3" ∧
      nextAttr desRegistry titleFirst tagNone (item tagAttributeName .TextString (lit "3 DES")) = 0x540001 ∧
      nextAttr desRegistry titleFirst tagNone (item tagAttributeName .TextString (lit "3DES")) = tagNone ∧
      ¬ Stable titleFirst (lit "3 DES") := by
  have honce : normalizeName titleFirst (lit "3 DES") = lit "3DES" := by decide +kernel
  have htwice : normalizeName titleFirst (lit "3DES") = lit "DES3" := by decide +kernel
  refine ⟨titleCases_titleFirst, honce, by rw [honce, htwice], by decide +kernel, by decide +kernel, ?_⟩
  intro h
  have hidem := h.idempotent
  rw [honce, htwice] at hidem
  exact absurd hidem (by decide)

end KmipGo.Text
