import KmipGo.Lib.Text
import KmipGo.Lib.Utf8

/-! # JSON

Trees of JSON values, their compact text, and what is used of a JSON library: it
quotes strings, and reads back the text of every tree whose strings are valid
UTF-8 and whose numbers are integers that a double holds exactly
(`JsonCodec.Lawful`).

`compactCodec` is such a library, with a reader for compact texts;
`compactCodec_lawful` is the round trip of the reader.
-/

namespace KmipGo.Lib

inductive Json where
  | null
  | bool (b : Bool)
  | number (q : Rat)
  | string (s : Bytes)
  | array (items : List Json)
  | object (members : List (Bytes × Json))

namespace Json

section

variable (quote : Bytes → Bytes)

mutual
/-- The compact text of a tree; numbers are written as integers. -/
def render : Json → Bytes
  | .null => lit "null"
  | .bool true => lit "true"
  | .bool false => lit "false"
  | .number q => intDec q.num
  | .string s => quote s
  | .array items => 91 :: (renderItems items ++ [93])
  | .object members => 123 :: (renderMembers members ++ [125])

def renderItems : List Json → Bytes
  | [] => []
  | j :: js => render j ++ renderMore js

def renderMore : List Json → Bytes
  | [] => []
  | j :: js => 44 :: (render j ++ renderMore js)

def renderMembers : List (Bytes × Json) → Bytes
  | [] => []
  | m :: ms => renderMember m ++ renderMoreMembers ms

def renderMoreMembers : List (Bytes × Json) → Bytes
  | [] => []
  | m :: ms => 44 :: (renderMember m ++ renderMoreMembers ms)

def renderMember : Bytes × Json → Bytes
  | (k, v) => quote k ++ 58 :: render v
end

end

mutual
/-- Strings are valid UTF-8 and numbers are integers without loss in a double. -/
def Writable : Json → Prop
  | .null | .bool _ => True
  | .number q => q.den = 1 ∧ q.num.natAbs ≤ 2 ^ 53
  | .string s => validUTF8 s = true
  | .array items => ItemsWritable items
  | .object members => MembersWritable members

def ItemsWritable : List Json → Prop
  | [] => True
  | j :: js => Writable j ∧ ItemsWritable js

def MembersWritable : List (Bytes × Json) → Prop
  | [] => True
  | m :: ms => MemberWritable m ∧ MembersWritable ms

def MemberWritable : Bytes × Json → Prop
  | (k, v) => validUTF8 k = true ∧ Writable v
end

mutual
/-- How deep arrays and objects are nested. -/
def depth : Json → Nat
  | .array items => 1 + itemsDepth items
  | .object members => 1 + membersDepth members
  | _ => 0

def itemsDepth : List Json → Nat
  | [] => 0
  | j :: js => max (depth j) (itemsDepth js)

def membersDepth : List (Bytes × Json) → Nat
  | [] => 0
  | m :: ms => max (memberDepth m) (membersDepth ms)

def memberDepth : Bytes × Json → Nat
  | (_, v) => depth v
end

/-- The number of an integer. -/
def ofInt (i : Int) : Json := .number i

theorem writable_ofInt {i : Int} (h : i.natAbs ≤ 2 ^ 53) : (ofInt i).Writable :=
  ⟨Rat.den_intCast i, h⟩

end Json

/-- A byte that stands for itself in a string: printable ASCII that needs no escape, also where
    HTML is escaped. -/
def PlainByte (b : UInt8) : Prop :=
  0x20 ≤ b.toNat ∧ b.toNat < 0x7F ∧ b ≠ 34 ∧ b ≠ 92 ∧ b ≠ 60 ∧ b ≠ 62 ∧ b ≠ 38

instance (b : UInt8) : Decidable (PlainByte b) := inferInstanceAs (Decidable (_ ∧ _))

/-- A JSON library: the text of a string, and the tree of a text. -/
structure JsonCodec where
  quote : Bytes → Bytes
  parse : Bytes → Option Json

/-- Plain strings are written as they are. -/
def JsonCodec.QuotesPlain (C : JsonCodec) : Prop :=
  ∀ s : Bytes, (∀ b ∈ s, PlainByte b) → C.quote s = 34 :: (s ++ [34])

structure JsonCodec.Lawful (C : JsonCodec) : Prop where
  quote_plain : C.QuotesPlain
  parse_render : ∀ j : Json, j.Writable → C.parse (j.render C.quote) = some j

/-! ## A reader for compact texts -/

namespace Compact

def escape : Bytes → Bytes
  | [] => []
  | b :: bs => if b = 34 ∨ b = 92 then 92 :: b :: escape bs else b :: escape bs

def quote (s : Bytes) : Bytes := 34 :: (escape s ++ [34])

/-- The rest of a string after its opening quote. -/
def readString : Bytes → Option (Bytes × Bytes)
  | [] => none
  | b :: rest =>
    if b = 34 then some ([], rest)
    else if b = 92 then
      match rest with
      | [] => none
      | c :: rest => (readString rest).map fun p => (c :: p.1, p.2)
    else (readString rest).map fun p => (b :: p.1, p.2)

def isDigitByte (b : UInt8) : Bool := decide (48 ≤ b.toNat ∧ b.toNat ≤ 57)

def readNat (s : Bytes) : Option (Nat × Bytes) :=
  if s.takeWhile isDigitByte = [] then none
  else (decNat (s.takeWhile isDigitByte)).map fun n => (n, s.dropWhile isDigitByte)

def readNumber : Bytes → Option (Json × Bytes)
  | 45 :: s => (readNat s).map fun p => (.ofInt (-(p.1 : Int)), p.2)
  | s => (readNat s).map fun p => (.ofInt p.1, p.2)

def readWord (w : Bytes) (j : Json) (s : Bytes) : Option (Json × Bytes) :=
  if hasPrefix s w then some (j, s.drop w.length) else none

mutual
/-- A value at the start of a text, with a bound on the number of calls. -/
def readValue : Nat → Bytes → Option (Json × Bytes)
  | 0, _ | _, [] => none
  | n + 1, b :: rest =>
    if b = 34 then (readString rest).map fun p => (.string p.1, p.2)
    else if b = 91 then
      if rest.head? = some 93 then some (.array [], rest.tail)
      else (readItems n rest).map fun p => (.array p.1, p.2)
    else if b = 123 then
      if rest.head? = some 125 then some (.object [], rest.tail)
      else (readMembers n rest).map fun p => (.object p.1, p.2)
    else if b = 110 then readWord (lit "null") .null (b :: rest)
    else if b = 116 then readWord (lit "true") (.bool true) (b :: rest)
    else if b = 102 then readWord (lit "false") (.bool false) (b :: rest)
    else readNumber (b :: rest)

/-- The items of an array after its opening bracket. -/
def readItems : Nat → Bytes → Option (List Json × Bytes)
  | 0, _ => none
  | n + 1, s =>
    match readValue n s with
    | some (j, b :: rest) =>
      if b = 44 then (readItems n rest).map fun p => (j :: p.1, p.2)
      else if b = 93 then some ([j], rest)
      else none
    | _ => none

def readMembers : Nat → Bytes → Option (List (Bytes × Json) × Bytes)
  | 0, _ => none
  | n + 1, s =>
    match readMember n s with
    | some (m, b :: rest) =>
      if b = 44 then (readMembers n rest).map fun p => (m :: p.1, p.2)
      else if b = 125 then some ([m], rest)
      else none
    | _ => none

def readMember : Nat → Bytes → Option ((Bytes × Json) × Bytes)
  | 0, _ => none
  | n + 1, s =>
    match s with
    | 34 :: rest =>
      match readString rest with
      | some (k, 58 :: rest) => (readValue n rest).map fun p => ((k, p.1), p.2)
      | _ => none
    | _ => none
end

def parse (s : Bytes) : Option Json :=
  match readValue s.length s with
  | some (j, []) => some j
  | _ => none

end Compact

def compactCodec : JsonCodec := ⟨Compact.quote, Compact.parse⟩

/-! ## Round trip -/

namespace Compact

open Json

theorem readString_escape (s rest : Bytes) : readString (escape s ++ 34 :: rest) = some (s, rest) := by
  induction s with
  | nil =>
    rw [escape, List.nil_append, readString.eq_def]
    simp only [if_true]
  | cons b s ih =>
    rw [escape]
    split
    · rw [List.cons_append, List.cons_append, readString.eq_def]
      simp only [if_neg (show (92 : UInt8) ≠ 34 by decide), if_true, ih]
      rfl
    · rename_i hb
      rw [not_or] at hb
      rw [List.cons_append, readString.eq_def]
      simp only [if_neg hb.1, if_neg hb.2, ih]
      rfl

theorem escape_eq_self {s : Bytes} (h : ∀ b ∈ s, b ≠ 34 ∧ b ≠ 92) : escape s = s := by
  induction s with
  | nil => rfl
  | cons b s ih =>
    have hb := h b (List.mem_cons_self ..)
    rw [escape, if_neg (by rw [not_or]; exact hb), ih (fun c hc => h c (List.mem_cons_of_mem _ hc))]

/-- A text that does not go on with a digit. -/
def NoDigit (s : Bytes) : Prop := ∀ b, s.head? = some b → isDigitByte b = false

theorem noDigit_nil : NoDigit [] := by
  intro b hb
  cases hb

theorem noDigit_cons {b : UInt8} (h : isDigitByte b = false) (s : Bytes) : NoDigit (b :: s) := by
  intro c hc
  cases hc
  exact h

theorem isDigitByte_natDec {n : Nat} {b : UInt8} (h : b ∈ natDec n) : isDigitByte b = true :=
  decide_eq_true (isDigit_of_mem_natDec h)

theorem readNat_natDec (n : Nat) {rest : Bytes} (h : NoDigit rest) :
    readNat (natDec n ++ rest) = some (n, rest) := by
  have htake : (natDec n ++ rest).takeWhile isDigitByte = natDec n := by
    rw [List.takeWhile_append_of_pos fun b hb => isDigitByte_natDec hb]
    cases rest with
    | nil => simp
    | cons b rest =>
      have hb := h b rfl
      simp [hb]
  have hdrop : (natDec n ++ rest).dropWhile isDigitByte = rest := by
    rw [List.dropWhile_append_of_pos fun b hb => isDigitByte_natDec hb]
    cases rest with
    | nil => rfl
    | cons b rest =>
      have hb := h b rfl
      simp [hb]
  rw [readNat, htake, if_neg (natDec_ne_nil n), decNat_natDec, hdrop]
  rfl

theorem readNumber_intDec (i : Int) {rest : Bytes} (h : NoDigit rest) :
    readNumber (intDec i ++ rest) = some (.ofInt i, rest) := by
  rw [intDec]
  split
  · rename_i hneg
    have habs : -(i.natAbs : Int) = i := by omega
    rw [List.cons_append, readNumber, readNat_natDec _ h, Option.map_some, habs]
  · rename_i hpos
    have habs : (i.natAbs : Int) = i := by omega
    obtain ⟨b, tl, heq, hminus, -⟩ := natDec_eq_cons i.natAbs
    have hread := readNat_natDec i.natAbs h
    rw [heq, List.cons_append] at hread ⊢
    rw [readNumber, hread, Option.map_some, habs]
    intro s hs
    cases hs
    exact hminus rfl

theorem readWord_append (w : Bytes) (j : Json) (rest : Bytes) :
    readWord w j (w ++ rest) = some (j, rest) := by
  have hpre : hasPrefix (w ++ rest) w = true := by
    rw [hasPrefix, List.isPrefixOf_iff_prefix]
    exact List.prefix_append w rest
  rw [readWord, if_pos hpre, List.drop_left' rfl]

/-- The bytes a value can start with are neither brackets that close nor quotes in disguise. -/
theorem render_eq_cons (j : Json) : ∃ b tl, j.render quote = b :: tl ∧ b ≠ 93 := by
  cases j with
  | null => exact ⟨_, _, rfl, by decide⟩
  | bool b =>
    cases b with
    | true => exact ⟨_, _, rfl, by decide⟩
    | false => exact ⟨_, _, rfl, by decide⟩
  | number q =>
    rw [render, intDec]
    split
    · exact ⟨_, _, rfl, by decide⟩
    · obtain ⟨b, tl, heq, -, -⟩ := natDec_eq_cons q.num.natAbs
      have hd := isDigit_of_mem_natDec (n := q.num.natAbs) (b := b) (by rw [heq]; exact List.mem_cons_self ..)
      refine ⟨b, tl, heq, ?_⟩
      rintro rfl
      exact absurd hd.2 (by decide)
  | string s => exact ⟨_, _, rfl, by decide⟩
  | array items => exact ⟨_, _, rfl, by decide⟩
  | object members => exact ⟨_, _, rfl, by decide⟩

theorem readValue_number (i : Int) {n : Nat} {rest : Bytes} (h : NoDigit rest) :
    readValue (n + 1) (intDec i ++ rest) = some (.ofInt i, rest) := by
  have hread := readNumber_intDec i h
  obtain ⟨b, tl, heq, hb⟩ : ∃ b tl, intDec i = b :: tl ∧ (b = 45 ∨ IsDigit b) := by
    rw [intDec]
    split
    · exact ⟨45, _, rfl, Or.inl rfl⟩
    · obtain ⟨b, tl, heq, -, -⟩ := natDec_eq_cons i.natAbs
      exact ⟨b, tl, heq, Or.inr (isDigit_of_mem_natDec (n := i.natAbs)
        (by rw [heq]; exact List.mem_cons_self ..))⟩
  have hother : ∀ c : UInt8, c ≠ 45 → ¬ IsDigit c → b ≠ c := by
    rintro c hc hd rfl
    rcases hb with rfl | hb
    · exact hc rfl
    · exact hd hb
  rw [heq, List.cons_append] at hread ⊢
  rw [readValue,
    if_neg (hother 34 (by decide) (fun h => absurd h.1 (by decide))),
    if_neg (hother 91 (by decide) (fun h => absurd h.2 (by decide))),
    if_neg (hother 123 (by decide) (fun h => absurd h.2 (by decide))),
    if_neg (hother 110 (by decide) (fun h => absurd h.2 (by decide))),
    if_neg (hother 116 (by decide) (fun h => absurd h.2 (by decide))),
    if_neg (hother 102 (by decide) (fun h => absurd h.2 (by decide))), hread]

theorem readValue_word {w : Bytes} {j : Json} {b : UInt8} {tl : Bytes} (hw : w = b :: tl)
    (hb : (b = 110 ∧ w = lit "null" ∧ j = .null) ∨ (b = 116 ∧ w = lit "true" ∧ j = .bool true) ∨
      (b = 102 ∧ w = lit "false" ∧ j = .bool false)) (n : Nat) (rest : Bytes) :
    readValue (n + 1) (w ++ rest) = some (j, rest) := by
  have hread := readWord_append w j rest
  rw [hw, List.cons_append] at hread ⊢
  rcases hb with ⟨rfl, hlit, rfl⟩ | ⟨rfl, hlit, rfl⟩ | ⟨rfl, hlit, rfl⟩
  · rw [← hw, hlit] at hread
    rw [readValue, if_neg (by decide), if_neg (by decide), if_neg (by decide), if_pos rfl]
    exact hread
  · rw [← hw, hlit] at hread
    rw [readValue, if_neg (by decide), if_neg (by decide), if_neg (by decide), if_neg (by decide),
      if_pos rfl]
    exact hread
  · rw [← hw, hlit] at hread
    rw [readValue, if_neg (by decide), if_neg (by decide), if_neg (by decide), if_neg (by decide),
      if_neg (by decide), if_pos rfl]
    exact hread

theorem ofInt_num {q : Rat} (h : q.den = 1) : Json.ofInt q.num = .number q := by
  rw [Json.ofInt, ← Rat.coe_int_num_of_den_eq_one h]
  simp

-- The number of calls allowed is at least the length of the text still to be read.
mutual
theorem readValue_render : ∀ (j : Json) (n : Nat) (rest : Bytes), j.Writable →
    (j.render quote).length ≤ n → NoDigit rest → readValue n (j.render quote ++ rest) = some (j, rest)
  | j, 0, rest, _, hn, _ => by
    obtain ⟨b, tl, heq, -⟩ := render_eq_cons j
    rw [heq] at hn
    cases hn
  | .null, n + 1, rest, _, _, _ => readValue_word rfl (Or.inl ⟨rfl, rfl, rfl⟩) n rest
  | .bool true, n + 1, rest, _, _, _ => readValue_word rfl (Or.inr (Or.inl ⟨rfl, rfl, rfl⟩)) n rest
  | .bool false, n + 1, rest, _, _, _ => readValue_word rfl (Or.inr (Or.inr ⟨rfl, rfl, rfl⟩)) n rest
  | .number q, n + 1, rest, hw, _, hrest => by
    rw [render, readValue_number q.num hrest, ofInt_num hw.1]
  | .string s, n + 1, rest, _, _, _ => by
    rw [render, quote, List.cons_append, List.append_assoc, List.singleton_append, readValue,
      if_pos rfl, readString_escape]
    rfl
  | .array [], n + 1, rest, _, _, _ => rfl
  | .array (j :: js), n + 1, rest, hw, hn, _ => by
    rw [render, List.length_cons, List.length_append, List.length_singleton] at hn
    have hitems := readItems_render j js n rest hw (by omega)
    obtain ⟨b, tl, heq, hb⟩ := render_eq_cons j
    have hhead : ((renderItems quote (j :: js) ++ [93]) ++ rest).head? ≠ some 93 := by
      rw [renderItems, heq, List.cons_append, List.cons_append, List.cons_append, List.head?_cons]
      simpa using hb
    rw [render, List.cons_append, readValue, if_neg (by decide), if_pos rfl, if_neg hhead,
      List.append_assoc, List.singleton_append, hitems]
    rfl
  | .object [], n + 1, rest, _, _, _ => rfl
  | .object (m :: ms), n + 1, rest, hw, hn, _ => by
    rw [render, List.length_cons, List.length_append, List.length_singleton] at hn
    have hmembers := readMembers_render m ms n rest hw (by omega)
    have hhead : ((renderMembers quote (m :: ms) ++ [125]) ++ rest).head? ≠ some 125 := by
      obtain ⟨k, v⟩ := m
      rw [renderMembers, renderMember, quote, List.cons_append, List.cons_append, List.cons_append,
        List.cons_append, List.head?_cons]
      decide
    rw [render, List.cons_append, readValue, if_neg (by decide), if_neg (by decide), if_pos rfl,
      if_neg hhead, List.append_assoc, List.singleton_append, hmembers]
    rfl

theorem readItems_render : ∀ (j : Json) (js : List Json) (n : Nat) (rest : Bytes),
    ItemsWritable (j :: js) → (renderItems quote (j :: js)).length + 1 ≤ n →
    readItems n (renderItems quote (j :: js) ++ 93 :: rest) = some (j :: js, rest)
  | j, js, 0, rest, _, hn => by cases hn
  | j, [], n + 1, rest, hw, hn => by
    rw [renderItems, renderMore, List.append_nil] at hn ⊢
    rw [readItems, readValue_render j n (93 :: rest) hw.1 (by omega) (noDigit_cons (by decide) rest)]
    rfl
  | j, j' :: js, n + 1, rest, hw, hn => by
    rw [renderItems, renderMore, List.length_append, List.length_cons] at hn
    have hmore := readItems_render j' js n rest hw.2 (by rw [renderItems]; omega)
    have hfirst := readValue_render j n (44 :: (renderItems quote (j' :: js) ++ 93 :: rest)) hw.1
      (by omega) (noDigit_cons (by decide) _)
    have htext : renderItems quote (j :: j' :: js) ++ 93 :: rest =
        j.render quote ++ 44 :: (renderItems quote (j' :: js) ++ 93 :: rest) := by
      simp [renderItems, renderMore]
    rw [htext, readItems, hfirst]
    simp only [if_true, hmore]
    rfl

theorem readMembers_render : ∀ (m : Bytes × Json) (ms : List (Bytes × Json)) (n : Nat) (rest : Bytes),
    MembersWritable (m :: ms) → (renderMembers quote (m :: ms)).length + 1 ≤ n →
    readMembers n (renderMembers quote (m :: ms) ++ 125 :: rest) = some (m :: ms, rest)
  | m, ms, 0, rest, _, hn => by cases hn
  | m, [], n + 1, rest, hw, hn => by
    rw [renderMembers, renderMoreMembers, List.append_nil] at hn ⊢
    rw [readMembers, readMember_render m n (125 :: rest) hw.1 (by omega) (noDigit_cons (by decide) rest)]
    rfl
  | m, m' :: ms, n + 1, rest, hw, hn => by
    rw [renderMembers, renderMoreMembers, List.length_append, List.length_cons] at hn
    have hmore := readMembers_render m' ms n rest hw.2 (by rw [renderMembers]; omega)
    have hfirst := readMember_render m n (44 :: (renderMembers quote (m' :: ms) ++ 125 :: rest)) hw.1
      (by omega) (noDigit_cons (by decide) _)
    have htext : renderMembers quote (m :: m' :: ms) ++ 125 :: rest =
        renderMember quote m ++ 44 :: (renderMembers quote (m' :: ms) ++ 125 :: rest) := by
      simp [renderMembers, renderMoreMembers]
    rw [htext, readMembers, hfirst]
    simp only [if_true, hmore]
    rfl

theorem readMember_render : ∀ (m : Bytes × Json) (n : Nat) (rest : Bytes), MemberWritable m →
    (renderMember quote m).length ≤ n → NoDigit rest →
    readMember n (renderMember quote m ++ rest) = some (m, rest)
  | (k, v), 0, rest, _, hn, _ => by
    rw [renderMember, quote, List.cons_append] at hn
    cases hn
  | (k, v), n + 1, rest, hw, hn, hrest => by
    rw [renderMember, quote, List.length_append, List.length_cons, List.length_cons] at hn
    have hvalue := readValue_render v n rest hw.2 (by omega) hrest
    have htext : renderMember quote (k, v) ++ rest =
        34 :: (escape k ++ 34 :: 58 :: (v.render quote ++ rest)) := by
      simp [renderMember, quote]
    rw [htext, readMember]
    simp only [readString_escape, hvalue]
    rfl
end

end Compact

theorem compactCodec_lawful : compactCodec.Lawful where
  quote_plain s h := by
    show Compact.quote s = _
    rw [Compact.quote, Compact.escape_eq_self fun b hb => ⟨(h b hb).2.2.1, (h b hb).2.2.2.1⟩]
  parse_render j h := by
    show Compact.parse (j.render Compact.quote) = some j
    have hread := Compact.readValue_render j _ [] h (Nat.le_refl _) Compact.noDigit_nil
    rw [List.append_nil] at hread
    rw [Compact.parse, hread]

end KmipGo.Lib
