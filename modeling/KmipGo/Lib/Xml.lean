import KmipGo.Lib.Text
import KmipGo.Lib.Utf8

/-! # XML

Trees of elements, the tokens an encoder is given for them, and the part of an
XML encoder that can refuse them: end tags have to match the open start tags.

What is used of an XML library is that it reads back the tokens of every tree
whose names are words and whose attribute values are safe, unless one of the names
begins with a digit, which it refuses (`XmlCodec.Lawful`).  `compactXml` is such a
library, with a reader for texts without white space and character data;
`compactXml_lawful` is the round trip of the reader.
-/

namespace KmipGo.Lib

/-- An element: its name, its attributes and the elements in it. -/
inductive Xml where
  | element (name : Bytes) (attrs : List (Bytes × Bytes)) (children : List Xml)

inductive XmlToken where
  | start (name : Bytes) (attrs : List (Bytes × Bytes))
  | stop (name : Bytes)
deriving DecidableEq, Repr

mutual
def Xml.tokens : Xml → List XmlToken
  | .element name attrs children => .start name attrs :: (Xml.allTokens children ++ [.stop name])

def Xml.allTokens : List Xml → List XmlToken
  | [] => []
  | x :: xs => x.tokens ++ Xml.allTokens xs
end

/-! ## The encoder -/

inductive XmlTokenErr where
  | noName
  /-- end tag without start tag -/
  | notOpen (name : Bytes)
  /-- end tag does not match start tag -/
  | mismatch (name top : Bytes)
  | notClosed (name : Bytes)
deriving DecidableEq, Repr

/-- The names of the open elements, the innermost first, and the tokens written. -/
structure XmlEncoder where
  tags : List Bytes
  out : List XmlToken
deriving DecidableEq, Repr

namespace XmlEncoder

def encodeToken (e : XmlEncoder) : XmlToken → Except XmlTokenErr XmlEncoder
  | .start name attrs =>
    if name = [] then .error .noName
    else .ok ⟨name :: e.tags, e.out ++ [.start name attrs]⟩
  | .stop name =>
    if name = [] then .error .noName
    else
      match e.tags with
      | [] => .error (.notOpen name)
      | top :: tags =>
        if top = [] then .error (.notOpen name)
        else if top ≠ name then .error (.mismatch name top)
        else .ok ⟨tags, e.out ++ [.stop name]⟩

/-- An empty name on the stack keeps a marshaler from closing what it did not open. -/
def openMarshaler (e : XmlEncoder) : XmlEncoder := ⟨[] :: e.tags, e.out⟩

/-- The check after a marshaler, where `n` elements were open before it. -/
def closeMarshaler (n : Nat) (e : XmlEncoder) : Except XmlTokenErr XmlEncoder :=
  match e.tags with
  | [] => .ok e
  | top :: tags => if tags.length > n then .error (.notClosed top) else .ok ⟨tags, e.out⟩

theorem encodeToken_start (e : XmlEncoder) {name : Bytes} (h : name ≠ []) (attrs : List (Bytes × Bytes)) :
    e.encodeToken (.start name attrs) = .ok ⟨name :: e.tags, e.out ++ [.start name attrs]⟩ := by
  rw [encodeToken, if_neg h]

theorem encodeToken_stop {name : Bytes} (h : name ≠ []) (tags : List Bytes) (out : List XmlToken) :
    encodeToken ⟨name :: tags, out⟩ (.stop name) = .ok ⟨tags, out ++ [.stop name]⟩ := by
  simp only [encodeToken, if_neg h, ne_eq, not_true_eq_false, if_false]

theorem closeMarshaler_openMarshaler (e : XmlEncoder) (out : List XmlToken) :
    closeMarshaler e.tags.length ⟨[] :: e.tags, out⟩ = .ok ⟨e.tags, out⟩ := by
  simp only [closeMarshaler, gt_iff_lt, Nat.lt_irrefl, if_false]

end XmlEncoder

/-! ## What a library preserves -/

/-- Letters, digits and underscore. -/
def isNameByte (b : UInt8) : Bool :=
  decide (97 ≤ b.toNat ∧ b.toNat ≤ 122 ∨ 65 ≤ b.toNat ∧ b.toNat ≤ 90 ∨ 48 ≤ b.toNat ∧ b.toNat ≤ 57 ∨
    b.toNat = 95)

def IsWord (s : Bytes) : Prop := s ≠ [] ∧ ∀ b ∈ s, isNameByte b = true

def startsWithDigit : Bytes → Bool
  | [] => false
  | b :: _ => decide (48 ≤ b.toNat ∧ b.toNat ≤ 57)

/-- A word that may be the name of an element or an attribute. -/
def IsName (s : Bytes) : Prop := IsWord s ∧ startsWithDigit s = false

instance (s : Bytes) : Decidable (IsName s) :=
  decidable_of_iff ((s ≠ [] ∧ s.all isNameByte = true) ∧ startsWithDigit s = false)
    (by rw [IsName, IsWord, List.all_eq_true])

/-- The production Char of XML. -/
def isXmlChar (r : Nat) : Bool :=
  decide (r = 0x09 ∨ r = 0x0A ∨ r = 0x0D ∨ 0x20 ≤ r ∧ r ≤ 0xD7FF ∨ 0xE000 ≤ r ∧ r ≤ 0xFFFD ∨
    0x10000 ≤ r ∧ r ≤ 0x10FFFF)

/-- Valid UTF-8 made of characters that XML allows. -/
def xmlSafe (s : Bytes) : Bool := validUTF8 s && (runes s).all isXmlChar

mutual
/-- The elements are named by words, and their attributes can be written. -/
def Xml.Worded : Xml → Prop
  | .element name attrs children =>
    IsWord name ∧ (∀ a ∈ attrs, IsName a.1 ∧ xmlSafe a.2 = true) ∧ Xml.AllWorded children

def Xml.AllWorded : List Xml → Prop
  | [] => True
  | x :: xs => x.Worded ∧ Xml.AllWorded xs
end

mutual
/-- No name of an element begins with a digit. -/
def Xml.Named : Xml → Prop
  | .element name _ children => startsWithDigit name = false ∧ Xml.AllNamed children

def Xml.AllNamed : List Xml → Prop
  | [] => True
  | x :: xs => x.Named ∧ Xml.AllNamed xs
end

/-- A document that can be written and read again. -/
def Xml.Writable (x : Xml) : Prop := x.Worded ∧ x.Named

mutual
/-- How deep elements are nested. -/
def Xml.depth : Xml → Nat
  | .element _ _ children => 1 + Xml.allDepth children

def Xml.allDepth : List Xml → Nat
  | [] => 0
  | x :: xs => max x.depth (Xml.allDepth xs)
end

/-- An XML library: the text of tokens, and the first element of a text. -/
structure XmlCodec where
  write : List XmlToken → Bytes
  read : Bytes → Option Xml

structure XmlCodec.Lawful (X : XmlCodec) : Prop where
  read_write : ∀ x : Xml, x.Writable → X.read (X.write x.tokens) = some x
  refuses : ∀ x : Xml, x.Worded → ¬ x.Named → X.read (X.write x.tokens) = none

theorem xmlSafe_of_printable {s : Bytes} (h : ∀ b ∈ s, 0x20 ≤ b.toNat ∧ b.toNat < 0x80) :
    xmlSafe s = true := by
  have hascii : ∀ b ∈ s, b.toNat < 0x80 := fun b hb => (h b hb).2
  rw [xmlSafe, validUTF8_of_ascii hascii, runes_of_ascii hascii, Bool.true_and, List.all_eq_true]
  intro r hr
  rw [List.mem_map] at hr
  obtain ⟨b, hb, rfl⟩ := hr
  have hrange := h b hb
  rw [isXmlChar, decide_eq_true_eq]
  omega

/-! ## A reader for compact texts -/

namespace CompactXml

/-- The characters that are escaped in attribute values. -/
def entities : List (UInt8 × Bytes) :=
  [(34, lit "#34"), (39, lit "#39"), (38, lit "amp"), (60, lit "lt"), (62, lit "gt"), (9, lit "#x9"),
    (10, lit "#xA"), (13, lit "#xD")]

def escapeByte (b : UInt8) : Bytes :=
  match entities.lookup b with
  | some name => 38 :: (name ++ [59])
  | none => [b]

def escape (s : Bytes) : Bytes := s.flatMap escapeByte

/-- The byte of an entity. -/
def entityByte (name : Bytes) : Option UInt8 :=
  (entities.find? fun p => p.2 == name).map Prod.fst

/-- Undoes the escapes; the first argument is the part of an entity read so far. -/
def unescape : Option Bytes → Bytes → Option Bytes
  | none, [] => some []
  | some _, [] => none
  | none, b :: rest =>
    if b = 38 then unescape (some []) rest else (unescape none rest).map (b :: ·)
  | some name, b :: rest =>
    if b = 59 then (entityByte name).bind fun c => (unescape none rest).map (c :: ·)
    else unescape (some (name ++ [b])) rest

def writeAttr (a : Bytes × Bytes) : Bytes := 32 :: (a.1 ++ [61, 34] ++ escape a.2 ++ [34])

def writeToken : XmlToken → Bytes
  | .start name attrs => 60 :: (name ++ attrs.flatMap writeAttr ++ [62])
  | .stop name => 60 :: 47 :: (name ++ [62])

def write (ts : List XmlToken) : Bytes := ts.flatMap writeToken

/-- The rest of a text after the byte `b`. -/
def expect (b : UInt8) : Bytes → Option Bytes
  | c :: rest => if c = b then some rest else none
  | [] => none

/-- Attributes up to the end of a start tag. -/
def readAttrs : Nat → Bytes → Option (List (Bytes × Bytes) × Bytes)
  | 0, _ => none
  | n + 1, s =>
    match s with
    | 62 :: rest => some ([], rest)
    | 32 :: rest => do
      let value ← expect 34 (← expect 61 (rest.dropWhile isNameByte))
      let v ← unescape none (value.takeWhile (· != 34))
      let (attrs, rest') ← readAttrs n (← expect 34 (value.dropWhile (· != 34)))
      return ((rest.takeWhile isNameByte, v) :: attrs, rest')
    | _ => none

/-- The tokens of a text.  The name of an end tag is compared with that of its start tag later. -/
def readTokens : Nat → Bytes → Option (List XmlToken)
  | 0, _ => none
  | _ + 1, [] => some []
  | n + 1, 60 :: 47 :: rest => do
    let rest' ← expect 62 (rest.dropWhile isNameByte)
    let ts ← readTokens n rest'
    return .stop (rest.takeWhile isNameByte) :: ts
  | n + 1, 60 :: rest =>
    if startsWithDigit rest then none
    else do
      let (attrs, rest') ← readAttrs (n + 1) (rest.dropWhile isNameByte)
      let ts ← readTokens n rest'
      return .start (rest.takeWhile isNameByte) attrs :: ts
  | _ + 1, _ => none

/-- An open element: its name, its attributes and its children so far. -/
structure Frame where
  name : Bytes
  attrs : List (Bytes × Bytes)
  children : List Xml

/-- The first element of a list of tokens, inside the open elements `stack`. -/
def readTree : List Frame → List XmlToken → Option Xml
  | _, [] => none
  | stack, .start name attrs :: ts => readTree (⟨name, attrs, []⟩ :: stack) ts
  | [], .stop _ :: _ => none
  | [f], .stop name :: _ => if f.name = name then some (.element f.name f.attrs f.children) else none
  | f :: g :: stack, .stop name :: ts =>
    if f.name = name then
      readTree (⟨g.name, g.attrs, g.children ++ [.element f.name f.attrs f.children]⟩ :: stack) ts
    else none

def read (s : Bytes) : Option Xml := (readTokens (s.length + 1) s).bind (readTree [])

end CompactXml

def compactXml : XmlCodec := ⟨CompactXml.write, CompactXml.read⟩

namespace CompactXml

/-! ## The round trip -/

theorem unescape_escapeByte (b : UInt8) (rest : Bytes) :
    unescape none (escapeByte b ++ rest) = (unescape none rest).map (b :: ·) := by
  by_cases hb : b ∈ entities.map Prod.fst
  · have hcases : b = 34 ∨ b = 39 ∨ b = 38 ∨ b = 60 ∨ b = 62 ∨ b = 9 ∨ b = 10 ∨ b = 13 := by
      simpa [entities] using hb
    rcases hcases with rfl | rfl | rfl | rfl | rfl | rfl | rfl | rfl <;> rfl
  · have hne : b ≠ 38 := by
      rintro rfl
      exact hb (by decide)
    have hnone : entities.lookup b = none := by
      rw [List.lookup_eq_none_iff]
      intro p hp
      rw [bne_iff_ne]
      rintro rfl
      exact hb (List.mem_map_of_mem hp)
    rw [escapeByte, hnone, List.singleton_append, unescape, if_neg hne]

theorem unescape_escape (s : Bytes) : unescape none (escape s) = some s := by
  induction s with
  | nil => rfl
  | cons b s ih =>
    rw [escape, List.flatMap_cons, unescape_escapeByte, ← escape, ih, Option.map_some]

theorem not_quote_of_mem_escape {s : Bytes} {c : UInt8} (h : c ∈ escape s) : c ≠ 34 := by
  have hentity : ∀ p ∈ entities, ((38 :: (p.2 ++ [59]) : Bytes).all fun c => decide (c ≠ 34)) = true := by
    decide
  rw [escape, List.mem_flatMap] at h
  obtain ⟨b, -, hc⟩ := h
  rw [escapeByte] at hc
  split at hc
  · rename_i name hname
    have hmem : (b, name) ∈ entities := by
      obtain ⟨l₁, l₂, heq, -⟩ := List.lookup_eq_some_iff.mp hname
      rw [heq]
      simp
    exact forall_mem_of_all (hentity _ hmem) c hc
  · rename_i hnone
    rw [List.mem_singleton] at hc
    rintro rfl
    rw [← hc] at hnone
    cases hnone

theorem takeWhile_append_stop {p : UInt8 → Bool} {s : Bytes} (h : ∀ b ∈ s, p b = true) {c : UInt8}
    (hc : p c = false) (rest : Bytes) : (s ++ c :: rest).takeWhile p = s := by
  rw [List.takeWhile_append_of_pos h, List.takeWhile_cons_of_neg (by rw [hc]; decide), List.append_nil]

theorem dropWhile_append_stop {p : UInt8 → Bool} {s : Bytes} (h : ∀ b ∈ s, p b = true) {c : UInt8}
    (hc : p c = false) (rest : Bytes) : (s ++ c :: rest).dropWhile p = c :: rest := by
  rw [List.dropWhile_append_of_pos h, List.dropWhile_cons_of_neg (by rw [hc]; decide)]

theorem readAttrs_write {attrs : List (Bytes × Bytes)} (h : ∀ a ∈ attrs, IsName a.1) {n : Nat}
    (hn : attrs.length < n) (rest : Bytes) :
    readAttrs n (attrs.flatMap writeAttr ++ 62 :: rest) = some (attrs, rest) := by
  induction attrs generalizing n with
  | nil =>
    cases n with
    | zero => cases hn
    | succ n => rfl
  | cons a attrs ih =>
    cases n with
    | zero => cases hn
    | succ n =>
      have hname := (h a (List.mem_cons_self ..)).1.2
      have hquote : ∀ b ∈ escape a.2, (b != 34) = true := by
        intro b hb
        rw [bne_iff_ne]
        exact not_quote_of_mem_escape hb
      have hih := ih (fun b hb => h b (List.mem_cons_of_mem _ hb))
        (show attrs.length < n by rw [List.length_cons] at hn; omega)
      have htext : (a :: attrs).flatMap writeAttr ++ 62 :: rest =
          32 :: (a.1 ++ 61 :: 34 :: (escape a.2 ++ 34 :: (attrs.flatMap writeAttr ++ 62 :: rest))) := by
        simp [List.flatMap_cons, writeAttr]
      rw [htext, readAttrs]
      simp only [takeWhile_append_stop hname (show isNameByte 61 = false by decide),
        dropWhile_append_stop hname (show isNameByte 61 = false by decide), expect, if_true,
        Option.bind_eq_bind, Option.bind_some, takeWhile_append_stop hquote (show (34 != 34) = false by decide),
        dropWhile_append_stop hquote (show (34 != 34) = false by decide), unescape_escape, hih]
      rfl

/-- A token with words for names. -/
def TokenWorded : XmlToken → Prop
  | .start name attrs => IsWord name ∧ ∀ a ∈ attrs, IsName a.1
  | .stop name => IsWord name

/-- A start tag is not refused for its name. -/
def startOk : XmlToken → Bool
  | .start name _ => !startsWithDigit name
  | .stop _ => true

theorem length_flatMap_writeAttr (attrs : List (Bytes × Bytes)) :
    attrs.length ≤ (attrs.flatMap writeAttr).length := by
  induction attrs with
  | nil => exact Nat.le_refl _
  | cons a attrs ih =>
    rw [List.flatMap_cons, List.length_append, List.length_cons, writeAttr, List.length_cons]
    omega

/-- A start tag does not begin like an end tag. -/
theorem ne_slash_of_isWord {name : Bytes} (h : IsWord name) (rest : Bytes) :
    ∃ b tl, name ++ rest = b :: tl ∧ b ≠ 47 := by
  cases name with
  | nil => exact absurd rfl h.1
  | cons b tl =>
    refine ⟨b, tl ++ rest, rfl, ?_⟩
    rintro rfl
    exact absurd (h.2 47 (List.mem_cons_self ..)) (by decide)

theorem startsWithDigit_append {name : Bytes} (h : name ≠ []) (rest : Bytes) :
    startsWithDigit (name ++ rest) = startsWithDigit name := by
  cases name with
  | nil => exact absurd rfl h
  | cons b tl => rfl

theorem readTokens_start (n : Nat) {b : UInt8} (hb : b ≠ 47) (tl : Bytes) :
    readTokens (n + 1) (60 :: b :: tl) = if startsWithDigit (b :: tl) then none else
      (readAttrs (n + 1) ((b :: tl).dropWhile isNameByte)).bind fun p =>
        (readTokens n p.2).map fun ts => .start ((b :: tl).takeWhile isNameByte) p.1 :: ts := by
  rw [readTokens]
  · cases readAttrs (n + 1) ((b :: tl).dropWhile isNameByte) with
    | none => rfl
    | some p => exact congrArg (ite _ none) Option.map_eq_bind.symm
  · rintro rest hrest
    exact hb (List.cons.inj hrest).1

/-- After the name of a start tag comes a space or the end of the tag. -/
theorem after_name (attrs : List (Bytes × Bytes)) (rest : Bytes) :
    ∃ c tl, attrs.flatMap writeAttr ++ 62 :: rest = c :: tl ∧ isNameByte c = false := by
  cases attrs with
  | nil => exact ⟨62, rest, rfl, by decide⟩
  | cons a attrs => exact ⟨32, _, rfl, by decide⟩

/-- Tokens with words for names are read back, unless one is refused. -/
theorem readTokens_write {ts : List XmlToken} (h : ∀ t ∈ ts, TokenWorded t) {n : Nat}
    (hn : (write ts).length < n) : readTokens n (write ts) = if ts.all startOk then some ts else none := by
  induction ts generalizing n with
  | nil =>
    cases n with
    | zero => cases hn
    | succ n => rfl
  | cons t ts ih =>
    have hworded := h t (List.mem_cons_self ..)
    rw [write, List.flatMap_cons, ← write, List.length_append] at hn
    cases n with
    | zero => cases hn
    | succ n =>
      have hstop : isNameByte 62 = false := by decide
      have hrec : (write ts).length < n → readTokens n (write ts) = if ts.all startOk then some ts else none :=
        ih (fun u hu => h u (List.mem_cons_of_mem _ hu))
      rw [write, List.flatMap_cons, ← write, List.all_cons]
      cases t with
      | stop name =>
        rw [writeToken, List.length_cons] at hn
        have htext : writeToken (.stop name) ++ write ts = 60 :: 47 :: (name ++ 62 :: write ts) := by
          simp [writeToken]
        rw [htext, readTokens]
        simp only [takeWhile_append_stop hworded.2 hstop, dropWhile_append_stop hworded.2 hstop, expect,
          if_true, Option.bind_eq_bind, Option.bind_some, hrec (by omega), startOk, Bool.true_and]
        split <;> rfl
      | start name attrs =>
        have hattrs := length_flatMap_writeAttr attrs
        rw [writeToken, List.length_cons, List.length_append, List.length_append] at hn
        have htext : writeToken (.start name attrs) ++ write ts =
            60 :: (name ++ (attrs.flatMap writeAttr ++ 62 :: write ts)) := by
          simp [writeToken]
        obtain ⟨b, tl, hcons, hb⟩ := ne_slash_of_isWord hworded.1 (attrs.flatMap writeAttr ++ 62 :: write ts)
        rw [htext, hcons, readTokens_start n hb, ← hcons, startsWithDigit_append hworded.1.1]
        obtain ⟨c, tl', hafter, hc⟩ := after_name attrs (write ts)
        rw [hafter, takeWhile_append_stop hworded.1.2 hc, dropWhile_append_stop hworded.1.2 hc, ← hafter,
          readAttrs_write hworded.2 (by omega), Option.bind_some, hrec (by omega), startOk]
        cases startsWithDigit name with
        | true => rfl
        | false => cases ts.all startOk <;> rfl

mutual
theorem tokenWorded_tokens : ∀ x : Xml, x.Worded → ∀ t ∈ x.tokens, TokenWorded t
  | .element name attrs children, h, t, ht => by
    obtain ⟨hname, hattrs, hchildren⟩ := h
    rw [Xml.tokens, List.mem_cons, List.mem_append, List.mem_singleton] at ht
    rcases ht with rfl | ht | rfl
    · exact ⟨hname, fun a ha => (hattrs a ha).1⟩
    · exact tokenWorded_allTokens children hchildren t ht
    · exact hname

theorem tokenWorded_allTokens : ∀ xs : List Xml, Xml.AllWorded xs → ∀ t ∈ Xml.allTokens xs, TokenWorded t
  | [], _, t, ht => by
    rw [Xml.allTokens] at ht
    cases ht
  | x :: xs, h, t, ht => by
    rw [Xml.allTokens, List.mem_append] at ht
    rcases ht with ht | ht
    · exact tokenWorded_tokens x h.1 t ht
    · exact tokenWorded_allTokens xs h.2 t ht
end

mutual
theorem startOk_tokens : ∀ x : Xml, x.tokens.all startOk = true ↔ x.Named
  | .element name attrs children => by
    rw [Xml.tokens, List.all_cons, List.all_append, Bool.and_eq_true, Bool.and_eq_true,
      startOk_allTokens children, Xml.Named]
    simp [startOk]

theorem startOk_allTokens : ∀ xs : List Xml, (Xml.allTokens xs).all startOk = true ↔ Xml.AllNamed xs
  | [] => by simp [Xml.allTokens, Xml.AllNamed]
  | x :: xs => by
    rw [Xml.allTokens, List.all_append, Bool.and_eq_true, startOk_tokens x, startOk_allTokens xs, Xml.AllNamed]
end

-- An element that is read inside another one becomes its last child.
mutual
theorem readTree_tokens : ∀ (x : Xml) (f : Frame) (stack : List Frame) (ts : List XmlToken),
    readTree (f :: stack) (x.tokens ++ ts) =
      readTree (⟨f.name, f.attrs, f.children ++ [x]⟩ :: stack) ts
  | .element name attrs children, f, stack, ts => by
    rw [Xml.tokens, List.cons_append, List.append_assoc, readTree, readTree_allTokens children]
    simp only [List.nil_append, List.cons_append, readTree, if_true]

theorem readTree_allTokens : ∀ (xs : List Xml) (f : Frame) (stack : List Frame) (ts : List XmlToken),
    readTree (f :: stack) (Xml.allTokens xs ++ ts) =
      readTree (⟨f.name, f.attrs, f.children ++ xs⟩ :: stack) ts
  | [], f, stack, ts => by
    rw [Xml.allTokens, List.nil_append, List.append_nil]
  | x :: xs, f, stack, ts => by
    rw [Xml.allTokens, List.append_assoc, readTree_tokens x, readTree_allTokens xs, List.append_assoc,
      List.singleton_append]
end

theorem readTree_element (x : Xml) : readTree [] x.tokens = some x := by
  cases x with
  | element name attrs children =>
    rw [Xml.tokens, readTree, readTree_allTokens]
    simp only [List.nil_append, readTree, if_true]

end CompactXml

theorem compactXml_lawful : compactXml.Lawful where
  read_write x hx := by
    have htokens := CompactXml.readTokens_write (CompactXml.tokenWorded_tokens x hx.1)
      (Nat.lt_succ_self (CompactXml.write x.tokens).length)
    rw [if_pos ((CompactXml.startOk_tokens x).mpr hx.2)] at htokens
    change CompactXml.read (CompactXml.write x.tokens) = some x
    rw [CompactXml.read, htokens, Option.bind_some, CompactXml.readTree_element]
  refuses x hx hnamed := by
    have htokens := CompactXml.readTokens_write (CompactXml.tokenWorded_tokens x hx)
      (Nat.lt_succ_self (CompactXml.write x.tokens).length)
    rw [if_neg fun hok => hnamed ((CompactXml.startOk_tokens x).mp hok)] at htokens
    change CompactXml.read (CompactXml.write x.tokens) = none
    rw [CompactXml.read, htokens, Option.bind_none]

end KmipGo.Lib
