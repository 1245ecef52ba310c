import KmipGo.Lib.Output
import KmipGo.Registry.Format
import KmipGo.Ttlv.Canonical
import KmipGo.Ttlv.Leading

/-! # Printing blocks

`Print`, `PrintPrettyHex` and `TTLV.String` of `ttlv/ttlv.go`, on a writer that
does not fail: what was written, and how the call ended.  Both printers walk the
value of a structure with `Next`, as long as it is not nil, and stop at the first
child that reports an error.

* `outline` — what such a printer writes for a valid block: a line for each node of
  its derivation, indented by the depth.  `Prints.node_bytes_append` is the walk, for
  both printers.
* `result_print` — `Print` returns what `Valid` returns, and so does not panic.
* `result_printPrettyHex` — `PrintPrettyHex` returns nil.
-/

namespace KmipGo.Text

open KmipGo.Lib KmipGo.Ttlv KmipGo.Reg

/-! ## `Print` -/

/-- The texts of the error values of `ttlv.go`. -/
def causeText : ValidErr → GoString
  | .valueTruncated => lit "value truncated"
  | .headerTruncated => lit "header truncated"
  | .invalidLen => lit "invalid length"
  | .invalidType => lit "invalid KMIP type"
  | .invalidTag => lit "invalid tag"

/-- The verb `%#x` on a byte slice. -/
def hexArg (b : Bytes) : Bytes := if b.length = 0 then [] else lit "0x" ++ hexEncode b

/-- The `String` methods of the library types that a value may have. -/
structure ValueStrings where
  duration : BitVec 64 → GoString
  time : Time → GoString

section

variable (reg : Registry) (S : ValueStrings)

/-- The message of an error of `Valid`: `merry.Prepend` puts the tags in front. -/
def errorText (e : ValidError) : GoString :=
  e.path.foldr (fun tag s => reg.formatTag tag ++ lit ": " ++ s) (causeText e.cause)

/-- The verb `%v` on `t.Value()`, for the types that `Print` has no case for, and Integer. -/
def valueString (t : TTLV) : Option GoString :=
  match t.typ with
  | some .Interval => t.valueInterval.map S.duration
  | some .DateTime => t.valueDateTime.map S.time
  | some .DateTimeExtended => t.valueDateTimeExtended.map S.time
  | some .TextString => some t.valueTextString
  | some .Boolean => t.valueBoolean.map fun b => if b then lit "true" else lit "false"
  | some .BigInteger => some (intDec t.valueBigInteger)
  | some .LongInteger => t.valueLongInteger.map fun i => intDec i.toInt
  | some .Integer => t.valueInteger.map fun i => intDec i.toInt
  | _ => none

/-- A value after a blank; the accessor may panic. -/
def printValue (s : Option GoString) : Printed ValidError :=
  Printed.ofRes (Res.ofOption (s.map fun s => lit " " ++ s))

/-- The line of a block up to its value. -/
def printHeader (currIndent : GoString) (t : TTLV) : Bytes :=
  currIndent ++ reg.formatTag t.tag ++ lit " (" ++ reg.formatType t.typeByte ++ lit "/" ++
    natDec t.len ++ lit "):"

/-- The value of a block that is no structure. -/
def printLeaf (t : TTLV) : Printed ValidError :=
  match t.typ with
  | some .ByteString => Printed.write (lit " " ++ hexArg t.raw)
  | some .Enumeration => printValue (t.valueEnumeration.map fun v => reg.formatEnum t.tag v)
  | some .Integer =>
    match reg.enumForTag t.tag with
    | some e => printValue (t.valueInteger.map fun i => Reg.formatInt i (some e))
    | none => printValue (valueString S t)
  | _ => printValue (valueString S t)

variable (indent : GoString)

mutual
/-- `Print`. -/
def print (currIndent : GoString) (t : TTLV) : Printed ValidError :=
  (Printed.write (printHeader reg currIndent t)).andThen
    (match _h : t.valid with
      | .panic => ⟨[], .panic⟩
      | .err verr =>
        -- as much as there is of a truncated header, or else the value
        ⟨lit " (" ++ errorText reg verr ++ lit ") " ++
          hexArg (if verr.cause = .headerTruncated then t else t.raw), .err verr⟩
      | .ok () =>
        if t.typ = some .Structure then
          match _hs : t.valueStructure with
          | none => Printed.write []
          | some s => printAll (currIndent ++ indent) s
        else printLeaf reg S t)
termination_by 2 * t.length
decreasing_by
  have hlen := length_of_validHeader (validHeader_of_isValid _h)
  have hraw := raw_length_le t
  rw [TTLV.raw, ← TTLV.valueStructure, _hs] at hraw
  simp only [lenHeader, Option.getD_some] at hlen hraw
  omega

/-- The loop of `Print` over the value of a structure. -/
def printAll (currIndent : GoString) (s : TTLV) : Printed ValidError :=
  ((Printed.write (lit "\n")).andThen (print currIndent s)).andThen
    (match _hn : s.next with
      | none => Printed.write []
      | some m => printAll currIndent m)
termination_by 2 * s.length + 1
decreasing_by
  · omega
  · have := next_length_lt _hn
    omega
end

/-- `TTLV.String`. -/
def string (t : TTLV) : GoString := (print reg S (lit "  ") [] t).text

end

/-! ## `PrintPrettyHex` -/

/-- The first eight bytes, in groups. -/
def hexHeader (currIndent : GoString) (b : Bytes) : Res ValidError Bytes := do
  let tag ← Checked.slice b 0 3
  let typ ← Checked.slice b 3 4
  let len ← Checked.slice b 4 8
  return currIndent ++ hexEncode tag ++ lit " | " ++ hexEncode typ ++ lit " | " ++ hexEncode len

section

variable (indent : GoString)

mutual
/-- `PrintPrettyHex`. -/
def printPrettyHex (currIndent : GoString) (t : TTLV) : Printed ValidError :=
  if t.validHeader ≠ none then Printed.write (hexEncode t)
  else if _h : t.IsValid then
    if t.typ = some .Structure then
      (Printed.ofRes (hexHeader currIndent t)).andThen
        (match _hs : t.valueStructure with
          | none => Printed.write []
          | some s => printPrettyHexAll (currIndent ++ indent) s)
    else Printed.ofRes do
      let head ← hexHeader currIndent t
      let n ← Checked.fullLen t
      let value ← Checked.slice t lenHeader n
      return head ++ lit " | " ++ hexEncode value
  else Printed.ofRes do
    let head ← hexHeader currIndent t
    let rest ← Checked.slice t 8 t.length
    return head ++ lit "\n" ++ hexEncode rest
termination_by 2 * t.length
decreasing_by
  have hlen := length_of_validHeader (validHeader_of_isValid _h)
  have hraw := raw_length_le t
  rw [TTLV.raw, ← TTLV.valueStructure, _hs] at hraw
  simp only [lenHeader, Option.getD_some] at hlen hraw
  omega

/-- The loop of `PrintPrettyHex` over the value of a structure. -/
def printPrettyHexAll (currIndent : GoString) (s : TTLV) : Printed ValidError :=
  ((Printed.write (lit "\n")).andThen (printPrettyHex currIndent s)).andThen
    (match _hn : s.next with
      | none => Printed.write []
      | some m => printPrettyHexAll currIndent m)
termination_by 2 * s.length + 1
decreasing_by
  · omega
  · have := next_length_lt _hn
    omega
end

end

/-! ## Outlines -/

theorem blocksBytes_length_ne_zero {cs : List Block} (h : cs ≠ []) : (blocksBytes cs).length ≠ 0 := by
  cases cs with
  | nil => exact absurd rfl h
  | cons c cs => exact bytes_append_length_ne_zero c _

section

variable (indent : GoString) (line : GoString → Block → Bytes)

mutual
/-- The line of a block, and those of the blocks in it. -/
def outline (currIndent : GoString) : Block → Bytes
  | .leaf tag l => line currIndent (.leaf tag l)
  | .struct tag cs => line currIndent (.struct tag cs) ++ outlines (currIndent ++ indent) cs

def outlines (currIndent : GoString) : List Block → Bytes
  | [] => []
  | c :: cs => lit "\n" ++ (outline currIndent c ++ outlines currIndent cs)
end

variable (node all : GoString → TTLV → Printed ValidError)

/-- A printer that writes a line for a block, and walks the value of a structure with `Next`. -/
structure Prints : Prop where
  leaf : ∀ currIndent tag l rest, node currIndent ((Block.leaf tag l).bytes ++ rest) =
    Printed.write (line currIndent (.leaf tag l))
  struct : ∀ currIndent tag cs rest, (Block.struct tag cs).Sized →
    node currIndent ((Block.struct tag cs).bytes ++ rest) =
      (Printed.write (line currIndent (.struct tag cs))).andThen
        ((TTLV.valueStructure ((Block.struct tag cs).bytes ++ rest)).elim (Printed.write [])
          (all (currIndent ++ indent)))
  all : ∀ currIndent s, all currIndent s =
    ((Printed.write (lit "\n")).andThen (node currIndent s)).andThen
      (s.next.elim (Printed.write []) (all currIndent))

variable {indent line node all} (h : Prints indent line node all)

include h

mutual
/-- What follows a block is not printed. -/
theorem Prints.node_bytes_append : ∀ (b : Block) (currIndent : GoString) (rest : Bytes), b.Sized →
    node currIndent (b.bytes ++ rest) = Printed.write (outline indent line currIndent b)
  | .leaf tag l, currIndent, rest, _ => by
    rw [h.leaf, outline]
  | .struct tag cs, currIndent, rest, hsize => by
    rw [h.struct currIndent tag cs rest hsize, TTLV.valueStructure, valueRaw_struct_append tag cs rest hsize,
      outline, Printed.write_andThen]
    by_cases hcs : cs = []
    · rw [hcs, blocksBytes, List.length_nil, if_pos rfl, Option.elim_none, outlines]
      rfl
    · rw [if_neg (blocksBytes_length_ne_zero hcs), Option.elim_some,
        Prints.all_blocksBytes cs _ hcs (fun d hd => Sized.of_mem hd hsize)]
      rfl

theorem Prints.all_blocksBytes : ∀ (cs : List Block) (currIndent : GoString), cs ≠ [] →
    (∀ d ∈ cs, d.Sized) →
    all currIndent (blocksBytes cs) = Printed.write (outlines indent line currIndent cs)
  | [], _, hne, _ => absurd rfl hne
  | c :: cs, currIndent, _, hsize => by
    have hc : c.Sized := hsize c (List.mem_cons_self ..)
    rw [h.all, blocksBytes, Prints.node_bytes_append c currIndent _ hc, next_bytes_append c _ hc, outlines,
      Printed.write_andThen, Printed.andThen_of_ok rfl]
    by_cases hcs : cs = []
    · rw [hcs, blocksBytes, List.length_nil, if_pos rfl, outlines]
      simp [Printed.write]
    · rw [if_neg (blocksBytes_length_ne_zero hcs), Option.elim_some,
        Prints.all_blocksBytes cs currIndent hcs (fun x hx => hsize x (List.mem_cons_of_mem c hx))]
      simp [Printed.write]
end

end

/-! ## The result of `Print` -/

section

variable (reg : Registry) (S : ValueStrings) (indent : GoString)

theorem print_of_err {t : TTLV} {verr : ValidError} (h : t.valid = .err verr) (currIndent : GoString) :
    print reg S indent currIndent t =
      ⟨printHeader reg currIndent t ++ (lit " (" ++ errorText reg verr ++ lit ") " ++
        hexArg (if verr.cause = .headerTruncated then t else t.raw)), .err verr⟩ := by
  rw [print, Printed.write_andThen]
  split
  · simp_all
  · rename_i e he
    rw [h, Res.err.injEq] at he
    rw [he]
  · simp_all

theorem print_of_isValid {t : TTLV} (h : t.IsValid) (currIndent : GoString) :
    print reg S indent currIndent t = (Printed.write (printHeader reg currIndent t)).andThen
      (if t.typ = some .Structure then
        t.valueStructure.elim (Printed.write []) (printAll reg S indent (currIndent ++ indent))
      else printLeaf reg S t) := by
  unfold TTLV.IsValid at h
  rw [print]
  split
  · simp_all
  · simp_all
  · cases t.valueStructure <;> rfl

theorem printAll_eq (currIndent : GoString) (s : TTLV) : printAll reg S indent currIndent s =
    ((Printed.write (lit "\n")).andThen (print reg S indent currIndent s)).andThen
      (s.next.elim (Printed.write []) (printAll reg S indent currIndent)) := by
  rw [printAll]
  cases s.next <;> rfl

theorem printValue_some (s : GoString) : printValue (some s) = Printed.write (lit " " ++ s) := rfl

/-- No accessor panics on the value of a leaf. -/
theorem result_printLeaf (tag : ValidTag) (l : Leaf) (rest : Bytes) :
    (printLeaf reg S ((Block.leaf tag l).bytes ++ rest)).result = .ok () := by
  have hty := typ_leaf_append tag l rest
  cases hl : l.ty with
  | Structure => exact absurd hl (leaf_ty_ne l)
  | ByteString =>
    rw [printLeaf, hty, hl]
    rfl
  | Enumeration =>
    have hv := @valueEnumeration_leaf tag l rest hl
    simp only [printLeaf, hty, hl, hv, Option.map_some, printValue_some, Printed.result_write]
  | Integer =>
    have hv := @valueInteger_leaf tag l rest (Or.inl hl)
    simp only [printLeaf, valueString, hty, hl, hv, Option.map_some, printValue_some]
    split <;> rfl
  | Interval =>
    have hv := @uint32BE_raw_leaf tag l rest hl
    simp only [printLeaf, valueString, TTLV.valueInterval, hty, hl, hv, Option.map_some, printValue_some,
      Printed.result_write]
  | LongInteger =>
    have hv := @valueLongInteger_leaf tag l rest (Or.inl hl)
    simp only [printLeaf, valueString, hty, hl, hv, Option.map_some, printValue_some, Printed.result_write]
  | DateTime =>
    have hv := @valueDateTime_leaf tag l rest (Or.inl hl)
    simp only [printLeaf, valueString, hty, hl, hv, Option.map_some, printValue_some, Printed.result_write]
  | DateTimeExtended =>
    have hv : TTLV.valueDateTimeExtended _ = _ := @valueDateTime_leaf tag l rest (Or.inr hl)
    simp only [printLeaf, valueString, hty, hl, hv, Option.map_some, printValue_some, Printed.result_write]
  | Boolean =>
    have hv := @valueBoolean_leaf tag l rest hl
    simp only [printLeaf, valueString, hty, hl, hv, Option.map_some, printValue_some, Printed.result_write]
  | TextString =>
    simp only [printLeaf, valueString, hty, hl, printValue_some, Printed.result_write]
  | BigInteger =>
    simp only [printLeaf, valueString, hty, hl, printValue_some, Printed.result_write]

variable {reg S} in
theorem printHeader_congr {t u : TTLV} (h : Agrees t u) (currIndent : GoString) :
    printHeader reg currIndent t = printHeader reg currIndent u := by
  rw [printHeader, h.tag, h.typeByte, h.len, ← printHeader]

variable {reg S} in
theorem printLeaf_congr {t u : TTLV} (h : Agrees t u) : printLeaf reg S t = printLeaf reg S u := by
  have hvalue : valueString S t = valueString S u := by
    simp only [valueString, h.typ, h.valueInterval, h.valueDateTime, h.valueDateTimeExtended,
      h.valueTextString, h.valueBoolean, h.valueBigInteger, h.valueLongInteger, h.valueInteger]
  simp only [printLeaf, h.typ, h.raw, h.valueEnumeration, h.tag, h.valueInteger, hvalue]

/-- The line of a block in the text format. -/
def printLine (currIndent : GoString) (b : Block) : Bytes :=
  printHeader reg currIndent b.bytes ++
    (match b with
      | .leaf _ _ => (printLeaf reg S b.bytes).text
      | .struct _ _ => [])

theorem prints_print :
    Prints indent (printLine reg S) (print reg S indent) (printAll reg S indent) where
  leaf currIndent tag l rest := by
    have hsame := agrees_leaf tag l rest
    have hresult := result_printLeaf reg S tag l []
    rw [List.append_nil] at hresult
    rw [print_of_isValid reg S indent (valid_bytes_append (.leaf tag l) rest trivial), if_neg (typ_leaf_append_ne tag l rest),
      Printed.write_andThen, printHeader_congr hsame, printLeaf_congr hsame, hresult]
    rfl
  struct currIndent tag cs rest hsize := by
    have hsame := agrees_append (.struct tag cs) rest hsize
    rw [print_of_isValid reg S indent (valid_bytes_append _ rest hsize), typ_struct_append, if_pos rfl,
      printHeader_congr hsame, printLine, List.append_nil]
  all := printAll_eq reg S indent

/-- `Print` returns the error of `Valid`. -/
theorem result_print (currIndent : GoString) (t : TTLV) :
    (print reg S indent currIndent t).result = t.valid := by
  cases hv : t.valid with
  | panic => exact absurd hv (valid_ne_panic t).1
  | err verr => rw [print_of_err reg S indent hv]
  | ok u =>
    -- no child of a valid block reports an error of its own
    obtain ⟨b, hsize, rest, rfl⟩ := isValid_iff.mp hv
    rw [(prints_print reg S indent).node_bytes_append b currIndent rest hsize, Printed.result_write]

end

/-! ## The result of `PrintPrettyHex` -/

section

variable (indent : GoString)

/-- The eight bytes of the header, in groups. -/
def hexGroups (currIndent : GoString) (b : Bytes) : Bytes :=
  currIndent ++ hexEncode (b.take 3) ++ lit " | " ++ hexEncode ((b.drop 3).take 1) ++ lit " | " ++
    hexEncode ((b.drop 4).take 4)

theorem hexHeader_eq (currIndent : GoString) {b : Bytes} (h : lenHeader ≤ b.length) :
    hexHeader currIndent b = .ok (hexGroups currIndent b) := by
  simp only [lenHeader] at h
  rw [hexHeader, Checked.slice_of_le (by omega) (by omega), Res.ok_bind,
    Checked.slice_of_le (by omega) (by omega), Res.ok_bind, Checked.slice_of_le (by omega) (by omega),
    Res.ok_bind, List.drop_zero, List.drop_take, List.drop_take]
  rfl

/-- A block that is not valid: its header, and all the rest on a line of its own. -/
theorem printPrettyHex_of_invalid {t : TTLV} (hhdr : t.validHeader = none) (h : ¬ t.IsValid)
    (currIndent : GoString) : printPrettyHex indent currIndent t =
      Printed.write (hexGroups currIndent t ++ lit "\n" ++ hexEncode (t.drop 8)) := by
  have hlen := length_of_validHeader hhdr
  rw [printPrettyHex, if_neg (not_not.mpr hhdr), dif_neg h, hexHeader_eq currIndent hlen, Res.ok_bind,
    Checked.slice_of_le (i := 8) hlen (Nat.le_refl _), List.take_length]
  rfl

theorem printPrettyHex_of_struct {t : TTLV} (h : t.IsValid) (hty : t.typ = some .Structure)
    (currIndent : GoString) : printPrettyHex indent currIndent t =
      (Printed.write (hexGroups currIndent t)).andThen
        (t.valueStructure.elim (Printed.write []) (printPrettyHexAll indent (currIndent ++ indent))) := by
  have hhdr := validHeader_of_isValid h
  rw [printPrettyHex, if_neg (not_not.mpr hhdr), dif_pos h, if_pos hty,
    hexHeader_eq currIndent (length_of_validHeader hhdr), Printed.ofRes_ok]
  cases t.valueStructure <;> rfl

theorem printPrettyHex_of_leaf {t : TTLV} (h : t.IsValid) (hty : ¬ t.typ = some .Structure) {n : Nat}
    (hn : t.fullLen = some n) (hle : n ≤ t.length) (currIndent : GoString) :
    printPrettyHex indent currIndent t =
      Printed.write (hexGroups currIndent t ++ lit " | " ++ hexEncode ((t.take n).drop 8)) := by
  have hhdr := validHeader_of_isValid h
  rw [printPrettyHex, if_neg (not_not.mpr hhdr), dif_pos h, if_neg hty,
    hexHeader_eq currIndent (length_of_validHeader hhdr), Res.ok_bind, Checked.fullLen_eq, hn,
    Res.ofOption_some, Res.ok_bind, Checked.slice_of_le (i := lenHeader) (fullLen_ge hn) hle]
  rfl

theorem printPrettyHexAll_eq (currIndent : GoString) (s : TTLV) : printPrettyHexAll indent currIndent s =
    ((Printed.write (lit "\n")).andThen (printPrettyHex indent currIndent s)).andThen
      (s.next.elim (Printed.write []) (printPrettyHexAll indent currIndent)) := by
  rw [printPrettyHexAll]
  cases s.next <;> rfl

/-- The line of a block in hex. -/
def hexLine (currIndent : GoString) (b : Block) : Bytes :=
  hexGroups currIndent b.bytes ++
    (match b with
      | .leaf _ _ => lit " | " ++ hexEncode (b.bytes.drop 8)
      | .struct _ _ => [])

theorem hexGroups_append (currIndent : GoString) (b : Block) (rest : Bytes) :
    hexGroups currIndent (b.bytes ++ rest) = hexGroups currIndent b.bytes := by
  have hlen := b.length_ge
  rw [hexGroups, List.take_append_of_le_length (by omega), List.drop_append_of_le_length (by omega),
    List.drop_append_of_le_length (by omega), List.take_append_of_le_length (by rw [List.length_drop]; omega),
    List.take_append_of_le_length (by rw [List.length_drop]; omega), ← hexGroups]

theorem prints_printPrettyHex :
    Prints indent hexLine (printPrettyHex indent) (printPrettyHexAll indent) where
  leaf currIndent tag l rest := by
    have hfull := fullLen_bytes_append (.leaf tag l) rest trivial
    rw [printPrettyHex_of_leaf indent (valid_bytes_append (.leaf tag l) rest trivial)
      (typ_leaf_append_ne tag l rest) hfull (by rw [List.length_append]; omega), hexGroups_append, List.take_left' rfl, List.append_assoc]
    rfl
  struct currIndent tag cs rest hsize := by
    rw [printPrettyHex_of_struct indent (valid_bytes_append _ rest hsize) (typ_struct_append tag cs rest),
      hexGroups_append, hexLine, List.append_nil]
  all := printPrettyHexAll_eq indent

theorem result_printPrettyHex (currIndent : GoString) (t : TTLV) :
    (printPrettyHex indent currIndent t).result = .ok () := by
  by_cases hhdr : t.validHeader = none
  · by_cases h : t.IsValid
    · obtain ⟨b, hsize, rest, rfl⟩ := isValid_iff.mp h
      rw [(prints_printPrettyHex indent).node_bytes_append b currIndent rest hsize, Printed.result_write]
    · rw [printPrettyHex_of_invalid indent hhdr h, Printed.result_write]
  · rw [printPrettyHex, if_pos hhdr, Printed.result_write]

end

/-! ## Inspection of arbitrary bytes -/

/-- No accessor of the header, nor `ValidHeader`, `Valid` or `Next`, goes outside the slice or reaches
    the panic of `FullLen`, and each returns on a fuel linear in the length.  `Print` returns nil iff the
    bytes are valid and `PrintPrettyHex` always; each call of `Next` passes at least eight bytes, so that
    it soon returns nil. -/
theorem inspection_safe (reg : Registry) (S : ValueStrings) (currIndent indent : GoString) (t : TTLV) :
    (∀ ε : Type, (Checked.tag t : Res ε Tag) = .ok t.tag ∧ (Checked.typeByte t : Res ε UInt8) = .ok t.typeByte ∧
      (Checked.len t : Res ε Nat) = .ok t.len ∧ (Checked.valueRaw t : Res ε (Option Bytes)) = .ok t.valueRaw ∧
      (Checked.validHeader t : Res ε (Option ValidErr)) = .ok t.validHeader) ∧
    (∀ fuel, t.length + 2 ≤ fuel →
      Checked.valid fuel t = t.valid ∧ Checked.next fuel t = .ok t.next) ∧
    t.valid ≠ .panic ∧
    (print reg S indent currIndent t).result ≠ .panic ∧
    ((print reg S indent currIndent t).result = .ok () ↔ t.IsValid) ∧
    (printPrettyHex indent currIndent t).result = .ok () ∧
    (∀ n m, stepNext^[n] (some t) = some m → ∀ k, m.next = some k → k.length + 8 ≤ m.length) ∧
    stepNext^[t.length / 8 + 1] (some t) = none := by
  refine ⟨?_, ?_, (valid_ne_panic t).1, ?_, ?_, result_printPrettyHex indent currIndent t, ?_, next_iterate t⟩
  · intro ε
    exact ⟨Checked.tag_eq t, Checked.typeByte_eq t, Checked.len_eq t, Checked.valueRaw_eq t,
      Checked.validHeader_eq t⟩
  · intro fuel hfuel
    exact ⟨Checked.valid_eq (by omega), Checked.next_eq (by omega)⟩
  · rw [result_print]
    exact (valid_ne_panic t).1
  · rw [result_print, TTLV.IsValid]
  · intro n m _ k hk
    exact next_length_lt hk

/-- A library that prints durations and instants as nothing. -/
def noStrings : ValueStrings := ⟨fun _ => [], fun _ => []⟩

/-- A header that announces more bytes than there are. -/
def truncatedText : TTLV := [0x42, 0x00, 0x0a, 0x07, 0, 0, 0, 9, 0x61]

theorem inspection_safe_truncated :
    Checked.valid 11 truncatedText = truncatedText.valid ∧
      Checked.next 11 truncatedText = .ok truncatedText.next ∧ ¬ truncatedText.IsValid ∧
      (print Registry.empty noStrings [] [] truncatedText).result ≠ .ok () ∧
      (printPrettyHex [] [] truncatedText).result = .ok () := by
  have hbad : ¬ truncatedText.IsValid := by decide +kernel
  obtain ⟨-, hfuel, -, -, hprint, hhex, -⟩ := inspection_safe Registry.empty noStrings [] [] truncatedText
  obtain ⟨hvalid, hnext⟩ := hfuel 11 (by decide)
  exact ⟨hvalid, hnext, hbad, fun h => hbad (hprint.mp h), hhex⟩

end KmipGo.Text
