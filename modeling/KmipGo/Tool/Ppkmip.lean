import KmipGo.Json.Encode
import KmipGo.Text.PrettyHex
import KmipGo.Xml.Encode

/-! # The pretty printer

`main` and `printTTLV` of `cmd/ppkmip/main.go`, from the buffer that the input was
read into to what is printed.  `main` steps over the blocks of a hex input with
`Next`, and each time hands the printer all that is left of the input.

* `hexDigits_printBlocks` — the bytes whose digits the two hex formats print for a
  stream of blocks (`emitted`).
* `ppkmip_preserves_iff` — when these are the bytes of the stream.
-/

namespace KmipGo.Ppkmip

open KmipGo.Lib KmipGo.Ttlv KmipGo.Reg KmipGo.Text

/-! ## Formats -/

inductive InFormat where
  | json | xml | hex | unknown
deriving DecidableEq, Repr

inductive OutFormat where
  | text | json | xml | hex | prettyhex | unknown
deriving DecidableEq, Repr

/-- The switch over `strings.ToLower(inFormat)`. -/
def InFormat.ofFlag (flag : GoString) : InFormat :=
  if toLower flag = lit "json" then .json
  else if toLower flag = lit "xml" then .xml
  else if toLower flag = lit "hex" then .hex
  else .unknown

/-- The switch over `strings.ToLower(outFormat)`, with its default. -/
def OutFormat.ofFlag (flag : GoString) : OutFormat :=
  if toLower flag = [] ∨ toLower flag = lit "text" then .text
  else if toLower flag = lit "json" then .json
  else if toLower flag = lit "xml" then .xml
  else if toLower flag = lit "hex" then .hex
  else if toLower flag = lit "prettyhex" then .prettyhex
  else .unknown

/-- The calls of `fail`, each of which ends the program. -/
inductive Failure where
  | parsingJSON | parsingXML | invalidInputFormat (inFormat : GoString)
  | printing | printingJSON | printingXML
deriving DecidableEq, Repr

/-- Detects the input format by its first byte, if the flag is not set. -/
def inputFormat (flag : GoString) (buf : Bytes) : Res Failure InFormat :=
  if flag = [] then do
    let b ← Checked.index buf 0
    return if b = 91 ∨ b = 123 then .json else if b = 60 then .xml else .hex
  else .ok (InFormat.ofFlag flag)

/-- The libraries that the program uses. -/
structure Libraries where
  reg : Registry
  title : Bytes → Bytes
  strings : ValueStrings
  json : JsonCodec
  times : TimeCodec
  /-- `json.MarshalIndent`, after the marshaler -/
  jsonIndent : Bytes → Bytes
  /-- `xml.MarshalIndent`, after the marshaler -/
  xmlIndent : List XmlToken → Bytes
  /-- what a JSON decoder returns until the end of its input; `none` is an error -/
  jsonStream : Bytes → List (Option TTLV)
  xmlStream : Bytes → List (Option TTLV)

section

variable (L : Libraries)

/-! ## Printing -/

def failWith {ε α : Type} (f : Failure) : Res ε α → Res Failure α
  | .ok a => .ok a
  | .err _ => .err f
  | .panic => .panic

/-- The switch of `printTTLV`. -/
def printFormat (outFormat : OutFormat) (raw : TTLV) : Printed Failure :=
  match outFormat with
  | .text => (print L.reg L.strings (lit "  ") [] raw).mapErr fun _ => .printing
  | .json => Printed.ofRes do
    let s ← failWith .printingJSON (JsonForm.marshalJSON L.reg L.title L.json L.times raw)
    return L.jsonIndent s
  | .xml => Printed.ofRes do
    let e ← failWith .printingXML
      (XmlForm.encodeMarshaler (XmlForm.marshalXML L.reg L.title L.times raw) ⟨[], []⟩)
    return L.xmlIndent e.out
  | .hex => Printed.write (hexEncode raw)
  | .prettyhex => (printPrettyHex (lit "  ") [] raw).mapErr fun _ => .printing
  | .unknown => Printed.write []

def printTTLV (outFormat : OutFormat) (raw : TTLV) (count : Nat) : Printed Failure :=
  (Printed.write (if count > 0 then lit "\n" else [])).andThen (printFormat L outFormat raw)

/-- The loop over a JSON or XML input. -/
def printStream (outFormat : OutFormat) (f : Failure) : List (Option TTLV) → Nat → Printed Failure
  | [], _ => Printed.write []
  | none :: _, _ => ⟨[], .err f⟩
  | some raw :: rest, count =>
    (printTTLV L outFormat raw count).andThen (printStream outFormat f rest (count + 1))

/-- The loop over a hex input. -/
def printBlocks (outFormat : OutFormat) (raw : TTLV) (count : Nat) : Printed Failure :=
  if raw.length > 0 then
    (printTTLV L outFormat raw count).andThen
      (match _h : raw.next with
        | none => Printed.write []
        | some m => printBlocks outFormat m (count + 1))
  else Printed.write []
termination_by raw.length
decreasing_by
  have := next_length_lt _h
  omega

/-- `main`, after the input has been read into a buffer. -/
def main (inFlag outFlag : GoString) (buf : Bytes) : Printed Failure :=
  match inputFormat inFlag buf with
  | .err f => ⟨[], .err f⟩
  | .panic => ⟨[], .panic⟩
  | .ok .json => printStream L (.ofFlag outFlag) .parsingJSON (L.jsonStream buf) 0
  | .ok .xml => printStream L (.ofFlag outFlag) .parsingXML (L.xmlStream buf) 0
  | .ok .hex =>
    match hex2bytes buf with
    | none => ⟨[], .panic⟩
    | some raw => printBlocks L (.ofFlag outFlag) raw 0
  | .ok .unknown => ⟨[], .err (.invalidInputFormat inFlag)⟩

theorem printBlocks_eq (outFormat : OutFormat) {raw : TTLV} (h : raw.length > 0) (count : Nat) :
    printBlocks L outFormat raw count = (printTTLV L outFormat raw count).andThen
      (raw.next.elim (Printed.write []) fun m => printBlocks L outFormat m (count + 1)) := by
  rw [printBlocks, if_pos h]
  cases raw.next <;> rfl

theorem printBlocks_nil (outFormat : OutFormat) (count : Nat) :
    printBlocks L outFormat [] count = Printed.write [] := by
  rw [printBlocks, List.length_nil, if_neg (Nat.lt_irrefl 0)]

/-! ## A stream of blocks -/

/-- The bytes whose digits are printed for a stream of blocks, in one of the hex formats. -/
def emitted (outFormat : OutFormat) : List Block → Bytes
  | [] => []
  | b :: bs => (if outFormat = .hex then blocksBytes (b :: bs) else b.bytes) ++ emitted outFormat bs

theorem noHex_indent : NoHex (lit "  ") := forall_mem_of_all (by decide)

theorem printFormat_hex {outFormat : OutFormat} (h : outFormat = .hex ∨ outFormat = .prettyhex)
    {b : Block} (hsize : b.Sized) (bs : List Block) :
    (printFormat L outFormat (blocksBytes (b :: bs))).result = .ok () ∧
      hexDigits (printFormat L outFormat (blocksBytes (b :: bs))).text =
        hexEncode (if outFormat = .hex then blocksBytes (b :: bs) else b.bytes) := by
  rcases h with rfl | rfl
  · exact ⟨rfl, hexDigits_hexEncode _⟩
  · have hvalid : TTLV.IsValid (blocksBytes (b :: bs)) := valid_bytes_append b _ hsize
    have hdigits := hexDigits_printPrettyHex noHex_indent (show NoHex [] from nofun) (blocksBytes (b :: bs))
    rw [if_pos hvalid, blocksBytes, block_bytes_append b _ hsize] at hdigits
    rw [printFormat, Printed.mapErr_of_ok _ (result_printPrettyHex (lit "  ") [] _)]
    exact ⟨rfl, hdigits⟩

theorem printTTLV_hex {outFormat : OutFormat} (h : outFormat = .hex ∨ outFormat = .prettyhex)
    {b : Block} (hsize : b.Sized) (bs : List Block) (count : Nat) :
    (printTTLV L outFormat (blocksBytes (b :: bs)) count).result = .ok () ∧
      hexDigits (printTTLV L outFormat (blocksBytes (b :: bs)) count).text =
        hexEncode (if outFormat = .hex then blocksBytes (b :: bs) else b.bytes) := by
  obtain ⟨hresult, hdigits⟩ := printFormat_hex L h hsize bs
  have hnewline : hexDigits (if count > 0 then lit "\n" else []) = [] := by
    split
    · exact hexDigits_newline
    · rfl
  rw [printTTLV, Printed.write_andThen, hexDigits_append, hnewline]
  exact ⟨hresult, hdigits⟩

/-- The loop prints the digits of `emitted`, and comes to its end. -/
theorem hexDigits_printBlocks {outFormat : OutFormat} (h : outFormat = .hex ∨ outFormat = .prettyhex)
    (bs : List Block) (hsize : ∀ b ∈ bs, b.Sized) (count : Nat) :
    (printBlocks L outFormat (blocksBytes bs) count).result = .ok () ∧
      hexDigits (printBlocks L outFormat (blocksBytes bs) count).text = hexEncode (emitted outFormat bs) := by
  induction bs generalizing count with
  | nil =>
    rw [blocksBytes, printBlocks_nil]
    exact ⟨rfl, rfl⟩
  | cons b bs ih =>
    have hb := hsize b (List.mem_cons_self ..)
    have hpos : (blocksBytes (b :: bs)).length > 0 := Nat.pos_of_ne_zero (bytes_append_length_ne_zero b _)
    obtain ⟨hfirst, hdigits⟩ := printTTLV_hex L h hb bs count
    obtain ⟨hrest, hmore⟩ := ih (fun c hc => hsize c (List.mem_cons_of_mem b hc)) (count + 1)
    have hnext : ((TTLV.next (blocksBytes (b :: bs))).elim (Printed.write []) fun m =>
        printBlocks L outFormat m (count + 1)) = printBlocks L outFormat (blocksBytes bs) (count + 1) := by
      rw [blocksBytes, next_bytes_append b _ hb]
      split
      · -- after the last block `Next` returns nil, and the loop ends as on an empty slice
        rename_i hnil
        rw [List.length_eq_zero_iff.mp hnil, printBlocks_nil, Option.elim_none]
      · rw [Option.elim_some]
    rw [printBlocks_eq L outFormat hpos, hnext, Printed.andThen_of_ok hfirst, hexDigits_append, hdigits, hmore,
      ← hexEncode_append, emitted]
    exact ⟨hrest, rfl⟩

theorem emitted_prettyhex (bs : List Block) : emitted .prettyhex bs = blocksBytes bs := by
  induction bs with
  | nil => rfl
  | cons b bs ih => rw [emitted, if_neg nofun, ih, blocksBytes]

/-- The hex format prints the later blocks once more after each block. -/
theorem emitted_hex_iff (bs : List Block) : emitted .hex bs = blocksBytes bs ↔ bs.length ≤ 1 := by
  match bs with
  | [] => exact iff_of_true rfl (Nat.zero_le 1)
  | [b] =>
    refine iff_of_true ?_ (Nat.le_refl 1)
    rw [emitted, if_pos rfl, emitted, List.append_nil]
  | b :: c :: bs =>
    refine iff_of_false ?_ (by simp)
    -- `c` is printed with `b` and once more by itself, and has at least the bytes of a header
    intro heq
    have hlen := congrArg List.length heq
    have hc := c.length_ge
    rw [emitted, if_pos rfl, List.length_append, emitted, if_pos rfl, List.length_append, blocksBytes,
      blocksBytes] at hlen
    simp only [List.length_append] at hlen
    omega

/-! ## Messages -/

/-- The bytes of one message: valid, with nothing after it. -/
def IsMessage (t : TTLV) : Prop := t.IsValid ∧ t.fullLen = some t.length

instance (t : TTLV) : Decidable (IsMessage t) := inferInstanceAs (Decidable (_ ∧ _))

theorem exists_blocks {ts : List TTLV} (h : ∀ t ∈ ts, IsMessage t) :
    ∃ bs : List Block, (∀ b ∈ bs, b.Sized) ∧ bs.length = ts.length ∧ ts.flatten = blocksBytes bs := by
  induction ts with
  | nil => exact ⟨[], nofun, rfl, rfl⟩
  | cons t ts ih =>
    obtain ⟨bs, hsizes, hlen, hbytes⟩ := ih fun u hu => h u (List.mem_cons_of_mem t hu)
    obtain ⟨hvalid, hfull⟩ := h t (List.mem_cons_self ..)
    obtain ⟨b, hsize, rest, rfl⟩ := isValid_iff.mp hvalid
    rw [fullLen_bytes_append b rest hsize, Option.some.injEq, List.length_append] at hfull
    have hrest : rest = [] := List.length_eq_zero_iff.mp (by omega)
    refine ⟨b :: bs, ?_, by rw [List.length_cons, hlen, List.length_cons], ?_⟩
    · intro c hc
      cases hc with
      | head => exact hsize
      | tail _ hc => exact hsizes c hc
    · rw [List.flatten_cons, hbytes, hrest, List.append_nil, blocksBytes]

/-- The input is taken for hex: the flag says so, or it is left to the first byte. -/
def ReadsHex (inFlag : GoString) (buf : Bytes) : Prop :=
  InFormat.ofFlag inFlag = .hex ∨ inFlag = [] ∧ ∀ b, buf.head? = some b → b ≠ 91 ∧ b ≠ 123 ∧ b ≠ 60

/-- Without a flag there has to be a first byte. -/
theorem inputFormat_of_readsHex {inFlag : GoString} {buf : Bytes} (h : ReadsHex inFlag buf) :
    inputFormat inFlag buf = if inFlag = [] ∧ buf = [] then .panic else .ok .hex := by
  rw [inputFormat]
  rcases h with h | ⟨rfl, h⟩
  · have hne : inFlag ≠ [] := by
      rintro rfl
      exact absurd h (by decide)
    rw [if_neg hne, if_neg (fun hboth => hne hboth.1), h]
  · rw [if_pos rfl]
    cases buf with
    | nil => rfl
    | cons b bs =>
      obtain ⟨hbracket, hbrace, hless⟩ := h b rfl
      rw [Checked.index, List.getElem?_cons_zero, Res.ofOption_some, Res.ok_bind, if_neg (by simp [hbracket, hbrace]),
        if_neg hless, if_neg (by simp)]
      rfl

/-- What is printed is read back as the bytes of the input. -/
def Preserves (inFlag outFlag : GoString) (buf raw : Bytes) : Prop :=
  (main L inFlag outFlag buf).result = .ok () ∧ hex2bytes (main L inFlag outFlag buf).text = some raw

/-- A stream of messages is preserved iff it is printed in pretty hex or is a single message, and the
    format of an empty input is not left to its first byte. -/
theorem ppkmip_preserves_iff {ts : List TTLV} (hts : ∀ t ∈ ts, IsMessage t) {buf : Bytes}
    (hbuf : hex2bytes buf = some ts.flatten) {inFlag : GoString} (hin : ReadsHex inFlag buf)
    {outFlag : GoString} (hout : OutFormat.ofFlag outFlag = .hex ∨ OutFormat.ofFlag outFlag = .prettyhex) :
    Preserves L inFlag outFlag buf ts.flatten ↔
      (inFlag ≠ [] ∨ buf ≠ []) ∧ (OutFormat.ofFlag outFlag = .prettyhex ∨ ts.length ≤ 1) := by
  obtain ⟨bs, hsizes, hlen, hbytes⟩ := exists_blocks hts
  have hformat := inputFormat_of_readsHex hin
  by_cases hempty : inFlag = [] ∧ buf = []
  · -- `buf[0]` panics
    rw [if_pos hempty] at hformat
    refine iff_of_false ?_ ?_
    · rintro ⟨hresult, -⟩
      rw [main, hformat] at hresult
      cases hresult
    · rintro ⟨hor, -⟩
      rcases hor with hne | hne
      · exact hne hempty.1
      · exact hne hempty.2
  · rw [if_neg hempty] at hformat
    obtain ⟨hresult, hdigits⟩ := hexDigits_printBlocks L hout bs hsizes 0
    have hmain : main L inFlag outFlag buf = printBlocks L (.ofFlag outFlag) (blocksBytes bs) 0 := by
      rw [main, hformat, hbuf, hbytes]
    have hsome : inFlag ≠ [] ∨ buf ≠ [] := by
      by_contra hnone
      push Not at hnone
      exact hempty hnone
    rw [Preserves, hmain, and_iff_right hresult, and_iff_right hsome, hex2bytes_of_hexDigits hdigits,
      Option.some.injEq, hbytes, ← hlen]
    rcases hout with hhex | hpretty
    · rw [hhex, emitted_hex_iff]
      exact (or_iff_right nofun).symm
    · rw [hpretty, emitted_prettyhex]
      exact iff_of_true rfl (Or.inl rfl)

end

/-- Libraries without names and formats, which the hex formats do not use. -/
def bareLibraries : Libraries where
  reg := Registry.empty
  title := id
  strings := noStrings
  json := ⟨id, fun _ => none⟩
  times := ⟨fun _ => [], fun _ => none⟩
  jsonIndent := id
  xmlIndent := fun _ => []
  jsonStream := fun _ => []
  xmlStream := fun _ => []

/-- A message without a value. -/
def emptyMessage : TTLV := [0x42, 0x00, 0x69, 0x01, 0, 0, 0, 0]

/-- Two messages, in pretty hex. -/
theorem ppkmip_preserves_pair :
    (∀ t ∈ [emptyMessage, emptyMessage], IsMessage t) ∧
      hex2bytes (lit "42006901000000004200690100000000") = some [emptyMessage, emptyMessage].flatten ∧
      Preserves bareLibraries [] (lit "PrettyHex") (lit "42006901000000004200690100000000")
        [emptyMessage, emptyMessage].flatten := by
  have hts : ∀ t ∈ [emptyMessage, emptyMessage], IsMessage t := by decide +kernel
  have hbuf : hex2bytes (lit "42006901000000004200690100000000") =
      some [emptyMessage, emptyMessage].flatten := by decide +kernel
  have hin : ReadsHex [] (lit "42006901000000004200690100000000") := by
    refine Or.inr ⟨rfl, ?_⟩
    intro b hb
    cases hb
    decide
  refine ⟨hts, hbuf, (ppkmip_preserves_iff bareLibraries hts hbuf hin (Or.inr (by decide))).mpr ?_⟩
  exact ⟨Or.inr nofun, Or.inl (by decide)⟩

/-- In the format hex the second of two messages is printed twice. -/
theorem ppkmip_repeats :
    (main bareLibraries [] (lit "hex") (lit "42006901000000004200690100000000")).text =
        lit "42006901000000004200690100000000\n4200690100000000" ∧
      ¬ Preserves bareLibraries [] (lit "hex") (lit "42006901000000004200690100000000")
        [emptyMessage, emptyMessage].flatten := by
  have htext : (main bareLibraries [] (lit "hex") (lit "42006901000000004200690100000000")).text =
      lit "42006901000000004200690100000000\n4200690100000000" := by decide +kernel
  refine ⟨htext, ?_⟩
  rintro ⟨-, hread⟩
  rw [htext] at hread
  exact absurd hread (by decide +kernel)

end KmipGo.Ppkmip
