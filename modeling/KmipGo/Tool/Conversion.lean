import KmipGo.Lib.Lines
import KmipGo.Text.Documents
import KmipGo.Tool.Ppkmip

/-! # Conversions between formats

What ppkmip prints as JSON, XML or hex it can read again.  Here runs of the program
are put one after the other, each on what the one before has printed.

* `Holds L f bs text` — the text holds the messages `bs` in the format `f`: this is
  what the program reads from it.
* `main_converts` — a run prints in one format the messages that it has read in
  another.
* `conversions_preserve` — so no chain of runs loses or changes a message.

The hex format prints the rest of a hex input with each message, so a run from hex to
hex is only allowed on a single message.
-/

namespace KmipGo.Ppkmip

open KmipGo.Lib KmipGo.Ttlv KmipGo.Reg KmipGo.Text

/-- The format in which an output can be read again. -/
def OutFormat.input : OutFormat → Option InFormat
  | .json => some .json
  | .xml => some .xml
  | .hex | .prettyhex => some .hex
  | .text | .unknown => none

/-- What is used of the libraries.  Their stream decoders read indented documents one after the
    other, whatever white space is between them, and hand each to the decoder of a single one.  They
    go down 10000 levels; an element in XML takes two of them, one for the slice of its parent's children. -/
structure Libraries.Documented (L : Libraries) : Prop where
  names : L.reg.Standard L.title
  json : L.json.QuotesPlain
  times : L.times.Lawful
  jsonStream : ∀ {js : List Json} {ts : List TTLV}, (∀ j ∈ js, j.Writable ∧ j.depth ≤ 10000) →
    List.Forall₂ (fun j t => JsonForm.decodeJSON L.reg L.title L.times tagNone j = .ok t) js ts →
    L.jsonStream (lines (js.map fun j => L.jsonIndent (j.render L.json.quote))) = ts.map some
  xmlStream : ∀ {xs : List Xml} {ts : List TTLV}, (∀ x ∈ xs, x.Writable ∧ x.depth ≤ 5000) →
    List.Forall₂ (fun x t => XmlForm.unmarshalXMLTval L.reg L.title L.times [] tagNone x = .ok t) xs ts →
    L.xmlStream (lines (xs.map fun x => L.xmlIndent x.tokens)) = ts.map some

mutual
/-- How deep structures are nested in a block. -/
def nesting : Block → Nat
  | .leaf _ _ => 1
  | .struct _ cs => 1 + nestings cs

def nestings : List Block → Nat
  | [] => 0
  | c :: cs => max (nesting c) (nestings cs)
end

section

variable (L : Libraries)

/-- The text holds the messages in a format. -/
def Holds : InFormat → List Block → Bytes → Prop
  | .hex, bs, text => hex2bytes text = some (blocksBytes bs)
  | .json, bs, text => L.jsonStream text = (bs.map Block.bytes).map some
  | .xml, bs, text => L.xmlStream text = (bs.map Block.bytes).map some
  | .unknown, _, _ => False

/-- A message that both text forms keep. -/
structure Portable (b : Block) : Prop where
  sized : b.Sized
  json : TextBlock L.reg (fun s => validUTF8 s = true) L.title b
  xml : TextBlock L.reg (fun s => xmlSafe s = true) L.title b
  values : JsonForm.ValuesRead L.reg L.title b
  readable : XmlForm.XmlReadable L.reg L.title b
  shallow : nesting b ≤ 5000

/-! ## One call of the printer after the other -/

def printEach (outFormat : OutFormat) : List TTLV → Nat → Printed Failure
  | [], _ => Printed.write []
  | t :: ts, count => (printTTLV L outFormat t count).andThen (printEach outFormat ts (count + 1))

theorem printStream_some (outFormat : OutFormat) (f : Failure) (ts : List TTLV) (count : Nat) :
    printStream L outFormat f (ts.map some) count = printEach L outFormat ts count := by
  induction ts generalizing count with
  | nil => rfl
  | cons t ts ih => rw [List.map_cons, printStream, printEach, ih]

/-- The loop over hex input hands the printer each block with all that follows. -/
theorem printBlocks_slices (outFormat : OutFormat) {bs : List Block} (hsize : ∀ b ∈ bs, b.Sized) (count : Nat) :
    printBlocks L outFormat (blocksBytes bs) count = printEach L outFormat (slices bs []) count := by
  induction bs generalizing count with
  | nil =>
    rw [blocksBytes, printBlocks_nil]
    rfl
  | cons b bs ih =>
    have hb := hsize b (List.mem_cons_self ..)
    have hmore := ih (fun c hc => hsize c (List.mem_cons_of_mem b hc)) (count + 1)
    have hpos : (blocksBytes (b :: bs)).length > 0 := Nat.pos_of_ne_zero (bytes_append_length_ne_zero b _)
    rw [printBlocks_eq L outFormat hpos, slices, printEach, ← hmore, List.append_nil, blocksBytes,
      next_bytes_append b _ hb]
    split
    · rename_i hnil
      rw [List.length_eq_zero_iff.mp hnil, printBlocks_nil]
      rfl
    · rfl

/-- The slice begins with the block; where it is `alone`, nothing follows. -/
def Leads (alone : Prop) (t : TTLV) (b : Block) : Prop :=
  ∃ bs, t = blocksBytes (b :: bs) ∧ (alone → bs = [])

theorem leads_bytes (alone : Prop) (bs : List Block) : List.Forall₂ (Leads alone) (bs.map Block.bytes) bs := by
  induction bs with
  | nil => exact .nil
  | cons b bs ih =>
    refine .cons ⟨[], ?_, fun _ => rfl⟩ ih
    rw [blocksBytes, blocksBytes, List.append_nil]

theorem leads_slices {alone : Prop} {bs : List Block} (h : alone → bs.length ≤ 1) :
    List.Forall₂ (Leads alone) (slices bs []) bs := by
  induction bs with
  | nil => exact .nil
  | cons b bs ih =>
    have hlast : alone → bs = [] := fun ha => List.length_eq_zero_iff.mp (Nat.le_zero.mp (Nat.le_of_succ_le_succ (h ha)))
    refine .cons ⟨bs, by rw [List.append_nil, blocksBytes], hlast⟩ (ih fun ha => ?_)
    rw [hlast ha]
    exact Nat.zero_le 1

/-! ## Hex -/

theorem hexDigits_printEach {outFormat : OutFormat} (h : outFormat = .hex ∨ outFormat = .prettyhex)
    {ts : List TTLV} {bs : List Block} (hts : List.Forall₂ (Leads (outFormat = .hex)) ts bs)
    (hsize : ∀ b ∈ bs, b.Sized) (count : Nat) :
    (printEach L outFormat ts count).result = .ok () ∧
      hexDigits (printEach L outFormat ts count).text = hexEncode (blocksBytes bs) := by
  induction hts generalizing count with
  | nil => exact ⟨rfl, rfl⟩
  | @cons t b ts bs ht _ ih =>
    obtain ⟨cs, rfl, halone⟩ := ht
    obtain ⟨hfirst, hdigits⟩ := printTTLV_hex L h (hsize b (List.mem_cons_self ..)) cs count
    obtain ⟨hrest, hmore⟩ := ih (fun c hc => hsize c (List.mem_cons_of_mem b hc)) (count + 1)
    have hbytes : (if outFormat = .hex then blocksBytes (b :: cs) else b.bytes) = b.bytes := by
      split
      · rename_i hhex
        rw [halone hhex, blocksBytes, blocksBytes, List.append_nil]
      · rfl
    rw [hbytes] at hdigits
    rw [printEach, Printed.andThen_of_ok hfirst, hexDigits_append, hdigits, hmore, ← hexEncode_append, blocksBytes]
    exact ⟨hrest, rfl⟩

/-! ## JSON and XML -/

theorem one_le_nesting (b : Block) : 1 ≤ nesting b := by
  cases b with
  | leaf tag l => exact Nat.le_refl 1
  | struct tag cs => exact Nat.le_add_right 1 _

theorem depth_leafJson (reg : Registry) (T : TimeCodec) (tag : Tag) (l : Leaf) :
    (JsonForm.leafJson reg T tag l).depth = 0 := by
  rw [JsonForm.leafJson]
  split <;> (try split) <;> rfl

mutual
/-- A structure is an object and an array in JSON. -/
theorem depth_json (reg : Registry) (title : Bytes → Bytes) (T : TimeCodec) : ∀ b : Block,
    ((JsonForm.jsonForm reg T).encode reg title b).depth ≤ 2 * nesting b
  | .leaf tag l => by
    simp only [Form.encode, JsonForm.jsonForm, Json.depth, Json.membersDepth, Json.memberDepth, depth_leafJson,
      nesting]
    omega
  | .struct tag cs => by
    have hchildren := depth_jsonChildren reg title T cs tagNone
    simp only [Form.encode, JsonForm.jsonForm, Json.depth, Json.membersDepth, Json.memberDepth,
      nesting] at hchildren ⊢
    omega

theorem depth_jsonChildren (reg : Registry) (title : Bytes → Bytes) (T : TimeCodec) :
    ∀ (cs : List Block) (attr : Tag),
    Json.itemsDepth ((JsonForm.jsonForm reg T).encodeChildren reg title attr cs) ≤ 2 * nestings cs
  | [], _ => Nat.le_refl 0
  | c :: cs, attr => by
    have hrest := depth_jsonChildren reg title T cs (nextAttr reg title attr c.bytes)
    have hone := one_le_nesting c
    have hfirst := depth_json reg title T c
    rw [Form.encodeChildren, Json.itemsDepth, nestings]
    cases hscalar : Block.attributeScalar c with
    | none =>
      simp only
      omega
    | some l =>
      have hvalue : (JsonForm.attributeJson reg (nextAttr reg title attr c.bytes) l).depth = 0 := by
        rw [JsonForm.attributeJson]
        split <;> rfl
      simp only [JsonForm.jsonForm, Json.depth, Json.membersDepth, Json.memberDepth, hvalue] at hrest ⊢
      omega
end

mutual
/-- A block is an element in XML. -/
theorem depth_xml (reg : Registry) (title : Bytes → Bytes) (T : TimeCodec) : ∀ b : Block,
    ((XmlForm.xmlForm reg T).encode reg title b).depth ≤ nesting b
  | .leaf _ _ => Nat.le_refl 1
  | .struct _ cs => Nat.add_le_add_left (depth_xmlChildren reg title T cs tagNone) 1

theorem depth_xmlChildren (reg : Registry) (title : Bytes → Bytes) (T : TimeCodec) :
    ∀ (cs : List Block) (attr : Tag),
    Xml.allDepth ((XmlForm.xmlForm reg T).encodeChildren reg title attr cs) ≤ nestings cs
  | [], _ => Nat.le_refl 0
  | c :: cs, attr => by
    have hrest := depth_xmlChildren reg title T cs (nextAttr reg title attr c.bytes)
    rw [Form.encodeChildren, Xml.allDepth, nestings]
    cases hscalar : Block.attributeScalar c with
    | none => exact max_le_max (depth_xml reg title T c) hrest
    | some l => exact max_le_max (one_le_nesting c) hrest
end

/-- The document that is printed for a message. -/
def document : OutFormat → Block → Bytes
  | .json, b => L.jsonIndent (((JsonForm.jsonForm L.reg L.times).encode L.reg L.title b).render L.json.quote)
  | .xml, b => L.xmlIndent ((XmlForm.xmlForm L.reg L.times).encode L.reg L.title b).tokens
  | _, _ => []

variable {L} (hL : L.Documented)

include hL

theorem printFormat_document {outFormat : OutFormat} (h : outFormat = .json ∨ outFormat = .xml) {b : Block}
    (hb : Portable L b) (rest : Bytes) :
    printFormat L outFormat (b.bytes ++ rest) = Printed.write (document L outFormat b) := by
  rcases h with rfl | rfl
  · rw [printFormat, JsonForm.marshalJSON_block hL.names hL.json hL.times b rest hb.sized hb.json]
    rfl
  · have hmatch := (XmlForm.xmlReadable_iff b).mp hb.readable
    have hmarshal := XmlForm.marshalXML_block (T := L.times) hL.names b rest hb.sized hb.xml hmatch.1
    rw [printFormat, XmlForm.encodeMarshaler_eq hmarshal]
    rfl

/-- Later documents are printed after a newline each. -/
theorem printEach_later {outFormat : OutFormat} (h : outFormat = .json ∨ outFormat = .xml) {alone : Prop}
    {ts : List TTLV} {bs : List Block} (hts : List.Forall₂ (Leads alone) ts bs) (hbs : ∀ b ∈ bs, Portable L b)
    (count : Nat) :
    printEach L outFormat ts (count + 1) =
      Printed.write ((bs.map (document L outFormat)).flatMap (10 :: ·)) := by
  induction hts generalizing count with
  | nil => rfl
  | @cons t b ts bs ht _ ih =>
    obtain ⟨cs, rfl, -⟩ := ht
    have hmore := ih (fun c hc => hbs c (List.mem_cons_of_mem b hc)) (count + 1)
    rw [printEach, hmore, printTTLV, if_pos (Nat.succ_pos count), blocksBytes,
      printFormat_document hL h (hbs b (List.mem_cons_self ..))]
    rfl

theorem printEach_lines {outFormat : OutFormat} (h : outFormat = .json ∨ outFormat = .xml) {alone : Prop}
    {ts : List TTLV} {bs : List Block} (hts : List.Forall₂ (Leads alone) ts bs) (hbs : ∀ b ∈ bs, Portable L b) :
    printEach L outFormat ts 0 = Printed.write (lines (bs.map (document L outFormat))) := by
  cases hts with
  | nil => rfl
  | @cons t b ts bs ht hts =>
    obtain ⟨cs, rfl, -⟩ := ht
    rw [printEach, printEach_later hL h hts fun c hc => hbs c (List.mem_cons_of_mem b hc), printTTLV,
      if_neg (Nat.lt_irrefl 0), blocksBytes, printFormat_document hL h (hbs b (List.mem_cons_self ..))]
    rfl

theorem holds_json {bs : List Block} (hbs : ∀ b ∈ bs, Portable L b) :
    Holds L .json bs (lines (bs.map (document L .json))) := by
  have hread : List.Forall₂ (fun j t => JsonForm.decodeJSON L.reg L.title L.times tagNone j = .ok t)
      (bs.map ((JsonForm.jsonForm L.reg L.times).encode L.reg L.title)) (bs.map Block.bytes) := by
    rw [List.forall₂_map_left_iff, List.forall₂_map_right_iff, List.forall₂_same]
    intro b hb
    exact Res.toOption_eq_some.mp
      (((JsonForm.jsonForm_reads hL.names hL.times _).decode_encode_iff (hbs b hb).json).mpr (hbs b hb).values)
  have hstream := hL.jsonStream (fun j hj => ?_) hread
  · rw [List.map_map] at hstream
    exact hstream
  · obtain ⟨b, hb, rfl⟩ := List.mem_map.mp hj
    have hshallow := (hbs b hb).shallow
    exact ⟨JsonForm.writable_encode hL.names hL.times b (hbs b hb).json, (depth_json _ _ _ b).trans (by omega)⟩

theorem holds_xml {bs : List Block} (hbs : ∀ b ∈ bs, Portable L b) :
    Holds L .xml bs (lines (bs.map (document L .xml))) := by
  have hread : List.Forall₂ (fun x t => XmlForm.unmarshalXMLTval L.reg L.title L.times [] tagNone x = .ok t)
      (bs.map ((XmlForm.xmlForm L.reg L.times).encode L.reg L.title)) (bs.map Block.bytes) := by
    rw [List.forall₂_map_left_iff, List.forall₂_map_right_iff, List.forall₂_same]
    intro b hb
    exact Res.toOption_eq_some.mp (((XmlForm.xmlForm_reads hL.names hL.times _).decode_encode_iff (hbs b hb).xml).mpr
      ((XmlForm.xmlReadable_iff b).mp (hbs b hb).readable).2.1)
  have hstream := hL.xmlStream (fun x hx => ?_) hread
  · rw [List.map_map] at hstream
    exact hstream
  · obtain ⟨b, hb, rfl⟩ := List.mem_map.mp hx
    obtain ⟨-, -, hnames⟩ := (XmlForm.xmlReadable_iff b).mp (hbs b hb).readable
    exact ⟨⟨XmlForm.worded_encode hL.names hL.times b (hbs b hb).xml, (XmlForm.named_encode_iff b).mpr hnames⟩,
      (depth_xml _ _ _ b).trans (hbs b hb).shallow⟩

/-! ## A run -/

/-- What is printed for messages holds them in the format of the output. -/
theorem printEach_holds {outFormat : OutFormat} {g : InFormat} (hout : outFormat.input = some g)
    {ts : List TTLV} {bs : List Block} (hts : List.Forall₂ (Leads (outFormat = .hex)) ts bs)
    (hbs : ∀ b ∈ bs, Portable L b) :
    (printEach L outFormat ts 0).result = .ok () ∧ Holds L g bs (printEach L outFormat ts 0).text := by
  cases outFormat with
  | text | unknown => cases hout
  | json =>
    cases hout
    rw [printEach_lines hL (Or.inl rfl) hts hbs]
    exact ⟨rfl, holds_json hL hbs⟩
  | xml =>
    cases hout
    rw [printEach_lines hL (Or.inr rfl) hts hbs]
    exact ⟨rfl, holds_xml hL hbs⟩
  | hex =>
    cases hout
    obtain ⟨hresult, hdigits⟩ := hexDigits_printEach L (Or.inl rfl) hts (fun b hb => (hbs b hb).sized) 0
    exact ⟨hresult, hex2bytes_of_hexDigits hdigits⟩
  | prettyhex =>
    cases hout
    obtain ⟨hresult, hdigits⟩ := hexDigits_printEach L (Or.inr rfl) hts (fun b hb => (hbs b hb).sized) 0
    exact ⟨hresult, hex2bytes_of_hexDigits hdigits⟩

omit hL in
/-- A run hands the printer slices that begin with the messages it has read. -/
theorem main_eq_printEach {inFlag outFlag : GoString} {buf : Bytes} {f : InFormat}
    (hin : inputFormat inFlag buf = .ok f) {bs : List Block} (hbuf : Holds L f bs buf)
    (hsize : ∀ b ∈ bs, b.Sized) (hsingle : f = .hex → OutFormat.ofFlag outFlag = .hex → bs.length ≤ 1) :
    ∃ ts, List.Forall₂ (Leads (OutFormat.ofFlag outFlag = .hex)) ts bs ∧
      main L inFlag outFlag buf = printEach L (.ofFlag outFlag) ts 0 := by
  cases f with
  | unknown => exact absurd hbuf id
  | json =>
    refine ⟨bs.map Block.bytes, leads_bytes _ bs, ?_⟩
    rw [← printStream_some L _ .parsingJSON, ← show L.jsonStream buf = _ from hbuf, main, hin]
  | xml =>
    refine ⟨bs.map Block.bytes, leads_bytes _ bs, ?_⟩
    rw [← printStream_some L _ .parsingXML, ← show L.xmlStream buf = _ from hbuf, main, hin]
  | hex =>
    refine ⟨slices bs [], leads_slices (hsingle rfl), ?_⟩
    rw [← printBlocks_slices L _ hsize, main, hin, show hex2bytes buf = _ from hbuf]

/-- A run prints the messages that it has read. -/
theorem main_converts {inFlag outFlag : GoString} {buf : Bytes} {f g : InFormat}
    (hin : inputFormat inFlag buf = .ok f) (hout : (OutFormat.ofFlag outFlag).input = some g) {bs : List Block}
    (hbuf : Holds L f bs buf) (hbs : ∀ b ∈ bs, Portable L b)
    (hsingle : f = .hex → OutFormat.ofFlag outFlag = .hex → bs.length ≤ 1) :
    (main L inFlag outFlag buf).result = .ok () ∧ Holds L g bs (main L inFlag outFlag buf).text := by
  obtain ⟨ts, hts, hmain⟩ := main_eq_printEach hin hbuf (fun b hb => (hbs b hb).sized) hsingle
  rw [hmain]
  exact printEach_holds hL hout hts hbs

end

/-! ## Chains of runs -/

/-- The flags of a run. -/
structure Run where
  inFlag : GoString
  outFlag : GoString

section

variable (L : Libraries)

/-- Runs one after the other, each on what the one before has printed. -/
def runs : List Run → Bytes → Res Failure Bytes
  | [], text => .ok text
  | r :: rs, text =>
    match (main L r.inFlag r.outFlag text).result with
    | .ok () => runs rs (main L r.inFlag r.outFlag text).text
    | .err f => .err f
    | .panic => .panic

end

/-- Each run names the format that the one before has printed, from `f` to `g`.  A stream of more than
    one message does not go from hex to hex. -/
def Linked (count : Nat) (g : InFormat) : InFormat → List Run → Prop
  | f, [] => f = g
  | f, r :: rs => InFormat.ofFlag r.inFlag = f ∧
      (f = .hex → OutFormat.ofFlag r.outFlag = .hex → count ≤ 1) ∧
      ∃ m, (OutFormat.ofFlag r.outFlag).input = some m ∧ Linked count g m rs

theorem inputFormat_of_flag {inFlag : GoString} {f : InFormat} (h : InFormat.ofFlag inFlag = f) (hf : f ≠ .unknown)
    (buf : Bytes) : inputFormat inFlag buf = .ok f := by
  have hne : inFlag ≠ [] := by
    rintro rfl
    exact hf (h.symm.trans (by decide))
  rw [inputFormat, if_neg hne, h]

/-- Messages that both text forms keep are handed from run to run, in any formats that can be read again.  No
    run fails once it has its input, and what the last one prints holds the same messages, in the same order. -/
theorem conversions_preserve {L : Libraries} (hL : L.Documented) {bs : List Block} (hbs : ∀ b ∈ bs, Portable L b)
    {f g : InFormat} {rs : List Run} (hlinked : Linked bs.length g f rs) {text : Bytes} (htext : Holds L f bs text) :
    ∃ out, runs L rs text = .ok out ∧ Holds L g bs out := by
  induction rs generalizing f text with
  | nil =>
    obtain rfl := hlinked
    exact ⟨text, rfl, htext⟩
  | cons r rs ih =>
    obtain ⟨hin, hsingle, m, hout, hrest⟩ := hlinked
    have hf : f ≠ .unknown := by
      rintro rfl
      exact htext
    obtain ⟨hresult, hprinted⟩ := main_converts hL (inputFormat_of_flag hin hf text) hout htext hbs hsingle
    obtain ⟨out, hruns, hholds⟩ := ih hrest hprinted
    refine ⟨out, ?_, hholds⟩
    rw [runs, hresult]
    exact hruns

/-! ## Two attributes -/

/-- What a stream decoder returns, with a reader for texts that are not empty. -/
def readStream {D : Type} (read : Nat → Bytes → Option (List D)) (dec : D → Option TTLV) (text : Bytes) :
    List (Option TTLV) :=
  if text = [] then []
  else match read (text.length + 1) text with
    | some ds => ds.map dec
    | none => [none]

theorem length_le_lines (d : Bytes) (ds : List Bytes) : ds.length ≤ (lines (d :: ds)).length := by
  induction ds generalizing d with
  | nil => exact Nat.zero_le _
  | cons e ds ih =>
    have hle := ih e
    rw [lines_cons_cons, List.length_append, List.length_cons, List.length_cons]
    omega

theorem readStream_lines {D ε : Type} {read : Nat → Bytes → Option (List D)} {dec : D → Res ε TTLV}
    {w : D → Bytes} (hne : ∀ d, w d ≠ []) {ds : List D}
    (hread : ∀ d rest, ds = d :: rest → ∀ n, rest.length < n → read n (lines (ds.map w)) = some ds)
    {ts : List TTLV} (hts : List.Forall₂ (fun d t => dec d = .ok t) ds ts) :
    readStream read (fun d => (dec d).toOption) (lines (ds.map w)) = ts.map some := by
  have hmap : ds.map (fun d => (dec d).toOption) = ts.map some := by
    clear hread
    induction hts with
    | nil => rfl
    | cons hd _ ih =>
      rw [List.map_cons, List.map_cons, ih, hd]
      rfl
  cases ds with
  | nil =>
    cases hts
    rfl
  | cons d rest =>
    have hlen := length_le_lines (w d) (rest.map w)
    rw [List.length_map, ← List.map_cons] at hlen
    have htext : lines ((d :: rest).map w) ≠ [] := by
      rw [List.map_cons, lines]
      exact fun hnil => hne d (List.append_eq_nil_iff.mp hnil).1
    rw [readStream, if_neg htext, hread d rest rfl _ (Nat.lt_add_one_of_le hlen)]
    exact hmap

/-- Libraries that write compact documents. -/
def compactLibraries : Libraries where
  reg := attributeRegistry
  title := id
  strings := noStrings
  json := compactCodec
  times := plainTime
  jsonIndent := id
  xmlIndent := CompactXml.write
  jsonStream := readStream Compact.readLines
    fun j => (JsonForm.decodeJSON attributeRegistry id plainTime tagNone j).toOption
  xmlStream := readStream CompactXml.readLines
    fun x => (XmlForm.unmarshalXMLTval attributeRegistry id plainTime [] tagNone x).toOption

theorem compactLibraries_documented : compactLibraries.Documented where
  names := attributeRegistry_standard
  json := compactCodec_lawful.quote_plain
  times := plainTime_lawful
  jsonStream := by
    intro js ts hjs hread
    refine readStream_lines (w := fun j : Json => j.render Compact.quote) (fun j => ?_) ?_ hread
    · obtain ⟨b, tl, hcons, -⟩ := Compact.render_eq_cons j
      rw [hcons]
      exact List.cons_ne_nil b tl
    · rintro j rest rfl n hn
      exact Compact.readLines_lines j rest hn fun k hk => (hjs k hk).1
  xmlStream := by
    intro xs ts hxs hread
    refine readStream_lines (w := fun x : Xml => CompactXml.write x.tokens) (fun x => ?_) ?_ hread
    · cases x with
      | element name attrs children => exact List.cons_ne_nil _ _
    · rintro x rest rfl n hn
      exact CompactXml.readLines_lines x rest hn fun y hy => (hxs y hy).1

theorem portable_objectTypeAttribute : Portable compactLibraries objectTypeAttribute where
  sized := objectTypeAttribute_sized
  json := textBlock_objectTypeAttribute _ (by decide +kernel)
  xml := textBlock_objectTypeAttribute _ (by decide +kernel)
  values := ⟨trivial, trivial, ⟨tagAttributeValue, by decide +kernel, Or.inl rfl⟩, trivial⟩
  readable := ⟨⟨Or.inl (by decide +kernel), trivial, ⟨by decide +kernel, fun hty => by cases hty⟩, trivial⟩,
    XmlForm.namesRead_objectTypeAttribute⟩
  shallow := show 2 ≤ 5000 by decide

/-- From hex to JSON, to XML, to pretty hex, and to JSON again. -/
theorem conversions_preserve_attributes :
    ∃ out, runs compactLibraries [⟨lit "hex", lit "json"⟩, ⟨lit "JSON", lit "xml"⟩, ⟨lit "xml", lit "prettyhex"⟩,
        ⟨lit "hex", lit "json"⟩] (hexEncode (blocksBytes [objectTypeAttribute, objectTypeAttribute])) = .ok out ∧
      Holds compactLibraries .json [objectTypeAttribute, objectTypeAttribute] out := by
  refine conversions_preserve compactLibraries_documented ?_ (f := .hex) ?_
    (hex2bytes_of_hexDigits (hexDigits_hexEncode _))
  · intro b hb
    simp only [List.mem_cons, List.not_mem_nil, or_false, or_self] at hb
    rw [hb]
    exact portable_objectTypeAttribute
  · exact ⟨by decide, fun _ h => absurd h (by decide), .json, by decide, by decide, fun h => absurd h (by decide), .xml,
      by decide, by decide, fun h => absurd h (by decide), .hex, by decide, by decide, fun _ h => absurd h (by decide),
      .json, by decide, rfl⟩

end KmipGo.Ppkmip
