import KmipGo.Text.Print

/-! # Reading pretty hex back

`Hex2bytes` of `ttlv/ttlv.go` strips all but the hex digits of a text.  What
`PrintPrettyHex` writes around the digits is the prefix, the indent and its own
separators, so that the digits of its text are those of the bytes it was given:
the whole slice where that is not valid, and else its leading block.
-/

namespace KmipGo.Text

open KmipGo.Lib KmipGo.Ttlv KmipGo.Reg

/-! ## `Hex2bytes` -/

def isHexRune (r : Nat) : Bool :=
  decide (48 ≤ r ∧ r ≤ 57 ∨ 65 ≤ r ∧ r ≤ 70 ∨ 97 ≤ r ∧ r ≤ 102)

/-- `Hex2bytes`; it panics (`none`) when the digits that are left are odd in number. -/
def hex2bytes (s : GoString) : Option Bytes :=
  hexDecode (((runes s).filter isHexRune).map UInt8.ofNat)

/-- The hex digits of a byte string. -/
def hexDigits (s : Bytes) : Bytes := s.filter fun b => isHexRune b.toNat

theorem isHexRune_iff (b : UInt8) : isHexRune b.toNat = true ↔ IsHex b := by
  rw [isHexRune, decide_eq_true_iff, IsHex, hexVal]
  split
  · simp_all
  · split
    · simp_all
    · split
      · simp_all
      · simp only [Option.isSome_none, Bool.false_eq_true, iff_false]
        omega

theorem hex2bytes_eq (s : GoString) : hex2bytes s = hexDecode (hexDigits s) := by
  have hascii : ∀ r, isHexRune r = true → r < 0x80 := by
    intro r hr
    have := of_decide_eq_true hr
    omega
  rw [hex2bytes, filter_runes hascii, List.map_map, hexDigits]
  have hbyte : UInt8.ofNat ∘ UInt8.toNat = id := by
    funext b
    exact UInt8.ofNat_toNat
  rw [hbyte, List.map_id]

theorem hexDigits_append (s t : Bytes) : hexDigits (s ++ t) = hexDigits s ++ hexDigits t :=
  List.filter_append s t

/-- A text without hex digits. -/
def NoHex (s : Bytes) : Prop := ∀ b ∈ s, ¬ IsHex b

theorem NoHex.hexDigits {s : Bytes} (h : NoHex s) : hexDigits s = [] := by
  rw [Text.hexDigits, List.filter_eq_nil_iff]
  intro b hb hkept
  exact h b hb ((isHexRune_iff b).mp hkept)

theorem NoHex.append {s t : Bytes} (hs : NoHex s) (ht : NoHex t) : NoHex (s ++ t) := by
  intro b hb
  rw [List.mem_append] at hb
  cases hb with
  | inl hb => exact hs b hb
  | inr hb => exact ht b hb

theorem hexDigits_hexEncode (bs : Bytes) : hexDigits (hexEncode bs) = hexEncode bs := by
  rw [hexDigits, List.filter_eq_self]
  intro d hd
  rw [isHexRune_iff]
  exact isHex_of_mem_hexEncode hd

theorem hex2bytes_of_hexDigits {s : GoString} {bs : Bytes} (h : hexDigits s = hexEncode bs) :
    hex2bytes s = some bs := by
  rw [hex2bytes_eq, h, hexDecode_hexEncode]

/-! ## The digits of a line -/

theorem hexDigits_separator : hexDigits (lit " | ") = [] := by decide

theorem hexDigits_newline : hexDigits (lit "\n") = [] := by decide

/-- The groups of a header are its eight bytes. -/
theorem hexDigits_hexGroups {currIndent : GoString} (h : NoHex currIndent) (b : Bytes) :
    hexDigits (hexGroups currIndent b) = hexEncode (b.take 8) := by
  have hbytes : b.take 3 ++ ((b.drop 3).take 1 ++ (b.drop 4).take 4) = b.take 8 := by
    rw [show 8 = 3 + (1 + 4) by rfl, List.take_add (i := 3), List.take_add (i := 1), List.drop_drop]
  simp only [hexGroups, hexDigits_append, h.hexDigits, hexDigits_separator, hexDigits_hexEncode,
    List.nil_append, List.append_nil]
  rw [← hbytes, hexEncode_append, hexEncode_append, List.append_assoc]

theorem hexEncode_take_drop (n : Nat) (b : Bytes) : hexEncode (b.take n) ++ hexEncode (b.drop n) = hexEncode b := by
  rw [← hexEncode_append, List.take_append_drop]

section

variable {indent : GoString}

mutual
/-- The digits of an outline are the bytes of the block. -/
theorem hexDigits_outline (hindent : NoHex indent) : ∀ (b : Block) {currIndent : GoString}, NoHex currIndent →
    hexDigits (outline indent hexLine currIndent b) = hexEncode b.bytes
  | .leaf tag l, currIndent, h => by
    rw [outline, hexLine, hexDigits_append, hexDigits_hexGroups h, hexDigits_append, hexDigits_separator,
      List.nil_append, hexDigits_hexEncode, hexEncode_take_drop]
  | .struct tag cs, currIndent, h => by
    rw [outline, hexLine, List.append_nil, hexDigits_append, hexDigits_hexGroups h,
      hexDigits_outlines hindent cs (h.append hindent), ← hexEncode_append, Block.bytes,
      List.take_left' (length_header _ _ _)]

theorem hexDigits_outlines (hindent : NoHex indent) : ∀ (cs : List Block) {currIndent : GoString}, NoHex currIndent →
    hexDigits (outlines indent hexLine currIndent cs) = hexEncode (blocksBytes cs)
  | [], _, _ => rfl
  | c :: cs, currIndent, h => by
    rw [outlines, hexDigits_append, hexDigits_newline, List.nil_append, hexDigits_append,
      hexDigits_outline hindent c h, hexDigits_outlines hindent cs h, ← hexEncode_append, blocksBytes]
end

/-! ## The text of `PrintPrettyHex` -/

theorem hexDigits_printPrettyHex (hindent : NoHex indent) {currIndent : GoString} (h : NoHex currIndent)
    (t : TTLV) :
    hexDigits (printPrettyHex indent currIndent t).text = hexEncode (if t.IsValid then t.block else t) := by
  by_cases hv : t.IsValid
  · obtain ⟨b, hsize, rest, rfl⟩ := isValid_iff.mp hv
    rw [if_pos hv, (prints_printPrettyHex indent).node_bytes_append b currIndent rest hsize,
      block_bytes_append b rest hsize]
    exact hexDigits_outline hindent b h
  · -- all bytes are printed, and the header in groups if it is a valid one
    rw [if_neg hv]
    by_cases hhdr : t.validHeader = none
    · rw [printPrettyHex_of_invalid indent hhdr hv]
      simp only [Printed.write, hexDigits_append, hexDigits_hexGroups h, hexDigits_newline, hexDigits_hexEncode,
        List.append_nil, hexEncode_take_drop]
    · rw [printPrettyHex, if_pos hhdr]
      exact hexDigits_hexEncode t

end

/-- Whatever the bytes are, and for every prefix and indent without hex digits, `Hex2bytes` reads the
    leading block back if it is valid, and the whole slice if not. -/
theorem prettyHex_lossless {currIndent indent : GoString} (hpre : NoHex currIndent)
    (hindent : NoHex indent) (t : TTLV) :
    hex2bytes (printPrettyHex indent currIndent t).text = some (if t.IsValid then t.block else t) :=
  hex2bytes_of_hexDigits (hexDigits_printPrettyHex hindent hpre t)

theorem prettyHex_lossless_truncated :
    NoHex [] ∧ NoHex (lit "  ") ∧ ¬ truncatedText.IsValid ∧
      hex2bytes (printPrettyHex (lit "  ") [] truncatedText).text = some truncatedText := by
  have hindent : NoHex (lit "  ") := forall_mem_of_all (by decide)
  have hbad : ¬ truncatedText.IsValid := by decide +kernel
  have hread := prettyHex_lossless (show NoHex [] from nofun) hindent truncatedText
  rw [if_neg hbad] at hread
  exact ⟨nofun, hindent, hbad, hread⟩

end KmipGo.Text
