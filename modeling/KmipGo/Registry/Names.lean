import KmipGo.Lib.Text
import KmipGo.Lib.Utf8

/-! # Normalized names

`NormalizeName` of `internal/kmiputil/names.go`, over the runes of a byte
string.  The capitalisation of a word is a library call (`cases.Title` with
`NoLower`); it is the parameter `title` here.
-/

namespace KmipGo.Reg

open KmipGo.Lib

/-- A Go string. -/
abbrev GoString := Bytes

/-! ## Normalization -/

def isLowerRune (r : Nat) : Bool := decide (97 ≤ r ∧ r ≤ 122)
def isUpperRune (r : Nat) : Bool := decide (65 ≤ r ∧ r ≤ 90)
def isDigitRune (r : Nat) : Bool := decide (48 ≤ r ∧ r ≤ 57)

/-- The regexp class `\w`: letters, digits and underscore. -/
def isWordRune (r : Nat) : Bool := isLowerRune r || isUpperRune r || isDigitRune r || r == 95

theorem isWordRune_iff (r : Nat) :
    isWordRune r = true ↔ (97 ≤ r ∧ r ≤ 122) ∨ (65 ≤ r ∧ r ≤ 90) ∨ (48 ≤ r ∧ r ≤ 57) ∨ r = 95 := by
  simp only [isWordRune, isLowerRune, isUpperRune, isDigitRune, Bool.or_eq_true, decide_eq_true_eq, beq_iff_eq,
    or_assoc]

/-- Step 1: round brackets become spaces. -/
def mapBrackets (rs : List Nat) : List Nat :=
  rs.map fun r => if r = 40 ∨ r = 41 then 32 else r

/-- Step 2: a non-word rune before a letter and a lower case letter becomes a space.  Matches do not
    overlap, so the scan goes on after the two letters. -/
def spaceBoundaries : List Nat → List Nat
  | r :: a :: b :: rest =>
    if !isWordRune r && (isLowerRune a || isUpperRune a) && isLowerRune b then
      32 :: a :: b :: spaceBoundaries rest
    else r :: spaceBoundaries (a :: b :: rest)
  | rs => rs

/-- Step 3: any other non-word rune but the space becomes an underscore, which leaves ASCII. -/
def mapNonWord (rs : List Nat) : Bytes :=
  rs.map fun r => if isWordRune r || r == 32 then UInt8.ofNat r else 95

/-- Step 4: the digits a word starts with move to its end. -/
def moveDigits (w : Bytes) : Bytes :=
  w.dropWhile (fun b => isDigitRune b.toNat) ++ w.takeWhile (fun b => isDigitRune b.toNat)

section

variable (title : Bytes → Bytes)

/-- Steps 4 and 5 on the words of a name: the first one has its digits moved, all are capitalised. -/
def titleWords : List Bytes → List Bytes
  | [] => []
  | w :: ws => title (moveDigits w) :: ws.map title

/-- `NormalizeName`. -/
def normalizeName (s : GoString) : GoString :=
  (titleWords title (splitAt 32 (mapNonWord (spaceBoundaries (mapBrackets (runes s)))))).flatten

/-- The words of a name, as step 4 finds them. -/
def nameWords (s : GoString) : List Bytes := splitAt 32 (mapNonWord (spaceBoundaries (mapBrackets (runes s))))

theorem normalizeName_eq (s : GoString) :
    normalizeName title s = (titleWords title (nameWords s)).flatten := rfl

end

end KmipGo.Reg
