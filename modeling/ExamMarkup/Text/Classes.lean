import ExamMarkup.Text.Basic

/-!
# Classes of characters

Blank characters are those with the Unicode property White_Space, decimal digits those of the
general category Nd, letters the ones of ASCII. A control word ends where no letter follows it:
`\blank` does not occur in `\blanks`.
-/

namespace ExamMarkup.Text

/-- First and last code points of the runs of White_Space. -/
def blankRanges : List (Nat × Nat) :=
  [(0x09, 0x0d), (0x20, 0x20), (0x85, 0x85), (0xa0, 0xa0), (0x1680, 0x1680), (0x2000, 0x200a),
   (0x2028, 0x2029), (0x202f, 0x202f), (0x205f, 0x205f), (0x3000, 0x3000)]

def isBlank (c : Char) : Bool :=
  blankRanges.any fun (first, last) => first ≤ c.toNat && c.toNat ≤ last

def trimStart (t : Text) : Text := t.dropWhile isBlank

def trimEnd (t : Text) : Text := (t.reverse.dropWhile isBlank).reverse

def trim (t : Text) : Text := trimEnd (trimStart t)

def lower (t : Text) : Text := t.map Char.toLower

/-- The code points of the digits zero; the digits of a script come in a run of ten. -/
def zeroDigits : List Nat :=
  [0x30, 0x660, 0x6f0, 0x7c0, 0x966, 0x9e6, 0xa66, 0xae6, 0xb66, 0xbe6, 0xc66, 0xce6, 0xd66,
   0xde6, 0xe50, 0xed0, 0xf20, 0x1040, 0x1090, 0x17e0, 0x1810, 0x1946, 0x19d0, 0x1a80, 0x1a90,
   0x1b50, 0x1bb0, 0x1c40, 0x1c50, 0xa620, 0xa8d0, 0xa900, 0xa9d0, 0xa9f0, 0xaa50, 0xabf0,
   0xff10, 0x104a0, 0x10d30, 0x10d40, 0x11066, 0x110f0, 0x11136, 0x111d0, 0x112f0, 0x11450,
   0x114d0, 0x11650, 0x116c0, 0x116d0, 0x116da, 0x11730, 0x118e0, 0x11950, 0x11bf0, 0x11c50,
   0x11d50, 0x11da0, 0x11f50, 0x16130, 0x16a60, 0x16ac0, 0x16b50, 0x16d70, 0x1ccf0, 0x1d7ce,
   0x1d7d8, 0x1d7e2, 0x1d7ec, 0x1d7f6, 0x1e140, 0x1e2f0, 0x1e4f0, 0x1e5f1, 0x1e950, 0x1fbf0]

def isDecimalDigit (c : Char) : Bool :=
  zeroDigits.any fun first => first ≤ c.toNat && c.toNat ≤ first + 9

def startsWithLetter : Text → Bool
  | [] => false
  | c :: _ => c.isAlpha

/-- What follows a control word at the start of a text. -/
def afterWord? (word t : Text) : Option Text :=
  (after? word t).filter fun rest => !startsWithLetter rest

theorem afterWord?_eq_some_iff {word t rest : Text} :
    afterWord? word t = some rest ↔ t = word ++ rest ∧ startsWithLetter rest = false := by
  simp [afterWord?, Option.filter_eq_some_iff, after?_eq_some_iff]

end ExamMarkup.Text
