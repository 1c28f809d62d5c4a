import ExamMarkup.Json.Basic

/-!
# JSON tokens

The lexical level: blanks, punctuation, literals, strings and numbers.
-/

namespace ExamMarkup.Json

inductive Token where
  | openArray
  | closeArray
  | openObject
  | closeObject
  | comma
  | colon
  | scalar (value : Json)

namespace Token

def isBlank (c : Char) : Bool := c == ' ' || c == '\n' || c == '\t' || c == '\r'

def hexValue? (c : Char) : Option Nat :=
  if c.isDigit then some (c.toNat - 48)
  else if 'a' ≤ c ∧ c ≤ 'f' then some (c.toNat - 87)
  else if 'A' ≤ c ∧ c ≤ 'F' then some (c.toNat - 55)
  else none

def hex4? (a b c d : Char) : Option Nat := do
  return (((← hexValue? a) * 16 + (← hexValue? b)) * 16 + (← hexValue? c)) * 16 + (← hexValue? d)

def escaped? (c : Char) : Option Char :=
  if c = '\x22' then some '\x22'
  else if c = '\\' then some '\\'
  else if c = '/' then some '/'
  else if c = 'b' then some '\x08'
  else if c = 'f' then some '\x0c'
  else if c = 'n' then some '\n'
  else if c = 'r' then some '\r'
  else if c = 't' then some '\t'
  else none

def ofSurrogates? (high low : Nat) : Option Char :=
  if 0xd800 ≤ high ∧ high < 0xdc00 ∧ 0xdc00 ≤ low ∧ low < 0xe000 then
    some (Char.ofNat (0x10000 + (high - 0xd800) * 0x400 + (low - 0xdc00)))
  else none

/-- The content of a string and the text after its closing quote, read from just after the opening
one. A surrogate counts only as one of a pair, and control characters must be escaped. -/
def string? : Text → Option (Text × Text)
  | [] => none
  | '\x22' :: rest => some ([], rest)
  | '\\' :: 'u' :: a :: b :: c :: d :: '\\' :: 'u' :: e :: f :: g :: h :: t => do
    let unit ← hex4? a b c d
    if 0xd800 ≤ unit ∧ unit < 0xe000 then
      let char ← ofSurrogates? unit (← hex4? e f g h)
      (string? t).map fun (s, rest) => (char :: s, rest)
    else
      (string? ('\\' :: 'u' :: e :: f :: g :: h :: t)).map fun (s, rest) =>
        (Char.ofNat unit :: s, rest)
  | '\\' :: 'u' :: a :: b :: c :: d :: t => do
    let unit ← hex4? a b c d
    if 0xd800 ≤ unit ∧ unit < 0xe000 then none
    else (string? t).map fun (s, rest) => (Char.ofNat unit :: s, rest)
  | '\\' :: c :: t => do
    let char ← escaped? c
    (string? t).map fun (s, rest) => (char :: s, rest)
  | c :: t =>
    if c.toNat < 32 then none
    else (string? t).map fun (s, rest) => (c :: s, rest)

def significandLimit : Nat := 2 ^ (64 : Nat)

/-- Digits gathered into a significand with the power of ten it is to be scaled by. A digit that
no longer fits is dropped, and so are all that follow it. -/
structure Significand where
  value : Nat
  exponent : Int
  full : Bool

namespace Significand

def addInteger (s : Significand) (d : Nat) : Significand :=
  if s.full || significandLimit ≤ s.value * 10 + d then
    { s with exponent := s.exponent + 1, full := true }
  else { s with value := s.value * 10 + d }

def addFraction (s : Significand) (d : Nat) : Significand :=
  if s.full || significandLimit ≤ s.value * 10 + d then { s with full := true }
  else ⟨s.value * 10 + d, s.exponent - 1, false⟩

end Significand

def digitValue (c : Char) : Nat := c.toNat - 48

/-- The integer part: no digit may follow a leading zero. -/
def integerPart? (t : Text) : Option (Text × Text) :=
  match t.takeWhile Char.isDigit, t.dropWhile Char.isDigit with
  | [], _ => none
  | '0' :: _ :: _, _ => none
  | digits, rest => some (digits, rest)

/-- The digits after a point, at least one where there is a point. -/
def fractionPart? : Text → Option (Text × Text)
  | '.' :: t =>
    match t.takeWhile Char.isDigit with
    | [] => none
    | digits => some (digits, t.dropWhile Char.isDigit)
  | t => some ([], t)

def exponentPart? (t : Text) : Option (Bool × Text × Text) :=
  let digits (negative : Bool) (t : Text) : Option (Bool × Text × Text) :=
    match t.takeWhile Char.isDigit with
    | [] => none
    | digits => some (negative, digits, t.dropWhile Char.isDigit)
  match t with
  | c :: t =>
    if c = 'e' ∨ c = 'E' then
      match t with
      | '+' :: t => digits false t
      | '-' :: t => digits true t
      | t => digits false t
    else some (false, [], c :: t)
  | [] => some (false, [], [])

def natOfDigits (digits : Text) : Nat :=
  digits.foldl (fun n c => 10 * n + digitValue c) 0

/-- A number from its parts. It is an integer if it has neither fraction nor exponent, is not a
negative zero and fits 64 bits with or without sign. -/
def number? (negative : Bool) (whole fraction : Text) (exponent : Option Int) : Option Json :=
  let value := natOfDigits whole
  let isInteger := fraction.isEmpty && exponent.isNone &&
    (if negative then 0 < value && value ≤ 2 ^ (63 : Nat) else value < 2 ^ (64 : Nat))
  if isInteger then
    some (.integer (if negative then -value else value))
  else
    let s := whole.foldl (fun s c => s.addInteger (digitValue c)) (⟨0, 0, false⟩ : Significand)
    let s := fraction.foldl (fun s c => s.addFraction (digitValue c)) { s with full := false }
    (Decimal.Binary.ofScientific? s.value (s.exponent + exponent.getD 0)).map (.real negative)

def lexNumber? (t : Text) : Option (Json × Text) := do
  let (negative, t) := match t with
    | '-' :: t => (true, t)
    | t => (false, t)
  let (whole, t) ← integerPart? t
  let (fraction, t) ← fractionPart? t
  let (down, digits, t) ← exponentPart? t
  let exponent : Option Int :=
    if digits.isEmpty then none
    else some (if down then -natOfDigits digits else natOfDigits digits)
  let value ← number? negative whole fraction exponent
  return (value, t)

def next? : Text → Option (Token × Text)
  | [] => none
  | c :: t =>
    if c = '[' then some (.openArray, t)
    else if c = ']' then some (.closeArray, t)
    else if c = '\x7b' then some (.openObject, t)
    else if c = '\x7d' then some (.closeObject, t)
    else if c = ',' then some (.comma, t)
    else if c = ':' then some (.colon, t)
    else if c = '\x22' then (string? t).map fun (s, rest) => (.scalar (.string s), rest)
    else
      let literal (word : String) (value : Json) : Option (Token × Text) :=
        (Text.after? word.toList (c :: t)).map fun rest => (.scalar value, rest)
      (literal "true" (.bool true)).or <| (literal "false" (.bool false)).or <|
        (literal "null" .null).or <|
        (lexNumber? (c :: t)).map fun (value, rest) => (.scalar value, rest)

/-- The tokens of a text, or nothing where one is malformed. Each step shortens the text, so as
many steps as it has characters suffice. -/
def all? (t : Text) : Option (List Token) :=
  go t.length t
where
  go : Nat → Text → Option (List Token)
  | steps, t =>
    match t.dropWhile isBlank, steps with
    | [], _ => some []
    | _ :: _, 0 => none
    | c :: t, steps + 1 => do
      let (token, rest) ← next? (c :: t)
      return token :: (← go steps rest)

end Token

end ExamMarkup.Json
