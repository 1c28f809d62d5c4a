import ExamMarkup.Decimal.Shortest
import ExamMarkup.Json.Basic

/-!
# Writing JSON

Values on one line, and values laid out with one item a line and two blanks for each level.
-/

namespace ExamMarkup.Json

def hexDigits2 (n : Nat) : Text := [Nat.digitChar (n / 16 % 16), Nat.digitChar (n % 16)]

def escapeChar (c : Char) : Text :=
  if c = '\x22' then ['\\', '\x22']
  else if c = '\\' then ['\\', '\\']
  else if c = '\x08' then ['\\', 'b']
  else if c = '\x0c' then ['\\', 'f']
  else if c = '\n' then ['\\', 'n']
  else if c = '\r' then ['\\', 'r']
  else if c = '\t' then ['\\', 't']
  else if c.toNat < 32 then ['\\', 'u', '0', '0'] ++ hexDigits2 c.toNat
  else [c]

def quoted (t : Text) : Text := ['\x22'] ++ t.flatMap escapeChar ++ ['\x22']

def integerText (n : Int) : Text :=
  (if n < 0 then ['-'] else []) ++ Text.decimal n.natAbs

/-- Numbers whose leading digit stands at most this many places before the point have no
exponent. -/
def placesBefore : Int := 16

/-- Numbers with fewer noughts than this after the point have no exponent. -/
def noughtsAfter : Int := 5

/-- A decimal as a number that is no integer: with a point, an exponent or both. -/
def decimalText (d : Decimal.Digits) : Text :=
  let digits := Text.decimal d.digits
  let lead : Int := digits.length + d.exponent
  if 0 ≤ d.exponent ∧ lead ≤ placesBefore then
    digits ++ List.replicate d.exponent.toNat '0' ++ ['.', '0']
  else if 0 < lead ∧ lead ≤ placesBefore then
    digits.take lead.toNat ++ ['.'] ++ digits.drop lead.toNat
  else if -noughtsAfter < lead ∧ lead ≤ 0 then
    ['0', '.'] ++ List.replicate (-lead).toNat '0' ++ digits
  else
    let fraction := if digits.length = 1 then [] else '.' :: digits.drop 1
    digits.take 1 ++ fraction ++ ['e'] ++ integerText (lead - 1)

/-- A number that is no integer, with the fewest digits that read back; a tie goes to the even
digit. -/
def realText (negative : Bool) (x : Decimal.Binary) : Text :=
  (if negative then ['-'] else []) ++ decimalText (Decimal.shortest .toEven x)

mutual

def compact : Json → Text
  | .null => "null".toList
  | .bool true => "true".toList
  | .bool false => "false".toList
  | .integer n => integerText n
  | .real negative x => realText negative x
  | .string t => quoted t
  | .array items => ['['] ++ compactItems items ++ [']']
  | .object fields => ['\x7b'] ++ compactFields fields ++ ['\x7d']

def compactItems : List Json → Text
  | [] => []
  | [item] => compact item
  | item :: rest => compact item ++ [','] ++ compactItems rest

def compactFields : List (Text × Json) → Text
  | [] => []
  | [(name, value)] => quoted name ++ [':'] ++ compact value
  | (name, value) :: rest => quoted name ++ [':'] ++ compact value ++ [','] ++ compactFields rest

end

def newline (depth : Nat) : Text := '\n' :: List.replicate (2 * depth) ' '

mutual

/-- A value at a level of the layout. Empty arrays and objects stay on one line. -/
def prettyAt (depth : Nat) : Json → Text
  | .array [] => ['[', ']']
  | .array (item :: items) =>
    ['['] ++ prettyItems (depth + 1) (item :: items) ++ newline depth ++ [']']
  | .object [] => ['\x7b', '\x7d']
  | .object (field :: fields) =>
    ['\x7b'] ++ prettyFields (depth + 1) (field :: fields) ++ newline depth ++ ['\x7d']
  | .null => compact .null
  | .bool value => compact (.bool value)
  | .integer n => compact (.integer n)
  | .real negative x => compact (.real negative x)
  | .string t => compact (.string t)

def prettyItems (depth : Nat) : List Json → Text
  | [] => []
  | [item] => newline depth ++ prettyAt depth item
  | item :: rest => newline depth ++ prettyAt depth item ++ [','] ++ prettyItems depth rest

def prettyFields (depth : Nat) : List (Text × Json) → Text
  | [] => []
  | [(name, value)] => newline depth ++ quoted name ++ [':', ' '] ++ prettyAt depth value
  | (name, value) :: rest =>
    newline depth ++ quoted name ++ [':', ' '] ++ prettyAt depth value ++ [','] ++
      prettyFields depth rest

end

def pretty (value : Json) : Text := prettyAt 0 value

end ExamMarkup.Json
