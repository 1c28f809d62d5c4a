import ExamMarkup.Decimal.Binary
import ExamMarkup.Text.Basic

/-!
# Shortest decimal text

A binary number as the decimal with the fewest digits that read back as the same number, and in
positional notation. Of several such decimals the nearest is taken; what happens where two are
equally near is left to the format.
-/

namespace ExamMarkup.Decimal

open Binary

/-- The reals between `lowNum / den` and `highNum / den`; `closed` tells whether the ends belong
to them. -/
structure Interval where
  lowNum : Nat
  highNum : Nat
  den : Nat
  closed : Bool

namespace Interval

/-- The reals that round to a positive number. Below a power of two the neighbours lie twice as
close. -/
def roundingTo (x : Binary) : Interval :=
  let narrow := x.mantissa == 2 ^ (mantissaBits - 1) && leastExponent < x.exponent
  let unit := 2 ^ x.exponent.toNat
  { lowNum := (4 * x.mantissa - if narrow then 1 else 2) * unit
    highNum := (4 * x.mantissa + 2) * unit
    den := 4 * x.den
    closed := x.mantissa % 2 == 0 }

def contains (i : Interval) (num den : Nat) : Bool :=
  if i.closed then i.lowNum * den ≤ num * i.den && num * i.den ≤ i.highNum * den
  else i.lowNum * den < num * i.den && num * i.den < i.highNum * den

end Interval

structure Digits where
  digits : Nat
  exponent : Int
  deriving DecidableEq, Repr

namespace Digits

def num (d : Digits) : Nat := d.digits * 10 ^ d.exponent.toNat

def den (d : Digits) : Nat := 10 ^ (-d.exponent).toNat

end Digits

def log10Quotient (num den : Nat) : Int :=
  if den ≤ num then (Nat.toDigits 10 (num / den)).length - 1
  else
    match (List.range 400).find? fun k => den ≤ num * 10 ^ k with
    | some k => -k
    | none => -400

inductive Tie where
  | toEven
  | up
  deriving DecidableEq, Repr

/-- Whether of the natural numbers around a quotient the lower one is taken. -/
def Tie.takesLower (tie : Tie) (num den : Nat) : Bool :=
  let twice := 2 * (num % den)
  twice < den || (twice == den && tie == .toEven && num / den % 2 == 0)

/-- Of the two decimals of a given exponent around a number, the nearer one that reads back. -/
def atExponent? (tie : Tie) (x : Binary) (exponent : Int) : Option Digits :=
  let num := x.num * 10 ^ (-exponent).toNat
  let den := x.den * 10 ^ exponent.toNat
  let below : Digits := ⟨num / den, exponent⟩
  let above : Digits := ⟨num / den + 1, exponent⟩
  let near := if tie.takesLower num den then [below, above] else [above, below]
  near.find? fun d => (Interval.roundingTo x).contains d.num d.den

/-- The decimal with the fewest digits that reads back as the number. The first exponent tried is
one above that of the leading digit, for numbers just below a power of ten; seventeen digits always
suffice. -/
def shortest (tie : Tie) (x : Binary) : Digits :=
  if x.isZero then ⟨0, 0⟩
  else
    let top := log10Quotient x.num x.den
    ((List.range 18).findSome? fun (n : Nat) => atExponent? tie x (top + 1 - n)).getD ⟨0, 0⟩

def Digits.positional (d : Digits) : Text :=
  let digits := Text.decimal d.digits
  if 0 ≤ d.exponent then
    if d.digits = 0 then digits else digits ++ List.replicate d.exponent.toNat '0'
  else
    let places := (-d.exponent).toNat
    let padded := List.replicate (places + 1 - digits.length) '0' ++ digits
    padded.take (padded.length - places) ++ ['.'] ++ padded.drop (padded.length - places)

/-- A number with its sign; zero keeps a minus sign, and a tie goes up. -/
def text (negative : Bool) (x : Binary) : Text :=
  (if negative then ['-'] else []) ++ (shortest .up x).positional

end ExamMarkup.Decimal
