import ExamMarkup.Text.Basic

/-!
# Binary floating point numbers

Finite non-negative numbers with a 53-bit mantissa and exponents from -1074 to 971, and rounding
to the nearest of them, a half going to the even mantissa. Arithmetic is exact, then rounded.
-/

namespace ExamMarkup.Decimal

def roundDiv (num den : Nat) : Nat :=
  let floor := num / den
  let twice := 2 * (num % den)
  if twice < den then floor
  else if den < twice then floor + 1
  else floor + floor % 2

/-- The number `mantissa * 2 ^ exponent`. -/
structure Binary where
  mantissa : Nat
  exponent : Int
  deriving DecidableEq, Repr

namespace Binary

def zero : Binary := ⟨0, -1074⟩

def mantissaBits : Nat := 53

def leastExponent : Int := -1074

def greatestExponent : Int := 971

def isZero (x : Binary) : Bool := x.mantissa == 0

def num (x : Binary) : Nat := x.mantissa * 2 ^ x.exponent.toNat

def den (x : Binary) : Nat := 2 ^ (-x.exponent).toNat

/-- The largest `k` with `2 ^ k ≤ num / den`, for positive numbers. -/
def log2Quotient (num den : Nat) : Int :=
  let k : Int := num.log2 - den.log2
  if den * 2 ^ k.toNat ≤ num * 2 ^ (-k).toNat then k else k - 1

/-- A mantissa of at most 53 bits, or one that rounding has carried to `2 ^ 53`, with its
exponent; nothing beyond the largest number. -/
def normal? (mantissa : Nat) (exponent : Int) : Option Binary :=
  let x : Binary :=
    if mantissa = 2 ^ mantissaBits then ⟨2 ^ (mantissaBits - 1), exponent + 1⟩
    else ⟨mantissa, exponent⟩
  if greatestExponent < x.exponent then none else some x

def ofQuotient? (num den : Nat) : Option Binary :=
  if num = 0 then some zero
  else
    let exponent := max (log2Quotient num den - (mantissaBits - 1)) leastExponent
    normal? (roundDiv (num * 2 ^ (-exponent).toNat) (den * 2 ^ exponent.toNat)) exponent

def ofNat? (n : Nat) : Option Binary := ofQuotient? n 1

def mul? (x y : Binary) : Option Binary := ofQuotient? (x.num * y.num) (x.den * y.den)

def div? (x y : Binary) : Option Binary := ofQuotient? (x.num * y.den) (x.den * y.num)

def powTen? (exponent : Nat) : Option Binary := ofNat? (10 ^ exponent)

def largestPowTen : Nat := 308

/-- A significand scaled by powers of ten of at most `largestPowTen` each, rounded after every
step. Zero stays zero under every scale. -/
def scale? (x : Binary) (exponent : Int) : Option Binary :=
  go x exponent (exponent.natAbs / largestPowTen)
where
  /-- At most `steps` steps by the largest power, then one by what remains. -/
  go (x : Binary) (exponent : Int) : Nat → Option Binary
  | 0 => step x exponent
  | steps + 1 =>
    if exponent.natAbs ≤ largestPowTen then step x exponent
    else if x.isZero then some x
    else if 0 ≤ exponent then none
    else do
      let x ← step x (-largestPowTen)
      go x (exponent + largestPowTen) steps
  step (x : Binary) (exponent : Int) : Option Binary := do
    let power ← powTen? exponent.natAbs
    if 0 ≤ exponent then mul? x power else div? x power

/-- The number written as a significand and a power of ten. -/
def ofScientific? (significand : Nat) (exponent : Int) : Option Binary := do
  let x ← ofNat? significand
  scale? x exponent

/-- The nearest natural number, a half going away from zero. -/
def roundHalfUp (x : Binary) : Nat := (2 * x.num + x.den) / (2 * x.den)

end Binary

end ExamMarkup.Decimal
