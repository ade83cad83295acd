/-! Binary floating point numbers of 64 bits and the one way to reach them: rounding an
exact quotient to the nearest number, a tie to the even mantissa. -/

namespace PathQuery

/-- A finite number is its mantissa times a power of two. The mantissa is below `2 ^ 53`,
and at least `2 ^ 52` unless the exponent is the least one. -/
inductive Binary64 where
  | finite (negative : Bool) (mantissa : Nat) (exponent : Int)
  | infinite (negative : Bool)
  | nan
deriving DecidableEq, Repr

namespace Binary64

def leastExponent : Int := -1074

def greatestExponent : Int := 971

def zero (negative : Bool) : Binary64 := .finite negative 0 leastExponent

/-- A quotient of positive numbers rounded to a whole number, a tie to the even one. -/
def roundQuotient (numerator denominator : Nat) : Nat :=
  let floor := numerator / denominator
  let rest := 2 * (numerator % denominator)
  if rest < denominator then floor
  else if denominator < rest then floor + 1
  else floor + floor % 2

/-- A quotient divided by a power of a base, as numerator and denominator. -/
def scale (base numerator denominator : Nat) (exponent : Int) : Nat × Nat :=
  if 0 ≤ exponent then (numerator, denominator * Nat.pow base exponent.toNat)
  else (numerator * Nat.pow base (-exponent).toNat, denominator)

/-- The exponent at which a positive quotient has a mantissa of 53 bits, or the least one. -/
def exponentOf (numerator denominator : Nat) : Int :=
  let guess : Int := (Nat.log2 numerator : Int) - Nat.log2 denominator - 52
  let (scaled, unit) := scale 2 numerator denominator guess
  max leastExponent (if scaled / unit < Nat.pow 2 52 then guess - 1 else guess)

/-- The number nearest to a quotient. What lies half a step or more beyond the greatest
finite number is infinite. -/
def ofQuotient (negative : Bool) (numerator denominator : Nat) : Binary64 :=
  if numerator = 0 then zero negative
  else
    let exponent := exponentOf numerator denominator
    let (scaled, unit) := scale 2 numerator denominator exponent
    let mantissa := roundQuotient scaled unit
    let (mantissa, exponent) :=
      if mantissa = Nat.pow 2 53 then (Nat.pow 2 52, exponent + 1) else (mantissa, exponent)
    if greatestExponent < exponent then .infinite negative else .finite negative mantissa exponent

/-- The number nearest to `digits * 10 ^ exponent`. Exponents so far out that the result
is plain are settled without computing the power. -/
def ofDecimal (negative : Bool) (digits : Nat) (exponent : Int) : Binary64 :=
  let magnitude := exponent + (Nat.toDigits 10 digits).length
  if digits = 0 ∨ magnitude < -400 then zero negative
  else if 400 < magnitude then .infinite negative
  else if 0 ≤ exponent then ofQuotient negative (digits * Nat.pow 10 exponent.toNat) 1
  else ofQuotient negative digits (Nat.pow 10 (-exponent).toNat)

def isFinite : Binary64 → Bool
  | .finite _ _ _ => true
  | .infinite _ | .nan => false

/-- Numerator and denominator of the magnitude of a finite number. -/
def quotient (mantissa : Nat) (exponent : Int) : Nat × Nat :=
  if 0 ≤ exponent then (mantissa * Nat.pow 2 exponent.toNat, 1) else (mantissa, Nat.pow 2 (-exponent).toNat)

/-- The rounded product with a positive quotient; it keeps the sign. -/
def times (numerator denominator : Nat) : Binary64 → Binary64
  | .finite negative mantissa exponent =>
    let (numerator', denominator') := quotient mantissa exponent
    ofQuotient negative (numerator' * numerator) (denominator' * denominator)
  | other => other

/-- The rounded product with a positive number. -/
def scaleBy (value : Binary64) : Binary64 → Binary64
  | .finite _ mantissa exponent =>
    let (numerator, denominator) := quotient mantissa exponent
    value.times numerator denominator
  | _ => value

/-- The rounded quotient by a positive number. -/
def divideBy (value : Binary64) : Binary64 → Binary64
  | .finite _ mantissa exponent =>
    let (numerator, denominator) := quotient mantissa exponent
    value.times denominator numerator
  | _ => value

/-- Equality of values: the two zeros are one number, and so are all that are not a number. -/
def same : Binary64 → Binary64 → Bool
  | .nan, .nan => true
  | .infinite negative, .infinite negative' => negative == negative'
  | .finite negative mantissa exponent, .finite negative' mantissa' exponent' =>
    (mantissa == 0 && mantissa' == 0) ||
      (negative == negative' && mantissa == mantissa' && exponent == exponent')
  | _, _ => false

end Binary64
end PathQuery
