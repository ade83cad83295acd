import PathQuery.Decimal.Binary64

/-! The decimal text of a binary number: the fewest digits that read back as the number, of
those the nearest to it, and how they are laid out, with a point alone or with an exponent. -/

namespace PathQuery.Decimal

structure Digits where
  digits : Nat
  exponent : Int
deriving DecidableEq, Repr

/-- The exponent of the first digit of a positive quotient. -/
def leadingExponent (numerator denominator : Nat) : Int :=
  if denominator ≤ numerator then ((Nat.toDigits 10 (numerator / denominator)).length : Int) - 1
  else
    let least := (denominator + numerator - 1) / numerator
    Int.neg (Nat.toDigits 10 (least - 1)).length

/-- Four times a value together with the ends of the interval that rounds to it, all in
quarters of the same power of two. The ends round to an even mantissa. -/
structure Interval where
  low : Nat
  value : Nat
  high : Nat
  closed : Bool
  exponent : Int

def interval (mantissa : Nat) (exponent : Int) : Interval :=
  let narrow := mantissa = Nat.pow 2 52 ∧ Binary64.leastExponent < exponent
  { low := if narrow then 4 * mantissa - 1 else 4 * mantissa - 2
    value := 4 * mantissa
    high := 4 * mantissa + 2
    closed := mantissa % 2 = 0
    exponent := exponent - 2 }

/-- Of the two neighbours of the value among the multiples of `10 ^ grid`, the one in the
interval, or the nearer if both are; a tie goes to the even one. -/
def neighbour? (around : Interval) (grid : Int) : Option Digits :=
  let (unit, denominator) := Binary64.quotient 1 around.exponent
  let (scaledUnit, step) := Binary64.scale 10 unit denominator grid
  let value := around.value * scaledUnit
  let below := value / step
  let inside (candidate : Nat) : Bool :=
    let low := around.low * scaledUnit
    let high := around.high * scaledUnit
    if around.closed then low ≤ candidate * step && candidate * step ≤ high
    else low < candidate * step && candidate * step < high
  let nearest := Binary64.roundQuotient value step
  if 0 < below && inside below && inside (below + 1) then some ⟨nearest, grid⟩
  else if 0 < below && inside below then some ⟨below, grid⟩
  else if inside (below + 1) then some ⟨below + 1, grid⟩
  else none

/-- Drops the zeros a number ends in, at most as many as asked for. -/
def trimZeros : (count : Nat) → Digits → Digits
  | 0, number => number
  | count + 1, number =>
    if number.digits % 10 = 0 ∧ number.digits ≠ 0 then
      trimZeros count ⟨number.digits / 10, number.exponent + 1⟩
    else number

/-- Seventeen digits are enough for every finite number other than zero. -/
def shortest (mantissa : Nat) (exponent : Int) : Digits :=
  let around := interval mantissa exponent
  let (numerator, denominator) := Binary64.quotient mantissa exponent
  let leading := leadingExponent numerator denominator
  let found := (List.range 17).findSome? fun (count : Nat) => neighbour? around (leading - count)
  trimZeros 17 (found.getD ⟨mantissa, exponent⟩)

/-- Numbers whose first digit has an exponent from `least` to `greatest` are written with
a point alone, and `.0` follows a whole number. All others have a point after the first
digit, if there are more, and an exponent. -/
structure Layout where
  least : Int
  greatest : Int
  exponentPlus : Bool

namespace Layout

def zeros (count : Int) : List Char := List.replicate count.toNat '0'

def positional (digits : List Char) (leading : Int) : List Char :=
  if leading < 0 then "0.".toList ++ zeros (-leading - 1) ++ digits
  else
    let whole := digits.take (leading.toNat + 1)
    let fraction := digits.drop (leading.toNat + 1)
    whole ++ zeros (leading + 1 - digits.length) ++
      (if fraction = [] then ".0".toList else '.' :: fraction)

def scientific (layout : Layout) (digits : List Char) (leading : Int) : List Char :=
  let fraction := match digits with
    | first :: [] => [first]
    | first :: more => first :: '.' :: more
    | [] => []
  let sign := if leading < 0 then ['-'] else if layout.exponentPlus then ['+'] else []
  fraction ++ 'e' :: sign ++ Nat.toDigits 10 leading.natAbs

/-- The text of a finite number; a zero keeps its sign. -/
def write (layout : Layout) (negative : Bool) (mantissa : Nat) (exponent : Int) : String :=
  let sign := if negative then ['-'] else []
  if mantissa = 0 then String.ofList (sign ++ "0.0".toList)
  else
    let number := shortest mantissa exponent
    let digits := Nat.toDigits 10 number.digits
    let leading := number.exponent + digits.length - 1
    let magnitude :=
      if layout.least ≤ leading ∧ leading ≤ layout.greatest then positional digits leading
      else layout.scientific digits leading
    String.ofList (sign ++ magnitude)

end Layout
end PathQuery.Decimal
