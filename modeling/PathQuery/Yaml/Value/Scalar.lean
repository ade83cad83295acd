import PathQuery.Text
import PathQuery.Yaml.Value

/-! What a scalar without quotes stands for: nothing, a truth value, a number, or its own
text. -/

namespace PathQuery.Yaml.Scalar

def isNull (text : String) : Bool := text == "null" || text == "Null" || text == "NULL" || text == "~"

def bool? (text : String) : Option Bool :=
  if text == "true" || text == "True" || text == "TRUE" then some true
  else if text == "false" || text == "False" || text == "FALSE" then some false
  else none

def digit? (base : Nat) (c : Char) : Option Nat := (Text.hexDigit? c).filter (· < base)

def natural? (base : Nat) (digits : List Char) : Option Nat :=
  if digits = [] then none
  else digits.foldlM (fun value c => (digit? base c).map (value * base + ·)) 0

/-- Digits after a leading zero make a text and not a number. -/
def isPaddedDigits (text : List Char) : Bool :=
  let digits := match text with
    | '-' :: rest | '+' :: rest => rest
    | _ => text
  match digits with
  | '0' :: c :: rest => (c :: rest).all Char.isDigit
  | _ => false

/-- The magnitude of a whole number without its sign: with the mark of a base, or in
decimal digits. -/
def magnitude? : List Char → Option Nat
  | '0' :: 'x' :: digits => natural? 16 digits
  | '0' :: 'o' :: digits => natural? 8 digits
  | '0' :: 'b' :: digits => natural? 2 digits
  | digits => natural? 10 digits

/-- A whole number as it is written, with a sign before it or none. -/
def integer? (text : List Char) : Option Int :=
  if isPaddedDigits text then none
  else match text with
    | '-' :: rest => (magnitude? rest).map fun value => Int.neg value
    | '+' :: rest => (magnitude? rest).map Int.ofNat
    | _ => (magnitude? text).map Int.ofNat

/-- Whether a word of 64 bits, signed or not, holds a number. -/
def fitsWord (value : Int) : Bool :=
  -(Nat.pow 2 63 : Int) ≤ value && value < (Nat.pow 2 64 : Int)

/-- Whether a word of 128 bits, signed or not, holds a number. -/
def fitsDoubleWord (value : Int) : Bool :=
  -(Nat.pow 2 127 : Int) ≤ value && value < (Nat.pow 2 128 : Int)

/-- The exponent of a number, with its mark; nothing may follow it. -/
def exponent? : List Char → Option Int
  | [] => some 0
  | c :: rest =>
    if c = 'e' ∨ c = 'E' then
      match rest with
      | '-' :: digits => (natural? 10 digits).map fun value => Int.neg value
      | '+' :: digits => (natural? 10 digits).map Int.ofNat
      | digits => (natural? 10 digits).map Int.ofNat
    else none

def decimal? (negative : Bool) (text : List Char) : Option Binary64 := do
  let whole := text.takeWhile Char.isDigit
  let text := text.dropWhile Char.isDigit
  let (fraction, text) := match text with
    | '.' :: rest => (rest.takeWhile Char.isDigit, rest.dropWhile Char.isDigit)
    | _ => ([], text)
  if whole = [] ∧ fraction = [] then none
  else
    let exponent ← exponent? text
    let digits := Nat.ofDigitChars 10 (whole ++ fraction) 0
    return .ofDecimal negative digits (exponent - fraction.length)

def isInfinity (text : String) : Bool := text == ".inf" || text == ".Inf" || text == ".INF"

def isNotANumber (text : String) : Bool := text == ".nan" || text == ".NaN" || text == ".NAN"

/-- A binary number. A decimal one that is out of range is none. -/
def float? (text : List Char) : Option Binary64 :=
  let finite (negative : Bool) (digits : List Char) :=
    (decimal? negative digits).filter Binary64.isFinite
  match text with
  | '+' :: rest => if isInfinity (String.ofList rest) then some (.infinite false) else finite false rest
  | '-' :: rest => if isInfinity (String.ofList rest) then some (.infinite true) else finite true rest
  | _ =>
    if isInfinity (String.ofList text) then some (.infinite false)
    else if isNotANumber (String.ofList text) then some .nan
    else finite false text

/-- A whole number, which has to fit into a word of 64 bits. -/
inductive Whole where
  | fits (value : Int)
  | outOfRange
  | none

def whole (text : List Char) : Whole :=
  match integer? text with
  | some value =>
    if fitsWord value then .fits value else if fitsDoubleWord value then .outOfRange else .none
  | none => .none

/-- The value of a plain scalar. A whole number between 64 and 128 bits is refused; a
longer one in decimal digits is read as a binary number. -/
def resolve? (text : String) : Option Value :=
  if text == "" || isNull text then some .null
  else match bool? text with
    | some value => some (.bool value)
    | none =>
      match whole text.toList with
      | .fits value => some (.number (.integer value))
      | .outOfRange => none
      | .none =>
        if isPaddedDigits text.toList then some (.string text)
        else match float? text.toList with
          | some value => some (.number (.float value))
          | none => some (.string text)

end PathQuery.Yaml.Scalar
