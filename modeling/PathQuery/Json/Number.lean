import PathQuery.Decimal.Layout

/-! Numbers in JSON text. A whole number without fraction or exponent is kept exactly if a
word of 64 bits, signed or not, can hold it; any other number is a binary one. -/

namespace PathQuery.Json

inductive Number where
  | integer (value : Int)
  | float (value : Binary64)
deriving DecidableEq, Repr

structure Literal where
  negative : Bool
  whole : List Char
  fraction : List Char
  exponentNegative : Bool
  exponent : List Char
deriving DecidableEq, Repr

namespace Literal

/-- Reads the digits after a point, of which there has to be one. -/
def readFraction? : List Char → Option (List Char × List Char)
  | '.' :: rest =>
    let digits := rest.takeWhile Char.isDigit
    if digits = [] then none else some (digits, rest.dropWhile Char.isDigit)
  | text => some ([], text)

def readExponent? (text : List Char) : Option ((Bool × List Char) × List Char) :=
  match text with
  | c :: rest =>
    if c = 'e' ∨ c = 'E' then
      let (negative, rest) := match rest with
        | '-' :: rest => (true, rest)
        | '+' :: rest => (false, rest)
        | rest => (false, rest)
      let digits := rest.takeWhile Char.isDigit
      if digits = [] then none else some ((negative, digits), rest.dropWhile Char.isDigit)
    else some ((false, []), text)
  | [] => some ((false, []), [])

/-- The whole part is a zero, or digits that do not begin with one. -/
def readWhole? (text : List Char) : Option (List Char × List Char) :=
  match text with
  | '0' :: rest => some (['0'], rest)
  | _ =>
    let digits := text.takeWhile Char.isDigit
    if digits = [] then none else some (digits, text.dropWhile Char.isDigit)

def read? (text : List Char) : Option (Literal × List Char) := do
  let (negative, text) := match text with
    | '-' :: rest => (true, rest)
    | _ => (false, text)
  let (whole, text) ← readWhole? text
  let (fraction, text) ← readFraction? text
  let ((exponentNegative, exponent), text) ← readExponent? text
  some (⟨negative, whole, fraction, exponentNegative, exponent⟩, text)

/-- The number of a literal's significant digits is bounded by a word of 64 bits. -/
def wordLimit : Nat := Nat.pow 2 64

/-- Takes digits into a word while it can hold them; gives the word and how many it took. -/
def gather (word : Nat) : List Char → Nat × Nat
  | [] => (word, 0)
  | c :: digits =>
    let next := word * 10 + (c.toNat - '0'.toNat)
    if next < wordLimit then
      let (word, taken) := gather next digits
      (word, taken + 1)
    else (word, 0)

/-- `10 ^ exponent` as a binary number. -/
def powerOfTen (exponent : Nat) : Binary64 := .ofDecimal false 1 exponent

/-- A word times a power of ten: one rounded product or quotient, and one more quotient
where the power itself would be out of range. A product that is infinite is refused. -/
def ofParts? (word : Nat) (exponent : Int) : Option Binary64 :=
  let value := Binary64.ofDecimal false word 0
  if word = 0 then some value
  else if 308 < exponent then none
  else if 0 ≤ exponent then
    let product := value.scaleBy (powerOfTen exponent.toNat)
    if product.isFinite then some product else none
  else if -308 ≤ exponent then some (value.divideBy (powerOfTen exponent.natAbs))
  else if -616 ≤ exponent then
    some ((value.divideBy (powerOfTen 308)).divideBy (powerOfTen (exponent + 308).natAbs))
  else some (.zero false)

def negate (negative : Bool) : Binary64 → Binary64
  | .finite _ mantissa exponent => .finite negative mantissa exponent
  | .infinite _ => .infinite negative
  | .nan => .nan

/-- The binary number of a literal. Digits of the whole part that no longer fit into the
word count as powers of ten, and those of the fraction are dropped. -/
def float? (literal : Literal) : Option Binary64 := do
  let (word, taken) := gather 0 literal.whole
  let (word, fractional) := gather word literal.fraction
  let written := Nat.ofDigitChars 10 literal.exponent 0
  let exponent := ((literal.whole.length - taken : Nat) : Int) - fractional +
    (if literal.exponentNegative then Int.neg written else written)
  return negate literal.negative (← ofParts? word exponent)

/-- A negative zero is a binary number, and so is what leaves the range of words. -/
def number? (literal : Literal) : Option Number :=
  let value := Nat.ofDigitChars 10 literal.whole 0
  if literal.fraction = [] ∧ literal.exponent = [] ∧ value < wordLimit then
    if !literal.negative then some (.integer value)
    else if 0 < value ∧ value ≤ Nat.pow 2 63 then some (.integer (Int.neg value))
    else some (.float (negate true (.ofDecimal false value 0)))
  else literal.float?.map .float

end Literal

namespace Number

/-- A point alone from `1e-5` up to below `1e16`, and `e+16` for larger exponents. -/
def layout : Decimal.Layout := ⟨-5, 15, true⟩

def text : Number → String
  | .integer value => toString value
  | .float (.finite negative mantissa exponent) => layout.write negative mantissa exponent
  | .float (.infinite _) | .float .nan => "null"

end Number

theorem Literal.readFraction?_suffix {text digits rest : List Char}
    (done : readFraction? text = some (digits, rest)) : rest <:+ text := by
  unfold readFraction? at done
  split at done
  · simp only at done
    split at done
    · cases done
    · cases done; exact (List.dropWhile_suffix _).trans (List.suffix_cons _ _)
  · cases done; exact List.suffix_rfl

theorem Literal.readExponent?_suffix {text rest : List Char} {exponent : Bool × List Char}
    (done : readExponent? text = some (exponent, rest)) : rest <:+ text := by
  unfold readExponent? at done
  split at done
  · split at done
    · simp only at done
      split at done
      all_goals
        split at done
        · cases done
        · cases done
          first
          | exact (List.dropWhile_suffix _).trans
              ((List.suffix_cons _ _).trans (List.suffix_cons _ _))
          | exact (List.dropWhile_suffix _).trans (List.suffix_cons _ _)
    · cases done; exact List.suffix_rfl
  · cases done; exact List.suffix_rfl

/-- A number takes at least one character. -/
theorem Literal.readWhole?_length {text digits rest : List Char}
    (done : readWhole? text = some (digits, rest)) : rest.length < text.length := by
  unfold readWhole? at done
  split at done
  · cases done; simp
  · simp only at done
    split at done
    · cases done
    · next some =>
      cases done
      have whole := congrArg List.length (List.takeWhile_append_dropWhile (p := Char.isDigit) (l := text))
      have positive := List.length_pos_iff.2 some
      rw [List.length_append] at whole
      omega

theorem Literal.read?_length {text rest : List Char} {literal : Literal}
    (done : read? text = some (literal, rest)) : rest.length < text.length := by
  unfold read? at done
  obtain ⟨⟨_, afterWhole⟩, whole, done⟩ := Option.bind_eq_some_iff.1 done
  obtain ⟨⟨_, afterFraction⟩, fraction, done⟩ := Option.bind_eq_some_iff.1 done
  obtain ⟨⟨_, _⟩, exponent, done⟩ := Option.bind_eq_some_iff.1 done
  cases done
  have shorter := readWhole?_length whole
  have fraction := (readFraction?_suffix fraction).length_le
  have exponent := (readExponent?_suffix exponent).length_le
  have unsigned : (match text with
      | '-' :: rest => (true, rest)
      | _ => (false, text)).2.length ≤ text.length := by
    split <;> simp
  omega

end PathQuery.Json
