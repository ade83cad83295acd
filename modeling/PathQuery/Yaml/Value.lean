import PathQuery.Decimal.Layout

/-! YAML values, when two of them are the same key, and the text of those that have one. -/

namespace PathQuery.Yaml

inductive Number where
  | integer (value : Int)
  | float (value : Binary64)
deriving DecidableEq, Repr

namespace Number

/-- A whole number and a binary one are never the same. -/
def same : Number → Number → Bool
  | .integer first, .integer second => first == second
  | .float first, .float second => first.same second
  | _, _ => false

/-- A point alone from `1e-5` up to below `1e16`, and `e16` for larger exponents. -/
def layout : Decimal.Layout := ⟨-5, 15, false⟩

def text : Number → String
  | .integer value => toString value
  | .float (.finite negative mantissa exponent) => layout.write negative mantissa exponent
  | .float (.infinite false) => ".inf"
  | .float (.infinite true) => "-.inf"
  | .float .nan => ".nan"

end Number

inductive Value where
  | null
  | bool (value : Bool)
  | number (value : Number)
  | string (value : String)
  | sequence (items : List Value)
  | mapping (entries : List (Value × Value))
  | tagged (tag : String) (value : Value)

namespace Value

/-- A tag without the exclamation mark it may start with. -/
def bareTag (tag : String) : String :=
  match tag.toList with
  | '!' :: c :: rest => String.ofList (c :: rest)
  | _ => tag

mutual
/-- Sameness of keys: the order of entries does not count. -/
def same : Value → Value → Bool
  | .null, .null => true
  | .bool first, .bool second => first == second
  | .number first, .number second => first.same second
  | .string first, .string second => first == second
  | .sequence first, .sequence second => sameItems first second
  | .mapping first, .mapping second =>
    first.length == second.length && entriesWithin first second
  | .tagged tag first, .tagged tag' second => bareTag tag == bareTag tag' && same first second
  | _, _ => false

def sameItems : List Value → List Value → Bool
  | [], [] => true
  | first :: rest, first' :: rest' => same first first' && sameItems rest rest'
  | _, _ => false

/-- Whether each of some entries is among others. -/
def entriesWithin : List (Value × Value) → List (Value × Value) → Bool
  | [], _ => true
  | (key, value) :: entries, others =>
    others.any (fun (key', value') => same key key' && same value value') &&
      entriesWithin entries others
end

def boolText (value : Bool) : String := if value then "true" else "false"

end Value
end PathQuery.Yaml
