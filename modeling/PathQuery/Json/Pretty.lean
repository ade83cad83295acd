import PathQuery.Json.Value

/-! JSON text over several lines. Each item of a collection has a line of its own, two
columns to the right of the collection; an empty collection stays on one line. -/

namespace PathQuery.Json

namespace Pretty

/-- A character as it stands in a string. Only quotes, backslashes and the characters
below the space are escaped. -/
def escaped (c : Char) : List Char :=
  match c with
  | '"' => ['\\', '"']
  | '\\' => ['\\', '\\']
  | '\x08' => ['\\', 'b']
  | '\x0c' => ['\\', 'f']
  | '\n' => ['\\', 'n']
  | '\r' => ['\\', 'r']
  | '\t' => ['\\', 't']
  | other =>
    if other < ' ' then
      ['\\', 'u', '0', '0', Nat.digitChar (other.toNat / 16), Nat.digitChar (other.toNat % 16)]
    else [other]

def quoted (text : String) : List Char := '"' :: text.toList.flatMap escaped ++ ['"']

def newLine (depth : Nat) : List Char := '\n' :: List.replicate (2 * depth) ' '

def collection (opening closing : Char) (depth : Nat) : List (List Char) → List Char
  | [] => [opening, closing]
  | item :: items =>
    let line (item : List Char) := newLine (depth + 1) ++ item
    opening :: line item ++ items.flatMap (fun item => ',' :: line item) ++
      newLine depth ++ [closing]

end Pretty

namespace Value
open Pretty

mutual
/-- A value whose first line stands at a depth. -/
def prettyAt (depth : Nat) : Value → List Char
  | .null => "null".toList
  | .bool value => (if value then "true" else "false").toList
  | .number value => value.text.toList
  | .string text => quoted text
  | .array items => collection '[' ']' depth (prettyItems (depth + 1) items)
  | .object members => collection '\x7b' '\x7d' depth (prettyMembers (depth + 1) members)

def prettyItems (depth : Nat) : List Value → List (List Char)
  | [] => []
  | item :: items => prettyAt depth item :: prettyItems depth items

def prettyMembers (depth : Nat) : List (String × Value) → List (List Char)
  | [] => []
  | (key, value) :: members =>
    (quoted key ++ [':', ' '] ++ prettyAt depth value) :: prettyMembers depth members
end

def pretty (value : Value) : String := String.ofList (value.prettyAt 0)

end Value
end PathQuery.Json
