import PathQuery.Text
import PathQuery.Tree.Node

/-! Paths and their segments. A path is shown in bracket notation, which is read back as
the same path. -/

namespace PathQuery

/-- The characters of a name written without quotes. -/
def isNameChar (c : Char) : Bool := c == '_' || c == '-' || c.isAlphanum

/-- Asks for a mapping with a given text under a given key. -/
structure Filter where
  field : String
  literal : String
deriving DecidableEq, Repr

namespace Filter

/-- Holds of a mapping that has the literal as the text of a scalar directly under the
field; one of several entries with that key is enough. -/
def accepts (filter : Filter) : Node → Bool
  | .mapping entries =>
    (Node.valuesAt filter.field entries).any fun value => value.text? == some filter.literal
  | .sequence _ | .scalar _ => false

def display (filter : Filter) : String :=
  "@." ++ filter.field ++ " == '" ++ Text.Quoted.escape filter.literal ++ "'"

end Filter

inductive Segment where
  /-- The whole document. -/
  | root
  /-- The place itself and every place below it. -/
  | descent
  | wildcard
  | field (name : String)
  | index (position : Nat)
  | predicate (filter : Filter)
deriving DecidableEq, Repr

namespace Segment

def display : Segment → String
  | .root => "$"
  | .descent => ".."
  | .wildcard => "[*]"
  | .field name => "['" ++ Text.Quoted.escape name ++ "']"
  | .index position => "[" ++ toString position ++ "]"
  | .predicate filter => "[?(" ++ filter.display ++ ")]"

end Segment

structure Path where
  segments : List Segment
deriving DecidableEq, Repr

namespace Path

/-- Bracket notation, whatever way the path was written. -/
def display (path : Path) : String := String.join (path.segments.map Segment.display)

end Path
end PathQuery
