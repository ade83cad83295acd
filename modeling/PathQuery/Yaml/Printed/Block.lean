import PathQuery.Yaml.Printed.Writer

/-! Values printed in block style. Collections are indented by two columns, but for a
sequence under a key, which stands at the column of its key. -/

namespace PathQuery.Yaml.Printed

def printedTag (tag : String) : String :=
  let name := Value.bareTag tag
  if name.toList.head? = some '!' then name else "!" ++ name

/-- The longest simple key, in octets. -/
def maxSimpleKey : Nat := 128

def scalarText : Value → String
  | .null => "null"
  | .bool value => Value.boolText value
  | .number value => value.text
  | .string text => text
  | .sequence _ | .mapping _ | .tagged _ _ => ""

def isSimpleKey (tagLength : Nat) : Value → Bool
  | .tagged tag value => isSimpleKey (tagLength + (printedTag tag).utf8ByteSize) value
  | .sequence items => items.isEmpty && tagLength ≤ maxSimpleKey
  | .mapping entries => entries.isEmpty && tagLength ≤ maxSimpleKey
  | value =>
    let text := scalarText value
    !isMultiline text.toList && tagLength + text.utf8ByteSize ≤ maxSimpleKey

/-- Where a value is printed: after a dash, or in a mapping as a simple key or otherwise. -/
inductive Position where
  | item
  | simpleKey
  | inMapping
deriving DecidableEq, Repr

/-- The column of a collection within one at `parent`, if there is one. -/
def columnWithin (parent : Option Nat) (indentless : Bool) : Nat :=
  match parent with
  | none => 0
  | some column => if indentless then column else column + 2

/-- The column of the further lines of a scalar. -/
def scalarColumn (parent : Option Nat) : Nat :=
  match parent with
  | none => 2
  | some column => column + 2

mutual
def print (parent : Option Nat) (position : Position) : Value → Writer → Writer
  | .tagged tag value, writer => print parent position value (writer.tag (printedTag tag))
  | .sequence [], writer => ((writer.separate.put '[').put ']').endWord
  | .mapping [], writer => ((writer.separate.put '\x7b').put '\x7d').endWord
  | .sequence (item :: items), writer =>
    printItems (columnWithin parent (position = .inMapping ∧ !writer.indenting)) (item :: items) writer
  | .mapping (entry :: entries), writer =>
    printEntries (columnWithin parent false) (entry :: entries) writer
  | value, writer =>
    let text := (scalarText value).toList
    writer.scalar (choose (wanted value) (position = .simpleKey) text) (scalarColumn parent) text

def printItems (column : Nat) : List Value → Writer → Writer
  | [], writer => writer
  | item :: items, writer =>
    let writer := (writer.indent column).blockIndicator '-'
    printItems column items (print (some column) .item item writer)

def printEntries (column : Nat) : List (Value × Value) → Writer → Writer
  | [], writer => writer
  | (key, value) :: entries, writer =>
    let writer := writer.indent column
    let writer :=
      if isSimpleKey 0 key then (print (some column) .simpleKey key writer).colon
      else
        let writer := print (some column) .inMapping key (writer.blockIndicator '?')
        (writer.indent column).blockIndicator ':'
    printEntries column entries (print (some column) .inMapping value writer)
end

/-- Whether a value starts as a tag with its value does, which is printed like a mapping of
one entry. -/
def startsLikeTag : Value → Bool
  | .tagged _ _ | .mapping [_] => true
  | .null | .bool _ | .number _ | .string _ | .sequence _ | .mapping _ => false

mutual
/-- Whether a value has a text. A mapping of one entry is opened only once its key has shown
that it is none for a tag, so a key that starts like one would leave it unopened. A tag
before the mapping opens it at once. -/
def isPrintable (underTag : Bool) : Value → Bool
  | .null | .bool _ | .number _ | .string _ => true
  | .tagged _ value => isPrintable true value
  | .sequence items => arePrintable items
  | .mapping [(key, value)] =>
    (underTag || !startsLikeTag key) && isPrintable false key && isPrintable false value
  | .mapping entries => hasPrintableEntries entries

def arePrintable : List Value → Bool
  | [] => true
  | item :: items => isPrintable false item && arePrintable items

def hasPrintableEntries : List (Value × Value) → Bool
  | [] => true
  | (key, value) :: entries =>
    isPrintable false key && isPrintable false value && hasPrintableEntries entries
end

def blockText? (value : Value) : Option String :=
  if isPrintable false value then some (print none .item value .empty).text else none

end PathQuery.Yaml.Printed
