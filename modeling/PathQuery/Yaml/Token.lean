import PathQuery.Yaml.Glyph

/-! The tokens of a YAML stream. Collections in block style are opened and closed by tokens
of their own that stand for changes of indentation. -/

namespace PathQuery.Yaml

/-- The octets of a tag, which need not be text. -/
abbrev Octets := List UInt8

namespace Octets

def ofText (text : String) : Octets := text.toUTF8.toList

def text? (octets : Octets) : Option String := String.fromUTF8? ⟨octets.toArray⟩

end Octets

/-- How a scalar is written, as far as it bears on what it means. -/
inductive Presentation where
  | plain
  | quoted
deriving DecidableEq, Repr

inductive Token where
  | versionDirective (major minor : Nat)
  | tagDirective (handle : String) (lead : Octets)
  | documentStart
  | documentEnd
  | blockSequenceStart
  | blockMappingStart
  | blockEnd
  | flowSequenceStart
  | flowSequenceEnd
  | flowMappingStart
  | flowMappingEnd
  | blockEntry
  | flowEntry
  | key
  | value
  | alias (name : String)
  | anchor (name : String)
  | tag (handle : String) (suffix : Octets)
  | scalar (text : String) (presentation : Presentation)
  | streamEnd

/-! The white space between the words of a scalar, and what becomes of it: blanks within a
line stay, one line break is a space, and further breaks stay as they are. -/

/-- White space met since the last word. Once a line is broken its blanks no longer count;
`first` is empty if the break itself was taken back by a backslash. -/
inductive Spacing where
  | none
  | blanks (lastFirst : List Char)
  | lines (first : List Char) (more : List Char)

namespace Spacing

def addBlank (c : Char) : Spacing → Spacing
  | .none => .blanks [c]
  | .blanks before => .blanks (c :: before)
  | .lines first more => .lines first more

def addBreak (c : Char) : Spacing → Spacing
  | .none | .blanks _ => .lines [c] []
  | .lines first more => .lines first (more ++ [c])

def text : Spacing → List Char
  | .none => []
  | .blanks before => before.reverse
  | .lines first more =>
    if first = ['\n'] then (if more = [] then [' '] else more) else first ++ more

def isNone : Spacing → Bool
  | .none => true
  | .blanks _ | .lines _ _ => false

def isLines : Spacing → Bool
  | .lines _ _ => true
  | .none | .blanks _ => false

end Spacing
end PathQuery.Yaml
