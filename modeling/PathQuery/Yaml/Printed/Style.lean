import PathQuery.Yaml.Glyph
import PathQuery.Yaml.Value.Scalar

/-! Which way of writing a scalar takes when it is printed: plain where it reads back as it
is, in quotes or as a literal block elsewhere. -/

namespace PathQuery.Yaml.Printed

inductive Style where
  | plain
  | singleQuoted
  | doubleQuoted
  | literal
deriving DecidableEq, Repr

def isAnyBreak (c : Char) : Bool := isBreak c || c == '\r' || c == '\u0085'

def isShown (c : Char) : Bool :=
  isAllowed c && c != '\t' && c != '\r' && c != '\u0085' && c != orderMark

/-- Whether a character at the start of a text would be read as an indicator. -/
def indicatesAtStart (c : Char) (beforeBlank : Bool) : Bool :=
  "#,[]\x7b\x7d&*!|>'\"%@\u0060".toList.contains c || ((c == '?' || c == ':' || c == '-') && beforeBlank)

/-- Whether a character further on would be read as an indicator. -/
def indicatesWithin (c : Char) (afterBlank beforeBlank : Bool) : Bool :=
  (c == ':' && beforeBlank) || (c == '#' && afterBlank)

/-- The end of a text counts as a blank. -/
def startsBlank : List Char → Bool
  | [] => true
  | c :: _ => isBlankOrEnd c || isAnyBreak c

def hasIndicatorWithin (before : Char) : List Char → Bool
  | [] => false
  | c :: rest =>
    indicatesWithin c (startsBlank [before]) (startsBlank rest) || hasIndicatorWithin c rest

def hasIndicator (text : List Char) : Bool :=
  "---".toList.isPrefixOf text || "...".toList.isPrefixOf text ||
    match text with
    | [] => false
    | c :: rest => indicatesAtStart c (startsBlank rest) || hasIndicatorWithin c rest

/-- Whether two neighbours anywhere in a text are of two kinds. -/
def hasNeighbours (first second : Char → Bool) : List Char → Bool
  | c :: d :: rest => (first c && second d) || hasNeighbours first second (d :: rest)
  | _ => false

def isSpace (c : Char) : Bool := c == ' '

def isMultiline (text : List Char) : Bool := text.any isAnyBreak

/-- A text that can stand in quotes or in a block without escapes. -/
def isPlainText (text : List Char) : Bool :=
  text.all isShown && !hasNeighbours isSpace isAnyBreak text

def allowsPlain (text : List Char) : Bool :=
  let edge (c : Option Char) := c.any fun c => isSpace c || isAnyBreak c
  isPlainText text && !isMultiline text && !edge text.head? && !edge text.getLast? &&
    !hasIndicator text

def allowsSingle (text : List Char) : Bool :=
  isPlainText text && !hasNeighbours isAnyBreak isSpace text

def allowsLiteral (text : List Char) : Bool :=
  isPlainText text && !text.isEmpty && !text.getLast?.any isSpace

/-- Whether a string would be read as something else if it were plain. Digits after a
leading zero are a string, but one that other readers take for a number. -/
def resolvesOtherwise (text : String) : Bool :=
  match Scalar.resolve? text with
  | some (.string _) => Scalar.isPaddedDigits text.toList
  | _ => true

def wanted : Value → Style
  | .string text =>
    if text.toList.contains '\n' then .literal
    else if resolvesOtherwise text then .singleQuoted
    else .plain
  | _ => .plain

/-- The first of the styles from the one asked for on that the text allows. A simple key
stands on one line. -/
def choose (asked : Style) (simpleKey : Bool) (text : List Char) : Style :=
  if simpleKey && isMultiline text then .doubleQuoted
  else
    let single := if allowsSingle text then .singleQuoted else .doubleQuoted
    match asked with
    | .plain => if allowsPlain text && !(simpleKey && text.isEmpty) then .plain else single
    | .singleQuoted => single
    | .literal => if allowsLiteral text && !simpleKey then .literal else .doubleQuoted
    | .doubleQuoted => .doubleQuoted

end PathQuery.Yaml.Printed
