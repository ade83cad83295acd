import PathQuery.Text

/-! YAML text as a list of characters with their places. The characters a text may hold
are checked first; then line breaks are made one character each, and the end of the text
is marked. -/

namespace PathQuery.Yaml

/-- A character with the line and the column it stands at, and with the number of octets
before it on that line. -/
structure Glyph where
  char : Char
  line : Nat
  column : Nat
  offset : Nat
deriving DecidableEq, Repr

def orderMark : Char := '\ufeff'

def isAllowed (c : Char) : Bool :=
  let code := c.toNat
  code == 0x9 || code == 0xA || code == 0xD || (0x20 ≤ code && code ≤ 0x7E) || code == 0x85 ||
    (0xA0 ≤ code && code ≤ 0xD7FF) || (0xE000 ≤ code && code ≤ 0xFFFD) || 0x10000 ≤ code

/-- Marks the end of a text; no text holds it. -/
def endMark : Char := '\x00'

/-- A break is a line feed, or one of the two Unicode separators, which keep their
character in scalars. -/
def isBreak (c : Char) : Bool := c == '\n' || c == '\u2028' || c == '\u2029'

def isBlank (c : Char) : Bool := c == ' ' || c == '\t'

def isBreakOrEnd (c : Char) : Bool := isBreak c || c == endMark

def isBlankOrEnd (c : Char) : Bool := isBlank c || isBreakOrEnd c

def isWord (c : Char) : Bool := c.isAlphanum || c == '_' || c == '-'

namespace Glyph

/-- Makes every line break one line feed, but for the Unicode separators. What is done is
kept last character first. -/
def unifyBreaks (done : List Char) : List Char → List Char
  | '\r' :: '\n' :: rest => unifyBreaks ('\n' :: done) rest
  | '\r' :: rest => unifyBreaks ('\n' :: done) rest
  | '\u0085' :: rest => unifyBreaks ('\n' :: done) rest
  | c :: rest => unifyBreaks (c :: done) rest
  | [] => done.reverse

/-- Gives each character its place. What is done is kept last glyph first. -/
def place (done : List Glyph) (line column offset : Nat) : List Char → List Glyph
  | [] => (⟨endMark, line, column, offset⟩ :: done).reverse
  | c :: rest =>
    let done := ⟨c, line, column, offset⟩ :: done
    if isBreak c then place done (line + 1) 0 0 rest
    else place done line (column + 1) (offset + c.utf8Size) rest

def ofText? (text : String) : Option (List Glyph) :=
  let characters := text.toList
  if characters.all isAllowed then some (place [] 0 0 0 (unifyBreaks [] characters)) else none

def peek (text : List Glyph) (offset : Nat) : Char :=
  match text[offset]? with
  | some glyph => glyph.char
  | none => endMark

def dropBlanks (text : List Glyph) : List Glyph := text.dropWhile fun glyph => isBlank glyph.char

/-- Drops a comment, but not the end of its line. -/
def dropComment (text : List Glyph) : List Glyph :=
  if peek text 0 = '#' then text.dropWhile fun glyph => !isBreakOrEnd glyph.char else text

/-- Reads to the end of a line that holds nothing but blanks and a comment. -/
def endLine? (text : List Glyph) : Option (List Glyph) :=
  let text := dropComment (dropBlanks text)
  if isBreak (peek text 0) then some (text.drop 1)
  else if peek text 0 = endMark then some text
  else none

/-- Whether a line starts here with three of `c` and a blank or the end of the line. -/
def isMarker (c : Char) (text : List Glyph) : Bool :=
  match text with
  | first :: second :: third :: rest =>
    first.column == 0 && first.char == c && second.char == c && third.char == c &&
      isBlankOrEnd (peek rest 0)
  | _ => false

def isDocumentMarker (text : List Glyph) : Bool := isMarker '-' text || isMarker '.' text

end Glyph
end PathQuery.Yaml
