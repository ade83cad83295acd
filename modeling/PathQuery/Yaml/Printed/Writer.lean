import PathQuery.Yaml.Printed.Style

/-! Writing scalars, tags and indicators one after the other, with no more white space
between them than they need. -/

namespace PathQuery.Yaml.Printed

/-- What has been written, last character first. `blank` says that it ends in white space,
and `indenting` that its last line holds nothing but indentation and indicators. -/
structure Writer where
  lastFirst : List Char
  column : Nat
  blank : Bool
  indenting : Bool

namespace Writer

def empty : Writer := ⟨[], 0, true, true⟩

def text (writer : Writer) : String := String.ofList writer.lastFirst.reverse

def put (c : Char) (writer : Writer) : Writer :=
  { writer with lastFirst := c :: writer.lastFirst, column := writer.column + 1 }

def putAll (text : List Char) (writer : Writer) : Writer :=
  text.foldl (fun writer c => writer.put c) writer

def putBreak (c : Char) (writer : Writer) : Writer :=
  { writer with lastFirst := c :: writer.lastFirst, column := 0 }

def indent (column : Nat) (writer : Writer) : Writer :=
  let writer :=
    if !writer.indenting || column < writer.column || (column == writer.column && !writer.blank) then
      writer.putBreak '\n'
    else writer
  { writer.putAll (List.replicate (column - writer.column) ' ') with blank := true, indenting := true }

/-- Puts a space where something would otherwise stick to what was written before. -/
def separate (writer : Writer) : Writer := if writer.blank then writer else writer.put ' '

def endWord (writer : Writer) : Writer := { writer with blank := false, indenting := false }

/-- An indicator of a block collection, which keeps the indentation going. -/
def blockIndicator (c : Char) (writer : Writer) : Writer := { writer.separate.put c with blank := false }

def colon (writer : Writer) : Writer := (writer.put ':').endWord

def plain (text : List Char) (writer : Writer) : Writer :=
  let writer := if text.isEmpty then writer else writer.separate
  (writer.putAll text).endWord

/-- Breaks within single quotes: a line feed is written twice, since one alone would be
read as a space. -/
def singleQuoted (column : Nat) (text : List Char) (writer : Writer) : Writer :=
  let (writer, broken) := text.foldl (fun (writer, broken) c =>
    if isSpace c then (writer.put c, broken)
    else if isAnyBreak c then
      let writer := if !broken && c == '\n' then writer.putBreak '\n' else writer
      ({ writer.putBreak c with indenting := true }, true)
    else
      let writer := if broken then writer.indent column else writer
      let writer := if c == '\'' then writer.put c else writer
      ({ writer.put c with indenting := false }, false))
    ((writer.separate.put '\'').endWord, false)
  ((if broken then writer.indent column else writer).put '\'').endWord

def escapeOf? : Char → Option Char
  | '\x00' => some '0'
  | '\x07' => some 'a'
  | '\x08' => some 'b'
  | '\t' => some 't'
  | '\n' => some 'n'
  | '\x0b' => some 'v'
  | '\x0c' => some 'f'
  | '\r' => some 'r'
  | '\x1b' => some 'e'
  | '"' => some '"'
  | '\\' => some '\\'
  | '\u0085' => some 'N'
  | '\u00a0' => some '_'
  | '\u2028' => some 'L'
  | '\u2029' => some 'P'
  | _ => none

/-- Hexadecimal digits in capitals, filled up with zeros. -/
def hex (width code : Nat) : List Char :=
  let digits := (Nat.toDigits 16 code).map Char.toUpper
  List.replicate (width - digits.length) '0' ++ digits

def escaped (c : Char) : List Char :=
  if isShown c && !isAnyBreak c && c != '"' && c != '\\' then [c]
  else
    '\\' :: match escapeOf? c with
      | some short => [short]
      | none =>
        if c.toNat ≤ 0xFF then 'x' :: hex 2 c.toNat
        else if c.toNat ≤ 0xFFFF then 'u' :: hex 4 c.toNat
        else 'U' :: hex 8 c.toNat

def doubleQuoted (text : List Char) (writer : Writer) : Writer :=
  ((writer.separate.put '"').putAll (text.flatMap escaped) |>.put '"').endWord

/-- The hints of a literal block: the indentation if the text starts with white space, and
what becomes of the breaks at its end. -/
def literalHints (text : List Char) : List Char :=
  let indentation := if text.head?.any fun c => isSpace c || isAnyBreak c then ['2'] else []
  let chomping := match text.reverse with
    | last :: before :: _ =>
      if !isAnyBreak last then ['-'] else if isAnyBreak before then ['+'] else []
    | [last] => if isAnyBreak last then ['+'] else ['-']
    | [] => ['-']
  indentation ++ chomping

def literal (column : Nat) (text : List Char) (writer : Writer) : Writer :=
  let writer := (writer.separate.put '|').putAll (literalHints text)
  let writer := { writer.putBreak '\n' with blank := true, indenting := true }
  let (writer, _) := text.foldl (fun (writer, broken) c =>
    if isAnyBreak c then ({ writer.putBreak c with indenting := true }, true)
    else
      let writer := if broken then writer.indent column else writer
      ({ writer.put c with indenting := false }, false))
    (writer, true)
  writer

/-- A scalar at a column to which its further lines are indented. -/
def scalar (style : Style) (column : Nat) (text : List Char) (writer : Writer) : Writer :=
  match style with
  | .plain => writer.plain text
  | .singleQuoted => writer.singleQuoted column text
  | .doubleQuoted => writer.doubleQuoted text
  | .literal => writer.literal column text

/-- The octets of a character as they stand in a tag. -/
def tagCharacter (c : Char) : List Char :=
  if isWord c || ";/?:@&=+$,.~*'()[]".toList.contains c then [c]
  else c.toString.toUTF8.toList.flatMap fun octet => '%' :: hex 2 octet.toNat

def tag (name : String) (writer : Writer) : Writer :=
  let content (text : List Char) := text.flatMap tagCharacter
  match name.toList with
  | '!' :: c :: rest => (writer.separate.putAll ('!' :: content (c :: rest))).endWord
  | name => (writer.separate.putAll ("!<".toList ++ content name ++ ['>'])).endWord

end Writer
end PathQuery.Yaml.Printed
