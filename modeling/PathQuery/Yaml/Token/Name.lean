import PathQuery.Yaml.Token

/-! Anchors, tags and directives. -/

namespace PathQuery.Yaml.Name

def isIndicatorAfterAnchor (c : Char) : Bool :=
  c == '?' || c == ':' || c == ',' || c == ']' || c == '\x7d' || c == '%' || c == '@' || c == '\u0060'

def readWord (text : List Glyph) : String × List Glyph :=
  let isPart (glyph : Glyph) := isWord glyph.char
  (String.ofList ((text.takeWhile isPart).map Glyph.char), text.dropWhile isPart)

def readAnchor? (text : List Glyph) : Option (String × List Glyph) :=
  let (name, rest) := readWord text
  let next := Glyph.peek rest 0
  if name ≠ "" ∧ (isBlankOrEnd next || isIndicatorAfterAnchor next) then some (name, rest) else none

/-- The characters of a tag. Those that delimit flow collections are only allowed within
angle brackets and in a directive. -/
def isTagChar (verbatim : Bool) (c : Char) : Bool :=
  isWord c || ";/?:@&=+$.!~*'()".toList.contains c || (verbatim && ",[]".toList.contains c)

def octet? (high low : Glyph) : Option Nat := do
  return (← Text.hexDigit? high.char) * 16 + (← Text.hexDigit? low.char)

/-- How many octets follow the first octet of a UTF-8 sequence. -/
def continuation? (octet : Nat) : Option Nat :=
  if octet < 0x80 then some 0
  else if 0xC0 ≤ octet ∧ octet < 0xE0 then some 1
  else if 0xE0 ≤ octet ∧ octet < 0xF0 then some 2
  else if 0xF0 ≤ octet ∧ octet < 0xF8 then some 3
  else none

def isContinuation (octet : Nat) : Bool := 0x80 ≤ octet && octet < 0xC0

/-- Reads the octets of a tag. `missing` octets are still due of an escaped UTF-8
sequence, which has to be escaped to its end. -/
def readOctets? (verbatim : Bool) (missing : Nat) (text : List Glyph) :
    Option (Octets × List Glyph) :=
  match text with
  | glyph :: rest =>
    if glyph.char = '%' then
      match rest with
      | high :: low :: rest => do
        let octet ← octet? high low
        let due ←
          if missing = 0 then continuation? octet
          else if isContinuation octet then some (missing - 1)
          else none
        let (octets, rest) ← readOctets? verbatim due rest
        return (octet.toUInt8 :: octets, rest)
      | _ => none
    else if missing ≠ 0 then none
    else if isTagChar verbatim glyph.char then do
      let (octets, rest) ← readOctets? verbatim 0 rest
      return (glyph.char.toNat.toUInt8 :: octets, rest)
    else some ([], text)
  | [] => if missing = 0 then some ([], []) else none

/-- A tag ends before an octet of zero, however much is written after it. -/
def untilZero (octets : Octets) : Octets := octets.takeWhile (· ≠ 0)

def readSuffix? (verbatim : Bool) (text : List Glyph) : Option (Octets × List Glyph) := do
  let (octets, rest) ← readOctets? verbatim 0 text
  if octets = [] then none else some (untilZero octets, rest)

/-- A tag with its handle. Without a second mark the word belongs to the suffix, and a
lone mark is a tag of its own. -/
def readShorthand? (text : List Glyph) : Option ((String × Octets) × List Glyph) := do
  let (word, rest) := readWord text
  if Glyph.peek rest 0 = '!' then
    let (suffix, rest) ← readSuffix? false (rest.drop 1)
    some (("!" ++ word ++ "!", suffix), rest)
  else
    let (octets, rest) ← readOctets? false 0 rest
    let suffix := Octets.ofText word ++ untilZero octets
    if suffix = [] then some (("", Octets.ofText "!"), rest) else some (("!", suffix), rest)

/-- Reads what follows the exclamation mark of a tag. -/
def readTag? (inFlow : Bool) (text : List Glyph) :
    Option ((String × Octets) × List Glyph) := do
  let (tag, rest) ←
    if Glyph.peek text 0 = '<' then do
      let (suffix, rest) ← readSuffix? true (text.drop 1)
      if Glyph.peek rest 0 = '>' then some (("", suffix), rest.drop 1) else none
    else readShorthand? text
  let next := Glyph.peek rest 0
  if isBlankOrEnd next || (inFlow && next == ',') then some (tag, rest) else none

def readVersionNumber? (text : List Glyph) : Option (Nat × List Glyph) :=
  let isPart (glyph : Glyph) := glyph.char.isDigit
  let digits := (text.takeWhile isPart).map Glyph.char
  if digits = [] ∨ 9 < digits.length then none
  else some (Nat.ofDigitChars 10 digits 0, text.dropWhile isPart)

def readVersion? (text : List Glyph) : Option (Token × List Glyph) := do
  let (major, text) ← readVersionNumber? text
  if Glyph.peek text 0 = '.' then
    let (minor, text) ← readVersionNumber? (text.drop 1)
    some (.versionDirective major minor, text)
  else none

/-- A handle to declare is an exclamation mark, or a word between two. -/
def readDeclaration? (text : List Glyph) : Option (Token × List Glyph) := do
  if Glyph.peek text 0 ≠ '!' then none
  else
    let (word, text) := readWord (text.drop 1)
    let (handle, text) ←
      if Glyph.peek text 0 = '!' then some ("!" ++ word ++ "!", text.drop 1)
      else if word = "" then some ("!", text)
      else none
    if !isBlank (Glyph.peek text 0) then none
    else
      let (lead, text) ← readSuffix? true (Glyph.dropBlanks text)
      if isBlankOrEnd (Glyph.peek text 0) then some (.tagDirective handle lead, text) else none

/-- Reads what follows the percent sign of a directive, to the end of its line. -/
def readDirective? (text : List Glyph) : Option (Token × List Glyph) := do
  let (name, text) := readWord text
  if !isBlankOrEnd (Glyph.peek text 0) then none
  else
    let text := Glyph.dropBlanks text
    let (token, text) ←
      if name = "YAML" then readVersion? text
      else if name = "TAG" then readDeclaration? text
      else none
    return (token, ← Glyph.endLine? text)

end PathQuery.Yaml.Name
