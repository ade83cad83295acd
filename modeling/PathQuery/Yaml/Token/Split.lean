import PathQuery.Yaml.Token.Block
import PathQuery.Yaml.Token.Name
import PathQuery.Yaml.Token.Plain
import PathQuery.Yaml.Token.Quoted

/-! Splitting a text into tokens. Whether a scalar or a collection is a key shows only at
the colon after it, so places where a key may have started are remembered and the tokens
that open the key are put in there afterwards. -/

namespace PathQuery.Yaml

/-- A place where a simple key may have started. It is required if nothing else can stand
at its column. -/
structure KeyStart where
  required : Bool
  token : Nat
  line : Nat
  column : Nat
  offset : Nat
deriving DecidableEq, Repr

/-- How far a text has been split. `outerKeys` has an entry for each flow collection that
is open, and `outerIndents` one for each block collection. -/
structure Splitting where
  text : List Glyph
  tokensLastFirst : List Token
  tokenCount : Nat
  key : Option KeyStart
  outerKeys : List (Option KeyStart)
  keyAllowed : Bool
  indent : Int
  outerIndents : List Int

namespace Splitting

/-- The longest key on one line, in octets. -/
def maxKeyLength : Nat := 1024

def start (text : List Glyph) : Splitting := ⟨text, [], 0, none, [], true, -1, []⟩

def inFlow (state : Splitting) : Bool := !state.outerKeys.isEmpty

def column (state : Splitting) : Nat := (state.text.head?.map Glyph.column).getD 0

def line (state : Splitting) : Nat := (state.text.head?.map Glyph.line).getD 0

def offset (state : Splitting) : Nat := (state.text.head?.map Glyph.offset).getD 0

def add (token : Token) (state : Splitting) : Splitting :=
  { state with
    tokensLastFirst := token :: state.tokensLastFirst
    tokenCount := state.tokenCount + 1 }

/-- Puts a token in so that it becomes number `position`. -/
def insert (position : Nat) (token : Token) (state : Splitting) : Splitting :=
  let later := state.tokenCount - position
  { state with
    tokensLastFirst :=
      state.tokensLastFirst.take later ++ token :: state.tokensLastFirst.drop later
    tokenCount := state.tokenCount + 1 }

def skip (count : Nat) (state : Splitting) : Splitting := { state with text := state.text.drop count }

/-- Drops white space, comments, and byte order marks that a line starts with. A mark that
is dropped still takes a column. Tabs count as white space only where no key may start, and
in block style a new line lets a key start again. -/
def dropSpace (inFlow keyAllowed : Bool) (text : List Glyph) : Bool × List Glyph :=
  match text with
  | [] => (keyAllowed, [])
  | glyph :: rest =>
    if glyph.char = ' ' ∨ (glyph.char = '\t' ∧ (inFlow || !keyAllowed)) ∨
        (glyph.char = orderMark ∧ glyph.column = 0) then
      dropSpace inFlow keyAllowed rest
    else if isBreak glyph.char then dropSpace inFlow (keyAllowed || !inFlow) rest
    else if glyph.char = '#' then
      dropSpace inFlow keyAllowed (rest.dropWhile fun glyph => !isBreakOrEnd glyph.char)
    else (keyAllowed, text)
termination_by text.length
decreasing_by
  all_goals
    have := (List.dropWhile_suffix (fun glyph : Glyph => !isBreakOrEnd glyph.char) (l := rest)).length_le
    simp only [List.length_cons]
    omega

/-- Gives up a key that did not end on its line or grew too long; a required one may not. -/
def dropStaleKey? (line offset : Nat) : Option KeyStart → Option (Option KeyStart)
  | none => some none
  | some key =>
    if key.line < line ∨ key.offset + maxKeyLength < offset then
      if key.required then none else some none
    else some (some key)

def dropStaleKeys? (state : Splitting) : Option Splitting := do
  let key ← dropStaleKey? state.line state.offset state.key
  let outerKeys ← state.outerKeys.mapM (dropStaleKey? state.line state.offset)
  return { state with key, outerKeys }

/-- Gives up the current key, which may not be required. -/
def dropKey? (state : Splitting) : Option Splitting :=
  if state.key.any KeyStart.required then none else some { state with key := none }

/-- Remembers that a key may start here. -/
def saveKey? (state : Splitting) : Option Splitting :=
  if state.keyAllowed then do
    let required := !state.inFlow && state.indent == (state.column : Int)
    let key : KeyStart := ⟨required, state.tokenCount, state.line, state.column, state.offset⟩
    return { ← state.dropKey? with key := some key }
  else some state

/-- Closes the block collections that are indented further than `column`. -/
def closeBlocks (column : Int) (state : Splitting) : Splitting :=
  if state.inFlow then state
  else
    let closed := (state.indent :: state.outerIndents).takeWhile (column < ·)
    match (state.indent :: state.outerIndents).dropWhile (column < ·) with
    | indent :: outerIndents =>
      closed.foldl (fun state _ => state.add .blockEnd) { state with indent, outerIndents }
    | [] => state

/-- Opens a block collection at a column further in than the current one. -/
def openBlock (column : Nat) (token : Token) (position : Option Nat) (state : Splitting) :
    Splitting :=
  if !state.inFlow && state.indent < (column : Int) then
    let state :=
      { state with indent := (column : Int), outerIndents := state.indent :: state.outerIndents }
    match position with
    | some position => state.insert position token
    | none => state.add token
  else state

/-- What a block entry, an explicit key, or a value without a simple key does first in block
style: it has to stand where a key may start, and it may open a collection. -/
def enterBlock? (token : Token) (state : Splitting) : Option Splitting :=
  if state.inFlow then some state
  else if state.keyAllowed then some (state.openBlock state.column token none)
  else none

def endStream? (state : Splitting) : Option Splitting := do
  let state ← (state.closeBlocks (-1)).dropKey?
  return { state.add .streamEnd with keyAllowed := false, text := [] }

def directive? (state : Splitting) : Option Splitting := do
  let state ← (state.closeBlocks (-1)).dropKey?
  let (token, text) ← Name.readDirective? (state.text.drop 1)
  return { state.add token with keyAllowed := false, text }

def documentMarker? (token : Token) (state : Splitting) : Option Splitting := do
  let state ← (state.closeBlocks (-1)).dropKey?
  return { (state.add token).skip 3 with keyAllowed := false }

def openFlow? (token : Token) (state : Splitting) : Option Splitting := do
  let state ← state.saveKey?
  let state := { state with key := none, outerKeys := state.key :: state.outerKeys }
  return { (state.add token).skip 1 with keyAllowed := true }

def closeFlow? (token : Token) (state : Splitting) : Option Splitting := do
  let state ← state.dropKey?
  let state := match state.outerKeys with
    | key :: outerKeys => { state with key, outerKeys }
    | [] => state
  return { (state.add token).skip 1 with keyAllowed := false }

def flowEntry? (state : Splitting) : Option Splitting := do
  let state ← state.dropKey?
  return { (state.add .flowEntry).skip 1 with keyAllowed := true }

def blockEntry? (state : Splitting) : Option Splitting := do
  let state ← (← state.enterBlock? .blockSequenceStart).dropKey?
  return { (state.add .blockEntry).skip 1 with keyAllowed := true }

def explicitKey? (state : Splitting) : Option Splitting := do
  let state ← (← state.enterBlock? .blockMappingStart).dropKey?
  return { (state.add .key).skip 1 with keyAllowed := !state.inFlow }

/-- A colon makes a key of what was remembered; otherwise it belongs to an explicit key. -/
def value? (state : Splitting) : Option Splitting := do
  match state.key with
  | some key =>
    let state := state.insert key.token .key
    let state := state.openBlock key.column .blockMappingStart (some key.token)
    return { (state.add .value).skip 1 with key := none, keyAllowed := false }
  | none =>
    let state ← state.enterBlock? .blockMappingStart
    return { (state.add .value).skip 1 with keyAllowed := !state.inFlow }

def anchor? (make : String → Token) (state : Splitting) : Option Splitting := do
  let state ← state.saveKey?
  let (name, text) ← Name.readAnchor? (state.text.drop 1)
  return { state.add (make name) with keyAllowed := false, text }

def tag? (state : Splitting) : Option Splitting := do
  let state ← state.saveKey?
  let ((handle, suffix), text) ← Name.readTag? state.inFlow (state.text.drop 1)
  return { state.add (.tag handle suffix) with keyAllowed := false, text }

def blockScalar? (folded : Bool) (state : Splitting) : Option Splitting := do
  let state ← state.dropKey?
  let (content, text) ← Block.read? folded state.indent (state.text.drop 1)
  return { state.add (.scalar (String.ofList content) .quoted) with keyAllowed := true, text }

def quotedScalar? (quote : Char) (state : Splitting) : Option Splitting := do
  let state ← state.saveKey?
  let (content, text) ← Quoted.read? quote [] .none (state.text.drop 1)
  return { state.add (.scalar (String.ofList content) .quoted) with keyAllowed := false, text }

def plainScalar? (state : Splitting) : Option Splitting := do
  let state ← state.saveKey?
  let plain ← Plain.read? state.inFlow (state.indent + 1) [] .none state.text
  return { state.add (.scalar (String.ofList plain.text) .plain) with
    keyAllowed := plain.lineEnded, text := plain.rest }

/-- Characters that mark something, and so do not start a plain scalar by themselves. -/
def isIndicator (c : Char) : Bool :=
  "-?:,[]\x7b\x7d#&*!|>'\"%@\u0060".toList.contains c

/-- Whether a plain scalar starts here: with no indicator, with a dash before other than a
blank, or outside flow collections with a question mark or a colon before a word. -/
def startsPlain (inFlow : Bool) (c next : Char) : Bool :=
  !(isBlankOrEnd c || isIndicator c) || (c == '-' && !isBlank next) ||
    (!inFlow && (c == '?' || c == ':') && !isBlankOrEnd next)

/-- Adds the next token, and those that have to stand before it. -/
def next? (state : Splitting) : Option Splitting := do
  let (keyAllowed, text) := dropSpace state.inFlow state.keyAllowed state.text
  let state ← { state with keyAllowed, text }.dropStaleKeys?
  let state := state.closeBlocks state.column
  let c := Glyph.peek text 0
  let next := Glyph.peek text 1
  if c = endMark then state.endStream?
  else if c = '%' ∧ state.column = 0 then state.directive?
  else if Glyph.isMarker '-' text then state.documentMarker? .documentStart
  else if Glyph.isMarker '.' text then state.documentMarker? .documentEnd
  else if c = '[' then state.openFlow? .flowSequenceStart
  else if c = '\x7b' then state.openFlow? .flowMappingStart
  else if c = ']' then state.closeFlow? .flowSequenceEnd
  else if c = '\x7d' then state.closeFlow? .flowMappingEnd
  else if c = ',' then state.flowEntry?
  else if c = '-' ∧ isBlankOrEnd next then state.blockEntry?
  else if c = '?' ∧ (state.inFlow || isBlankOrEnd next) then state.explicitKey?
  else if c = ':' ∧ (state.inFlow || isBlankOrEnd next) then state.value?
  else if c = '*' then state.anchor? .alias
  else if c = '&' then state.anchor? .anchor
  else if c = '!' then state.tag?
  else if c = '|' ∧ !state.inFlow then state.blockScalar? false
  else if c = '>' ∧ !state.inFlow then state.blockScalar? true
  else if c = '\'' ∨ c = '"' then state.quotedScalar? c
  else if startsPlain state.inFlow c next then state.plainScalar?
  else none

/-- Splits until the text is used up; each turn takes at least one character. -/
def finish? : (turns : Nat) → Splitting → Option (List Token)
  | 0, _ => none
  | turns + 1, state =>
    if state.text = [] then some state.tokensLastFirst.reverse
    else do finish? turns (← state.next?)

end Splitting

namespace Token

def split? (text : List Glyph) : Option (List Token) :=
  (Splitting.start text).finish? (text.length + 1)

end Token
end PathQuery.Yaml
