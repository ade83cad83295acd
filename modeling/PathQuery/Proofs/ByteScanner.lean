import PathQuery.Expression.Compile

/-! The scanner. It moves over an expression by byte offsets, and what it looks at is sliced from the text,
which fails for an offset that is not at the boundary of a character. A scan keeps all its positions, and
where the turns of its loops led that were followed by another turn. -/

namespace PathQuery.Proofs.ByteScanner
open PathQuery.Expression PathQuery.Path

/-- Why a scan ends early. -/
inductive Stop where
  /-- A slice goes past the end of the text, is off the boundary of a character, or is reversed. -/
  | badSlice
  /-- A loop takes another turn after one that did not move. -/
  | standstill
  | refused (error : SyntaxError Nat)
deriving DecidableEq, Repr

structure Scanner where
  position : Nat
  /-- The positions up to this one, in their order. -/
  passed : List Nat
  /-- Where a turn began and where it ended, for each that was followed by another. -/
  turns : List (Nat × Nat)
deriving DecidableEq, Repr

def Scanner.start : Scanner := ⟨0, [0], []⟩

abbrev Scan := EStateM Stop Scanner

/-- The text from a byte offset on. -/
def from? : List Char → Nat → Option (List Char)
  | text, 0 => some text
  | [], _ + 1 => none
  | c :: text, offset + 1 => if offset + 1 < c.utf8Size then none else from? text (offset + 1 - c.utf8Size)

/-- The text between two byte offsets. -/
def slice? (text : List Char) (start stop : Nat) : Option (List Char) :=
  if start ≤ stop then do
    let part ← from? text start
    let rest ← from? text stop
    return part.take (part.length - rest.length)
  else none

def sliced : Option (List Char) → Scan (List Char)
  | some part => pure part
  | none => throw .badSlice

def refuse {α : Type} (error : SyntaxError Nat) : Scan α := throw (.refused error)

def position : Scan Nat := return (← get).position

/-- The only way to another position. -/
def advance (bytes : Nat) : Scan Unit :=
  modify fun ⟨here, passed, turns⟩ => ⟨here + bytes, passed ++ [here + bytes], turns⟩

/-- How far a loop moves over a character that belongs to a run. -/
inductive Stride where
  | byte
  | character

def Stride.bytes : Stride → Char → Nat
  | .byte, _ => 1
  | .character, c => c.utf8Size

/-- What a turn of a loop comes to. -/
inductive Turn (σ α : Type) where
  | again (state : σ)
  | done (value : α)

section Scanning
variable (text : List Char)

/-- Takes turns until one is done. -/
def repeated {σ α : Type} (turn : σ → Scan (Turn σ α)) (state : σ) : Scan α := fun scanner =>
  -- every turn begins with a look at what is ahead, for which the position must not be past the end
  if byteLength text < scanner.position then .error .badSlice scanner
  else
    match turn state scanner with
    | .ok (.done value) after => .ok value after
    | .ok (.again next) after =>
      let noted := { after with turns := after.turns ++ [(scanner.position, after.position)] }
      if scanner.position < after.position then repeated turn next noted else .error .standstill noted
    | .error stop after => .error stop after
termination_by scanner => byteLength text + 1 - scanner.position

def ahead : Scan (List Char) := do sliced (from? text (← position))

def peek : Scan (Option Char) := return (← ahead text).head?

def atEnd : Scan Bool := return byteLength text ≤ (← position)

def consume (c : Char) : Scan Bool := do
  if (← peek text) = some c then
    advance c.utf8Size
    return true
  else return false

def consumeText (part : List Char) : Scan Bool := do
  if part.isPrefixOf (← ahead text) then
    advance (byteLength part)
    return true
  else return false

/-- Refuses whatever is ahead. -/
def unexpected {α : Type} (expected : Expected) : Scan α := do
  match ← peek text with
  | some found => refuse (.unexpectedToken found (← position) expected)
  | none => refuse (.unexpectedEnd expected)

def expect (c : Char) (expected : Expected) : Scan Unit := do
  if ← consume text c then return ()
  else unexpected text expected

def close (c : Char) (construct : Construct) (opening : Nat) (expected : Expected) : Scan Unit := do
  if ← consume text c then return ()
  else if ← atEnd text then refuse (.unterminated construct opening)
  else unexpected text expected

def passTurn (stride : Stride) (member : Char → Bool) : Scan (Turn Unit Unit) := do
  match ← peek text with
  | some c =>
    if member c then
      advance (stride.bytes c)
      return .again ()
    else return .done ()
  | none => return .done ()

/-- Moves over a longest run. -/
def pass (stride : Stride) (member : Char → Bool) : Scan Unit :=
  repeated text (fun _ => passTurn text stride member) ()

def takeWhile (member : Char → Bool) : Scan (List Char) := do
  let start ← position
  pass text .character member
  sliced (slice? text start (← position))

def skipBlank : Scan Unit := discard (takeWhile text Text.isBlank)

/-- A longest run that is not empty, moved over byte by byte. -/
def takeSome (member : Char → Bool) (expected : Expected) : Scan (List Char) := do
  let start ← position
  pass text .byte member
  if (← position) = start then unexpected text expected
  else sliced (slice? text start (← position))

def name : Scan String := String.ofList <$> takeSome text isNameChar .fieldName

def index : Scan Nat := do
  let start ← position
  let digits ← takeSome text Char.isDigit .index
  let value := Nat.ofDigitChars 10 digits 0
  if value < indexLimit then return value
  else refuse (.invalidIndex (String.ofList digits) start)

def quotedTurn (quote : Char) (out : List Char) : Scan (Turn (List Char) (Option (List Char))) := do
  match ← peek text with
  | some c =>
    advance c.utf8Size
    if c = quote then return .done (some out)
    else if c = '\\' then
      match ← peek text with
      | some escaped =>
        advance escaped.utf8Size
        return .again (out ++ Text.Quoted.unescape escaped)
      | none => return .done none
    else return .again (out ++ [c])
  | none => return .done none

def quoted : Scan String := do
  let start ← position
  match ← peek text with
  | some quote =>
    if isQuote quote then
      advance 1
      match ← repeated text (quotedTurn text quote) [] with
      | some out => return String.ofList out
      | none => refuse (.unterminated .stringLiteral start)
    else unexpected text .quotedString
  | none => unexpected text .quotedString

def equality : Scan Unit := do
  let here ← position
  if ← consumeText text ['=', '='] then return ()
  else
    let rest ← ahead text
    match unsupportedOperators.find? fun operator => operator.toList.isPrefixOf rest with
    | some operator => refuse (.unsupportedOperator operator here)
    | none => unexpected text .equality

def endField (field : String) : Scan Unit := do
  let next ← peek text
  if next = some '.' ∨ next = some '[' then
    let more ← takeWhile text fun c => !endsFieldPath c
    refuse (.unsupportedFieldPath (field ++ String.ofList more))
  else return ()

def filter : Scan Filter := do
  skipBlank text
  expect text '@' .currentNode
  expect text '.' .memberAccess
  let field ← name text
  endField text field
  skipBlank text
  equality text
  skipBlank text
  let literal ← quoted text
  skipBlank text
  return ⟨field, literal⟩

def predicate (opening : Nat) : Scan Segment := do
  expect text '(' .predicateOpening
  let filter ← filter text
  close text ')' .predicate opening .predicateClosing
  return .predicate filter

def bracketContent (opening : Nat) : Scan Segment := do
  match ← peek text with
  | none => refuse (.unterminated .bracket opening)
  | some c =>
    if c = '*' then
      discard (consume text '*')
      return .wildcard
    else if c = '?' then
      discard (consume text '?')
      predicate text opening
    else if isQuote c then .field <$> quoted text
    else if c.isDigit then .index <$> index text
    else unexpected text .bracketContent

def bracket : Scan Segment := do
  let opening ← position
  discard (consume text '[')
  skipBlank text
  let segment ← bracketContent text opening
  skipBlank text
  close text ']' .bracket opening .bracketClosing
  return segment

def descentTarget : Scan (List Segment) := do
  match ← peek text with
  | some c =>
    if c = '*' then
      discard (consume text '*')
      return [.wildcard]
    else if c = '[' then return []
    else if isNameChar c then (fun name => [.field name]) <$> name text
    else unexpected text .descentTarget
  | none => unexpected text .descentTarget

def segment : Scan (List Segment) := do
  if ← consumeText text ['.', '.'] then (fun target => .descent :: target) <$> descentTarget text
  else if ← consume text '.' then
    if ← consume text '*' then return [.wildcard]
    else (fun name => [.field name]) <$> name text
  else if (← peek text) = some '[' then (fun segment => [segment]) <$> bracket text
  else unexpected text .segment

def segmentTurn (segments : List Segment) : Scan (Turn (List Segment) (List Segment)) := do
  skipBlank text
  if ← atEnd text then return .done segments
  else (fun more => .again (segments ++ more)) <$> segment text

def path : Scan Path := do
  skipBlank text
  match ← peek text with
  | some found =>
    if found = '$' then
      discard (consume text '$')
      Path.mk <$> repeated text (segmentTurn text) [.root]
    else refuse (.missingRoot found)
  | none => refuse .empty

end Scanning

/-- Scans an expression from its first byte. -/
def scan (expression : String) : EStateM.Result Stop Scanner Path := (path expression.toList).run .start

end PathQuery.Proofs.ByteScanner
