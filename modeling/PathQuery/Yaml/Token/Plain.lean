import PathQuery.Yaml.Token

/-! Plain scalars. They end at a colon before a blank, at a comment, and where the
indentation ends; within flow collections also at the characters that delimit those. -/

namespace PathQuery.Yaml.Plain

/-- A plain scalar, the text after it and the blanks that follow, and whether a line ended
among those. -/
structure Result where
  text : List Char
  rest : List Glyph
  lineEnded : Bool

def isFlowDelimiter (c : Char) : Bool :=
  c == ',' || c == '[' || c == ']' || c == '\x7b' || c == '\x7d'

/-- Whether a colon here stands right before a flow delimiter, which is refused. -/
def isMisplacedColon (text : List Glyph) : Bool :=
  Glyph.peek text 0 == ':' && (isFlowDelimiter (Glyph.peek text 1) || Glyph.peek text 1 == '?')

def endsWord (inFlow : Bool) (text : List Glyph) : Bool :=
  let c := Glyph.peek text 0
  (c == ':' && isBlankOrEnd (Glyph.peek text 1)) || (inFlow && isFlowDelimiter c)

/-- Whether the scalar ends before a word after white space. -/
def endsScalar (inFlow : Bool) (indent : Int) (text : List Glyph) : Bool :=
  match text with
  | glyph :: _ =>
    Glyph.isDocumentMarker text || glyph.char == '#' || (!inFlow && (glyph.column : Int) < indent)
  | [] => true

/-- Reads on from within a scalar. `indent` is the least column at which its lines may
start; a tab before it is refused once a line has ended. -/
def read? (inFlow : Bool) (indent : Int) (taken : List Char) (spacing : Spacing) :
    List Glyph → Option Result
  | [] => some ⟨taken.reverse, [], spacing.isLines⟩
  | glyph :: rest =>
    let c := glyph.char
    if isBlank c then
      if spacing.isLines && c == '\t' && (glyph.column : Int) < indent then none
      else read? inFlow indent taken (spacing.addBlank c) rest
    else if isBreak c then read? inFlow indent taken (spacing.addBreak c) rest
    else if c = endMark ∨ (!spacing.isNone && endsScalar inFlow indent (glyph :: rest)) then
      some ⟨taken.reverse, glyph :: rest, spacing.isLines⟩
    else if inFlow && isMisplacedColon (glyph :: rest) then none
    else if endsWord inFlow (glyph :: rest) then
      some ⟨taken.reverse, glyph :: rest, spacing.isLines⟩
    else read? inFlow indent (c :: (spacing.text.reverse ++ taken)) .none rest

end PathQuery.Yaml.Plain
