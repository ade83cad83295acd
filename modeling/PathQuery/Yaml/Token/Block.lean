import PathQuery.Yaml.Token

/-! Literal and folded block scalars: a header with hints on the indentation and on the
breaks at the end, then lines at one indentation. -/

namespace PathQuery.Yaml.Block

inductive Chomping where
  | strip
  | clip
  | keep
deriving DecidableEq, Repr

def chomping? : Char → Option Chomping
  | '+' => some .keep
  | '-' => some .strip
  | _ => none

/-- An indentation hint is a digit other than zero; zero stands here for no hint. -/
def readIndent? (text : List Glyph) : Option (Nat × List Glyph) :=
  match text with
  | glyph :: rest =>
    if glyph.char.isDigit then
      if glyph.char = '0' then none else some (glyph.char.toNat - '0'.toNat, rest)
    else some (0, text)
  | [] => some (0, [])

/-- The two hints come in either order. -/
def readHints? (text : List Glyph) : Option (Chomping × Nat × List Glyph) :=
  match chomping? (Glyph.peek text 0) with
  | some chomping => do
    let (indent, rest) ← readIndent? (text.drop 1)
    return (chomping, indent, rest)
  | none => do
    let (indent, rest) ← readIndent? text
    match if indent = 0 then none else chomping? (Glyph.peek rest 0) with
    | some chomping => return (chomping, indent, rest.drop 1)
    | none => return (.clip, indent, rest)

/-- Reads indentation and empty lines. While `indent` is zero it is not known yet and all
spaces count; `widest` is the widest indentation so far. A tab in the place of
indentation is refused. -/
def readBreaks? (indent widest : Nat) (breaks : List Char) :
    List Glyph → Option (List Char × Nat × List Glyph)
  | [] => some (breaks.reverse, widest, [])
  | glyph :: rest =>
    let indenting := indent == 0 || glyph.column < indent
    if indenting && glyph.char == ' ' then readBreaks? indent widest breaks rest
    else if indenting && glyph.char == '\t' then none
    else
      let widest := max widest glyph.column
      if isBreak glyph.char then readBreaks? indent widest (glyph.char :: breaks) rest
      else some (breaks.reverse, widest, glyph :: rest)

theorem readBreaks?_length {indent widest widest' : Nat} {breaks breaks' : List Char}
    {text rest : List Glyph} (done : readBreaks? indent widest breaks text = some (breaks', widest', rest)) :
    rest.length ≤ text.length := by
  induction text generalizing widest breaks with
  | nil => cases done; exact Nat.le_refl _
  | cons glyph text step =>
    simp only [readBreaks?] at done
    split at done
    · exact Nat.le_succ_of_le (step done)
    · split at done
      · cases done
      · split at done
        · exact Nat.le_succ_of_le (step done)
        · cases done; exact Nat.le_refl _

/-- The text so far, with what may still be folded: the break of the last line, the empty
lines after it, and whether that line started with a blank. -/
structure Progress where
  taken : List Char
  lastBreak : List Char
  emptyLines : List Char
  startedBlank : Bool

/-- A folded break between two lines that both start with a word becomes a space, or
nothing if empty lines follow it. -/
def join (folded startsBlank : Bool) (progress : Progress) : List Char :=
  let between :=
    if folded && progress.lastBreak = ['\n'] && !progress.startedBlank && !startsBlank then
      if progress.emptyLines = [] then [' '] else []
    else progress.lastBreak
  progress.emptyLines.reverse ++ (between.reverse ++ progress.taken)

def readLines? (folded : Bool) (indent : Nat) (progress : Progress) (text : List Glyph) :
    Option (Progress × List Glyph) :=
  match text with
  | [] => some (progress, [])
  | glyph :: rest =>
    if glyph.column = indent ∧ glyph.char ≠ endMark then
      let startsBlank := isBlank glyph.char
      let line := rest.takeWhile fun glyph => !isBreakOrEnd glyph.char
      let ended := rest.dropWhile fun glyph => !isBreakOrEnd glyph.char
      let taken := (line.map Glyph.char).reverse ++ (glyph.char :: join folded startsBlank progress)
      let lastBreak := if isBreak (Glyph.peek ended 0) then [Glyph.peek ended 0] else []
      match _read : readBreaks? indent 0 [] (ended.drop lastBreak.length) with
      | some (emptyLines, _, after) =>
        readLines? folded indent ⟨taken, lastBreak, emptyLines, startsBlank⟩ after
      | none => none
    else some (progress, text)
termination_by text.length
decreasing_by
  have := readBreaks?_length _read
  have shorter := (List.dropWhile_suffix (fun glyph : Glyph => !isBreakOrEnd glyph.char) (l := rest)).length_le
  simp only [List.length_drop, List.length_cons, ended] at *
  omega

/-- Reads what follows the indicator of a block. `parent` is the indentation of the
collection the block stands in. -/
def read? (folded : Bool) (parent : Int) (text : List Glyph) :
    Option (List Char × List Glyph) := do
  let (chomping, hint, text) ← readHints? text
  let text ← Glyph.endLine? text
  let wanted := if hint = 0 then 0 else (max parent 0 + hint).toNat
  let (emptyLines, widest, text) ← readBreaks? wanted 0 [] text
  let indent := if wanted = 0 then max (max (widest : Int) (parent + 1)) 1 |>.toNat else wanted
  let (progress, text) ← readLines? folded indent ⟨[], [], emptyLines, false⟩ text
  let ending := match chomping with
    | .strip => []
    | .clip => progress.lastBreak
    | .keep => progress.lastBreak ++ progress.emptyLines
  return (progress.taken.reverse ++ ending, text)

end PathQuery.Yaml.Block
