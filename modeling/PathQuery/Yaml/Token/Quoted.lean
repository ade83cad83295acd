import PathQuery.Yaml.Token

/-! Scalars in single or double quotes. A single quote is written twice between single
quotes; between double quotes a backslash begins an escape. -/

namespace PathQuery.Yaml.Quoted

def unescape? : Char → Option Char
  | '0' => some '\x00'
  | 'a' => some '\x07'
  | 'b' => some '\x08'
  | 't' | '\t' => some '\t'
  | 'n' => some '\n'
  | 'v' => some '\x0b'
  | 'f' => some '\x0c'
  | 'r' => some '\r'
  | 'e' => some '\x1b'
  | ' ' => some ' '
  | '"' => some '"'
  | '/' => some '/'
  | '\\' => some '\\'
  | 'N' => some '\u0085'
  | '_' => some '\u00a0'
  | 'L' => some '\u2028'
  | 'P' => some '\u2029'
  | _ => none

/-- How many hexadecimal digits follow an escape that gives a code point. -/
def codeLength? : Char → Option Nat
  | 'x' => some 2
  | 'u' => some 4
  | 'U' => some 8
  | _ => none

def hexNumber? (text : List Glyph) : Option Nat :=
  text.foldlM (fun value glyph => (Text.hexDigit? glyph.char).map (value * 16 + ·)) 0

def character? (code : Nat) : Option Char := if code.isValidChar then some (Char.ofNat code) else none

/-- Reads up to the closing quote. `taken` holds the text so far, last character first,
and `spacing` the white space that follows it. -/
def read? (quote : Char) (taken : List Char) (spacing : Spacing) (text : List Glyph) :
    Option (List Char × List Glyph) :=
  match text with
  | [] => none
  | glyph :: rest =>
    let c := glyph.char
    if c = endMark ∨ Glyph.isDocumentMarker text then none
    else if isBlank c then read? quote taken (spacing.addBlank c) rest
    else if isBreak c then read? quote taken (spacing.addBreak c) rest
    else
      let taken := spacing.text.reverse ++ taken
      if c = quote then
        match rest with
        | next :: after =>
          if quote = '\'' ∧ next.char = quote then read? quote (quote :: taken) .none after
          else some (taken.reverse, rest)
        | [] => some (taken.reverse, rest)
      else if quote = '"' ∧ c = '\\' then
        match rest with
        | [] => none
        | escaped :: after =>
          if isBreak escaped.char then read? quote taken (.lines [] []) after
          else
            match unescape? escaped.char with
            | some meant => read? quote (meant :: taken) .none after
            | none => do
              let length ← codeLength? escaped.char
              let digits := after.take length
              let meant ← character? (← hexNumber? digits)
              if digits.length < length then none
              else read? quote (meant :: taken) .none (after.drop length)
      else read? quote (c :: taken) .none rest
termination_by text.length
decreasing_by all_goals simp only [List.length_cons, List.length_drop]; omega

end PathQuery.Yaml.Quoted
