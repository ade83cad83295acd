import PathQuery.Json.Number
import PathQuery.Text

/-! The tokens of JSON text. -/

namespace PathQuery.Json

inductive Token where
  | arrayOpen
  | arrayClose
  | objectOpen
  | objectClose
  | comma
  | colon
  | null
  | bool (value : Bool)
  | number (value : Number)
  | string (value : String)
deriving DecidableEq

namespace Token

def isBlank (c : Char) : Bool := c == ' ' || c == '\t' || c == '\n' || c == '\r'

def hexFour? (a b c d : Char) : Option Nat := do
  let a ← Text.hexDigit? a
  let b ← Text.hexDigit? b
  let c ← Text.hexDigit? c
  let d ← Text.hexDigit? d
  return ((a * 16 + b) * 16 + c) * 16 + d

def unescape? : Char → Option Char
  | '"' => some '"'
  | '\\' => some '\\'
  | '/' => some '/'
  | 'b' => some '\x08'
  | 'f' => some '\x0c'
  | 'n' => some '\n'
  | 'r' => some '\r'
  | 't' => some '\t'
  | _ => none

def isHighSurrogate (code : Nat) : Bool := 0xD800 ≤ code && code < 0xDC00

def isLowSurrogate (code : Nat) : Bool := 0xDC00 ≤ code && code < 0xE000

/-- The character of a pair of surrogates. -/
def joinSurrogates (high low : Nat) : Char :=
  Char.ofNat (0x10000 + (high - 0xD800) * 0x400 + (low - 0xDC00))

/-- What follows the `u` of an escape: a character, or two escapes that form one. -/
def readUnicode? : List Char → Option (Char × List Char)
  | a :: b :: c :: d :: rest => do
    let code ← hexFour? a b c d
    if isLowSurrogate code then none
    else if isHighSurrogate code then
      match rest with
      | '\\' :: 'u' :: e :: f :: g :: h :: rest => do
        let low ← hexFour? e f g h
        if isLowSurrogate low then some (joinSurrogates code low, rest) else none
      | _ => none
    else some (Char.ofNat code, rest)
  | _ => none

theorem readUnicode?_length {text rest : List Char} {c : Char}
    (done : readUnicode? text = some (c, rest)) : rest.length < text.length := by
  unfold readUnicode? at done
  split at done
  · obtain ⟨_, _, done⟩ := Option.bind_eq_some_iff.1 done
    split at done
    · cases done
    · split at done
      · split at done
        · obtain ⟨_, _, done⟩ := Option.bind_eq_some_iff.1 done
          split at done
          · simp only [Option.some.injEq, Prod.mk.injEq] at done
            obtain ⟨_, rfl⟩ := done
            simp only [List.length_cons]; omega
          · cases done
        · cases done
      · simp only [Option.some.injEq, Prod.mk.injEq] at done
        obtain ⟨_, rfl⟩ := done
        simp only [List.length_cons]; omega
  · cases done

/-- Reads up to the closing quote; `taken` holds what was read, last character first. -/
def readString? (taken : List Char) (text : List Char) : Option (List Char × List Char) :=
  match text with
  | [] => none
  | '"' :: rest => some (taken.reverse, rest)
  | '\\' :: 'u' :: rest =>
    match _read : readUnicode? rest with
    | some (c, rest) => readString? (c :: taken) rest
    | none => none
  | '\\' :: escaped :: rest =>
    match unescape? escaped with
    | some c => readString? (c :: taken) rest
    | none => none
  | c :: rest => if c.toNat < 0x20 ∨ c = '\\' then none else readString? (c :: taken) rest
termination_by text.length
decreasing_by
  · have := readUnicode?_length _read; simp only [List.length_cons]; omega
  · simp only [List.length_cons]; omega
  · simp only [List.length_cons]; omega

theorem readString?_length {taken text content rest : List Char}
    (done : readString? taken text = some (content, rest)) : rest.length < text.length := by
  fun_induction readString? taken text with
  | case1 => cases done
  | case2 => cases done; simp
  | case3 _ _ _ _ read step =>
    have := step done
    have := readUnicode?_length read
    simp only [List.length_cons]; omega
  | case4 => cases done
  | case5 _ _ _ _ _ _ step => have := step done; simp only [List.length_cons]; omega
  | case6 => cases done
  | case7 => cases done
  | case8 _ _ _ _ _ _ _ step => have := step done; simp only [List.length_cons]; omega

/-- Reads the token a text that does not start with a blank begins with. -/
def read? (text : List Char) : Option (Token × List Char) :=
  match text with
  | '[' :: rest => some (.arrayOpen, rest)
  | ']' :: rest => some (.arrayClose, rest)
  | '\x7b' :: rest => some (.objectOpen, rest)
  | '\x7d' :: rest => some (.objectClose, rest)
  | ',' :: rest => some (.comma, rest)
  | ':' :: rest => some (.colon, rest)
  | '"' :: rest => (readString? [] rest).map fun (content, rest) => (.string (String.ofList content), rest)
  | 'n' :: 'u' :: 'l' :: 'l' :: rest => some (.null, rest)
  | 't' :: 'r' :: 'u' :: 'e' :: rest => some (.bool true, rest)
  | 'f' :: 'a' :: 'l' :: 's' :: 'e' :: rest => some (.bool false, rest)
  | _ => do
    let (literal, rest) ← Literal.read? text
    let value ← literal.number?
    return (.number value, rest)

theorem read?_length {text rest : List Char} {token : Token}
    (done : read? text = some (token, rest)) : rest.length < text.length := by
  unfold read? at done
  split at done
  case h_7 =>
    obtain ⟨⟨_, _⟩, content, same⟩ := Option.map_eq_some_iff.1 done
    cases same
    have := readString?_length content
    simp only [List.length_cons]; omega
  case h_11 =>
    obtain ⟨⟨_, _⟩, literal, done⟩ := Option.bind_eq_some_iff.1 done
    obtain ⟨_, _, done⟩ := Option.bind_eq_some_iff.1 done
    cases done
    exact Literal.read?_length literal
  all_goals cases done; simp only [List.length_cons]; omega

def split? (text : List Char) : Option (List Token) :=
  let here := text.dropWhile isBlank
  if here = [] then some []
  else
    match _read : read? here with
    | some (token, rest) => (token :: ·) <$> split? rest
    | none => none
termination_by text.length
decreasing_by
  have := read?_length _read
  have := (List.dropWhile_suffix isBlank (l := text)).length_le
  simp only [here] at *
  omega

end Token
end PathQuery.Json
