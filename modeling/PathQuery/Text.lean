/-! White space, digits and quotes in text. White space is what has the Unicode property
White_Space. -/

namespace PathQuery.Text

def isBlank (c : Char) : Bool :=
  let code := c.toNat
  (0x9 ≤ code && code ≤ 0xD) || code == 0x20 || code == 0x85 || code == 0xA0 || code == 0x1680 ||
    (0x2000 ≤ code && code ≤ 0x200A) || code == 0x2028 || code == 0x2029 || code == 0x202F ||
    code == 0x205F || code == 0x3000

def trimEnd (text : String) : String :=
  String.ofList (text.toList.reverse.dropWhile isBlank).reverse

/-- The value of a hexadecimal digit in either case. -/
def hexDigit? (c : Char) : Option Nat :=
  if '0' ≤ c ∧ c ≤ '9' then some (c.toNat - '0'.toNat)
  else if 'a' ≤ c ∧ c ≤ 'f' then some (c.toNat - 'a'.toNat + 10)
  else if 'A' ≤ c ∧ c ≤ 'F' then some (c.toNat - 'A'.toNat + 10)
  else none

/-! Quoted text. Writing puts a backslash before each backslash and each single quote;
reading takes the named escapes and keeps any other backslash pair as it stands. -/

namespace Quoted

def escapeChars : List Char → List Char
  | [] => []
  | '\\' :: rest => '\\' :: '\\' :: escapeChars rest
  | '\'' :: rest => '\\' :: '\'' :: escapeChars rest
  | c :: rest => c :: escapeChars rest

/-- The text as it stands between single quotes. -/
def escape (text : String) : String := String.ofList (escapeChars text.toList)

/-- The characters a backslash and `c` stand for together. -/
def unescape (c : Char) : List Char :=
  match c with
  | 'n' => ['\n']
  | 't' => ['\t']
  | 'r' => ['\r']
  | '\\' => ['\\']
  | '"' => ['"']
  | '\'' => ['\'']
  | other => ['\\', other]

/-- Reads up to the closing quote: the characters meant and what follows the quote, or
nothing if the quote is never closed. -/
def read? (quote : Char) : List Char → Option (List Char × List Char)
  | [] => none
  | c :: rest =>
    if c = quote then some ([], rest)
    else if c = '\\' then
      match rest with
      | [] => none
      | escaped :: rest =>
        (read? quote rest).map fun (text, after) => (unescape escaped ++ text, after)
    else (read? quote rest).map fun (text, after) => (c :: text, after)

end Quoted
end PathQuery.Text
