import PathQuery.Expression.Reader

/-! Compiling an expression to a path. A compiled expression remembers its text. -/

namespace PathQuery

namespace Path
open Expression

/-- The segments after the root, up to the end of the text. -/
def readRest (text : List Char) : Except (SyntaxError (List Char)) (List Segment) :=
  let here := dropBlank text
  if here = [] then .ok []
  else
    match _found : readSegments here with
    | .ok (segments, rest) => do
      let more ← readRest rest
      .ok (segments ++ more)
    | .error error => .error error
termination_by text.length
decreasing_by
  obtain ⟨c, after, same, shorter⟩ := readSegments_suffix _found
  have lengthHere := (dropBlank_suffix text).length_le
  have lengthRest := shorter.length_le
  simp only [here] at same
  rw [same, List.length_cons] at lengthHere
  omega

/-- Reads a path, giving places in errors as the text from there on. -/
def read (text : List Char) : Except (SyntaxError (List Char)) Path :=
  match dropBlank text with
  | [] => .error .empty
  | '$' :: rest => do
    let segments ← readRest rest
    .ok ⟨.root :: segments⟩
  | found :: _ => .error (.missingRoot found)

/-- The length of a text in UTF-8 bytes. -/
def byteLength : List Char → Nat
  | [] => 0
  | c :: text => c.utf8Size + byteLength text

/-- Compiles an expression. The offset of a place is the length of the expression less
that of the text from the place on. -/
def compile (expression : String) : Except (SyntaxError Nat) Path :=
  let text := expression.toList
  (read text).mapError (SyntaxError.map fun rest => byteLength text - byteLength rest)

end Path

structure Expression where
  text : String
  path : Path
deriving DecidableEq, Repr

namespace Expression

def compile (text : String) : Except (SyntaxError Nat) Expression := do
  let path ← Path.compile text
  .ok ⟨text, path⟩

end Expression
end PathQuery
