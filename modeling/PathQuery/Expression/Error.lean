/-! Why an expression is not a path, and how it is said. While an expression is read, a
place in it is the text from there on; in an answer it is a byte offset. -/

namespace PathQuery

/-- What would have to stand where something else was found. -/
inductive Expected where
  | segment
  | descentTarget
  | fieldName
  | bracketContent
  | predicateOpening
  | predicateClosing
  | bracketClosing
  | currentNode
  | memberAccess
  | equality
  | index
  | quotedString
deriving DecidableEq, Repr

namespace Expected

def text : Expected → String
  | .segment => "`.`, `..` or `[`"
  | .descentTarget => "a name, `*` or `[` after `..`"
  | .fieldName => "a field name"
  | .bracketContent => "`*`, `?(`, an index or a quoted name"
  | .predicateOpening => "`(` after `?`"
  | .predicateClosing => "`)`"
  | .bracketClosing => "`]`"
  | .currentNode => "`@` to open a predicate field"
  | .memberAccess => "`.` after `@`"
  | .equality => "`==`"
  | .index => "an index"
  | .quotedString => "a quoted string"

end Expected

/-- What can be opened and not closed. -/
inductive Construct where
  | bracket
  | predicate
  | stringLiteral
deriving DecidableEq, Repr

namespace Construct

def text : Construct → String
  | .bracket => "bracket"
  | .predicate => "predicate"
  | .stringLiteral => "string literal"

end Construct

inductive SyntaxError (Position : Type) where
  | empty
  | missingRoot (found : Char)
  | unterminated (construct : Construct) (opening : Position)
  | unexpectedToken (found : Char) (position : Position) (expected : Expected)
  | unexpectedEnd (expected : Expected)
  | unsupportedOperator (operator : String) (position : Position)
  | unsupportedFieldPath (path : String)
  | invalidIndex (text : String) (position : Position)
deriving DecidableEq, Repr

namespace SyntaxError

def map {α β : Type} (place : α → β) : SyntaxError α → SyntaxError β
  | .empty => .empty
  | .missingRoot found => .missingRoot found
  | .unterminated construct opening => .unterminated construct (place opening)
  | .unexpectedToken found position expected => .unexpectedToken found (place position) expected
  | .unexpectedEnd expected => .unexpectedEnd expected
  | .unsupportedOperator operator position => .unsupportedOperator operator (place position)
  | .unsupportedFieldPath path => .unsupportedFieldPath path
  | .invalidIndex text position => .invalidIndex text (place position)

/-- The error for whatever stands at the start of `rest`. -/
def unexpected (expected : Expected) (rest : List Char) : SyntaxError (List Char) :=
  match rest with
  | found :: _ => .unexpectedToken found rest expected
  | [] => .unexpectedEnd expected

def message : SyntaxError Nat → String
  | .empty => "path expression is empty"
  | .missingRoot found => "path must start with `$`, found `" ++ found.toString ++ "`"
  | .unterminated construct opening =>
    "unterminated " ++ construct.text ++ " starting at position " ++ toString opening
  | .unexpectedToken found position expected =>
    "unexpected `" ++ found.toString ++ "` at position " ++ toString position ++ ", expected " ++
      expected.text
  | .unexpectedEnd expected => "unexpected end of expression, expected " ++ expected.text
  | .unsupportedOperator operator position =>
    "unsupported predicate operator `" ++ operator ++ "` at position " ++ toString position
  | .unsupportedFieldPath path => "nested predicate field `@." ++ path ++ "` is not supported"
  | .invalidIndex text position =>
    "invalid sequence index `" ++ text ++ "` at position " ++ toString position

end SyntaxError
end PathQuery
