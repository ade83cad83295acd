import PathQuery.Expression.Compile
import PathQuery.Selection.Matching
import PathQuery.Source

/-! The elements a path picks out of a document, in document order, and the reports on
them. What a path does not enclose is never entered. A query puts an expression to a whole
source. The expression is compiled before the source is loaded, so its error wins over that
of the source. -/

namespace PathQuery

structure Hit where
  location : String
  element : Element
deriving DecidableEq

structure Report where
  document : Nat
  location : String
  kind : String
  value : Option String
deriving DecidableEq, Repr

namespace Hit

/-- A document or an entry is reported by its value, a bare value by its kind alone. -/
def report (hit : Hit) (document : Nat) : Report :=
  let value := hit.element.value?
  ⟨document, hit.location, (value.map Node.kind).getD hit.element.kind, value.map Node.summary⟩

end Hit

namespace Path

/-- Raised by a visitor that has found as many hits as were asked for. -/
inductive LimitReached where
  | mk

/-- Keeps the hits of a walk: matches, or all keyed elements that are enclosed. -/
def collector (path : Path) (mode : Mode) (limit : Option Nat) : Visitor (List Hit) LimitReached :=
  fun trail => do
    if !path.encloses trail then return .skip
    let hit := match mode with
      | .matches => path.isMatch trail
      | .encloses => trail.atStep
    match hit, trail.current? with
    | true, some element =>
      modify (· ++ [⟨trail.location, element⟩])
      let found ← get
      if limit.any (· ≤ found.length) then throw .mk
    | _, _ => pure ()
    return .descend

/-- The hits in one of a list of documents, no more than the limit. -/
def collect (path : Path) (mode : Mode) (limit : Option Nat) (document : Nat) (root : Node) :
    List Hit :=
  (((path.collector mode limit).walk document root).run []).2

/-- Every keyed element that matches. -/
def select (path : Path) (root : Node) : List Hit := path.collect .matches none 0 root

/-- Every keyed element on the way to a match, at one, or below one. -/
def selectEnclosing (path : Path) (root : Node) : List Hit := path.collect .encloses none 0 root

/-- The reports on several documents in their order; `first` asks for a single one. -/
def reports (path : Path) (mode : Mode) (first : Bool) (documents : List Node) : List Report :=
  go 0 documents
where
  go (number : Nat) : List Node → List Report
    | [] => []
    | root :: documents =>
      let limit := if first then some 1 else none
      let found := (path.collect mode limit number root).map fun hit => hit.report number
      if first && !found.isEmpty then found else found ++ go (number + 1) documents

end Path

/-- With `first`, a query stops at its first hit. -/
structure Query where
  expression : String
  mode : Mode
  format : Option SourceFormat
  first : Bool
deriving DecidableEq, Repr

inductive QueryError (ε δ : Type) where
  | expression (error : SyntaxError Nat)
  | source (error : LoadError ε δ)
deriving DecidableEq, Repr

def QueryError.message {ε δ : Type} [ToString ε] [ToString δ] : QueryError ε δ → String
  | .expression error => "parse error: " ++ error.message
  | .source error => error.message

/-- The reports on every document of a source, in document order. A query without a format
takes the one of a source without a name. -/
def Query.run {ε δ : Type} (query : Query) (codecs : Codecs ε δ) (source : String) :
    Except (QueryError ε δ) (List Report) := do
  let path ← (Path.compile query.expression).mapError .expression
  let format := SourceFormat.resolve query.format none
  let documents ← (format.load codecs source).mapError .source
  return path.reports query.mode query.first documents

end PathQuery
