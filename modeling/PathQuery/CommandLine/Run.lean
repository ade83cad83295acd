import PathQuery.CommandLine.Arguments
import PathQuery.CommandLine.Folder
import PathQuery.Json.Pretty

/-! Runs of the command line: what they print, and the status they end with. The source is
read before anything else is looked at, so that a failure to read it comes first. -/

namespace PathQuery

namespace Report

def line (report : Report) : String :=
  match report.value with
  | some value => report.location ++ ": " ++ value ++ "\n"
  | none => report.location ++ "\n"

def toJson (report : Report) : Json.Value :=
  .object ([
    ("document", .number (.integer report.document)),
    ("location", .string report.location),
    ("kind", .string report.kind)] ++
    (report.value.map fun value => ("value", Json.Value.string value)).toList)

end Report

namespace CommandLine

structure Outcome where
  status : UInt32
  output : String
  errors : String
deriving DecidableEq, Repr

inductive Failure (ε δ : Type) where
  | read (error : ReadError)
  | query (error : QueryError ε δ)
deriving DecidableEq, Repr

def versionText : String := "json-path-matcher 0.1.0\n"

def usageText : String := "Usage: jpm [OPTIONS] <EXPRESSION> [FILE]\n"

def helpText : String :=
  "Runs a path expression against a YAML or JSON document\n\n" ++ usageText ++ "\n" ++
  "  <EXPRESSION>         The path, such as $..name\n" ++
  "  [FILE]               The document; standard input if it is left out\n" ++
  "  --format <FORMAT>    The format of the document: auto, yaml or json\n" ++
  "  --encloses           List all that is on the way to a match, not the matches\n" ++
  "  --first              List the first hit only\n" ++
  "  --json               Print an array of hits\n" ++
  "  --log-level <LEVEL>  The log level\n" ++
  "  -h, --help           Print this help\n" ++
  "  -V, --version        Print the version\n"

section Running
variable {ε δ : Type}

namespace Failure

def message [ToString ε] [ToString δ] : Failure ε δ → String
  | .read error => "i/o error: " ++ error.message
  | .query error => error.message

end Failure

namespace Outcome

def printed (output : String) : Outcome := ⟨0, output, ""⟩

def failed [ToString ε] [ToString δ] (failure : Failure ε δ) : Outcome := ⟨1, "", failure.message ++ "\n"⟩

def refused (error : UsageError) : Outcome :=
  ⟨2, "", "error: " ++ error.message ++ "\n\n" ++ usageText⟩

end Outcome

namespace Options

def render (options : Options) (reports : List Report) : String :=
  if options.json then (Json.Value.array (reports.map Report.toJson)).pretty ++ "\n"
  else String.join (reports.map Report.line)

/-- Runs the query on what was read, if that is text. -/
def answer (options : Options) (codecs : Codecs ε δ) (source : Except ReadError ByteArray) :
    Except (Failure ε δ) (List Report) := do
  let content ← source.mapError .read
  match String.fromUTF8? content with
  | none => .error (.read .notText)
  | some text => (options.query.run codecs text).mapError .query

def outcome [ToString ε] [ToString δ] (options : Options) (codecs : Codecs ε δ)
    (source : Except ReadError ByteArray) : Outcome :=
  match options.answer codecs source with
  | .ok reports => .printed (options.render reports)
  | .error failure => .failed failure

end Options

/-- Runs a command line. `read` gives the content of a file, or with no name that of
standard input, and is called at most once. -/
def run {m : Type → Type} [Monad m] [ToString ε] [ToString δ] (codecs : Codecs ε δ)
    (read : Option String → m (Except ReadError ByteArray)) (words : List String) : m Outcome :=
  match Request.ofArguments words with
  | .error error => pure (.refused error)
  | .ok .help => pure (.printed helpText)
  | .ok .version => pure (.printed versionText)
  | .ok (.run options) => do
    let source ← read options.file
    pure (options.outcome codecs source)

end Running
end CommandLine
end PathQuery
