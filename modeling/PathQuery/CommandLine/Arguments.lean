import PathQuery.Selection.Query

/-! What a command line asks for. Its words are taken one after the other, and the first of
them that is wrong, or that asks for help or for the version, settles it. -/

namespace PathQuery.CommandLine

inductive Switch where
  | encloses
  | first
  | json
deriving DecidableEq, Repr

inductive Setting where
  | format
  | logLevel
deriving DecidableEq, Repr

inductive UsageError where
  | unknown (word : String)
  | repeated (name : String)
  | valueMissing (name : String)
  | valueUnexpected (name : String)
  | formatUnknown (value : String)
  | fileNameEmpty
  | expressionMissing
deriving DecidableEq, Repr

structure Arguments where
  expression : Option String
  file : Option String
  format : Option (Option SourceFormat)
  logLevel : Option String
  switches : List Switch
deriving DecidableEq, Repr

/-- What to run. The log level is taken as it is; there are no messages to log. -/
structure Options where
  query : Query
  file : Option String
  json : Bool
  logLevel : String
deriving DecidableEq, Repr

inductive Request where
  | help
  | version
  | run (options : Options)
deriving DecidableEq, Repr

inductive Word where
  | operand (text : String)
  | separator
  | letters (first : Char)
  | long (name : String) (value : Option String)
deriving DecidableEq, Repr

namespace Switch

def name : Switch → String
  | .encloses => "encloses"
  | .first => "first"
  | .json => "json"

def ofName? (name : String) : Option Switch :=
  [encloses, first, json].find? fun option => option.name = name

end Switch

namespace Setting

def name : Setting → String
  | .format => "format"
  | .logLevel => "log-level"

def ofName? (name : String) : Option Setting :=
  [format, logLevel].find? fun option => option.name = name

end Setting

namespace UsageError

def message : UsageError → String
  | .unknown word => "unexpected argument '" ++ word ++ "'"
  | .repeated name => "the option '--" ++ name ++ "' cannot be used twice"
  | .valueMissing name => "the option '--" ++ name ++ "' needs a value"
  | .valueUnexpected name => "the option '--" ++ name ++ "' takes no value"
  | .formatUnknown value => "the format '" ++ value ++ "' is none of auto, yaml and json"
  | .fileNameEmpty => "the file name is empty"
  | .expressionMissing => "no expression is given"

end UsageError

namespace Word

/-- A dash alone is an operand. The value of a long option may follow an equals sign. -/
def ofString (text : String) : Word :=
  match text.toList with
  | ['-', '-'] => .separator
  | '-' :: '-' :: rest =>
    let value := match rest.dropWhile (· ≠ '=') with
      | _ :: value => some (String.ofList value)
      | [] => none
    .long (String.ofList (rest.takeWhile (· ≠ '='))) value
  | '-' :: letter :: _ => .letters letter
  | _ => .operand text

end Word

namespace Arguments

def empty : Arguments := ⟨none, none, none, none, []⟩

def addSwitch (option : Switch) (given : Arguments) : Except UsageError Arguments :=
  if option ∈ given.switches then .error (.repeated option.name)
  else .ok { given with switches := option :: given.switches }

/-- A format by its name; `auto` leaves it to the source. -/
def formatOfName? : String → Option (Option SourceFormat)
  | "auto" => some none
  | "yaml" => some (some .yaml)
  | "json" => some (some .json)
  | _ => none

def addSetting (option : Setting) (value : String) (given : Arguments) :
    Except UsageError Arguments :=
  match option with
  | .format =>
    match given.format, formatOfName? value with
    | _, none => .error (.formatUnknown value)
    | some _, _ => .error (.repeated option.name)
    | none, some format => .ok { given with format := some format }
  | .logLevel =>
    match given.logLevel with
    | some _ => .error (.repeated option.name)
    | none => .ok { given with logLevel := some value }

/-- The first operand is the expression, which may be empty, and the second the file. -/
def addOperand (text : String) (given : Arguments) : Except UsageError Arguments :=
  match given.expression, given.file with
  | none, _ => .ok { given with expression := some text }
  | some _, none =>
    if text = "" then .error .fileNameEmpty else .ok { given with file := some text }
  | some _, some _ => .error (.unknown text)

/-- The request of a whole command line. The format that the query takes is settled by the
file name. -/
def request (given : Arguments) : Except UsageError Request :=
  match given.expression with
  | none => .error .expressionMissing
  | some expression =>
    let mode := if .encloses ∈ given.switches then .encloses else .matches
    let format := SourceFormat.resolve given.format.join given.file
    .ok (.run {
      query := ⟨expression, mode, some format, .first ∈ given.switches⟩
      file := given.file
      json := .json ∈ given.switches
      logLevel := given.logLevel.getD "warn" })

/-- Takes the words that are left. Past a separator all of them are operands. -/
def readAll (given : Arguments) : List String → Except UsageError Request
  | [] => given.request
  | text :: rest =>
    match Word.ofString text with
    | .operand text => do readAll (← given.addOperand text) rest
    | .separator => do (← rest.foldlM (fun given text => given.addOperand text) given).request
    | .letters 'h' | .long "help" none => .ok .help
    | .letters 'V' | .long "version" none => .ok .version
    | .letters _ => .error (.unknown text)
    | .long name value =>
      match Switch.ofName? name, Setting.ofName? name, value with
      | some option, _, none => do readAll (← given.addSwitch option) rest
      | some _, _, some _ => .error (.valueUnexpected name)
      | none, some option, some value => do readAll (← given.addSetting option value) rest
      | none, some option, none =>
        match rest with
        | [] => .error (.valueMissing name)
        | value :: rest =>
          match Word.ofString value with
          | .operand value => do readAll (← given.addSetting option value) rest
          | _ => .error (.valueMissing name)
      | none, none, _ => .error (.unknown text)

end Arguments

namespace Request

def ofArguments (words : List String) : Except UsageError Request := Arguments.empty.readAll words

end Request
end PathQuery.CommandLine
