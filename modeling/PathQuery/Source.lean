import PathQuery.Json.Value
import PathQuery.Tree.Node
import PathQuery.Yaml.Printed.Block
import PathQuery.Yaml.Value.Read

/-! Sources: the formats a document can be in, and the documents that a source holds. What a
format gives, its reader, its printer and the texts of its numbers, is a parameter. Those
that come with the library stand at the end. -/

namespace PathQuery

inductive SourceFormat where
  | yaml
  | json
deriving DecidableEq, Repr

namespace FileName

/-- The parts of a file name between slashes. Empty parts and `.` lead nowhere and are
left out. -/
def components (path : String) : List String :=
  (path.toList.splitOn '/').map String.ofList |>.filter fun part => part ≠ "" ∧ part ≠ "."

/-- What follows the last dot of the last component. A dot at its start begins no
extension, and `..` has none. -/
def extension? (path : String) : Option String :=
  match (components path).getLast? with
  | none | some ".." => none
  | some name =>
    let reversed := name.toList.reverse
    match reversed.dropWhile (· ≠ '.') with
    | _ :: _ :: _ => some (String.ofList (reversed.takeWhile (· ≠ '.')).reverse)
    | _ => none

end FileName

namespace SourceFormat

/-- A file is JSON if its extension is `json` in any ASCII case. Any other source is
YAML. -/
def ofFileName (path : Option String) : SourceFormat :=
  match path.bind FileName.extension? with
  | some extension => if extension.map Char.toLower = "json" then .json else .yaml
  | none => .yaml

/-- A format that was asked for wins over the file name. -/
def resolve (asked : Option SourceFormat) (path : Option String) : SourceFormat :=
  asked.getD (ofFileName path)

end SourceFormat

/-- How values are written: a collection may be refused, and a number always has a text. -/
structure Yaml.Printer (ε : Type) where
  print : Yaml.Value → Except ε String
  numberText : Yaml.Number → String

/-- The documents of a stream are read one by one, each to a value or an error of its own. -/
structure Yaml.Codec (ε : Type) extends Yaml.Printer ε where
  documents : String → List (Except ε Yaml.Value)

structure Json.Codec (δ : Type) where
  read : String → Except δ Json.Value
  numberText : Json.Number → String

/-- What both formats give, each with errors of its own. -/
structure Codecs (ε δ : Type) where
  yaml : Yaml.Codec ε
  json : Json.Codec δ

namespace Node
variable {ε : Type}

def ofBool (value : Bool) : Node := .plain (if value then "true" else "false")

mutual
/-- The document a JSON value stands for. Strings are quoted scalars; every other scalar is
plain and keeps its text. -/
def ofJson (numberText : Json.Number → String) : Json.Value → Node
  | .null => .plain "null"
  | .bool value => ofBool value
  | .number value => .plain (numberText value)
  | .string value => .scalar ⟨value, .doubleQuoted⟩
  | .array items => .sequence (ofJsonItems numberText items)
  | .object members => .mapping (ofJsonMembers numberText members)

def ofJsonItems (numberText : Json.Number → String) : List Json.Value → List Node
  | [] => []
  | item :: items => ofJson numberText item :: ofJsonItems numberText items

def ofJsonMembers (numberText : Json.Number → String) : List (String × Json.Value) → List (String × Node)
  | [] => []
  | (key, value) :: members => (key, ofJson numberText value) :: ofJsonMembers numberText members
end

/-- The text of a key. A collection is printed, and the white space at its end is dropped. -/
def keyText (printer : Yaml.Printer ε) : Yaml.Value → Except ε String
  | .null => .ok "null"
  | .bool value => .ok (Yaml.Value.boolText value)
  | .number value => .ok (printer.numberText value)
  | .string text => .ok text
  | .tagged _ value => keyText printer value
  | .sequence items => (printer.print (.sequence items)).map Text.trimEnd
  | .mapping entries => (printer.print (.mapping entries)).map Text.trimEnd

mutual
/-- The document a YAML value stands for. Tags are left out, all scalars are plain, and
every key becomes text. -/
def ofYaml (printer : Yaml.Printer ε) : Yaml.Value → Except ε Node
  | .null => .ok (.plain "null")
  | .bool value => .ok (.plain (Yaml.Value.boolText value))
  | .number value => .ok (.plain (printer.numberText value))
  | .string text => .ok (.plain text)
  | .tagged _ value => ofYaml printer value
  | .sequence items => do return .sequence (← ofYamlItems printer items)
  | .mapping entries => do return .mapping (← ofYamlEntries printer entries)

def ofYamlItems (printer : Yaml.Printer ε) : List Yaml.Value → Except ε (List Node)
  | [] => .ok []
  | item :: items => do
    let item ← ofYaml printer item
    return item :: (← ofYamlItems printer items)

def ofYamlEntries (printer : Yaml.Printer ε) :
    List (Yaml.Value × Yaml.Value) → Except ε (List (String × Node))
  | [] => .ok []
  | (key, value) :: entries => do
    let key ← keyText printer key
    let value ← ofYaml printer value
    return (key, value) :: (← ofYamlEntries printer entries)
end

end Node

/-- The error of a format, as its codec gives it. -/
inductive LoadError (ε δ : Type) where
  | yaml (error : ε)
  | json (error : δ)
deriving DecidableEq, Repr

def LoadError.message {ε δ : Type} [ToString ε] [ToString δ] : LoadError ε δ → String
  | .yaml error => "invalid YAML document: " ++ toString error
  | .json error => "invalid JSON document: " ++ toString error

section Loading
variable {ε δ : Type}

/-- The documents of a stream. Each is read and made a tree before the next one is looked
at, and the first error is that of the stream. -/
def Yaml.Codec.load (codec : Yaml.Codec ε) (source : String) : Except ε (List Node) :=
  (codec.documents source).mapM fun result => do Node.ofYaml codec.toPrinter (← result)

def Json.Codec.load (codec : Json.Codec δ) (source : String) : Except δ Node :=
  (codec.read source).map (Node.ofJson codec.numberText)

/-- Loads a source in a format. JSON text holds one document, and a YAML stream any
number; if one of them fails, none is loaded. -/
def SourceFormat.load (format : SourceFormat) (codecs : Codecs ε δ) (source : String) :
    Except (LoadError ε δ) (List Node) :=
  match format with
  | .json => do return [← (codecs.json.load source).mapError .json]
  | .yaml => (codecs.yaml.load source).mapError .yaml

end Loading

/-- Why a codec of the library refuses a text, or a value that it is to print. -/
inductive Refusal where
  | malformed
  | unprintable
deriving DecidableEq, Repr

instance : ToString Refusal where
  toString
    | .malformed => "the text is malformed"
    | .unprintable => "a key cannot be printed"

/-- A stream without documents holds one that is null. -/
def Yaml.Codec.builtIn : Yaml.Codec Refusal where
  print value := (Yaml.Printed.blockText? value).elim (.error .unprintable) .ok
  numberText := Yaml.Number.text
  documents source :=
    match Yaml.Tree.parse? source with
    | none => [.error .malformed]
    | some [] => [.ok .null]
    | some trees => trees.map fun tree => (Yaml.Value.ofTree? tree).elim (.error .malformed) .ok

def Json.Codec.builtIn : Json.Codec Refusal where
  read source := (Json.Value.parse? source).elim (.error .malformed) .ok
  numberText := Json.Number.text

def Codecs.builtIn : Codecs Refusal Refusal := ⟨.builtIn, .builtIn⟩

end PathQuery
