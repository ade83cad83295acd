import PathQuery.Yaml.Token.Split
import PathQuery.Yaml.Tree

/-! The documents of a stream. The first one may start without a mark; each later one has
to be marked, and may be preceded by directives. -/

namespace PathQuery.Yaml.Tree

/-- Adds what a document declares to its handles; a handle is declared at most once. -/
def declare? (handle : String) (lead : Octets) (declared : Handles) : Option Handles :=
  if (declared.lookup handle).isSome then none else some ((handle, lead) :: declared)

/-- Reads the directives before a document. Versions 1.1 and 1.2 are understood, and a
version is given at most once. -/
def readDirectives? (versioned : Bool) (declared : Handles) :
    List Token → Option (Handles × List Token)
  | .versionDirective major minor :: rest =>
    if !versioned && major == 1 && (minor == 1 || minor == 2) then
      readDirectives? true declared rest
    else none
  | .tagDirective handle lead :: rest => do
    readDirectives? versioned (← declare? handle lead declared) rest
  | rest => some (declared ++ Handles.initial, rest)

/-- Whether a document that has been marked has no content. -/
def endsDocument : List Token → Bool
  | .versionDirective _ _ :: _ | .tagDirective _ _ :: _ | .documentStart :: _
  | .documentEnd :: _ | .streamEnd :: _ => true
  | _ => false

/-- A document that has to be marked, with its directives. -/
def readMarked? (tokens : List Token) : Option (Tree String × List Token) := do
  let (handles, tokens) ← readDirectives? false [] tokens
  match tokens with
  | .documentStart :: rest =>
    if endsDocument rest then some (missing, rest)
    else read? handles (depthFor rest) .block rest
  | _ => none

def readFirst? (tokens : List Token) : Option (Tree String × List Token) :=
  match tokens with
  | .versionDirective _ _ :: _ | .tagDirective _ _ :: _ | .documentStart :: _ => readMarked? tokens
  | _ => read? Handles.initial (depthFor tokens) .block tokens

def dropDocumentEnds : List Token → List Token
  | .documentEnd :: rest => dropDocumentEnds rest
  | rest => rest

/-- Reads the documents after the first; each takes at least its own mark. -/
def readLater? : (count : Nat) → List Token → Option (List (Tree String))
  | 0, _ => none
  | count + 1, tokens =>
    match dropDocumentEnds tokens with
    | .streamEnd :: _ => some []
    | tokens => do
      let (document, rest) ← readMarked? tokens
      return document :: (← readLater? count rest)

def readStream? (tokens : List Token) : Option (List (Tree String)) :=
  match tokens with
  | .streamEnd :: _ => some []
  | _ => do
    let (document, rest) ← readFirst? tokens
    return document :: (← readLater? (tokens.length + 1) rest)

def parse? (text : String) : Option (List (Tree String)) := do
  readStream? (← Token.split? (← Glyph.ofText? text))

end PathQuery.Yaml.Tree
