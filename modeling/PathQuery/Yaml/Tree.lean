import PathQuery.Yaml.Token

/-! The trees of a YAML stream, with anchors, aliases and tags as they are written, and how
tokens are put together to them. -/

namespace PathQuery.Yaml

/-- What may stand before a value. Anchors are named by `Name`. -/
structure Properties (Name : Type) where
  anchor : Option Name
  tag : Option Octets

inductive Tree (Name : Type) where
  | alias (name : Name)
  | scalar (properties : Properties Name) (text : String) (presentation : Presentation)
  | sequence (properties : Properties Name) (items : List (Tree Name))
  | mapping (properties : Properties Name) (entries : List (Tree Name × Tree Name))

namespace Tree

variable {Name : Type}

mutual
/-- How many marks a tree makes in a stream: one for a scalar or an alias, and two around
a collection. -/
def extent : Tree Name → Nat
  | .alias _ | .scalar _ _ _ => 1
  | .sequence _ items => 2 + itemsExtent items
  | .mapping _ entries => 2 + entriesExtent entries

def itemsExtent : List (Tree Name) → Nat
  | [] => 0
  | item :: items => item.extent + itemsExtent items

def entriesExtent : List (Tree Name × Tree Name) → Nat
  | [] => 0
  | (key, value) :: entries => key.extent + value.extent + entriesExtent entries
end

/-- The tree of a value that is left out. -/
def missing : Tree Name := .scalar ⟨none, none⟩ "" .plain

/-- Tag handles with what they stand for. -/
abbrev Handles := List (String × Octets)

namespace Handles

/-- The handles every document knows, unless it declares them otherwise. -/
def initial : Handles := [("!", Octets.ofText "!"), ("!!", Octets.ofText "tag:yaml.org,2002:")]

/-- A tag without handle stands for itself. -/
def resolve? (handles : Handles) (handle : String) (suffix : Octets) : Option Octets :=
  if handle = "" then some suffix
  else (handles.lookup handle).map fun lead => lead ++ suffix

end Handles

/-- Reads the properties of a value, an anchor and a tag in either order. -/
def readProperties? (handles : Handles) : List Token → Option (Properties String × List Token)
  | .anchor name :: .tag handle suffix :: rest | .tag handle suffix :: .anchor name :: rest => do
    return (⟨some name, some (← handles.resolve? handle suffix)⟩, rest)
  | .anchor name :: rest => some (⟨some name, none⟩, rest)
  | .tag handle suffix :: rest => do
    return (⟨none, some (← handles.resolve? handle suffix)⟩, rest)
  | rest => some (⟨none, none⟩, rest)

/-- Where a value may stand: in flow style or in block style, there also as a sequence that
is not indented further than the key it belongs to. -/
inductive Context where
  | flow
  | block
  | blockAfterKey
deriving DecidableEq, Repr

def endsBlockEntry : List Token → Bool
  | .blockEntry :: _ | .blockEnd :: _ => true
  | _ => false

def endsBlockPair : List Token → Bool
  | .key :: _ | .value :: _ | .blockEnd :: _ => true
  | _ => false

def endsIndentless : List Token → Bool
  | .blockEntry :: _ => true
  | tokens => endsBlockPair tokens

def endsFlowKey : List Token → Bool
  | .value :: _ | .flowEntry :: _ | .flowMappingEnd :: _ => true
  | _ => false

def endsFlowValue : List Token → Bool
  | .flowEntry :: _ | .flowMappingEnd :: _ => true
  | _ => false

def endsFlowItem : List Token → Bool
  | .flowEntry :: _ | .flowSequenceEnd :: _ => true
  | _ => false

mutual
/-- Reads a value. `depth` bounds the calls that are open at a time. -/
def read? (handles : Handles) (depth : Nat) (context : Context) (tokens : List Token) :
    Option (Tree String × List Token) :=
  match depth, tokens with
  | 0, _ => none
  | _ + 1, .alias name :: rest => some (.alias name, rest)
  | depth + 1, tokens => do
    let (properties, tokens) ← readProperties? handles tokens
    match tokens, context with
    | .scalar text presentation :: rest, _ =>
      some (.scalar properties text presentation, rest)
    | .flowSequenceStart :: rest, _ => do
      let (items, rest) ← readFlowItems? handles depth [] true rest
      return (.sequence properties items, rest)
    | .flowMappingStart :: rest, _ => do
      let (entries, rest) ← readFlowEntries? handles depth [] true rest
      return (.mapping properties entries, rest)
    | .blockEntry :: _, .blockAfterKey => do
      let (items, rest) ← readIndentless? handles depth [] tokens
      return (.sequence properties items, rest)
    | .blockSequenceStart :: rest, .block | .blockSequenceStart :: rest, .blockAfterKey => do
      let (items, rest) ← readBlockItems? handles depth [] rest
      return (.sequence properties items, rest)
    | .blockMappingStart :: rest, .block | .blockMappingStart :: rest, .blockAfterKey => do
      let (entries, rest) ← readBlockEntries? handles depth [] rest
      return (.mapping properties entries, rest)
    | rest, _ =>
      if properties.anchor.isSome || properties.tag.isSome then
        some (.scalar properties "" .plain, rest)
      else none
termination_by structural depth

/-- Reads the items of an indented sequence up to its end; `done` holds the last first. -/
def readBlockItems? (handles : Handles) (depth : Nat) (done : List (Tree String))
    (tokens : List Token) : Option (List (Tree String) × List Token) :=
  match depth, tokens with
  | depth + 1, .blockEntry :: rest => do
    let (item, rest) ←
      if endsBlockEntry rest then some (missing, rest) else read? handles depth .block rest
    readBlockItems? handles depth (item :: done) rest
  | _ + 1, .blockEnd :: rest => some (done.reverse, rest)
  | _, _ => none
termination_by structural depth

/-- Reads the items of a sequence that has no end of its own. -/
def readIndentless? (handles : Handles) (depth : Nat) (done : List (Tree String))
    (tokens : List Token) : Option (List (Tree String) × List Token) :=
  match depth, tokens with
  | 0, _ => none
  | depth + 1, .blockEntry :: rest => do
    let (item, rest) ←
      if endsIndentless rest then some (missing, rest) else read? handles depth .block rest
    readIndentless? handles depth (item :: done) rest
  | _ + 1, rest => some (done.reverse, rest)
termination_by structural depth

/-- Reads the entries of an indented mapping up to its end. -/
def readBlockEntries? (handles : Handles) (depth : Nat)
    (done : List (Tree String × Tree String)) (tokens : List Token) :
    Option (List (Tree String × Tree String) × List Token) :=
  match depth, tokens with
  | depth + 1, .key :: rest => do
    let (key, rest) ←
      if endsBlockPair rest then some (missing, rest)
      else read? handles depth .blockAfterKey rest
    let (value, rest) ← match rest with
      | .value :: rest =>
        if endsBlockPair rest then some (missing, rest)
        else read? handles depth .blockAfterKey rest
      | rest => some (missing, rest)
    readBlockEntries? handles depth ((key, value) :: done) rest
  | _ + 1, .blockEnd :: rest => some (done.reverse, rest)
  | _, _ => none
termination_by structural depth

/-- Reads the items of a flow sequence. A comma stands before each but the first and may
stand after the last; a key makes an item a mapping of one entry. -/
def readFlowItems? (handles : Handles) (depth : Nat) (done : List (Tree String))
    (first : Bool) (tokens : List Token) : Option (List (Tree String) × List Token) :=
  match depth, tokens with
  | 0, _ => none
  | _ + 1, .flowSequenceEnd :: rest => some (done.reverse, rest)
  | depth + 1, tokens => do
    let tokens ← match first, tokens with
      | true, tokens => some tokens
      | false, .flowEntry :: rest => some rest
      | false, _ => none
    match tokens with
    | .flowSequenceEnd :: rest => some (done.reverse, rest)
    | .key :: rest => do
      let (key, rest) ← match rest with
        | .value :: rest | .flowEntry :: rest | .flowSequenceEnd :: rest => some (missing, rest)
        | rest => read? handles depth .flow rest
      let (value, rest) ← match rest with
        | .value :: rest =>
          if endsFlowItem rest then some (missing, rest) else read? handles depth .flow rest
        | rest => some (missing, rest)
      readFlowItems? handles depth (.mapping ⟨none, none⟩ [(key, value)] :: done) false rest
    | tokens => do
      let (item, rest) ← read? handles depth .flow tokens
      readFlowItems? handles depth (item :: done) false rest
termination_by structural depth

/-- Reads the entries of a flow mapping. A key that is not marked as one has no value. -/
def readFlowEntries? (handles : Handles) (depth : Nat)
    (done : List (Tree String × Tree String)) (first : Bool) (tokens : List Token) :
    Option (List (Tree String × Tree String) × List Token) :=
  match depth, tokens with
  | 0, _ => none
  | _ + 1, .flowMappingEnd :: rest => some (done.reverse, rest)
  | depth + 1, tokens => do
    let tokens ← match first, tokens with
      | true, tokens => some tokens
      | false, .flowEntry :: rest => some rest
      | false, _ => none
    match tokens with
    | .flowMappingEnd :: rest => some (done.reverse, rest)
    | .key :: rest => do
      let (key, rest) ←
        if endsFlowKey rest then some (missing, rest) else read? handles depth .flow rest
      let (value, rest) ← match rest with
        | .value :: rest =>
          if endsFlowValue rest then some (missing, rest) else read? handles depth .flow rest
        | rest => some (missing, rest)
      readFlowEntries? handles depth ((key, value) :: done) false rest
    | tokens => do
      let (key, rest) ← read? handles depth .flow tokens
      readFlowEntries? handles depth ((key, missing) :: done) false rest
termination_by structural depth
end

/-- More calls than can be open at a time: of any two, one takes a token. -/
def depthFor (tokens : List Token) : Nat := 2 * tokens.length + 4

end Tree
end PathQuery.Yaml
