import PathQuery.Yaml.Tree.Link
import PathQuery.Yaml.Tree.Stream
import PathQuery.Yaml.Value.Scalar

/-! The value of a tree: scalars and tags are interpreted and aliases are followed. The
depth of collections and the number of aliases that are followed are limited. -/

namespace PathQuery.Yaml.Value

/-- Collections may be nested this deep. -/
def maxDepth : Nat := 128

/-- How many aliases are followed for each mark in a document. -/
def aliasesPerMark : Nat := 100

def coreTag (name : String) : Octets := Octets.ofText ("tag:yaml.org,2002:" ++ name)

/-- The exclamation mark that a tag of the document's own starts with. -/
def isMark (octet : UInt8) : Bool := octet == '!'.toNat.toUInt8

/-- The name of a tag of the document's own; such a tag starts with an exclamation mark,
which is not part of the name unless it is all there is. -/
def ownTag? (tag : Option Octets) : Option String :=
  match tag with
  | some (mark :: name) =>
    if isMark mark then Octets.text? (if name = [] then [mark] else name) else none
  | _ => none

def taggedScalar? (tag : Octets) (text : String) (presentation : Presentation) : Option Value :=
  if tag = coreTag "bool" then (Scalar.bool? text).map .bool
  else if tag = coreTag "int" then
    match Scalar.whole text.toList with
    | .fits value => some (.number (.integer value))
    | .outOfRange | .none => none
  else if tag = coreTag "float" then (Scalar.float? text.toList).map fun value => .number (.float value)
  else if tag = coreTag "null" then if Scalar.isNull text then some .null else none
  else if tag.head?.any isMark && presentation == .plain then Scalar.resolve? text
  else some (.string text)

def ofScalar? (tag : Option Octets) (text : String) (presentation : Presentation) : Option Value :=
  match tag, presentation with
  | some tag, presentation => taggedScalar? tag text presentation
  | none, .plain => Scalar.resolve? text
  | none, .quoted => some (.string text)

/-- Reading counts down the aliases that may still be followed. -/
abbrev Reading := StateT Nat Option

def follow (anchored : Tree.Anchored) (anchor : Nat) : Reading (Tree Nat) := fun left =>
  match left, anchored.reverse.lookup anchor with
  | left + 1, some target => some (target, left)
  | _, _ => none

/-- Adds an entry whose key is not there yet. -/
def insertNew? (key value : Value) (lastFirst : List (Value × Value)) : Option (List (Value × Value)) :=
  if lastFirst.any fun (other, _) => other.same key then none else some ((key, value) :: lastFirst)

/-- A value with the tag it was written with, if that is one of the document's own. -/
def withTag (tag : Option Octets) (value : Value) : Value :=
  match ownTag? tag with
  | some name => .tagged name value
  | none => value

def read (anchored : Tree.Anchored) : (depth : Nat) → Tree Nat → Reading Value :=
  fun depth tree => do
    let tree ← match tree with
      | .alias anchor => follow anchored anchor
      | tree => pure tree
    match depth, tree with
    | _, .scalar properties text presentation =>
      return withTag properties.tag (← (ofScalar? properties.tag text presentation : Option Value))
    | depth + 1, .sequence properties items => do
      return withTag properties.tag (.sequence (← items.mapM (read anchored depth)))
    | depth + 1, .mapping properties entries => do
      let lastFirst ← entries.foldlM (fun lastFirst (key, value) => do
        let key ← read anchored depth key
        let value ← read anchored depth value
        (insertNew? key value lastFirst : Option (List (Value × Value)))) []
      return withTag properties.tag (.mapping lastFirst.reverse)
    | _, _ => (none : Option Value)

def ofTree? (document : Tree String) : Option Value := do
  let linked ← document.link?
  let (value, _) ← (read linked.anchored maxDepth linked).run (aliasesPerMark * linked.extent)
  return value

end PathQuery.Yaml.Value
