import PathQuery.Yaml.Tree

/-! Linking the aliases of a document to its anchors. Anchors are numbered in the order in
which they start. A name that is used again gets a new number, which counts the different
names so far; of two anchors with one number the later holds. -/

namespace PathQuery.Yaml.Tree

/-- The anchors that have been met, with their numbers. -/
abbrev Anchors := List (String × Nat)

namespace Anchors

def define (name : String) (anchors : Anchors) : Nat × Anchors :=
  (anchors.length, (name, anchors.length) :: anchors.filter fun (other, _) => other ≠ name)

end Anchors

abbrev Linking := StateT Anchors Option

def linkProperties (properties : Properties String) : Linking (Properties Nat) := fun anchors =>
  match properties.anchor with
  | some name =>
    let (number, anchors) := anchors.define name
    some (⟨some number, properties.tag⟩, anchors)
  | none => some (⟨none, properties.tag⟩, anchors)

mutual
/-- Gives each anchor its number and each alias the number of its anchor, which has to
come before it. -/
def link : Tree String → Linking (Tree Nat)
  | .alias name => do
    let anchors ← get
    return .alias (← (anchors.lookup name : Option Nat))
  | .scalar properties text presentation => do
    return .scalar (← linkProperties properties) text presentation
  | .sequence properties items => do
    let properties ← linkProperties properties
    return .sequence properties (← linkItems items)
  | .mapping properties entries => do
    let properties ← linkProperties properties
    return .mapping properties (← linkEntries entries)

def linkItems : List (Tree String) → Linking (List (Tree Nat))
  | [] => return []
  | item :: items => do
    let item ← link item
    return item :: (← linkItems items)

def linkEntries : List (Tree String × Tree String) → Linking (List (Tree Nat × Tree Nat))
  | [] => return []
  | (key, value) :: entries => do
    let key ← link key
    let value ← link value
    return (key, value) :: (← linkEntries entries)
end

def link? (document : Tree String) : Option (Tree Nat) := (·.1) <$> document.link.run []

/-- The anchored trees of a document with their numbers. -/
abbrev Anchored := List (Nat × Tree Nat)

def anchorOf (properties : Properties Nat) (tree : Tree Nat) : Anchored :=
  match properties.anchor with
  | some number => [(number, tree)]
  | none => []

mutual
/-- The anchored trees in the order in which they start. -/
def anchored : Tree Nat → Anchored
  | .alias _ => []
  | .scalar properties text presentation =>
    anchorOf properties (.scalar properties text presentation)
  | .sequence properties items =>
    anchorOf properties (.sequence properties items) ++ anchoredItems items
  | .mapping properties entries =>
    anchorOf properties (.mapping properties entries) ++ anchoredEntries entries

def anchoredItems : List (Tree Nat) → Anchored
  | [] => []
  | item :: items => item.anchored ++ anchoredItems items

def anchoredEntries : List (Tree Nat × Tree Nat) → Anchored
  | [] => []
  | (key, value) :: entries => key.anchored ++ value.anchored ++ anchoredEntries entries
end

end PathQuery.Yaml.Tree
