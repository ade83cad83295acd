import PathQuery.Tree.Node

/-! The elements of a document: the document itself, its values, and the entries that
hold them. An element knows the place it stands at, so equal content at two places is
told apart; children come in document order and are smaller than their parent. -/

namespace PathQuery

/-- A place in a list of documents: the number of the document and the child positions
that lead down from it. -/
structure Place where
  document : Nat
  path : List Nat
deriving DecidableEq, Repr

namespace Place

def child (place : Place) (index : Nat) : Place := ⟨place.document, place.path ++ [index]⟩

/-- The index that leads from one place to another directly below it. -/
def indexBelow? (parent place : Place) : Option Nat :=
  match place.path.getLast? with
  | some index => if place = parent.child index then some index else none
  | none => none

theorem indexBelow?_eq_some_iff {parent place : Place} {index : Nat} :
    parent.indexBelow? place = some index ↔ place = parent.child index := by
  unfold indexBelow?
  split
  case h_1 last found =>
    constructor
    · intro below
      split at below
      case isTrue same => cases below; exact same
      case isFalse => cases below
    · intro same
      subst same
      have : index = last := by simpa [child] using found
      subst this
      simp
  case h_2 none =>
    constructor
    · intro below; cases below
    · intro same; subst same; simp [child] at none

end Place

inductive Content where
  | document (root : Node)
  | mapping (entries : List (String × Node))
  | mappingEntry (key : String) (value : Node)
  | sequence (items : List Node)
  | sequenceEntry (value : Node)
  | scalar (leaf : Scalar)
deriving DecidableEq

structure Element where
  place : Place
  content : Content
deriving DecidableEq

namespace Element

def ofNode (place : Place) : Node → Element
  | .mapping entries => ⟨place, .mapping entries⟩
  | .sequence items => ⟨place, .sequence items⟩
  | .scalar leaf => ⟨place, .scalar leaf⟩

def ofDocument (number : Nat) (root : Node) : Element := ⟨⟨number, []⟩, .document root⟩

/-- A document and an entry have one child, the value they hold. -/
def children (element : Element) : List Element :=
  match element.content with
  | .document root => [ofNode (element.place.child 0) root]
  | .mapping entries =>
    entries.mapIdx fun index (key, value) => ⟨element.place.child index, .mappingEntry key value⟩
  | .mappingEntry _ value => [ofNode (element.place.child 0) value]
  | .sequence items =>
    items.mapIdx fun index value => ⟨element.place.child index, .sequenceEntry value⟩
  | .sequenceEntry value => [ofNode (element.place.child 0) value]
  | .scalar _ => []

def below? (element : Element) : List Nat → Option Element
  | [] => some element
  | index :: path => element.children[index]?.bind fun child => child.below? path

/-- The value a document or an entry stands for; a bare value stands for none. -/
def value? (element : Element) : Option Node :=
  match element.content with
  | .document root => some root
  | .mappingEntry _ value | .sequenceEntry value => some value
  | .mapping _ | .sequence _ | .scalar _ => none

/-- Documents and entries carry a key of their own; bare values do not. -/
def isKeyed (element : Element) : Bool := element.value?.isSome

def kind (element : Element) : String :=
  match element.content with
  | .document _ => "document"
  | .mapping _ => "mapping"
  | .mappingEntry _ _ => "mapping-entry"
  | .sequence _ => "sequence"
  | .sequenceEntry _ => "sequence-entry"
  | .scalar _ => "scalar"

/-- Where `entry` stands among the entries of the sequence `parent`, by its place and
not by its content. -/
def positionOf? (parent : Place) (items : List Node) (entry : Place) : Option Nat :=
  (parent.indexBelow? entry).filter (· < items.length)

end Element

namespace Node

mutual
/-- The number of elements in a value: itself, its entries, and all below them. -/
def size : Node → Nat
  | .mapping entries => 1 + entriesSize entries
  | .sequence items => 1 + itemsSize items
  | .scalar _ => 1

def entriesSize : List (String × Node) → Nat
  | [] => 0
  | (_, value) :: entries => 1 + value.size + entriesSize entries

def itemsSize : List Node → Nat
  | [] => 0
  | value :: items => 1 + value.size + itemsSize items
end

end Node

namespace Element

/-- The number of elements from this one downward. -/
def size (element : Element) : Nat :=
  match element.content with
  | .document root => 1 + root.size
  | .mapping entries => 1 + Node.entriesSize entries
  | .mappingEntry _ value => 1 + value.size
  | .sequence items => 1 + Node.itemsSize items
  | .sequenceEntry value => 1 + value.size
  | .scalar _ => 1

def totalSize : List Element → Nat
  | [] => 0
  | element :: elements => element.size + totalSize elements

@[simp] theorem totalSize_nil : totalSize [] = 0 := rfl

@[simp] theorem totalSize_cons (element : Element) (elements : List Element) :
    totalSize (element :: elements) = element.size + totalSize elements := rfl

@[simp] theorem size_ofNode (place : Place) (node : Node) : (ofNode place node).size = node.size := by
  cases node <;> simp [ofNode, size, Node.size]

theorem size_pos (element : Element) : 0 < element.size := by
  unfold size
  split <;> omega

private theorem totalSize_mapIdx {α : Type} (measure : List α → Nat) (make : Nat → α → Element)
    (none : measure [] = 0)
    (more : ∀ index item items, measure (item :: items) = (make index item).size + measure items)
    (items : List α) : totalSize (items.mapIdx make) = measure items := by
  induction items generalizing make with
  | nil => simp [none]
  | cons item items step =>
    rw [List.mapIdx_cons, totalSize_cons, step (fun index => make (index + 1)), ← more]
    exact fun index => more (index + 1)

/-- An element counts itself and its children. -/
theorem size_eq_children (element : Element) : element.size = 1 + totalSize element.children := by
  obtain ⟨place, content⟩ := element
  cases content with
  | document root =>
    simp only [children, totalSize_cons, totalSize_nil, size_ofNode, Nat.add_zero]
    rfl
  | mapping entries =>
    simp only [size, children]
    rw [totalSize_mapIdx Node.entriesSize _ (by simp [Node.entriesSize])]
    intro index (key, value) items
    simp [Node.entriesSize, size]
  | mappingEntry key value =>
    simp only [children, totalSize_cons, totalSize_nil, size_ofNode, Nat.add_zero]
    rfl
  | sequence items =>
    simp only [size, children]
    rw [totalSize_mapIdx Node.itemsSize _ (by simp [Node.itemsSize])]
    intro index value items
    simp [Node.itemsSize, size]
  | sequenceEntry value =>
    simp only [children, totalSize_cons, totalSize_nil, size_ofNode, Nat.add_zero]
    rfl
  | scalar leaf => simp [size, children]

end Element
end PathQuery
