import PathQuery.Expression.Segment
import PathQuery.Tree.Element

/-! Trails: the elements from a document down to the one being looked at, root first. The
keyed elements of a trail are its steps, and the keys of the steps make up a location. Walks
of a document hand the trail to each element to a visitor. -/

namespace PathQuery

/-- The key a step hangs under. An entry of a sequence is detached if the element before
it is not the sequence it belongs to. -/
inductive StepKey where
  | root
  | name (key : String)
  | index (position : Nat)
  | detached
deriving DecidableEq, Repr

namespace StepKey

/-- A name of name characters follows a dot; any other name is quoted. -/
def location : StepKey → String
  | .root => "$"
  | .name key =>
    if key ≠ "" ∧ key.toList.all isNameChar then "." ++ key
    else "['" ++ Text.Quoted.escape key ++ "']"
  | .index position => "[" ++ toString position ++ "]"
  | .detached => "[?]"

end StepKey

/-- A keyed position with the value found there. -/
structure Step where
  key : StepKey
  value : Node
deriving DecidableEq

namespace Step

/-- The step of an element that follows `before`; a bare value makes none. -/
def of? (before : Option Element) (element : Element) : Option Step :=
  match element.content with
  | .document root => some ⟨.root, root⟩
  | .mappingEntry key value => some ⟨.name key, value⟩
  | .sequenceEntry value =>
    match before with
    | some ⟨parent, .sequence items⟩ =>
      match Element.positionOf? parent items element.place with
      | some position => some ⟨.index position, value⟩
      | none => some ⟨.detached, value⟩
    | _ => some ⟨.detached, value⟩
  | .mapping _ | .sequence _ | .scalar _ => none

def ofChain (before : Option Element) : List Element → List Step
  | [] => []
  | element :: chain => (of? before element).toList ++ ofChain (some element) chain

end Step

structure Trail where
  elements : List Element
deriving DecidableEq

namespace Trail

def empty : Trail := ⟨[]⟩

def push (trail : Trail) (element : Element) : Trail := ⟨trail.elements ++ [element]⟩

/-- Takes the last element off; an empty trail stays empty. -/
def pop (trail : Trail) : Trail := ⟨trail.elements.dropLast⟩

def current? (trail : Trail) : Option Element := trail.elements.getLast?

def atStep (trail : Trail) : Bool := trail.current?.any Element.isKeyed

def steps (trail : Trail) : List Step := Step.ofChain none trail.elements

/-- Where the last step is, as an expression such as `$.subjects[1].kind`. -/
def location (trail : Trail) : String := String.join (trail.steps.map fun step => step.key.location)

/-- A change to a trail. Entering an element pushes it, makes further changes, and then
pops whatever is last. -/
inductive Edit where
  | push (element : Element)
  | pop
  | enter (element : Element) (inside : List Edit)

/-- What an edit led to: the trails it passed through and the element it took off. -/
inductive Outcome where
  | pushed (after : Trail)
  | popped (element : Option Element) (after : Trail)
  | entered (inside : Trail) (outcomes : List Outcome) (left : Trail)

mutual
/-- The trail after an edit, with its outcome. -/
def edit (trail : Trail) : Edit → Outcome × Trail
  | .push element => (.pushed (trail.push element), trail.push element)
  | .pop => (.popped trail.current? trail.pop, trail.pop)
  | .enter element inside =>
    let (outcomes, last) := editAll (trail.push element) inside
    (.entered (trail.push element) outcomes last.pop, last.pop)

def editAll (trail : Trail) : List Edit → List Outcome × Trail
  | [] => ([], trail)
  | first :: rest =>
    let (outcome, after) := edit trail first
    let (outcomes, last) := editAll after rest
    (outcome :: outcomes, last)
end

@[simp] theorem pop_push (trail : Trail) (element : Element) : (trail.push element).pop = trail := by
  simp [push, pop]

@[simp] theorem current?_push (trail : Trail) (element : Element) :
    (trail.push element).current? = some element := by
  simp [push, current?]

end Trail

/-! Walking through a document depth first. The visitor is handed the trail to each
element in document order; it may prune what lies below, or stop the walk with an error.
Its state outlives an error. -/

/-- What a visitor wants done with the children of the current element. -/
inductive Visit where
  | descend
  | skip
deriving DecidableEq, Repr

abbrev Visitor (σ ε : Type) := Trail → ExceptT ε (StateM σ) Visit

namespace Visitor

/-- Visits elements that stand side by side below a trail, each with all that lies below
it before the next one. -/
def visitAll {σ ε : Type} (visitor : Visitor σ ε) (trail : Trail) :
    List Element → ExceptT ε (StateM σ) Unit
  | [] => pure ()
  | element :: siblings => do
    match ← visitor (trail.push element) with
    | .descend => visitAll visitor (trail.push element) element.children
    | .skip => pure ()
    visitAll visitor trail siblings
termination_by elements => Element.totalSize elements
decreasing_by
  · simp only [Element.totalSize_cons]; have := element.size_pos; omega
  · simp only [Element.totalSize_cons]; have := element.size_eq_children; omega

def walk {σ ε : Type} (visitor : Visitor σ ε) (document : Nat) (root : Node) :
    ExceptT ε (StateM σ) Unit :=
  visitor.visitAll .empty [.ofDocument document root]

end Visitor
end PathQuery
