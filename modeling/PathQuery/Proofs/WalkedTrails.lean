import PathQuery.Tree.Trail

/-! The trails that a walk hands its visitor. Whatever the visitor does, each of them leads
from the document down to one of its elements. -/

namespace PathQuery.Proofs.WalkedTrails

variable {σ ε : Type}

/-- A visitor that does as another does, and notes every trail it is handed. -/
def noting (visitor : Visitor σ ε) : Visitor (List Trail × σ) ε := fun trail notes =>
  let outcome := (visitor trail).run notes.2
  (outcome.1, notes.1 ++ [trail], outcome.2)

/-- The trails that a walk hands its visitor, in their order. -/
def calls (visitor : Visitor σ ε) (document : Nat) (root : Node) (state : σ) : List Trail :=
  (((noting visitor).walk document root).run ([], state)).2.1

/-- Some visitor is handed the trail by a walk. -/
def Walked (document : Nat) (root : Node) (trail : Trail) : Prop :=
  ∃ (σ ε : Type) (visitor : Visitor σ ε) (state : σ), trail ∈ calls visitor document root state

/-- The document comes first, and each element after it is a child of the one before. -/
inductive Descends (document : Nat) (root : Node) : Trail → Prop where
  | start : Descends document root (Trail.empty.push (.ofDocument document root))
  | down {trail : Trail} {parent child : Element} (descends : Descends document root (trail.push parent))
      (member : child ∈ parent.children) : Descends document root ((trail.push parent).push child)

theorem run_bind {α β : Type} (first : ExceptT ε (StateM σ) α) (next : α → ExceptT ε (StateM σ) β) (state : σ) :
    (first >>= next).run state =
      match first.run state with
      | (.ok value, after) => (next value).run after
      | (.error error, after) => (.error error, after) := by
  rw [ExceptT.run_bind]
  simp only [bind, StateT.bind]
  rcases first.run state with ⟨error | value, after⟩ <;> rfl

/-- A claim about elements that stand side by side below a trail follows from the same claim
about those after the first one, and about the children of the first one. -/
theorem walk_induction {motive : Trail → List Element → Prop} (nil : ∀ trail, motive trail [])
    (cons : ∀ trail element siblings, motive trail siblings → motive (trail.push element) element.children →
      motive trail (element :: siblings)) (trail : Trail) (elements : List Element) : motive trail elements := by
  induction trail, elements using Visitor.visitAll.induct with
  | case1 trail => exact nil trail
  | case2 trail element siblings beside below => exact cons trail element siblings beside below

theorem visitAll_nil (visitor : Visitor σ ε) (trail : Trail) (state : σ) :
    (visitor.visitAll trail []).run state = (.ok (), state) := by
  rw [Visitor.visitAll]
  rfl

/-- The three ways that a walk leaves an element: into its children, past them, or by an error. -/
theorem visitAll_cons (visitor : Visitor σ ε) (trail : Trail) (element : Element) (siblings : List Element)
    (state : σ) : (visitor.visitAll trail (element :: siblings)).run state =
      match (visitor (trail.push element)).run state with
      | (.ok .descend, after) =>
        match (visitor.visitAll (trail.push element) element.children).run after with
        | (.ok (), later) => (visitor.visitAll trail siblings).run later
        | (.error error, later) => (.error error, later)
      | (.ok .skip, after) => (visitor.visitAll trail siblings).run after
      | (.error error, after) => (.error error, after) := by
  rw [Visitor.visitAll, run_bind]
  rcases (visitor (trail.push element)).run state with ⟨error | _ | _, after⟩
  · rfl
  · dsimp only
    rw [run_bind]
    rcases (visitor.visitAll (trail.push element) element.children).run after with ⟨error | _, later⟩ <;> rfl
  · rfl

/-- What holds of the state and is kept at every allowed trail still holds after a walk. -/
theorem visitAll_preserves {visitor : Visitor σ ε} {allowed : Trail → Prop} {invariant : σ → Prop}
    (keeps : ∀ trail state, allowed trail → invariant state → invariant ((visitor trail).run state).2)
    (descends : ∀ (trail : Trail) element, allowed (trail.push element) →
      ∀ child ∈ element.children, allowed ((trail.push element).push child))
    (trail : Trail) (elements : List Element) (start : ∀ element ∈ elements, allowed (trail.push element))
    (state : σ) (holds : invariant state) : invariant ((visitor.visitAll trail elements).run state).2 := by
  induction trail, elements using walk_induction generalizing state with
  | nil trail => rwa [visitAll_nil]
  | cons trail element siblings beside below =>
    have here := start element (by simp)
    have kept := keeps _ state here holds
    have rest : ∀ sibling ∈ siblings, allowed (trail.push sibling) :=
      fun sibling member => start sibling (by simp [member])
    rw [visitAll_cons]
    generalize (visitor (trail.push element)).run state = turn at kept
    rcases turn with ⟨error | _ | _, after⟩
    · exact kept
    · have inner := below (descends _ _ here) after kept
      dsimp only
      generalize (visitor.visitAll (trail.push element) element.children).run after = turn at inner
      rcases turn with ⟨error | _, later⟩
      · exact inner
      · exact beside rest later inner
    · exact beside rest after kept

theorem start_descends {document : Nat} {root : Node} :
    ∀ element ∈ [Element.ofDocument document root], Descends document root (Trail.empty.push element) := by
  intro element member
  rw [List.mem_singleton.mp member]
  exact .start

private theorem calls_descend {visitor : Visitor σ ε} {document : Nat} {root : Node} {state : σ} {trail : Trail}
    (called : trail ∈ calls visitor document root state) : Descends document root trail := by
  let invariant (notes : List Trail × σ) : Prop := ∀ trail ∈ notes.1, Descends document root trail
  have keeps : ∀ trail notes, Descends document root trail → invariant notes →
      invariant ((noting visitor trail).run notes).2 := by
    intro trail notes descends holds noted member
    rcases List.mem_append.mp member with earlier | last
    · exact holds noted earlier
    · rwa [List.mem_singleton.mp last]
  have initial : invariant ([], state) := fun _ none => by cases none
  have down : ∀ (trail : Trail) element, Descends document root (trail.push element) →
      ∀ child ∈ element.children, Descends document root ((trail.push element).push child) :=
    fun _ _ descends _ => .down descends
  have final := visitAll_preserves keeps down .empty _ start_descends ([], state) initial
  exact final trail called

theorem Walked.descends {document : Nat} {root : Node} {trail : Trail} (walked : Walked document root trail) :
    Descends document root trail := by
  obtain ⟨σ, ε, visitor, state, called⟩ := walked
  exact calls_descend called

end PathQuery.Proofs.WalkedTrails
