import PathQuery.Proofs.WalkedTrails

/-! A visitor whose answers do not hang on its state sees a fixed list of trails, which depends
only on where it descends. The list has every element once, and each below its parent. -/

namespace PathQuery.Proofs.Visited
open WalkedTrails

variable {σ ε : Type}

/-- The visitor never fails, descends where `enters` says, and changes its state by `act`. -/
def Steady (visitor : Visitor σ ε) (enters : Trail → Bool) (act : Trail → σ → σ) : Prop :=
  ∀ trail state, (visitor trail).run state = (.ok (if enters trail then .descend else .skip), act trail state)

/-- The trails in document order that lie below others only where these are entered. -/
def visited (enters : Trail → Bool) (trail : Trail) : List Element → List Trail
  | [] => []
  | element :: siblings =>
    let inside := if enters (trail.push element) then visited enters (trail.push element) element.children else []
    trail.push element :: (inside ++ visited enters trail siblings)
termination_by elements => Element.totalSize elements
decreasing_by
  · simp only [Element.totalSize_cons]; have := element.size_eq_children; omega
  · simp only [Element.totalSize_cons]; have := element.size_pos; omega

@[simp] theorem visited_nil (enters : Trail → Bool) (trail : Trail) : visited enters trail [] = [] := by
  rw [visited]

theorem visited_cons (enters : Trail → Bool) (trail : Trail) (element : Element) (siblings : List Element) :
    visited enters trail (element :: siblings) = trail.push element ::
      ((if enters (trail.push element) then visited enters (trail.push element) element.children else []) ++
        visited enters trail siblings) := by
  rw [visited]

private theorem mem_visited_cons {enters : Trail → Bool} {trail found : Trail} {element : Element}
    {siblings : List Element} :
    found ∈ visited enters trail (element :: siblings) ↔ found = trail.push element ∨
      (enters (trail.push element) = true ∧ found ∈ visited enters (trail.push element) element.children) ∨
      found ∈ visited enters trail siblings := by
  rw [visited_cons, List.mem_cons, List.mem_append]
  by_cases entered : enters (trail.push element) = true
  · simp only [entered, if_true, true_and]
  · simp [entered]

theorem visitAll_steady {visitor : Visitor σ ε} {enters : Trail → Bool} {act : Trail → σ → σ}
    (steady : Steady visitor enters act) (trail : Trail) (elements : List Element) (state : σ) :
    (visitor.visitAll trail elements).run state =
      (.ok (), (visited enters trail elements).foldl (fun state trail => act trail state) state) := by
  induction trail, elements using walk_induction generalizing state with
  | nil trail => rw [visitAll_nil, visited_nil]; rfl
  | cons trail element siblings beside below =>
    rw [visitAll_cons, steady, visited_cons]
    by_cases entered : enters (trail.push element) = true
    · simp [entered, below, beside]
    · simp [entered, beside]

private theorem steady_noting {visitor : Visitor σ ε} {enters : Trail → Bool} {act : Trail → σ → σ}
    (steady : Steady visitor enters act) :
    Steady (noting visitor) enters (fun trail notes => (notes.1 ++ [trail], act trail notes.2)) := by
  intro trail notes
  change (((visitor trail).run notes.2).1, notes.1 ++ [trail], ((visitor trail).run notes.2).2) = _
  rw [steady]

theorem calls_steady {visitor : Visitor σ ε} {enters : Trail → Bool} {act : Trail → σ → σ}
    (steady : Steady visitor enters act) (document : Nat) (root : Node) (state : σ) :
    calls visitor document root state = visited enters .empty [.ofDocument document root] := by
  have folded : ∀ (trails : List Trail) (notes : List Trail × σ),
      (trails.foldl (fun notes trail => (notes.1 ++ [trail], act trail notes.2)) notes).1 = notes.1 ++ trails := by
    intro trails
    induction trails with
    | nil => simp
    | cons trail trails ih => simp [ih]
  simp only [calls, Visitor.walk, visitAll_steady (steady_noting steady), folded, List.nil_append]

theorem visited_under {enters : Trail → Bool} {trail found : Trail} {elements : List Element}
    (member : found ∈ visited enters trail elements) :
    ∃ element ∈ elements, (trail.push element).elements <+: found.elements := by
  induction trail, elements using walk_induction with
  | nil trail => simp at member
  | cons trail element siblings beside below =>
    rcases mem_visited_cons.mp member with rfl | ⟨_, inside⟩ | further
    · exact ⟨element, by simp, List.prefix_rfl⟩
    · obtain ⟨child, _, under⟩ := below inside
      exact ⟨element, by simp, (List.prefix_append _ _).trans under⟩
    · obtain ⟨sibling, among, under⟩ := beside further
      exact ⟨sibling, by simp [among], under⟩

theorem visited_descends {enters : Trail → Bool} {document : Nat} {root : Node} {trail found : Trail}
    {elements : List Element} (start : ∀ element ∈ elements, Descends document root (trail.push element))
    (member : found ∈ visited enters trail elements) : Descends document root found := by
  induction trail, elements using walk_induction with
  | nil trail => simp at member
  | cons trail element siblings beside below =>
    have here := start element (by simp)
    rcases mem_visited_cons.mp member with rfl | ⟨_, inside⟩ | further
    · exact here
    · exact below (fun child among => .down here among) inside
    · exact beside (fun sibling among => start sibling (by simp [among])) further

/-- What lies strictly above a visited trail is entered. -/
theorem visited_entered {enters : Trail → Bool} {trail found above : Trail} {elements : List Element}
    (member : found ∈ visited enters trail elements) (longer : trail.elements.length < above.elements.length)
    (shorter : above.elements.length < found.elements.length) (under : above.elements <+: found.elements) :
    enters above = true := by
  induction trail, elements using walk_induction with
  | nil trail => simp at member
  | cons trail element siblings beside below =>
    have size : (trail.push element).elements.length = trail.elements.length + 1 := by simp [Trail.push]
    rcases mem_visited_cons.mp member with rfl | ⟨entered, inside⟩ | further
    · omega
    · obtain ⟨child, _, reaches⟩ := visited_under inside
      have pushed : (trail.push element).elements <+: found.elements := (List.prefix_append _ _).trans reaches
      by_cases same : above.elements.length = trail.elements.length + 1
      · have equal : above = trail.push element := by
          have elements := (List.prefix_of_prefix_length_le under pushed (by omega)).eq_of_length (by omega)
          cases above
          exact congrArg Trail.mk elements
        rwa [equal]
      · exact below inside (by omega)
    · exact beside further longer

private theorem visited_of_member {enters : Trail → Bool} (trail : Trail) {element : Element} {elements : List Element}
    (member : element ∈ elements) : trail.push element ∈ visited enters trail elements := by
  induction elements with
  | nil => cases member
  | cons first elements ih =>
    rw [mem_visited_cons]
    rcases List.mem_cons.mp member with rfl | member
    · exact .inl rfl
    · exact .inr (.inr (ih member))

private theorem visited_child {enters : Trail → Bool} {trail above : Trail} {parent child : Element}
    {elements : List Element}
    (member : above.push parent ∈ visited enters trail elements) (entered : enters (above.push parent) = true)
    (below : child ∈ parent.children) : (above.push parent).push child ∈ visited enters trail elements := by
  induction trail, elements using walk_induction with
  | nil trail => simp at member
  | cons trail element siblings beside inner =>
    rw [mem_visited_cons] at member ⊢
    right
    rcases member with same | ⟨into, inside⟩ | further
    · obtain ⟨rfl, rfl⟩ : above = trail ∧ parent = element := by
        cases above; cases trail
        simpa [Trail.push] using same
      exact .inl ⟨entered, visited_of_member _ below⟩
    · exact .inl ⟨into, inner inside⟩
    · exact .inr (beside further)

/-- Going everywhere from the document leads along every trail of elements and children. -/
theorem mem_visited_iff {document : Nat} {root : Node} {trail : Trail} :
    trail ∈ visited (fun _ => true) .empty [.ofDocument document root] ↔ Descends document root trail := by
  constructor
  · exact visited_descends start_descends
  · intro descends
    induction descends with
    | start => exact visited_of_member _ (by simp)
    | down _ member ih => exact visited_child ih rfl member

/-- The walked trails are those of the visitor that goes everywhere. -/
theorem walked_iff {document : Nat} {root : Node} {trail : Trail} :
    Walked document root trail ↔ Descends document root trail := by
  refine ⟨Walked.descends, ?_⟩
  intro descends
  let everywhere : Visitor Unit Unit := fun _ => pure .descend
  have steady : Steady everywhere (fun _ => true) (fun _ state => state) := fun _ _ => rfl
  refine ⟨Unit, Unit, everywhere, (), ?_⟩
  rw [calls_steady steady]
  exact mem_visited_iff.mpr descends

/-- Nothing is lost by staying out of an element below which nothing is kept. -/
theorem visited_pruned {α : Type} {enters : Trail → Bool} {keep : Trail → Option α} {document : Nat} {root : Node}
    (closed : ∀ above below, Descends document root above → Descends document root below →
      above.elements <+: below.elements → enters above = false → keep below = none)
    (trail : Trail) (elements : List Element)
    (start : ∀ element ∈ elements, Descends document root (trail.push element)) :
    (visited enters trail elements).filterMap keep = (visited (fun _ => true) trail elements).filterMap keep := by
  induction trail, elements using walk_induction with
  | nil trail => rw [visited_nil, visited_nil]
  | cons trail element siblings beside below =>
    have here := start element (by simp)
    have children : ∀ child ∈ element.children, Descends document root ((trail.push element).push child) :=
      fun child among => .down here among
    have rest := beside (fun sibling among => start sibling (by simp [among]))
    rw [visited_cons, visited_cons]
    simp only [List.filterMap_cons, List.filterMap_append, if_true, rest]
    by_cases entered : enters (trail.push element) = true
    · simp only [entered, if_true, below children]
    · have nothing : (visited (fun _ => true) (trail.push element) element.children).filterMap keep = [] := by
        apply List.filterMap_eq_nil_iff.mpr
        intro found member
        obtain ⟨child, _, under⟩ := visited_under member
        exact closed (trail.push element) found here (visited_descends children member)
          ((List.prefix_append _ _).trans under) (by simpa using entered)
      simp [entered, nothing]

/-- The trail ends at a place or below it. -/
def Beneath (place : Place) (trail : Trail) : Prop :=
  ∃ last more, trail.current? = some last ∧ last.place = ⟨place.document, place.path ++ more⟩

private theorem Beneath.of_child {place : Place} {index : Nat} {trail : Trail}
    (beneath : Beneath (place.child index) trail) :
    ∃ last more, trail.current? = some last ∧ last.place = ⟨place.document, place.path ++ index :: more⟩ := by
  obtain ⟨last, more, current, located⟩ := beneath
  exact ⟨last, more, current, by simpa [Place.child] using located⟩

theorem place_of_child {element child : Element} {index : Nat} (found : element.children[index]? = some child) :
    child.place = element.place.child index := by
  obtain ⟨place, content⟩ := element
  cases content with
  | document root | mappingEntry key root | sequenceEntry root =>
    obtain ⟨rfl, rfl⟩ : index = 0 ∧ Element.ofNode (place.child 0) root = child := by
      simpa [Element.children, List.getElem?_singleton] using found
    cases root <;> rfl
  | mapping entries | sequence items =>
    simp only [Element.children, List.getElem?_mapIdx, Option.map_eq_some_iff] at found
    obtain ⟨_, _, rfl⟩ := found
    rfl
  | scalar leaf => simp [Element.children] at found

private theorem Beneath.of_among {element child : Element} {trail : Trail} (beneath : Beneath child.place trail)
    (among : child ∈ element.children) : ∃ last index more, trail.current? = some last ∧
      last.place = ⟨element.place.document, element.place.path ++ index :: more⟩ := by
  obtain ⟨index, found⟩ := List.getElem?_of_mem among
  rw [place_of_child found] at beneath
  obtain ⟨last, more, current, located⟩ := beneath.of_child
  exact ⟨last, index, more, current, located⟩

private theorem visited_beneath {enters : Trail → Bool} {trail found : Trail} {elements : List Element}
    (member : found ∈ visited enters trail elements) : ∃ element ∈ elements, Beneath element.place found := by
  induction trail, elements using walk_induction with
  | nil trail => simp at member
  | cons trail element siblings beside below =>
    rcases mem_visited_cons.mp member with rfl | ⟨_, inside⟩ | further
    · exact ⟨element, by simp, element, [], by simp, by simp⟩
    · obtain ⟨child, among, beneath⟩ := below inside
      obtain ⟨last, index, more, current, located⟩ := beneath.of_among among
      exact ⟨element, by simp, last, _, current, located⟩
    · obtain ⟨sibling, among, beneath⟩ := beside further
      exact ⟨sibling, by simp [among], beneath⟩

/-- No trail ends beneath both places. -/
def Apart (first second : Element) : Prop :=
  ∀ trail, Beneath first.place trail → ¬ Beneath second.place trail

theorem children_apart (element : Element) : element.children.Pairwise Apart := by
  rw [List.pairwise_iff_getElem]
  intro first second inFirst inSecond less trail beneathFirst beneathSecond
  rw [place_of_child (List.getElem?_eq_getElem inFirst)] at beneathFirst
  rw [place_of_child (List.getElem?_eq_getElem inSecond)] at beneathSecond
  obtain ⟨last, more, current, located⟩ := beneathFirst.of_child
  obtain ⟨_, _, current', located'⟩ := beneathSecond.of_child
  cases current.symm.trans current'
  have same := located.symm.trans located'
  simp only [Place.mk.injEq, List.append_cancel_left_eq, List.cons.injEq, true_and] at same
  omega

theorem Beneath.congr {place : Place} {first second : Trail} (beneath : Beneath place first)
    (same : first.current? = second.current?) : Beneath place second := by
  obtain ⟨last, more, current, located⟩ := beneath
  exact ⟨last, more, same ▸ current, located⟩

/-- Every element is visited once. -/
theorem visited_distinct (enters : Trail → Bool) (trail : Trail) (elements : List Element)
    (apart : elements.Pairwise Apart) :
    (visited enters trail elements).Pairwise (fun first second => first.current? ≠ second.current?) := by
  induction trail, elements using walk_induction with
  | nil trail => simp
  | cons trail element siblings beside below =>
    obtain ⟨others, rest⟩ := List.pairwise_cons.mp apart
    have here : Beneath element.place (trail.push element) := ⟨element, [], by simp, by simp⟩
    have inner : ∀ found ∈ visited enters (trail.push element) element.children,
        Beneath element.place found ∧ (trail.push element).current? ≠ found.current? := by
      intro found member
      obtain ⟨child, among, beneath⟩ := visited_beneath member
      obtain ⟨last, index, more, current, located⟩ := beneath.of_among among
      refine ⟨⟨last, _, current, located⟩, ?_⟩
      intro same
      rw [Trail.current?_push, current] at same
      cases same
      have size := congrArg (fun place => place.path.length) located
      simp at size
    have outer : ∀ found ∈ visited enters trail siblings, ∀ other, Beneath element.place other →
        other.current? ≠ found.current? := by
      intro found member other beneath same
      obtain ⟨sibling, among, beside⟩ := visited_beneath member
      exact others sibling among found (beneath.congr same) beside
    rw [visited_cons]
    split
    next =>
      refine List.pairwise_cons.mpr ⟨?_, List.pairwise_append.mpr
        ⟨below (children_apart element), beside rest, ?_⟩⟩
      · intro found member
        rcases List.mem_append.mp member with inside | further
        · exact (inner found inside).2
        · exact outer found further _ here
      · intro first inside second further
        exact outer second further first (inner first inside).1
    next => exact List.pairwise_cons.mpr ⟨fun found member => outer found member _ here, beside rest⟩

end PathQuery.Proofs.Visited
