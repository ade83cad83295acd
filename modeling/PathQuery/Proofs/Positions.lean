import PathQuery.Proofs.WalkedTrails

/-! The positions of a document are its keyed elements. A position has the entries of its
value directly below it, and a route goes down from entry to entry. The steps of a walked
trail are the route to the last position on it. -/

namespace PathQuery.Proofs.Positions
open WalkedTrails

/-- An entry of the value a position stands for, with the key it hangs under and its value. -/
inductive Entry (position : Element) : Step → Element → Prop where
  | mapping {entries : List (String × Node)} {index : Nat} {key : String} {value : Node}
      (holds : position.value? = some (.mapping entries)) (found : entries[index]? = some (key, value)) :
      Entry position ⟨.name key, value⟩ ⟨(position.place.child 0).child index, .mappingEntry key value⟩
  | sequence {items : List Node} {index : Nat} {value : Node}
      (holds : position.value? = some (.sequence items)) (found : items[index]? = some value) :
      Entry position ⟨.index index, value⟩ ⟨(position.place.child 0).child index, .sequenceEntry value⟩

/-- The steps from a position to one at or below it. -/
inductive Route : Element → List Step → Element → Prop where
  | here {position : Element} : Route position [] position
  | down {position entry last : Element} {step : Step} {steps : List Step} (first : Entry position step entry)
      (more : Route entry steps last) : Route position (step :: steps) last

theorem Entry.value {position entry : Element} {step : Step} (hangs : Entry position step entry) :
    entry.value? = some step.value := by
  cases hangs <;> rfl

theorem Route.extend {first middle last : Element} {steps : List Step} {step : Step}
    (route : Route first steps middle) (hangs : Entry middle step last) : Route first (steps ++ [step]) last := by
  induction route with
  | here => exact .down hangs .here
  | down first _ ih => exact .down first (ih hangs)

theorem Route.append {first middle last : Element} {steps more : List Step}
    (route : Route first steps middle) (further : Route middle more last) : Route first (steps ++ more) last := by
  induction route with
  | here => exact further
  | down first _ ih => exact .down first (ih further)

theorem Entry.place {position entry : Element} {step : Step} (hangs : Entry position step entry) :
    ∃ index, entry.place = (position.place.child 0).child index := by
  cases hangs <;> exact ⟨_, rfl⟩

private theorem child_injective {place : Place} {first second : Nat} (same : place.child first = place.child second) :
    first = second := by
  simpa [Place.child] using same

/-- Entries at one place are the same entry under the same key. -/
theorem Entry.unique {position entry other : Element} {step step' : Step} (hangs : Entry position step entry)
    (hangs' : Entry position step' other) (same : entry.place = other.place) : step = step' ∧ entry = other := by
  cases hangs with
  | mapping holds found =>
    cases hangs' with
    | mapping holds' found' =>
      cases holds.symm.trans holds'
      cases child_injective same
      cases found.symm.trans found'
      exact ⟨rfl, rfl⟩
    | sequence holds' => cases holds.symm.trans holds'
  | sequence holds found =>
    cases hangs' with
    | mapping holds' => cases holds.symm.trans holds'
    | sequence holds' found' =>
      cases holds.symm.trans holds'
      cases child_injective same
      cases found.symm.trans found'
      exact ⟨rfl, rfl⟩

theorem Route.place {first last : Element} {steps : List Step} (route : Route first steps last) :
    ∃ more, last.place = ⟨first.place.document, first.place.path ++ more⟩ ∧ more.length = 2 * steps.length := by
  induction route with
  | here => exact ⟨[], by simp, rfl⟩
  | down hangs _ ih =>
    obtain ⟨more, located, length⟩ := ih
    obtain ⟨index, child⟩ := hangs.place
    rw [child] at located
    refine ⟨0 :: index :: more, by simpa [Place.child] using located, ?_⟩
    simp [length]
    omega

private theorem Route.nil_of_place {position last : Element} {steps : List Step} (route : Route position steps last)
    (same : position.place = last.place) : steps = [] := by
  obtain ⟨more, located, length⟩ := route.place
  have size := congrArg (fun place => place.path.length) (same.trans located)
  simp only [List.length_append] at size
  apply List.eq_nil_of_length_eq_zero
  omega

/-- There is only one way down to a place. -/
theorem Route.unique_of_place {first last last' : Element} {steps other : List Step} (route : Route first steps last)
    (route' : Route first other last') (same : last.place = last'.place) : steps = other ∧ last = last' := by
  induction route generalizing other with
  | here =>
    obtain rfl := route'.nil_of_place same
    cases route'
    exact ⟨rfl, rfl⟩
  | @down position entry last step steps hangs more ih =>
    cases route' with
    | here => cases (Route.down hangs more).nil_of_place same.symm
    | @down _ entry' _ step' steps' hangs' more' =>
      obtain ⟨_, located, _⟩ := more.place
      obtain ⟨_, located', _⟩ := more'.place
      obtain ⟨index, child⟩ := hangs.place
      obtain ⟨index', child'⟩ := hangs'.place
      have beside : entry.place = entry'.place := by
        have paths := (located.symm.trans same).trans located'
        simp only [child, child', Place.child, Place.mk.injEq, List.append_assoc, List.append_cancel_left_eq,
          List.cons_append, List.cons.injEq, true_and] at paths
        rw [child, child', paths.1]
      obtain ⟨rfl, rfl⟩ := hangs.unique hangs' beside
      obtain ⟨rfl, rfl⟩ := ih more' same
      exact ⟨rfl, rfl⟩

theorem Route.unique {first last : Element} {steps other : List Step} (route : Route first steps last)
    (route' : Route first other last) : steps = other :=
  (route.unique_of_place route' rfl).1

private theorem ofChain_append (before : Option Element) (chain more : List Element) :
    Step.ofChain before (chain ++ more) =
      Step.ofChain before chain ++ Step.ofChain (chain.getLast?.or before) more := by
  induction chain generalizing before with
  | nil => rfl
  | cons element chain ih =>
    have last : (element :: chain).getLast?.or before = chain.getLast?.or (some element) := by
      rw [List.getLast?_cons]
      cases chain.getLast? <;> rfl
    rw [List.cons_append, Step.ofChain, Step.ofChain, ih, last, List.append_assoc]

private theorem steps_push (trail : Trail) (element : Element) :
    (trail.push element).steps = trail.steps ++ (Step.of? trail.current? element).toList := by
  simp [Trail.steps, Trail.push, Trail.current?, ofChain_append, Step.ofChain]

theorem steps_prefix {above below : Trail} (under : above.elements <+: below.elements) :
    above.steps <+: below.steps := by
  obtain ⟨more, same⟩ := under
  rw [Trail.steps, Trail.steps, ← same, ofChain_append]
  exact List.prefix_append _ _

theorem children_of_value {position : Element} {value : Node} (holds : position.value? = some value) :
    position.children = [.ofNode (position.place.child 0) value] := by
  obtain ⟨place, content⟩ := position
  cases content <;> cases holds <;> rfl

theorem not_keyed_ofNode (place : Place) (value : Node) : (Element.ofNode place value).value? = none := by
  cases value <;> rfl

private theorem of_ofNode (before : Option Element) (place : Place) (value : Node) :
    Step.of? before (.ofNode place value) = none := by
  cases value <;> rfl

/-- The children of a value are the entries of its position, and the step of each is found from its place. -/
theorem entry_of_child {position child : Element} {value : Node} (holds : position.value? = some value)
    (member : child ∈ (Element.ofNode (position.place.child 0) value).children) :
    ∃ step, Entry position step child ∧
      Step.of? (some (.ofNode (position.place.child 0) value)) child = some step := by
  obtain ⟨index, found⟩ := List.getElem?_of_mem member
  cases value with
  | mapping entries =>
    simp only [Element.ofNode, Element.children, List.getElem?_mapIdx, Option.map_eq_some_iff] at found
    obtain ⟨⟨key, value⟩, entry, rfl⟩ := found
    exact ⟨_, .mapping holds entry, rfl⟩
  | sequence items =>
    simp only [Element.ofNode, Element.children, List.getElem?_mapIdx, Option.map_eq_some_iff] at found
    obtain ⟨value, entry, rfl⟩ := found
    refine ⟨_, .sequence holds entry, ?_⟩
    have inside : index < items.length := (List.getElem?_eq_some_iff.mp entry).1
    have located : (position.place.child 0).indexBelow? ((position.place.child 0).child index) = some index :=
      Place.indexBelow?_eq_some_iff.mpr rfl
    have stands : Element.positionOf? (position.place.child 0) items ((position.place.child 0).child index) =
        some index := by
      rw [Element.positionOf?, located, Option.filter_some, decide_eq_true inside]
      rfl
    simp [Element.ofNode, Step.of?, stands]
  | scalar leaf => simp [Element.ofNode, Element.children] at found

theorem Route.value {first last : Element} {steps : List Step} {value : Node} (route : Route first steps last)
    (holds : first.value? = some value) : ∃ value, last.value? = some value := by
  induction route generalizing value with
  | here => exact ⟨value, holds⟩
  | down hangs _ ih => exact ih hangs.value

/-- A trail stands at a position: its steps are the route there, and it ends at the position or at the
bare value of it. -/
structure Stands (document : Nat) (root : Node) (trail : Trail) (position : Element) (steps : List Step) : Prop where
  rooted : trail.steps = ⟨.root, root⟩ :: steps
  route : Route (.ofDocument document root) steps position
  current : trail.current? = some position ∨ ∃ value, position.value? = some value ∧
    trail.current? = some (.ofNode (position.place.child 0) value)

theorem stands_of_descends {document : Nat} {root : Node} {trail : Trail}
    (descends : Descends document root trail) : ∃ position steps, Stands document root trail position steps := by
  induction descends with
  | start => exact ⟨_, [], rfl, .here, .inl rfl⟩
  | @down trail parent child _ member ih =>
    obtain ⟨position, steps, same, route, current⟩ := ih
    rw [Trail.current?_push] at current
    rcases current with current | ⟨value, holds, current⟩
    · cases current
      obtain ⟨value, holds⟩ := route.value rfl
      rw [children_of_value holds, List.mem_singleton] at member
      subst member
      refine ⟨parent, steps, ?_, route, .inr ⟨value, holds, Trail.current?_push _ _⟩⟩
      rw [steps_push, same, of_ofNode]
      simp
    · cases current
      obtain ⟨step, hangs, found⟩ := entry_of_child holds member
      refine ⟨child, steps ++ [step], ?_, route.extend hangs, .inl (Trail.current?_push _ _)⟩
      rw [steps_push, same, Trail.current?_push, found]
      rfl

/-- A trail is at a step just when it ends at the position it stands at. -/
theorem Stands.atStep {document : Nat} {root : Node} {trail : Trail} {position : Element} {steps : List Step}
    (stands : Stands document root trail position steps) :
    trail.atStep = true ↔ trail.current? = some position := by
  obtain ⟨value, holds⟩ := stands.route.value rfl
  rcases stands.current with current | ⟨value, _, current⟩
  · simp [Trail.atStep, Element.isKeyed, current, holds]
  · simp only [Trail.atStep, Element.isKeyed, current, not_keyed_ofNode, Option.any_some, Option.isSome_none,
      Bool.false_eq_true, Option.some.injEq, false_iff]
    intro same
    rw [← same, not_keyed_ofNode] at holds
    cases holds

/-- An entry is a child of the bare value that its position holds. -/
theorem child_of_entry {position entry : Element} {step : Step} (hangs : Entry position step entry) :
    ∃ bare ∈ position.children, entry ∈ bare.children := by
  cases hangs with
  | @mapping entries index _ _ holds found =>
    refine ⟨.ofNode (position.place.child 0) (.mapping entries), by simp [children_of_value holds], ?_⟩
    exact List.mem_of_getElem? (i := index) (by simp [Element.ofNode, Element.children, found])
  | @sequence items index _ holds found =>
    refine ⟨.ofNode (position.place.child 0) (.sequence items), by simp [children_of_value holds], ?_⟩
    exact List.mem_of_getElem? (i := index) (by simp [Element.ofNode, Element.children, found])

/-- From a position a trail goes on over the bare value there to the entries. -/
theorem Stands.entry {document : Nat} {root : Node} {trail : Trail} {position bare entry : Element} {steps : List Step}
    (stands : Stands document root trail position steps) (current : trail.current? = some position)
    (within : bare ∈ position.children) (among : entry ∈ bare.children) :
    ∃ step, Entry position step entry ∧
      Stands document root ((trail.push bare).push entry) entry (steps ++ [step]) := by
  obtain ⟨value, holds⟩ := stands.route.value rfl
  rw [children_of_value holds, List.mem_singleton] at within
  subst within
  obtain ⟨step, hangs, found⟩ := entry_of_child holds among
  refine ⟨step, hangs, ?_, stands.route.extend hangs, .inl (Trail.current?_push _ _)⟩
  rw [steps_push, steps_push, stands.rooted, current, of_ofNode, Trail.current?_push, found]
  simp

private theorem keyed_of_step {before : Option Element} {element : Element} {step : Step}
    (found : Step.of? before element = some step) : element.isKeyed = true := by
  obtain ⟨place, content⟩ := element
  cases content with
  | document | mappingEntry | sequenceEntry => rfl
  | mapping | sequence | scalar => cases found

private theorem no_step_of_bare {before : Option Element} {element : Element} (bare : element.value? = none) :
    Step.of? before element = none := by
  obtain ⟨place, content⟩ := element
  cases content with
  | document | mappingEntry | sequenceEntry => cases bare
  | mapping | sequence | scalar => rfl

/-- Every step of a walked trail was the last one of a trail above. -/
theorem exists_above {document : Nat} {root : Node} {trail : Trail} {first ahead : List Step}
    (descends : Descends document root trail) (split : trail.steps = ⟨.root, root⟩ :: (first ++ ahead)) :
    ∃ above, above.elements <+: trail.elements ∧ Descends document root above ∧ above.atStep = true ∧
      above.steps = ⟨.root, root⟩ :: first := by
  induction descends generalizing ahead with
  | start =>
    obtain ⟨rfl, _⟩ := List.nil_eq_append_iff.mp (List.cons.inj split).2
    exact ⟨_, List.prefix_rfl, .start, rfl, rfl⟩
  | @down trail parent child descends member ih =>
    rw [steps_push] at split
    cases found : Step.of? (trail.push parent).current? child with
    | none =>
      rw [found, Option.toList_none, List.append_nil] at split
      obtain ⟨above, under, rest⟩ := ih split
      exact ⟨above, under.trans (List.prefix_append _ _), rest⟩
    | some step =>
      obtain rfl | ⟨before, last, rfl⟩ := List.eq_nil_or_concat ahead
      · refine ⟨_, List.prefix_rfl, .down descends member, ?_, ?_⟩
        · simpa [Trail.atStep] using keyed_of_step found
        · rw [steps_push, split, List.append_nil]
      · rw [found, List.concat_eq_append, ← List.append_assoc, ← List.cons_append] at split
        obtain ⟨above, under, rest⟩ := ih (List.append_inj' split rfl).1
        exact ⟨above, under.trans (List.prefix_append _ _), rest⟩

/-- A bare value has no step of its own, and it lies directly below a position. -/
theorem above_bare {document : Nat} {root : Node} {trail : Trail} {bare : Element}
    (descends : Descends document root trail) (current : trail.current? = some bare) (plain : bare.value? = none) :
    ∃ above position, trail = above.push bare ∧ Descends document root above ∧ above.atStep = true ∧
      above.current? = some position ∧ bare ∈ position.children ∧ above.steps = trail.steps := by
  cases descends with
  | start =>
    rw [Trail.current?_push] at current
    cases current
    cases plain
  | @down above parent child descends member =>
    rw [Trail.current?_push] at current
    cases current
    refine ⟨_, parent, rfl, descends, ?_, Trail.current?_push _ _, member, ?_⟩
    · obtain ⟨position, steps, stands⟩ := stands_of_descends descends
      rcases stands.current with here | ⟨value, holds, here⟩
      · exact stands.atStep.mpr here
      · rw [Trail.current?_push] at here
        cases here
        obtain ⟨step, hangs, _⟩ := entry_of_child holds member
        cases hangs.value.symm.trans plain
    · rw [steps_push (above.push parent), no_step_of_bare plain, Option.toList_none, List.append_nil]

/-- A walked trail at a step is the first one, or goes on from a step above by one entry. -/
theorem keyed_cases {document : Nat} {root : Node} {trail : Trail} (descends : Descends document root trail)
    (atStep : trail.atStep = true) : trail = Trail.empty.push (.ofDocument document root) ∨
      ∃ above position bare entry step, trail = (above.push bare).push entry ∧ Descends document root above ∧
        above.atStep = true ∧ above.current? = some position ∧ bare ∈ position.children ∧
        Entry position step entry ∧ trail.steps = above.steps ++ [step] := by
  cases descends with
  | start => exact .inl rfl
  | @down before bare entry descends member =>
    have keyed : entry.isKeyed = true := by simpa [Trail.atStep] using atStep
    cases holds : bare.value? with
    | some value =>
      rw [children_of_value holds, List.mem_singleton] at member
      rw [member, Element.isKeyed, not_keyed_ofNode] at keyed
      cases keyed
    | none =>
      obtain ⟨above, position, same, descendsAbove, atStepAbove, current, within, _⟩ :=
        above_bare descends (Trail.current?_push _ _) holds
      obtain ⟨_, steps, stands⟩ := stands_of_descends descendsAbove
      cases current.symm.trans (stands.atStep.mp atStepAbove)
      obtain ⟨step, hangs, further⟩ := stands.entry current within member
      refine .inr ⟨above, position, bare, entry, step, by rw [same], descendsAbove, atStepAbove, current, within, hangs, ?_⟩
      rw [same, further.rooted, stands.rooted, List.cons_append]

end PathQuery.Proofs.Positions
