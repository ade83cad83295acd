import PathQuery.Proofs.Locations

/-! The keys of the steps are not kept on a trail, but found from the elements that stand next to each
other on it. On a walked trail each of them is the key of the very entry that the trail goes through, so
that the keys lead from the root to the element, and to it alone if no mapping repeats a key. -/

namespace PathQuery.Proofs.KeyPaths
open WalkedTrails Positions Locations

/-- A step goes to an entry of a value: one with the name, or the one at the index. -/
inductive Holds : Node → Step → Prop where
  | mapping {entries : List (String × Node)} {name : String} {value : Node} (member : (name, value) ∈ entries) :
      Holds (.mapping entries) ⟨.name name, value⟩
  | sequence {items : List Node} {index : Nat} {value : Node} (found : items[index]? = some value) :
      Holds (.sequence items) ⟨.index index, value⟩

/-- A route with the entries on it. Each of them stands at its own place in the value of the one before,
so that an equal entry at another index is not taken for it. -/
inductive Along : Element → List Step → List Element → Element → Prop where
  | here {position : Element} : Along position [] [] position
  | down {position entry last : Element} {step : Step} {steps : List Step} {entries : List Element}
      (hangs : Entry position step entry) (more : Along entry steps entries last) :
      Along position (step :: steps) (entry :: entries) last

/-- No mapping in a value, however deep, has two entries under one key. -/
inductive Unrepeated : Node → Prop where
  | mapping {entries : List (String × Node)} (distinct : (entries.map Prod.fst).Nodup)
      (inside : ∀ entry ∈ entries, Unrepeated entry.2) : Unrepeated (.mapping entries)
  | sequence {items : List Node} (inside : ∀ item ∈ items, Unrepeated item) : Unrepeated (.sequence items)
  | scalar {leaf : Scalar} : Unrepeated (.scalar leaf)

/-- The steps of a trail tell how its keyed elements hang in one another, from the document down. -/
structure Projects (document : Nat) (root : Node) (trail : Trail) : Prop where
  rooted : trail.steps.head? = some ⟨.root, root⟩
  attached : ∀ step ∈ trail.steps.tail, step.key ≠ .root ∧ step.key ≠ .detached
  held : trail.steps.IsChain fun before after => Holds before.value after
  through : ∃ entries last, trail.elements.filter Element.isKeyed = .ofDocument document root :: entries ∧
    Along (.ofDocument document root) trail.steps.tail entries last
  current : ∀ element, trail.current? = some element → element.isKeyed = true →
    trail.steps.getLast?.map Step.value = element.value?

private theorem holds_of_entry {position entry : Element} {step : Step} {value : Node}
    (hangs : Entry position step entry) (holds : position.value? = some value) : Holds value step := by
  cases hangs with
  | mapping holds' found =>
    cases holds.symm.trans holds'
    exact .mapping (List.mem_of_getElem? found)
  | sequence holds' found =>
    cases holds.symm.trans holds'
    exact .sequence found

private theorem attached_of_entry {position entry : Element} {step : Step} (hangs : Entry position step entry) :
    step.key ≠ .root ∧ step.key ≠ .detached := by
  cases hangs <;> simp

theorem Along.extend {first middle last : Element} {steps : List Step} {entries : List Element} {step : Step}
    (along : Along first steps entries middle) (hangs : Entry middle step last) :
    Along first (steps ++ [step]) (entries ++ [last]) last := by
  induction along with
  | here => exact .down hangs .here
  | down hangs' _ ih => exact .down hangs' (ih hangs)

private theorem Along.attached {first last : Element} {steps : List Step} {entries : List Element}
    (along : Along first steps entries last) : ∀ step ∈ steps, step.key ≠ .root ∧ step.key ≠ .detached := by
  induction along with
  | here => simp
  | down hangs _ ih => exact List.forall_mem_cons.mpr ⟨attached_of_entry hangs, ih⟩

theorem Along.held {first last : Element} {steps : List Step} {entries : List Element} {value : Node}
    (along : Along first steps entries last) (key : StepKey) (holds : first.value? = some value) :
    (⟨key, value⟩ :: steps).IsChain fun before after => Holds before.value after := by
  induction along generalizing key value with
  | here => exact .singleton _
  | @down _ _ _ step _ _ hangs _ ih => exact .cons_cons (holds_of_entry hangs holds) (ih step.key hangs.value)

theorem Along.route {first last : Element} {steps : List Step} {entries : List Element}
    (along : Along first steps entries last) : Route first steps last := by
  induction along with
  | here => exact .here
  | down hangs _ ih => exact .down hangs ih

private theorem value_of_entry {position entry : Element} {step : Step} (hangs : Entry position step entry) :
    ∃ value, position.value? = some value := by
  cases hangs <;> exact ⟨_, ‹_›⟩

/-- The keyed elements of a trail that ends at a step are the document and an entry for each later step. -/
theorem along_of_atStep {document : Nat} {root : Node} {trail : Trail} (descends : Descends document root trail)
    (atStep : trail.atStep = true) : ∃ steps entries last, trail.steps = ⟨.root, root⟩ :: steps ∧
      trail.elements.filter Element.isKeyed = .ofDocument document root :: entries ∧
      Along (.ofDocument document root) steps entries last ∧ trail.current? = some last := by
  induction size : trail.elements.length using Nat.strongRecOn generalizing trail with
  | ind size ih =>
    obtain rfl | ⟨above, position, bare, entry, step, rfl, descendsAbove, atStepAbove, current, within, hangs, same⟩ :=
      keyed_cases descends atStep
    · exact ⟨[], [], _, rfl, rfl, .here, Trail.current?_push _ _⟩
    · obtain ⟨steps, entries, last, rooted, keyed, along, current'⟩ :=
        ih above.elements.length (by simp [← size, Trail.push]) descendsAbove atStepAbove rfl
      cases current.symm.trans current'
      refine ⟨steps ++ [step], entries ++ [entry], entry, ?_, ?_, along.extend hangs, Trail.current?_push _ _⟩
      · rw [same, rooted, List.cons_append]
      · obtain ⟨value, holds⟩ := value_of_entry hangs
        rw [children_of_value holds, List.mem_singleton] at within
        have plain : bare.isKeyed = false := by simp [within, Element.isKeyed, not_keyed_ofNode]
        have entered : entry.isKeyed = true := by simp [Element.isKeyed, hangs.value]
        simp [Trail.push, keyed, plain, entered]

/-- A trail that ends at a bare value has the keyed elements and the steps of the trail above. -/
theorem along_of_descends {document : Nat} {root : Node} {trail : Trail} (descends : Descends document root trail) :
    ∃ steps entries last, trail.steps = ⟨.root, root⟩ :: steps ∧
      trail.elements.filter Element.isKeyed = .ofDocument document root :: entries ∧
      Along (.ofDocument document root) steps entries last := by
  by_cases atStep : trail.atStep = true
  · obtain ⟨steps, entries, last, rooted, keyed, along, _⟩ := along_of_atStep descends atStep
    exact ⟨steps, entries, last, rooted, keyed, along⟩
  · obtain ⟨bare, current⟩ : ∃ bare, trail.current? = some bare := by
      cases descends <;> exact ⟨_, Trail.current?_push _ _⟩
    have plain : bare.value? = none := by simpa [Trail.atStep, Element.isKeyed, current] using atStep
    obtain ⟨above, _, rfl, descendsAbove, atStepAbove, _, _, same⟩ := above_bare descends current plain
    obtain ⟨steps, entries, last, rooted, keyed, along, _⟩ := along_of_atStep descendsAbove atStepAbove
    refine ⟨steps, entries, last, same ▸ rooted, ?_, along⟩
    simp [Trail.push, keyed, Element.isKeyed, plain]

private theorem projects_of_descends {document : Nat} {root : Node} {trail : Trail}
    (descends : Descends document root trail) : Projects document root trail := by
  obtain ⟨steps, entries, last, rooted, keyed, along⟩ := along_of_descends descends
  refine ⟨by rw [rooted]; rfl, ?_, ?_, ⟨entries, last, keyed, ?_⟩, ?_⟩
  · rw [rooted]
    exact along.attached
  · rw [rooted]
    exact along.held .root rfl
  · rwa [rooted]
  · intro element current isKeyed
    have atStep : trail.atStep = true := by simp [Trail.atStep, current, isKeyed]
    obtain ⟨steps, _, last, rooted, _, along, current'⟩ := along_of_atStep descends atStep
    cases current.symm.trans current'
    rw [rooted, Leads.last_value, Leads.arrival_of_route along.route rfl]

/-- The value that an element is or stands for. -/
def held (element : Element) : Node :=
  match element.content with
  | .document root => root
  | .mapping entries => .mapping entries
  | .mappingEntry _ value | .sequenceEntry value => value
  | .sequence items => .sequence items
  | .scalar leaf => .scalar leaf

private theorem held_ofNode (place : Place) (value : Node) : held (.ofNode place value) = value := by
  cases value <;> rfl

private theorem unrepeated_of_child {element child : Element} (clean : Unrepeated (held element))
    (member : child ∈ element.children) : Unrepeated (held child) := by
  obtain ⟨place, content⟩ := element
  cases content with
  | document root | mappingEntry key root | sequenceEntry root =>
    rw [Element.children, List.mem_singleton] at member
    rwa [member, held_ofNode]
  | mapping entries =>
    obtain ⟨index, found⟩ := List.getElem?_of_mem member
    simp only [Element.children, List.getElem?_mapIdx, Option.map_eq_some_iff] at found
    obtain ⟨⟨key, value⟩, entry, rfl⟩ := found
    cases clean with
    | mapping _ inside => exact inside _ (List.mem_of_getElem? entry)
  | sequence items =>
    obtain ⟨index, found⟩ := List.getElem?_of_mem member
    simp only [Element.children, List.getElem?_mapIdx, Option.map_eq_some_iff] at found
    obtain ⟨value, item, rfl⟩ := found
    cases clean with
    | sequence inside => exact inside _ (List.mem_of_getElem? item)
  | scalar leaf => cases member

private theorem unrepeated_of_descends {document : Nat} {root : Node} {trail : Trail} (unrepeated : Unrepeated root)
    (descends : Descends document root trail) : ∀ element ∈ trail.elements, Unrepeated (held element) := by
  induction descends with
  | start =>
    intro element member
    rw [List.mem_singleton.mp member]
    exact unrepeated
  | @down trail parent child _ among ih =>
    intro element member
    rcases List.mem_append.mp member with before | last
    · exact ih element before
    · rw [List.mem_singleton.mp last]
      exact unrepeated_of_child (ih parent (by simp [Trail.push])) among

private theorem distinct_of_descends {document : Nat} {root : Node} {trail : Trail} (unrepeated : Unrepeated root)
    (descends : Descends document root trail) : Distinct trail := by
  intro element member entries content
  have clean := unrepeated_of_descends unrepeated descends element member
  rw [held, content] at clean
  cases clean with
  | mapping distinct => exact distinct

/-- On every walked trail the steps are those of the entries that it goes through, each under the key at
which it hangs, and different elements have different keys in a document in which no mapping repeats one. -/
theorem steps_of_walk {document : Nat} {root : Node} {trail : Trail} (walked : Walked document root trail) :
    Projects document root trail ∧
      (Unrepeated root → ∀ other first second, Walked document root other → trail.current? = some first →
        other.current? = some second → first.isKeyed = true → second.isKeyed = true → first ≠ second →
        trail.steps.map Step.key ≠ other.steps.map Step.key) := by
  refine ⟨projects_of_descends walked.descends, ?_⟩
  intro unrepeated other first second walked' current current' keyed keyed' different same
  have distinct := distinct_of_descends unrepeated walked.descends
  have atStep : trail.atStep = true := by simp [Trail.atStep, current, keyed]
  have atStep' : other.atStep = true := by simp [Trail.atStep, current', keyed']
  obtain rfl := trail_of_keys walked.descends walked'.descends atStep atStep' distinct same
  exact different (Option.some.inj (current.symm.trans current'))

/-- Equal rows with equal items, and a container with nothing in it. -/
def grid : Node :=
  .sequence [.sequence [.plain "x", .plain "x"], .sequence [.plain "x", .plain "x"], .mapping [("k", .mapping [])]]

/-- To one of the items in the rows of the grid. -/
def intoGrid (row column : Nat) : Trail :=
  ((((Trail.empty.push (.ofDocument 0 grid)).push (.ofNode ⟨0, [0]⟩ grid)).push
    ⟨⟨0, [0, row]⟩, .sequenceEntry (.sequence [.plain "x", .plain "x"])⟩).push
    (.ofNode ⟨0, [0, row, 0]⟩ (.sequence [.plain "x", .plain "x"]))).push
    ⟨⟨0, [0, row, 0, column]⟩, .sequenceEntry (.plain "x")⟩

theorem steps_of_walk_among_equals :
    Walked 0 grid (intoGrid 1 0) ∧ Walked 0 grid (intoGrid 0 1) ∧ Unrepeated grid ∧
      (intoGrid 1 0).steps.map Step.key = [.root, .index 1, .index 0] ∧ Projects 0 grid (intoGrid 1 0) ∧
      (intoGrid 1 0).steps.map Step.key ≠ (intoGrid 0 1).steps.map Step.key := by
  have first : Walked 0 grid (intoGrid 1 0) :=
    Visited.walked_iff.mpr (.down (.down (.down (.down .start (by decide)) (by decide)) (by decide)) (by decide))
  have second : Walked 0 grid (intoGrid 0 1) :=
    Visited.walked_iff.mpr (.down (.down (.down (.down .start (by decide)) (by decide)) (by decide)) (by decide))
  have item : Unrepeated (.plain "x") := .scalar
  have row : Unrepeated (.sequence [.plain "x", .plain "x"]) := .sequence (by simp [item])
  have last : Unrepeated (.mapping [("k", .mapping [])]) :=
    .mapping (by decide) (by simpa using Unrepeated.mapping (by decide) (by simp))
  have unrepeated : Unrepeated grid := .sequence (by simp [row, last])
  obtain ⟨projects, apart⟩ := steps_of_walk first
  exact ⟨first, second, unrepeated, by decide, projects,
    apart unrepeated _ _ _ second rfl rfl rfl rfl (by decide)⟩

end PathQuery.Proofs.KeyPaths
