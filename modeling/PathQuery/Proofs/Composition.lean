import PathQuery.Proofs.Lookahead

/-! One path after another. What a first path leads to, taken as a document of its own, is where a
second path starts; the two are followed in this way just where the path made of both leads. The
matcher looks at nothing that lies before the cut, and a value has the same routes below it whether
it hangs in a document or is one. -/

namespace PathQuery.Proofs.Composition
open PathQuery.Path WalkedTrails Positions Leads Notation Lookahead

/-- The segments of a path and then those of a second one without its root. -/
def followedBy (first second : Path) : Path := ⟨first.segments ++ second.segments.tail⟩

/-- The place in a document for a place in the value below `place`, taken as a document. -/
def inside (place inner : Place) : Place := ⟨place.document, place.path ++ inner.path⟩

variable {document : Nat} {root : Node} {trail : Trail} {position : Element}

theorem Grouped.append {segments more : List Segment} (grouped : Grouped segments) (further : Grouped more) :
    Grouped (segments ++ more) := by
  induction grouped with
  | nil => exact further
  | single bracketed _ ih => exact .single bracketed ih
  | descent bracketed _ ih => exact .descent bracketed ih

private theorem wellFormed_followedBy {first second : Path} (valid : WellFormed first.segments)
    (valid' : WellFormed second.segments) : WellFormed (followedBy first second).segments := by
  obtain ⟨_ | ⟨start, segments⟩⟩ := first
  · cases valid.rooted
  obtain ⟨_ | ⟨start', more⟩⟩ := second
  · cases valid'.rooted
  cases valid.rooted
  cases valid'.rooted
  exact wellFormed_of_grouped (Grouped.append (grouped_of_wellFormed valid) (grouped_of_wellFormed valid'))

private theorem stands_at {value : Node} (descends : Descends document root trail)
    (current : trail.current? = some position)
    (holds : position.value? = some value) : ∃ steps, Stands document root trail position steps := by
  obtain ⟨_, steps, stands⟩ := stands_of_descends descends
  have atStep : trail.atStep = true := by simp [Trail.atStep, Element.isKeyed, current, holds]
  cases current.symm.trans (stands.atStep.mp atStep)
  exact ⟨steps, stands⟩

/-- A trail to a position passes every position on its route. -/
theorem exists_halfway {first ahead : List Step} (descends : Descends document root trail)
    (stands : Stands document root trail position (first ++ ahead)) (current : trail.current? = some position) :
    ∃ above middle, Descends document root above ∧ Stands document root above middle first ∧
      above.current? = some middle ∧ Route middle ahead position := by
  induction ahead using List.reverseRecOn generalizing trail position with
  | nil => exact ⟨trail, position, descends, List.append_nil first ▸ stands, current, .here⟩
  | append_singleton ahead step ih =>
    obtain rfl | ⟨before, parent, bare, entry, last, rfl, descendsBefore, atStep, currentBefore, _, hangs, steps⟩ :=
      keyed_cases descends (stands.atStep.mpr current)
    · have single : (Trail.empty.push (.ofDocument document root)).steps = [⟨.root, root⟩] := rfl
      have long := single.symm.trans stands.rooted
      simp at long
    · rw [Trail.current?_push] at current
      cases current
      obtain ⟨_, _, standsBefore⟩ := stands_of_descends descendsBefore
      cases currentBefore.symm.trans (standsBefore.atStep.mp atStep)
      have along := stands.rooted
      rw [steps, standsBefore.rooted, ← List.append_assoc, ← List.cons_append] at along
      obtain ⟨same, last⟩ := List.append_inj' along rfl
      obtain rfl := (List.cons.inj same).2
      cases last
      obtain ⟨above, middle, descendsAbove, standsAbove, currentAbove, route⟩ :=
        ih descendsBefore standsBefore currentBefore
      exact ⟨above, middle, descendsAbove, standsAbove, currentAbove, route.extend hangs⟩

/-- From a position that a trail ends at, the trail goes on along any route. -/
theorem exists_trail {last : Element} {steps : List Step} (descends : Descends document root trail)
    (current : trail.current? = some position) (route : Route position steps last) :
    ∃ below, Descends document root below ∧ below.current? = some last := by
  induction route generalizing trail with
  | here => exact ⟨trail, descends, current⟩
  | @down position entry _ _ _ hangs _ ih =>
    obtain ⟨bare, within, among⟩ := child_of_entry hangs
    obtain ⟨above, rfl⟩ : ∃ above : Trail, trail = above.push position := by
      cases descends <;> exact ⟨_, by rw [Trail.current?_push] at current; cases current; rfl⟩
    exact ih (.down (.down descends within) among) (Trail.current?_push _ _)

/-- A position has the same entries wherever it stands. -/
theorem Entry.elsewhere {entry other : Element} {step : Step} (hangs : Entry position step entry)
    (same : other.value? = position.value?) : ∃ index entry', Entry other step entry' ∧
      entry.place = (position.place.child 0).child index ∧ entry'.place = (other.place.child 0).child index := by
  cases hangs with
  | @mapping _ index _ _ holds found => exact ⟨index, _, .mapping (same.trans holds) found, rfl, rfl⟩
  | @sequence _ index _ holds found => exact ⟨index, _, .sequence (same.trans holds) found, rfl, rfl⟩

/-- A route leads from equal values to corresponding places. -/
theorem Route.elsewhere {last other : Element} {steps : List Step} (route : Route position steps last)
    (same : other.value? = position.value?) : ∃ more last', Route other steps last' ∧
      last.place = ⟨position.place.document, position.place.path ++ more⟩ ∧
      last'.place = ⟨other.place.document, other.place.path ++ more⟩ := by
  induction route generalizing other with
  | here => exact ⟨[], other, .here, by simp, by simp⟩
  | down hangs _ ih =>
    obtain ⟨index, entry', hangs', place, place'⟩ := Entry.elsewhere hangs same
    obtain ⟨more, last', route', located, located'⟩ := ih (hangs'.value.trans hangs.value.symm)
    refine ⟨0 :: index :: more, last', .down hangs' route', ?_, ?_⟩
    · simpa [place, Place.child] using located
    · simpa [place', Place.child] using located'

/-- A trail ends at a position if a route leads to its place: what lies at the place of a position
is no bare value. -/
theorem stands_of_place {element last : Element} {steps : List Step} (descends : Descends document root trail)
    (current : trail.current? = some element) (route : Route (.ofDocument document root) steps last)
    (same : element.place = last.place) : Stands document root trail element steps := by
  obtain ⟨position, others, stands⟩ := stands_of_descends descends
  obtain here | ⟨value, holds, here⟩ := stands.current
  · cases current.symm.trans here
    obtain ⟨rfl, _⟩ := stands.route.unique_of_place route same
    exact stands
  · cases current.symm.trans here
    obtain ⟨_, located, even⟩ := stands.route.place
    obtain ⟨_, located', even'⟩ := route.place
    have odd : (Element.ofNode (position.place.child 0) value).place = position.place.child 0 := by cases value <;> rfl
    have paths := congrArg (fun place => place.path.length) (odd.symm.trans (same.trans located'))
    simp only [located, Place.child, Element.ofDocument, List.nil_append, List.length_append, List.length_singleton] at paths
    omega

private theorem isMatch_followedBy_iff {segments more : List Segment} {element : Element} (number : Nat)
    (descends : Descends document root trail) (current : trail.current? = some element) :
    Path.isMatch ⟨.root :: (segments ++ more)⟩ trail = true ↔
      ∃ above middle value below inner, Descends document root above ∧ above.current? = some middle ∧
        middle.value? = some value ∧ Path.isMatch ⟨.root :: segments⟩ above = true ∧
        Descends number value below ∧ below.current? = some inner ∧
        element.place = inside middle.place inner.place ∧ Path.isMatch ⟨.root :: more⟩ below = true := by
  constructor
  · intro found
    obtain ⟨position, steps, stands⟩ := stands_of_descends descends
    obtain ⟨here, run⟩ := (isMatch_iff_run stands).mp found
    cases current.symm.trans here
    obtain ⟨first, ahead, rfl, start, further⟩ := run_split run rfl
    obtain ⟨above, middle, descendsAbove, standsAbove, currentAbove, route⟩ := exists_halfway descends stands current
    have holds := arrival_of_route standsAbove.route rfl
    have same : (Element.ofDocument number (arrival root first)).value? = middle.value? := holds.symm
    obtain ⟨more, inner, route', located, located'⟩ := Route.elsewhere route same
    obtain ⟨below, descendsBelow, currentBelow⟩ := exists_trail .start (Trail.current?_push _ _) route'
    have standsBelow := stands_of_place descendsBelow currentBelow route' rfl
    refine ⟨above, middle, _, below, inner, descendsAbove, currentAbove, holds,
      (isMatch_iff_run standsAbove).mpr ⟨currentAbove, start⟩, descendsBelow, currentBelow, ?_,
      (isMatch_iff_run standsBelow).mpr ⟨currentBelow, further⟩⟩
    simp [inside, located, located', Element.ofDocument]
  · rintro ⟨above, middle, value, below, inner, descendsAbove, currentAbove, holds, found, descendsBelow, currentBelow,
      same, found'⟩
    obtain ⟨first, standsAbove⟩ := stands_at descendsAbove currentAbove holds
    obtain ⟨_, ahead, standsBelow⟩ := stands_of_descends descendsBelow
    obtain ⟨here, further⟩ := (isMatch_iff_run standsBelow).mp found'
    cases currentBelow.symm.trans here
    obtain ⟨_, start⟩ := (isMatch_iff_run standsAbove).mp found
    obtain ⟨more, last, route, located, located'⟩ := Route.elsewhere standsBelow.route holds
    have place : element.place = last.place := by
      rw [same, located, located']
      simp [inside, Element.ofDocument]
    have stands := stands_of_place descends current (standsAbove.route.append route) place
    have reached := holds.symm.trans (arrival_of_route standsAbove.route rfl)
    cases reached
    exact (isMatch_iff_run stands).mpr ⟨current, run_append start further⟩

/-- Two paths one after the other are again a path. It matches an element of a document just when the first path
matches a keyed element such that, in a document of the value there, the second path matches at the corresponding
place. -/
theorem isMatch_followedBy {expression expression' : String} {first second : Path}
    (compiled : Path.compile expression = .ok first) (compiled' : Path.compile expression' = .ok second) :
    (∃ whole, Path.compile whole = .ok (followedBy first second)) ∧
      ∀ document root trail element number, Walked document root trail → trail.current? = some element →
        ((followedBy first second).isMatch trail = true ↔
          ∃ above middle value below inner, Walked document root above ∧ above.current? = some middle ∧
            middle.value? = some value ∧ first.isMatch above = true ∧
            Walked number value below ∧ below.current? = some inner ∧
            element.place = inside middle.place inner.place ∧ second.isMatch below = true) := by
  have valid := wellFormed_followedBy (wellFormed_of_compile compiled) (wellFormed_of_compile compiled')
  refine ⟨⟨_, compile_display valid⟩, ?_⟩
  intro document root trail element number walked current
  obtain ⟨segments, rfl, _⟩ := segments_of_compile compiled
  obtain ⟨more, rfl, _⟩ := segments_of_compile compiled'
  simp only [Visited.walked_iff]
  exact isMatch_followedBy_iff number walked.descends current

/-- A key below itself, with two mappings in a sequence there. -/
def nested : Node := .mapping [("a", .mapping [("a", .sequence [.mapping [("k", .plain "w")], .mapping [("k", .plain "v")]])])]

def innerItems : Node := .sequence [.mapping [("k", .plain "w")], .mapping [("k", .plain "v")]]

def toItems : Trail :=
  (((((Trail.empty.push (.ofDocument 0 nested)).push (.ofNode ⟨0, [0]⟩ nested)).push
    ⟨⟨0, [0, 0]⟩, .mappingEntry "a" (.mapping [("a", innerItems)])⟩).push
    (.ofNode ⟨0, [0, 0, 0]⟩ (.mapping [("a", innerItems)]))).push
    ⟨⟨0, [0, 0, 0, 0]⟩, .mappingEntry "a" innerItems⟩).push (.ofNode ⟨0, [0, 0, 0, 0, 0]⟩ innerItems)

def anyA : Path := ⟨[.root, .descent, .field "a"]⟩

def anyChosen : Path := ⟨[.root, .descent, .predicate ⟨"k", "v"⟩]⟩

theorem isMatch_followedBy_below_itself :
    Path.compile "$..a" = .ok anyA ∧ Path.compile "$..[?(@.k == 'v')]" = .ok anyChosen ∧
      (∃ whole, Path.compile whole = .ok (followedBy anyA anyChosen)) ∧
      Walked 0 nested (toItems.push ⟨⟨0, [0, 0, 0, 0, 0, 1]⟩, .sequenceEntry (.mapping [("k", .plain "v")])⟩) ∧
      (∃ above middle value below inner, Walked 0 nested above ∧ above.current? = some middle ∧
        middle.value? = some value ∧ anyA.isMatch above = true ∧ Walked 1 value below ∧
        below.current? = some inner ∧ ⟨0, [0, 0, 0, 0, 0, 1]⟩ = inside middle.place inner.place ∧
        anyChosen.isMatch below = true) ∧
      Walked 0 nested (toItems.push ⟨⟨0, [0, 0, 0, 0, 0, 0]⟩, .sequenceEntry (.mapping [("k", .plain "w")])⟩) ∧
      ¬ ∃ above middle value below inner, Walked 0 nested above ∧ above.current? = some middle ∧
        middle.value? = some value ∧ anyA.isMatch above = true ∧ Walked 1 value below ∧
        below.current? = some inner ∧ ⟨0, [0, 0, 0, 0, 0, 0]⟩ = inside middle.place inner.place ∧
        anyChosen.isMatch below = true := by
  have compiled : Path.compile "$..a" = .ok anyA := Compiling.compile_of_toOption (by decide +kernel)
  have compiled' : Path.compile "$..[?(@.k == 'v')]" = .ok anyChosen :=
    Compiling.compile_of_toOption (by decide +kernel)
  have items : Descends 0 nested toItems :=
    .down (.down (.down (.down (.down .start (by decide)) (by decide)) (by decide)) (by decide)) (by decide)
  have second : Walked 0 nested (toItems.push ⟨⟨0, [0, 0, 0, 0, 0, 1]⟩, .sequenceEntry (.mapping [("k", .plain "v")])⟩) :=
    Visited.walked_iff.mpr (.down items (by decide))
  have first : Walked 0 nested (toItems.push ⟨⟨0, [0, 0, 0, 0, 0, 0]⟩, .sequenceEntry (.mapping [("k", .plain "w")])⟩) :=
    Visited.walked_iff.mpr (.down items (by decide))
  obtain ⟨whole, stages⟩ := isMatch_followedBy compiled compiled'
  refine ⟨compiled, compiled', whole, second, (stages 0 nested _ _ 1 second rfl).mp (by decide), first, ?_⟩
  intro reached
  have found := (stages 0 nested _ _ 1 first rfl).mpr reached
  exact absurd found (by decide)

end PathQuery.Proofs.Composition
