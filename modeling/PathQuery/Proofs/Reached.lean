import PathQuery.Proofs.Leads
import PathQuery.Proofs.Visited

/-! The forward meaning of a path. Each segment moves from positions to positions, from the
root on, and what the segments reach in this way is exactly what matches. A run of the matcher
goes the other way round: it is given the route and asks whether the segments follow it. -/

namespace PathQuery.Proofs.Reached
open WalkedTrails Visited Positions Leads

/-- The value is a mapping with the literal as the text of a scalar directly under the field. -/
def Satisfies (filter : Filter) (value : Node) : Prop :=
  ∃ entries leaf, value = .mapping entries ∧ (filter.field, .scalar leaf) ∈ entries ∧ leaf.text = filter.literal

/-- Where one segment leads from a position. -/
inductive Moves : Segment → Element → Element → Prop where
  | root {document : Nat} {root : Node} : Moves .root (.ofDocument document root) (.ofDocument document root)
  | field {position entry : Element} {name : String} {value : Node}
      (hangs : Entry position ⟨.name name, value⟩ entry) : Moves (.field name) position entry
  | wildcard {position entry : Element} {step : Step} (hangs : Entry position step entry) :
      Moves .wildcard position entry
  | index {position entry : Element} {index : Nat} {value : Node}
      (hangs : Entry position ⟨.index index, value⟩ entry) : Moves (.index index) position entry
  | descent {position below : Element} {steps : List Step} (route : Route position steps below) :
      Moves .descent position below
  | keep {position : Element} {filter : Filter} {value : Node} (holds : position.value? = some value)
      (satisfies : Satisfies filter value) : Moves (.predicate filter) position position
  | choose {position entry : Element} {filter : Filter} {items : List Node} {step : Step}
      (holds : position.value? = some (.sequence items)) (hangs : Entry position step entry)
      (satisfies : Satisfies filter step.value) : Moves (.predicate filter) position entry

/-- Where segments lead from a position, one after the other. -/
inductive Reaches : List Segment → Element → Element → Prop where
  | here {position : Element} : Reaches [] position position
  | onward {segment : Segment} {segments : List Segment} {position middle last : Element}
      (moves : Moves segment position middle) (more : Reaches segments middle last) :
      Reaches (segment :: segments) position last

theorem accepts_iff {filter : Filter} {value : Node} : filter.accepts value = true ↔ Satisfies filter value := by
  cases value with
  | sequence | scalar => simp [Filter.accepts, Satisfies]
  | mapping entries =>
    simp only [Filter.accepts, Node.valuesAt, List.any_eq_true, List.mem_filterMap, beq_iff_eq]
    constructor
    · rintro ⟨found, ⟨⟨name, value⟩, member, same⟩, text⟩
      simp only [Option.ite_none_right_eq_some, Option.some.injEq] at same
      obtain ⟨rfl, rfl⟩ := same
      cases value with
      | mapping | sequence => cases text
      | scalar leaf => exact ⟨entries, leaf, rfl, member, Option.some.inj text⟩
    · rintro ⟨_, leaf, same, member, text⟩
      cases same
      exact ⟨.scalar leaf, ⟨_, member, by simp⟩, by simp [Node.text?, text]⟩

private theorem moves_over_iff {position entry : Element} {segment : Segment} (crosses : OverKey segment) :
    Moves segment position entry ↔ ∃ step, Entry position step entry ∧ segment.acceptsKey step.key = true := by
  constructor
  · intro moves
    cases moves with
    | root | descent | keep | choose => exact crosses.elim
    | wildcard hangs =>
      refine ⟨_, hangs, ?_⟩
      cases hangs <;> rfl
    | field hangs | index hangs => exact ⟨_, hangs, by simp [Segment.acceptsKey]⟩
  · rintro ⟨step, hangs, accepted⟩
    cases segment with
    | root | descent | predicate => exact crosses.elim
    | wildcard => exact .wildcard hangs
    | field name =>
      cases hangs with
      | sequence => cases accepted
      | mapping holds found =>
        cases beq_iff_eq.mp accepted
        exact .field (.mapping holds found)
    | index position =>
      cases hangs with
      | mapping => cases accepted
      | sequence holds found =>
        cases beq_iff_eq.mp accepted
        exact .index (.sequence holds found)

/-- A run follows the segments forward to the end of the route. -/
theorem reaches_of_run {segments : List Segment} {position last : Element} {steps : List Step} {here : Node}
    (run : Run .matches segments here steps) (route : Route position steps last)
    (holds : position.value? = some here) : Reaches segments position last := by
  induction run generalizing position with
  | ended settled =>
    obtain impossible | rfl := settled
    · cases impossible
    · cases route
      exact .here
  | arrived _ ih => exact .onward (.descent .here) (ih route holds)
  | deeper _ ih =>
    cases route with
    | down hangs further =>
      cases ih further hangs.value with
      | onward moves more =>
        cases moves with
        | descent route => exact .onward (.descent (.down hangs route)) more
  | kept accepted _ ih => exact .onward (.keep holds (accepts_iff.mp accepted)) (ih route holds)
  | chosen accepted _ ih =>
    cases route with
    | down hangs further =>
      exact .onward (.choose holds hangs (accepts_iff.mp accepted)) (ih further hangs.value)
  | across crosses accepted _ ih =>
    cases route with
    | down hangs further =>
      exact .onward ((moves_over_iff crosses).mpr ⟨_, hangs, accepted⟩) (ih further hangs.value)
  | inward wider | choosing wider | into _ wider => cases wider

/-- A descent goes down a route to where the run goes on. -/
theorem run_of_route {segments : List Segment} {position middle : Element} {first steps : List Step}
    {here there : Node} (route : Route position first middle) (holds : position.value? = some here)
    (reached : middle.value? = some there) (run : Run .matches segments there steps) :
    Run .matches (.descent :: segments) here (first ++ steps) := by
  induction route generalizing here with
  | here =>
    cases holds.symm.trans reached
    exact .arrived run
  | down hangs _ ih => exact .deeper (ih hangs.value reached)

/-- What the segments reach lies at the end of a route with a run. -/
theorem run_of_reaches {segments : List Segment} {position last : Element} {here : Node}
    (reaches : Reaches segments position last) (holds : position.value? = some here) (noRoot : .root ∉ segments) :
    ∃ steps, Route position steps last ∧ Run .matches segments here steps := by
  induction reaches generalizing here with
  | here => exact ⟨[], .here, .ended (.inr rfl)⟩
  | @onward segment segments position middle last moves _ ih =>
    have noRootAfter : .root ∉ segments := fun member => noRoot (List.mem_cons_of_mem _ member)
    obtain rfl | rfl | ⟨filter, rfl⟩ | crosses := segment_cases segment
    · simp at noRoot
    · obtain ⟨first, route⟩ : ∃ first, Route position first middle := by
        cases moves with
        | descent route => exact ⟨_, route⟩
      obtain ⟨there, reached⟩ := route.value holds
      obtain ⟨steps, further, run⟩ := ih reached noRootAfter
      exact ⟨_, route.append further, run_of_route route holds reached run⟩
    · cases moves with
      | keep kept satisfies =>
        cases holds.symm.trans kept
        obtain ⟨steps, route, run⟩ := ih holds noRootAfter
        obtain ⟨entries, _, rfl, _⟩ := id satisfies
        exact ⟨steps, route, .kept (accepts_iff.mpr satisfies) run⟩
      | choose sequence hangs satisfies =>
        cases holds.symm.trans sequence
        obtain ⟨steps, route, run⟩ := ih hangs.value noRootAfter
        exact ⟨_, .down hangs route, .chosen (accepts_iff.mpr satisfies) run⟩
    · obtain ⟨step, hangs, accepted⟩ := (moves_over_iff crosses).mp moves
      obtain ⟨steps, route, run⟩ := ih hangs.value noRootAfter
      exact ⟨step :: steps, .down hangs route, .across crosses accepted run⟩

/-- A run over the route to a position succeeds just when the segments reach the position: there is no
other route on which it could be reached. -/
theorem leads_iff_reaches {segments : List Segment} {position last : Element} {steps : List Step} {here : Node}
    (route : Route position steps last) (holds : position.value? = some here) (noRoot : .root ∉ segments) :
    Path.leads .matches segments here steps = true ↔ Reaches segments position last := by
  rw [leads_iff]
  refine ⟨fun run => reaches_of_run run route holds, ?_⟩
  intro reaches
  obtain ⟨steps', route', run⟩ := run_of_reaches reaches holds noRoot
  rwa [route.unique route']

private theorem reaches_root_iff {segments : List Segment} {document : Nat} {root : Node} {last : Element} :
    Reaches (.root :: segments) (.ofDocument document root) last ↔
      Reaches segments (.ofDocument document root) last := by
  constructor
  · intro reaches
    cases reaches with
    | onward moves more =>
      generalize start : Element.ofDocument document root = position at moves
      cases moves with
      | root => exact start ▸ more
  · exact .onward .root

/-- A compiled path matches on a walked trail just when the trail ends at a document or an entry which the
segments of the path reach from the document. -/
theorem isMatch_iff_reached {expression : String} {path : Path} (compiled : Path.compile expression = .ok path)
    {document : Nat} {root : Node} {trail : Trail} (walked : Walked document root trail) :
    path.isMatch trail = true ↔ ∃ position, trail.current? = some position ∧ position.isKeyed = true ∧
      Reaches path.segments (.ofDocument document root) position := by
  obtain ⟨segments, rfl, noRoot⟩ := segments_of_compile compiled
  obtain ⟨last, steps, stands⟩ := stands_of_descends walked.descends
  obtain ⟨value, holds⟩ := stands.route.value rfl
  rw [Path.isMatch, Bool.and_eq_true, stands.atStep, leadsAlong_iff stands,
    leads_iff_reaches stands.route rfl noRoot]
  constructor
  · rintro ⟨current, reaches⟩
    exact ⟨last, current, by simp [Element.isKeyed, holds], reaches_root_iff.mpr reaches⟩
  · rintro ⟨position, current, keyed, reaches⟩
    have atStep : trail.atStep = true := by simp [Trail.atStep, current, keyed]
    have same := stands.atStep.mp atStep
    cases current.symm.trans same
    exact ⟨current, reaches_root_iff.mp reaches⟩

/-- Two entries under one key, of which the second is a sequence. -/
def twice : Node := .mapping [("a", .plain "v"), ("a", .sequence [.mapping [("k", .plain "v")]])]

def intoTwice : Trail :=
  ((((Trail.empty.push (.ofDocument 0 twice)).push (.ofNode ⟨0, [0]⟩ twice)).push
    ⟨⟨0, [0, 1]⟩, .mappingEntry "a" (.sequence [.mapping [("k", .plain "v")]])⟩).push
    (.ofNode ⟨0, [0, 1, 0]⟩ (.sequence [.mapping [("k", .plain "v")]]))).push
    ⟨⟨0, [0, 1, 0, 0]⟩, .sequenceEntry (.mapping [("k", .plain "v")])⟩

theorem isMatch_iff_reached_under_repeated_key :
    Path.compile "$..a[?(@.k == 'v')]" = .ok ⟨[.root, .descent, .field "a", .predicate ⟨"k", "v"⟩]⟩ ∧
      Walked 0 twice intoTwice ∧
      Path.isMatch ⟨[.root, .descent, .field "a", .predicate ⟨"k", "v"⟩]⟩ intoTwice = true ∧
      (Path.isMatch ⟨[.root, .descent, .field "a", .predicate ⟨"k", "v"⟩]⟩ intoTwice = true ↔
        ∃ position, intoTwice.current? = some position ∧ position.isKeyed = true ∧
          Reaches [.root, .descent, .field "a", .predicate ⟨"k", "v"⟩] (.ofDocument 0 twice) position) := by
  have compiled : Path.compile "$..a[?(@.k == 'v')]" =
      .ok ⟨[.root, .descent, .field "a", .predicate ⟨"k", "v"⟩]⟩ :=
    Compiling.compile_of_toOption (by decide +kernel)
  have walked : Walked 0 twice intoTwice :=
    walked_iff.mpr (.down (.down (.down (.down .start (by decide)) (by decide)) (by decide)) (by decide))
  exact ⟨compiled, walked, by decide, isMatch_iff_reached compiled walked⟩

end PathQuery.Proofs.Reached
