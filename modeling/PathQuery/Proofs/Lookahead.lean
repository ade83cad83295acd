import Mathlib.Data.List.Induction
import PathQuery.Proofs.Pruning

/-! What is enclosed, told by matches alone. The wider question looks one step past the end of a
trail: a trail is enclosed if it has come to a match of the whole path, or if the segments it has
not come past could take an entry directly below it, or go on with a descent. -/

namespace PathQuery.Proofs.Lookahead
open WalkedTrails Positions Leads Pruning

variable {segments taken more : List Segment} {segment : Segment} {here : Node} {step : Step} {steps : List Step}
  {position last entry : Element}

/-- Why a run of the wider question need not go on: no segments are left, or the steps end and the next
segment leads into the value there. -/
inductive Stops : List Segment → Node → List Step → Prop where
  | settled {here : Node} {ahead : List Step} : Stops [] here ahead
  | inward {segments : List Segment} {here : Node} {ahead : List Step}
      (container : (arrival here ahead).isContainer = true) : Stops (.descent :: segments) here ahead
  | choosing {segments : List Segment} {filter : Filter} {items : List Node} {item : Node} (member : item ∈ items)
      (accepted : filter.accepts item = true) : Stops (.predicate filter :: segments) (.sequence items) []
  | into {segment : Segment} {segments : List Segment} {here : Node} (crosses : OverKey segment)
      (leading : segment.leadsInto here = true) : Stops (segment :: segments) here []

theorem Stops.run {ahead : List Step} (stops : Stops segments here ahead) : Run .encloses segments here ahead := by
  cases stops with
  | settled => exact .ended (.inl rfl)
  | inward container => exact List.append_nil ahead ▸ run_downward (.inward rfl container)
  | choosing member accepted => exact .choosing rfl member accepted
  | into crosses leading => exact .into crosses rfl leading

/-- A run of the wider question is a match of the segments that it comes past, and then it stops. -/
theorem stops_of_encloses (run : Run .encloses segments here steps) :
    ∃ taken rest first ahead, segments = taken ++ rest ∧ steps = first ++ ahead ∧
      Run .matches taken here first ∧ Stops rest (arrival here first) ahead := by
  have stopped {segments : List Segment} {here : Node} {ahead : List Step} (stops : Stops segments here ahead) :
      ∃ taken rest first after, segments = taken ++ rest ∧ ahead = first ++ after ∧
        Run .matches taken here first ∧ Stops rest (arrival here first) after :=
    ⟨[], segments, [], ahead, rfl, rfl, .ended (.inr rfl), stops⟩
  induction run with
  | ended => exact stopped .settled
  | inward _ container => exact stopped (.inward container)
  | choosing _ member accepted => exact stopped (.choosing member accepted)
  | into crosses _ leading => exact stopped (.into crosses leading)
  | arrived _ ih =>
    obtain ⟨taken, rest, first, ahead, rfl, rfl, run, stops⟩ := ih
    exact ⟨.descent :: taken, rest, first, ahead, rfl, rfl, .arrived run, stops⟩
  | @deeper segments here step steps _ ih =>
    obtain ⟨taken, rest, first, ahead, split, rfl, run, stops⟩ := ih
    cases taken with
    | cons segment taken =>
      cases split
      exact ⟨_, rest, step :: first, ahead, rfl, rfl, .deeper run, stops⟩
    | nil =>
      -- The descent is still to be taken, and so it is from one step further up.
      cases split
      obtain rfl := run_nil run
      cases stops with
      | inward container => exact stopped (.inward container)
      | into crosses => exact crosses.elim
  | kept accepted _ ih =>
    obtain ⟨taken, rest, first, ahead, rfl, rfl, run, stops⟩ := ih
    exact ⟨_ :: taken, rest, first, ahead, rfl, rfl, .kept accepted run, stops⟩
  | @chosen _ _ _ step _ accepted _ ih =>
    obtain ⟨taken, rest, first, ahead, rfl, rfl, run, stops⟩ := ih
    exact ⟨_ :: taken, rest, step :: first, ahead, rfl, rfl, .chosen accepted run, stops⟩
  | @across _ _ _ step _ crosses accepted _ ih =>
    obtain ⟨taken, rest, first, ahead, rfl, rfl, run, stops⟩ := ih
    exact ⟨_ :: taken, rest, step :: first, ahead, rfl, rfl, .across crosses accepted run, stops⟩

/-- Whatever takes the last step of a match could be stopped at before that step. -/
theorem stops_of_match {ahead : List Step} (run : Run .matches [segment] here (ahead ++ [step]))
    (hangs : Entry last step entry) (holds : last.value? = some (arrival here ahead)) :
    Stops (segment :: more) here ahead := by
  obtain rfl | rfl | ⟨filter, rfl⟩ | crosses := segment_cases segment
  · cases leads_of_run run
  · exact .inward (container_of_entry hangs holds)
  · cases ahead with
    | nil =>
      cases run with
      | across crosses => exact crosses.elim
      | kept _ rest => cases run_nil rest
      | chosen accepted => exact .choosing (mem_of_entry hangs holds) accepted
    | cons step ahead =>
      cases run with
      | across crosses => exact crosses.elim
      | kept _ rest => cases run_nil rest
      | chosen _ rest => simpa using run_nil rest
  · cases ahead with
    | nil =>
      cases run with
      | arrived | deeper | kept | chosen => exact crosses.elim
      | across _ accepted => exact .into crosses (leadsInto_of_entry crosses hangs holds accepted)
    | cons step ahead =>
      cases run with
      | arrived | deeper | kept | chosen => exact crosses.elim
      | across _ _ rest => simpa using run_nil rest

/-- A match that comes to an entry has come near enough one step before it. -/
theorem encloses_of_entry (run : Run .matches taken here (steps ++ [step])) (hangs : Entry last step entry)
    (holds : last.value? = some (arrival here steps)) : Run .encloses (taken ++ more) here steps := by
  induction taken using List.reverseRecOn generalizing more with
  | nil => simpa using run_nil run
  | append_singleton taken segment ih =>
    rw [List.append_assoc]
    obtain ⟨first, second, split, start, final⟩ := run_split run rfl
    obtain rfl | ⟨ahead, final', rfl⟩ := List.eq_nil_or_concat second
    · rw [List.append_nil] at split
      exact ih (split ▸ start)
    · rw [List.concat_eq_append, ← List.append_assoc] at split
      rw [List.concat_eq_append] at final
      obtain ⟨rfl, same⟩ := List.append_inj' split rfl
      cases same
      rw [arrival_append] at holds
      exact run_append start (stops_of_match final hangs holds).run

/-- A match that ends with a descent can go on into a container. -/
theorem encloses_of_descent (run : Run .matches (taken ++ [.descent]) here steps)
    (container : (arrival here steps).isContainer = true) : Run .encloses (taken ++ .descent :: more) here steps := by
  obtain ⟨first, ahead, rfl, start, _⟩ := run_split run rfl
  rw [arrival_append] at container
  exact run_append start (Stops.inward container).run

/-- A match of all segments somewhere along the steps settles the wider question. -/
theorem encloses_of_above {above : List Step} (run : Run .matches segments here above) (under : above <+: steps) :
    Run .encloses segments here steps := by
  obtain ⟨ahead, rfl⟩ := under
  exact List.append_nil segments ▸ run_append run Stops.settled.run

/-- A segment leads into a value only if it leads over a step to one of the entries. -/
theorem entry_of_leadsInto (crosses : OverKey segment) (holds : position.value? = some here)
    (leading : segment.leadsInto here = true) :
    ∃ step entry, Entry position step entry ∧ segment.acceptsKey step.key = true := by
  cases segment with
  | root | descent | predicate => exact crosses.elim
  | wildcard =>
    cases here with
    | scalar => cases leading
    | mapping entries =>
      cases entries with
      | nil => cases leading
      | cons entry entries =>
        have first : (entry :: entries)[0]? = some (entry.1, entry.2) := rfl
        exact ⟨_, _, .mapping holds first, rfl⟩
    | sequence items =>
      cases items with
      | nil => cases leading
      | cons item items =>
        have first : (item :: items)[0]? = some item := rfl
        exact ⟨_, _, .sequence holds first, rfl⟩
  | field name =>
    cases here with
    | sequence | scalar => cases leading
    | mapping entries =>
      have some : Node.valuesAt name entries ≠ [] := by simpa [Segment.leadsInto] using leading
      obtain ⟨value, member⟩ := List.exists_mem_of_ne_nil _ some
      simp only [Node.valuesAt, List.mem_filterMap, Option.ite_none_right_eq_some] at member
      obtain ⟨⟨key, _⟩, member, rfl, _⟩ := member
      obtain ⟨_, found⟩ := List.getElem?_of_mem member
      exact ⟨_, _, .mapping holds found, by simp [Segment.acceptsKey]⟩
  | index index =>
    cases here with
    | mapping | scalar => cases leading
    | sequence items =>
      have inside : index < items.length := by simpa [Segment.leadsInto] using leading
      exact ⟨_, _, .sequence holds (List.getElem?_eq_getElem inside), by simp [Segment.acceptsKey]⟩

/-- The first segments of a path as a path. -/
def upTo (path : Path) (count : Nat) : Path := ⟨path.segments.take count⟩

/-- What a trail to a position with a value can be enclosed for: a match at the trail or above it, a match of
some of the segments at an entry of the value, or a match of the trail itself by segments that end with a
descent, which goes on into a container. -/
inductive Foreseen (path : Path) (trail : Trail) (position : Element) (value : Node) : Prop where
  | matched {above : Trail} (under : above.elements <+: trail.elements) (found : path.isMatch above = true)
  | entry {count : Nat} {bare entry : Element} (enough : 2 ≤ count) (within : count ≤ path.segments.length)
      (inside : bare ∈ position.children) (among : entry ∈ bare.children)
      (found : (upTo path count).isMatch ((trail.push bare).push entry) = true)
  | descent {count : Nat} (within : count ≤ path.segments.length) (container : value.isContainer = true)
      (final : (upTo path count).segments.getLast? = some .descent) (found : (upTo path count).isMatch trail = true)

variable {expression : String} {path : Path} {document : Nat} {root value : Node} {trail : Trail}

theorem isMatch_iff_run (stands : Stands document root trail position steps) :
    Path.isMatch ⟨.root :: segments⟩ trail = true ↔
      trail.current? = some position ∧ Run .matches segments root steps := by
  rw [Path.isMatch, Bool.and_eq_true, stands.atStep, leadsAlong_iff stands, leads_iff]

private theorem encloses_iff_run (stands : Stands document root trail position steps) :
    Path.encloses ⟨.root :: segments⟩ trail = true ↔ Run .encloses segments root steps := by
  rw [Path.encloses, leadsAlong_iff stands, leads_iff]

private theorem upTo_append (taken rest : List Segment) :
    upTo ⟨.root :: (taken ++ rest)⟩ (taken.length + 1) = ⟨.root :: taken⟩ := by
  simp [upTo]

private theorem upTo_next (taken rest : List Segment) (segment : Segment) :
    upTo ⟨.root :: (taken ++ segment :: rest)⟩ (taken.length + 2) = ⟨.root :: (taken ++ [segment])⟩ := by
  simpa using upTo_append (taken ++ [segment]) rest

private theorem upTo_split (segments : List Segment) {count : Nat} (enough : 1 ≤ count) :
    ∃ taken rest, segments = taken ++ rest ∧ upTo ⟨.root :: segments⟩ count = ⟨.root :: taken⟩ := by
  obtain ⟨count, rfl⟩ := Nat.exists_eq_add_of_le' enough
  exact ⟨segments.take count, segments.drop count, (List.take_append_drop _ _).symm, rfl⟩

/-- An entry that the next segment takes is a match of the segments up to that one. -/
theorem foreseen_entry {rest : List Segment} (stands : Stands document root trail position steps)
    (current : trail.current? = some position) (run : Run .matches taken root steps)
    (hangs : Entry position step entry) (takes : Run .matches [segment] (arrival root steps) [step]) :
    Foreseen ⟨.root :: (taken ++ segment :: rest)⟩ trail position value := by
  obtain ⟨bare, inside, among⟩ := child_of_entry hangs
  obtain ⟨step', hangs', stands'⟩ := stands.entry current inside among
  obtain ⟨rfl, _⟩ := hangs.unique hangs' rfl
  have enough : 2 ≤ taken.length + 2 := by omega
  refine .entry enough (by simp) inside among ?_
  rw [upTo_next]
  exact (isMatch_iff_run stands').mpr ⟨Trail.current?_push _ _, run_append run takes⟩

private theorem foreseen_of_encloses (descends : Descends document root trail)
    (stands : Stands document root trail position steps) (current : trail.current? = some position)
    (holds : position.value? = some value) (run : Run .encloses segments root steps) :
    Foreseen ⟨.root :: segments⟩ trail position value := by
  obtain ⟨taken, rest, first, ahead, rfl, rfl, start, stops⟩ := stops_of_encloses run
  have reached : value = arrival (arrival root first) ahead := by
    rw [← arrival_append]
    exact Option.some.inj (holds.symm.trans (arrival_of_route stands.route rfl))
  generalize arrived : arrival root first = here at stops reached
  cases stops with
  | settled =>
    obtain ⟨above, under, descendsAbove, atStep, same⟩ := exists_above descends stands.rooted
    obtain ⟨_, _, standsAbove⟩ := stands_of_descends descendsAbove
    obtain rfl := (List.cons.inj (standsAbove.rooted.symm.trans same)).2
    rw [List.append_nil]
    exact .matched under ((isMatch_iff_run standsAbove).mpr ⟨standsAbove.atStep.mp atStep, start⟩)
  | @inward rest _ _ container =>
    have downward : Run .matches [.descent] (arrival root first) ahead :=
      List.append_nil ahead ▸ run_downward (.arrived (.ended (.inr rfl)))
    have within : taken.length + 2 ≤ (Segment.root :: (taken ++ .descent :: rest)).length := by simp
    refine .descent within (reached ▸ container) ?_ ?_
    · rw [upTo_next]
      exact List.getLast?_concat (l := .root :: taken)
    · rw [upTo_next]
      exact (isMatch_iff_run stands).mpr ⟨current, run_append start downward⟩
  | @choosing _ filter items item member accepted =>
    rw [List.append_nil] at stands
    obtain ⟨index, found⟩ := List.getElem?_of_mem member
    have chosen : Run .matches [.predicate filter] (.sequence items) [⟨.index index, item⟩] :=
      .chosen accepted (.ended (.inr rfl))
    exact foreseen_entry stands current start (.sequence (holds.trans (congrArg some reached)) found) (arrived ▸ chosen)
  | @into segment _ _ crosses leading =>
    rw [List.append_nil] at stands
    obtain ⟨step, entry, hangs, accepted⟩ := entry_of_leadsInto crosses (holds.trans (congrArg some reached)) leading
    exact foreseen_entry stands current start hangs (.across crosses accepted (.ended (.inr rfl)))

private theorem encloses_of_foreseen (stands : Stands document root trail position steps)
    (current : trail.current? = some position) (holds : position.value? = some value)
    (foreseen : Foreseen ⟨.root :: segments⟩ trail position value) : Run .encloses segments root steps := by
  have reached : position.value? = some (arrival root steps) := arrival_of_route stands.route rfl
  cases foreseen with
  | @matched above under found =>
    obtain ⟨_, first, rooted, leading⟩ := rooted_of_leadsAlong (Bool.and_eq_true_iff.mp found).2
    have along := steps_prefix under
    rw [rooted, stands.rooted, List.cons_prefix_cons] at along
    obtain ⟨same, along⟩ := along
    cases same
    exact encloses_of_above (run_of_leads leading) along
  | @entry count bare entry enough within inside among found =>
    obtain ⟨step, hangs, stands'⟩ := stands.entry current inside among
    obtain ⟨taken, rest, rfl, same⟩ := upTo_split segments (Nat.le_of_succ_le enough)
    rw [same, isMatch_iff_run stands'] at found
    exact encloses_of_entry found.2 hangs reached
  | @descent count within container final found =>
    have enough : 1 ≤ count := by
      rcases count with _ | count
      · cases final
      · omega
    obtain ⟨taken, rest, rfl, same⟩ := upTo_split segments enough
    rw [same] at final found
    obtain ⟨before, split⟩ := List.getLast?_eq_some_iff.mp final
    cases before with
    | nil => cases split
    | cons first before =>
      obtain ⟨_, last⟩ : first = .root ∧ before ++ [.descent] = taken := by simpa using split.symm
      subst last
      rw [isMatch_iff_run stands] at found
      rw [List.append_assoc]
      cases holds.symm.trans reached
      exact encloses_of_descent found.2 container

/-- Along a walk a compiled path encloses a keyed element just when a match is foreseen there, and a bare value
just when it encloses the element that holds the value. -/
theorem encloses_iff_foreseen (compiled : Path.compile expression = .ok path) {element : Element}
    (walked : Walked document root trail) (current : trail.current? = some element) :
    (∀ value, element.value? = some value → (path.encloses trail = true ↔ Foreseen path trail element value)) ∧
      (element.value? = none → ∃ above, trail = above.push element ∧ Walked document root above ∧
        above.atStep = true ∧ path.encloses trail = path.encloses above) := by
  constructor
  · intro value holds
    obtain ⟨segments, rfl, _⟩ := segments_of_compile compiled
    obtain ⟨position, steps, stands⟩ := stands_of_descends walked.descends
    have atStep : trail.atStep = true := by simp [Trail.atStep, Element.isKeyed, current, holds]
    cases current.symm.trans (stands.atStep.mp atStep)
    rw [encloses_iff_run stands]
    exact ⟨foreseen_of_encloses walked.descends stands current holds, encloses_of_foreseen stands current holds⟩
  · intro bare
    obtain ⟨above, _, same, descends, atStep, _, _, steps⟩ := above_bare walked.descends current bare
    refine ⟨above, same, Visited.walked_iff.mpr descends, atStep, ?_⟩
    rw [Path.encloses, Path.encloses, Path.leadsAlong, Path.leadsAlong, steps]

/-- A sequence of which only the second item has the text that is asked for. -/
def choice : Node := .sequence [.mapping [], .mapping [("k", .plain "v")]]

def beforeChoice : Trail :=
  ((Trail.empty.push (.ofDocument 0 (.mapping [("a", choice)]))).push
    (.ofNode ⟨0, [0]⟩ (.mapping [("a", choice)]))).push ⟨⟨0, [0, 0]⟩, .mappingEntry "a" choice⟩

def atChoice : Trail := beforeChoice.push (.ofNode ⟨0, [0, 0, 0]⟩ choice)

def firstChoice : Trail := atChoice.push ⟨⟨0, [0, 0, 0, 0]⟩, .sequenceEntry (.mapping [])⟩

def chosenKey : Path := ⟨[.root, .field "a", .predicate ⟨"k", "v"⟩, .field "k"]⟩

theorem encloses_iff_foreseen_before_choice :
    Path.compile "$.a[?(@.k == 'v')].k" = .ok chosenKey ∧
      Walked 0 (.mapping [("a", choice)]) beforeChoice ∧ chosenKey.encloses beforeChoice = true ∧
      Foreseen chosenKey beforeChoice ⟨⟨0, [0, 0]⟩, .mappingEntry "a" choice⟩ choice ∧
      Walked 0 (.mapping [("a", choice)]) atChoice ∧
      (∃ above, atChoice = above.push (.ofNode ⟨0, [0, 0, 0]⟩ choice) ∧ Walked 0 (.mapping [("a", choice)]) above ∧
        above.atStep = true ∧ chosenKey.encloses atChoice = chosenKey.encloses above) ∧
      Walked 0 (.mapping [("a", choice)]) firstChoice ∧ chosenKey.encloses firstChoice = false ∧
      ¬ Foreseen chosenKey firstChoice ⟨⟨0, [0, 0, 0, 0]⟩, .sequenceEntry (.mapping [])⟩ (.mapping []) := by
  have compiled : Path.compile "$.a[?(@.k == 'v')].k" = .ok chosenKey :=
    Compiling.compile_of_toOption (by decide +kernel)
  have before : Descends 0 (.mapping [("a", choice)]) beforeChoice := .down (.down .start (by decide)) (by decide)
  have at' : Descends 0 (.mapping [("a", choice)]) atChoice := .down before (by decide)
  have first : Walked 0 (.mapping [("a", choice)]) firstChoice := Visited.walked_iff.mpr (.down at' (by decide))
  have enclosed : chosenKey.encloses beforeChoice = true := by decide
  have outside : chosenKey.encloses firstChoice = false := by decide
  refine ⟨compiled, Visited.walked_iff.mpr before, enclosed, ?_, Visited.walked_iff.mpr at', ?_, first, outside, ?_⟩
  · exact ((encloses_iff_foreseen compiled (Visited.walked_iff.mpr before) rfl).1 choice rfl).mp enclosed
  · exact (encloses_iff_foreseen compiled (Visited.walked_iff.mpr at') rfl).2 rfl
  · intro foreseen
    rw [((encloses_iff_foreseen compiled first rfl).1 _ rfl).mpr foreseen] at outside
    cases outside

end PathQuery.Proofs.Lookahead
