import PathQuery.Selection.Matching
import PathQuery.Proofs.Notation
import PathQuery.Proofs.Positions

/-! The run over segments and steps as a relation. Each of its rules takes one segment or one
step, so that a proof about runs is an induction over the rules. -/

namespace PathQuery.Proofs.Leads
open PathQuery.Path Positions Notation

variable {mode : Mode} {segments : List Segment} {segment : Segment} {here : Node} {step : Step} {ahead : List Step}

/-- A segment that goes over the key of the next step, whatever the values are. -/
def OverKey : Segment → Prop
  | .wildcard | .field _ | .index _ => True
  | .root | .descent | .predicate _ => False

theorem segment_cases (segment : Segment) :
    segment = .root ∨ segment = .descent ∨ (∃ filter, segment = .predicate filter) ∨ OverKey segment := by
  cases segment <;> simp [OverKey]

theorem leads_nil : leads mode [] here ahead = true ↔ mode = .encloses ∨ ahead = [] := by
  change (mode == .encloses || ahead.isEmpty) = true ↔ _
  simp

private theorem leads_root : leads mode (.root :: segments) here ahead = false := rfl

theorem leads_over_nil (crosses : OverKey segment) :
    leads mode (segment :: segments) here [] = true ↔ mode = .encloses ∧ segment.leadsInto here = true := by
  have turn : leads mode (segment :: segments) here [] = (mode == .encloses && segment.leadsInto here) := by
    cases segment with
    | root | descent | predicate => exact crosses.elim
    | wildcard | field | index => rfl
  rw [turn, Bool.and_eq_true_iff, beq_iff_eq]

theorem leads_over_cons (crosses : OverKey segment) : leads mode (segment :: segments) here (step :: ahead) = true ↔
    segment.acceptsKey step.key = true ∧ leads mode segments step.value ahead = true := by
  rw [← Bool.and_eq_true_iff]
  cases segment with
  | root | descent | predicate => exact crosses.elim
  | wildcard | field | index => rfl

theorem leads_descent_nil : leads mode (.descent :: segments) here [] = true ↔
    leads mode segments here [] = true ∨ (mode = .encloses ∧ here.isContainer = true) := by
  change (leads mode segments here [] || (true && mode == .encloses && here.isContainer)) = true ↔ _
  simp

theorem leads_descent_cons : leads mode (.descent :: segments) here (step :: ahead) = true ↔
    leads mode segments here (step :: ahead) = true ∨ leads mode (.descent :: segments) step.value ahead = true := by
  change (leads mode segments here (step :: ahead) || false || leads mode (.descent :: segments) step.value ahead)
    = true ↔ _
  simp

theorem leads_predicate_mapping {filter : Filter} {entries : List (String × Node)} :
    leads mode (.predicate filter :: segments) (.mapping entries) ahead = true ↔
      filter.accepts (.mapping entries) = true ∧ leads mode segments (.mapping entries) ahead = true := by
  rw [← Bool.and_eq_true_iff]
  rfl

theorem leads_predicate_nil {filter : Filter} {items : List Node} :
    leads mode (.predicate filter :: segments) (.sequence items) [] = true ↔
      mode = .encloses ∧ ∃ item ∈ items, filter.accepts item = true := by
  change (mode == .encloses && items.any filter.accepts) = true ↔ _
  rw [Bool.and_eq_true_iff, beq_iff_eq, List.any_eq_true]

theorem leads_predicate_cons {filter : Filter} {items : List Node} :
    leads mode (.predicate filter :: segments) (.sequence items) (step :: ahead) = true ↔
      filter.accepts step.value = true ∧ leads mode segments step.value ahead = true := by
  rw [← Bool.and_eq_true_iff]
  rfl

theorem leads_predicate_scalar {filter : Filter} {leaf : Scalar} :
    leads mode (.predicate filter :: segments) (.scalar leaf) ahead = false := rfl

/-- A run that succeeds, by the way in which its first segment and the first step are taken. -/
inductive Run (mode : Mode) : List Segment → Node → List Step → Prop where
  | ended {here : Node} {ahead : List Step} (settled : mode = .encloses ∨ ahead = []) : Run mode [] here ahead
  | arrived {segments : List Segment} {here : Node} {ahead : List Step} (rest : Run mode segments here ahead) :
      Run mode (.descent :: segments) here ahead
  | deeper {segments : List Segment} {here : Node} {step : Step} {ahead : List Step}
      (rest : Run mode (.descent :: segments) step.value ahead) : Run mode (.descent :: segments) here (step :: ahead)
  | inward {segments : List Segment} {here : Node} (wider : mode = .encloses) (container : here.isContainer = true) :
      Run mode (.descent :: segments) here []
  | kept {segments : List Segment} {filter : Filter} {entries : List (String × Node)} {ahead : List Step}
      (accepted : filter.accepts (.mapping entries) = true) (rest : Run mode segments (.mapping entries) ahead) :
      Run mode (.predicate filter :: segments) (.mapping entries) ahead
  | chosen {segments : List Segment} {filter : Filter} {items : List Node} {step : Step} {ahead : List Step}
      (accepted : filter.accepts step.value = true) (rest : Run mode segments step.value ahead) :
      Run mode (.predicate filter :: segments) (.sequence items) (step :: ahead)
  | choosing {segments : List Segment} {filter : Filter} {items : List Node} {item : Node}
      (wider : mode = .encloses) (member : item ∈ items) (accepted : filter.accepts item = true) :
      Run mode (.predicate filter :: segments) (.sequence items) []
  | across {segment : Segment} {segments : List Segment} {here : Node} {step : Step} {ahead : List Step}
      (crosses : OverKey segment) (accepted : segment.acceptsKey step.key = true)
      (rest : Run mode segments step.value ahead) : Run mode (segment :: segments) here (step :: ahead)
  | into {segment : Segment} {segments : List Segment} {here : Node} (crosses : OverKey segment)
      (wider : mode = .encloses) (leading : segment.leadsInto here = true) : Run mode (segment :: segments) here []

theorem run_of_leads (leading : leads mode segments here ahead = true) : Run mode segments here ahead := by
  induction segments generalizing here ahead with
  | nil => exact .ended (leads_nil.mp leading)
  | cons segment segments ih =>
    obtain rfl | rfl | ⟨filter, rfl⟩ | crosses := segment_cases segment
    · rw [leads_root] at leading
      cases leading
    · -- A descent is tried at every step ahead.
      induction ahead generalizing here with
      | nil =>
        rcases leads_descent_nil.mp leading with leading | ⟨wider, container⟩
        · exact .arrived (ih leading)
        · exact .inward wider container
      | cons step ahead further =>
        rcases leads_descent_cons.mp leading with leading | leading
        · exact .arrived (ih leading)
        · exact .deeper (further leading)
    · cases here with
      | scalar =>
        rw [leads_predicate_scalar] at leading
        cases leading
      | mapping entries =>
        obtain ⟨accepted, leading⟩ := leads_predicate_mapping.mp leading
        exact .kept accepted (ih leading)
      | sequence items =>
        cases ahead with
        | nil =>
          obtain ⟨wider, item, member, accepted⟩ := leads_predicate_nil.mp leading
          exact .choosing wider member accepted
        | cons step ahead =>
          obtain ⟨accepted, leading⟩ := leads_predicate_cons.mp leading
          exact .chosen accepted (ih leading)
    · cases ahead with
      | nil =>
        obtain ⟨wider, leading⟩ := (leads_over_nil crosses).mp leading
        exact .into crosses wider leading
      | cons step ahead =>
        obtain ⟨accepted, leading⟩ := (leads_over_cons crosses).mp leading
        exact .across crosses accepted (ih leading)

theorem leads_of_run (run : Run mode segments here ahead) : leads mode segments here ahead = true := by
  induction run with
  | ended settled => exact leads_nil.mpr settled
  | @arrived _ _ ahead _ ih =>
    cases ahead with
    | nil => exact leads_descent_nil.mpr (.inl ih)
    | cons => exact leads_descent_cons.mpr (.inl ih)
  | deeper _ ih => exact leads_descent_cons.mpr (.inr ih)
  | inward wider container => exact leads_descent_nil.mpr (.inr ⟨wider, container⟩)
  | kept accepted _ ih => exact leads_predicate_mapping.mpr ⟨accepted, ih⟩
  | chosen accepted _ ih => exact leads_predicate_cons.mpr ⟨accepted, ih⟩
  | choosing wider member accepted => exact leads_predicate_nil.mpr ⟨wider, _, member, accepted⟩
  | across crosses accepted _ ih => exact (leads_over_cons crosses).mpr ⟨accepted, ih⟩
  | into crosses wider leading => exact (leads_over_nil crosses).mpr ⟨wider, leading⟩

theorem leads_iff : leads mode segments here ahead = true ↔ Run mode segments here ahead :=
  ⟨run_of_leads, leads_of_run⟩

/-- The value that steps lead to from the value `here`. -/
def arrival (here : Node) : List Step → Node
  | [] => here
  | step :: steps => arrival step.value steps

theorem arrival_append (here : Node) (first second : List Step) :
    arrival here (first ++ second) = arrival (arrival here first) second := by
  induction first generalizing here with
  | nil => rfl
  | cons step first ih => exact ih step.value

theorem arrival_of_route {first last : Element} {steps : List Step} (route : Route first steps last)
    (holds : first.value? = some here) : last.value? = some (arrival here steps) := by
  induction route generalizing here with
  | here => exact holds
  | down hangs _ ih => exact ih hangs.value

theorem last_value (key : StepKey) (here : Node) (ahead : List Step) :
    (⟨key, here⟩ :: ahead : List Step).getLast?.map Step.value = some (arrival here ahead) := by
  induction ahead generalizing key here with
  | nil => rfl
  | cons step ahead ih =>
    rw [List.getLast?_cons_cons]
    exact ih step.key step.value

theorem run_nil {steps : List Step} (run : Run .matches [] here steps) : steps = [] := by
  cases run with
  | ended settled =>
    obtain impossible | none := settled
    · cases impossible
    · exact none

/-- Where a match of some segments ends, a run of further segments can begin. -/
theorem run_append {taken more : List Segment} {first : List Step} (run : Run .matches taken here first)
    (further : Run mode more (arrival here first) ahead) : Run mode (taken ++ more) here (first ++ ahead) := by
  induction run with
  | @ended here _ settled =>
    have none : Run .matches [] here _ := .ended settled
    obtain rfl := run_nil none
    exact further
  | arrived _ ih => exact .arrived (ih further)
  | deeper _ ih => exact .deeper (ih further)
  | kept accepted _ ih => exact .kept accepted (ih further)
  | chosen accepted _ ih => exact .chosen accepted (ih further)
  | across crosses accepted _ ih => exact .across crosses accepted (ih further)
  | inward wider | choosing wider | into _ wider => cases wider

/-- A match of some segments and further ones is a match of the first up to somewhere, and of the others
from there. -/
theorem run_split {all taken more : List Segment} {steps : List Step} (run : Run .matches all here steps)
    (split : all = taken ++ more) : ∃ first second, steps = first ++ second ∧ Run .matches taken here first ∧
      Run .matches more (arrival here first) second := by
  have before {all : List Segment} {here : Node} {steps : List Step} (run : Run .matches all here steps) :
      ∃ first second, steps = first ++ second ∧ Run .matches [] here first ∧
        Run .matches all (arrival here first) second := ⟨[], steps, rfl, .ended (.inr rfl), run⟩
  induction run generalizing taken with
  | ended settled =>
    obtain ⟨rfl, rfl⟩ := List.nil_eq_append_iff.mp split
    exact before (.ended settled)
  | arrived rest ih =>
    cases taken with
    | nil =>
      cases split
      exact before (.arrived rest)
    | cons segment taken =>
      cases split
      obtain ⟨first, second, rfl, run, further⟩ := ih rfl
      exact ⟨first, second, rfl, .arrived run, further⟩
  | @deeper _ _ step _ rest ih =>
    cases taken with
    | nil =>
      cases split
      exact before (.deeper rest)
    | cons segment taken =>
      obtain ⟨first, second, rfl, run, further⟩ := ih split
      cases split
      exact ⟨step :: first, second, rfl, .deeper run, further⟩
  | kept accepted rest ih =>
    cases taken with
    | nil =>
      cases split
      exact before (.kept accepted rest)
    | cons segment taken =>
      cases split
      obtain ⟨first, second, rfl, run, further⟩ := ih rfl
      exact ⟨first, second, rfl, .kept accepted run, further⟩
  | @chosen _ _ _ step _ accepted rest ih =>
    cases taken with
    | nil =>
      cases split
      exact before (.chosen accepted rest)
    | cons segment taken =>
      cases split
      obtain ⟨first, second, rfl, run, further⟩ := ih rfl
      exact ⟨step :: first, second, rfl, .chosen accepted run, further⟩
  | @across _ _ _ step _ crosses accepted rest ih =>
    cases taken with
    | nil =>
      cases split
      exact before (.across crosses accepted rest)
    | cons segment taken =>
      cases split
      obtain ⟨first, second, rfl, run, further⟩ := ih rfl
      exact ⟨step :: first, second, rfl, .across crosses accepted run, further⟩
  | inward wider | choosing wider | into _ wider => cases wider

/-- A descent goes down all the steps to a value where the run goes on. -/
theorem run_downward {first : List Step} (run : Run mode (.descent :: segments) (arrival here first) ahead) :
    Run mode (.descent :: segments) here (first ++ ahead) := by
  induction first generalizing here with
  | nil => exact run
  | cons step first ih => exact .deeper (ih run)

/-- Along the trail of a walk, the run of a compiled path starts at the root with what follows it. -/
theorem leadsAlong_iff {document : Nat} {root : Node} {trail : Trail} {position : Element} {steps : List Step}
    (stands : Stands document root trail position steps) :
    leadsAlong mode ⟨.root :: segments⟩ trail = leads mode segments root steps := by
  rw [leadsAlong, stands.rooted]

/-- A run along any trail starts at the root of a document. -/
theorem rooted_of_leadsAlong {trail : Trail} (leading : leadsAlong mode ⟨.root :: segments⟩ trail = true) :
    ∃ root ahead, trail.steps = ⟨.root, root⟩ :: ahead ∧ leads mode segments root ahead = true := by
  rw [leadsAlong] at leading
  split at leading
  next root ahead rooted => exact ⟨root, ahead, rooted, leading⟩
  next => cases leading

theorem segments_of_compile {expression : String} {path : Path} (compiled : Path.compile expression = .ok path) :
    ∃ segments, path = ⟨.root :: segments⟩ ∧ .root ∉ segments := by
  have valid := wellFormed_of_compile compiled
  obtain ⟨segments⟩ := path
  cases segments with
  | nil => cases valid.rooted
  | cons first segments =>
    cases valid.rooted
    exact ⟨segments, rfl, valid.once⟩

end PathQuery.Proofs.Leads
