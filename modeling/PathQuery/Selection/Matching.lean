import PathQuery.Tree.Trail

/-! Whether a trail ends at a match of a path, and whether a match lies on it or may lie
below it. Both questions are answered by one run through the segments of the path and the
steps of the trail. -/

namespace PathQuery

/-- Which question is asked of a trail. -/
inductive Mode where
  /-- Does it end at a match? -/
  | matches
  /-- Does it end at a match, below one, or where one may lie below? -/
  | encloses
deriving DecidableEq, Repr

namespace Segment

/-- Whether a segment leads over a step with this key. -/
def acceptsKey : Segment → StepKey → Bool
  | .wildcard, .name _ | .wildcard, .index _ | .wildcard, .detached => true
  | .field name, .name key => name == key
  | .index position, .index other => position == other
  | _, _ => false

/-- Whether some child of a value hangs under a key the segment leads over. -/
def leadsInto : Segment → Node → Bool
  | .field name, .mapping entries => !(Node.valuesAt name entries).isEmpty
  | .wildcard, .mapping entries => !entries.isEmpty
  | .index position, .sequence items => position < items.length
  | .wildcard, .sequence items => !items.isEmpty
  | _, _ => false

end Segment

namespace Path

/-- Tries a test at a value and then at each step ahead of it. -/
def somewhere (test : Node → List Step → Bool) (here : Node) : List Step → Bool
  | [] => test here []
  | step :: ahead => test here (step :: ahead) || somewhere test step.value ahead

/-- Whether segments lead from the value `here` over the steps `ahead`. A match takes all
segments and all steps. The wider question is settled when the segments run out, and at
the end of the steps it is whether the next segment leads anywhere. The root stands only
at the head of a path. -/
def leads (mode : Mode) : List Segment → (here : Node) → (ahead : List Step) → Bool
  | [], _, ahead => mode == .encloses || ahead.isEmpty
  | .root :: _, _, _ => false
  | .descent :: segments, here, ahead =>
    somewhere (fun here ahead =>
      leads mode segments here ahead || (ahead.isEmpty && mode == .encloses && here.isContainer))
      here ahead
  | .predicate filter :: segments, here, ahead =>
    match here, ahead with
    | .mapping _, _ => filter.accepts here && leads mode segments here ahead
    | .sequence _, step :: ahead => filter.accepts step.value && leads mode segments step.value ahead
    | .sequence items, [] => mode == .encloses && items.any filter.accepts
    | .scalar _, _ => false
  | segment :: segments, here, ahead =>
    match ahead with
    | step :: ahead => segment.acceptsKey step.key && leads mode segments step.value ahead
    | [] => mode == .encloses && segment.leadsInto here

/-- The run over a whole trail, whose first step has to be a document's root. -/
def leadsAlong (mode : Mode) (path : Path) (trail : Trail) : Bool :=
  match trail.steps with
  | ⟨.root, value⟩ :: ahead =>
    match path.segments with
    | .root :: segments => leads mode segments value ahead
    | segments => leads mode segments value ahead
  | _ => false

/-- The current element is keyed and the path leads exactly to it. -/
def isMatch (path : Path) (trail : Trail) : Bool := trail.atStep && path.leadsAlong .matches trail

/-- The current element is a match, lies inside one, or may lead to one. If not, nothing
below it matches. -/
def encloses (path : Path) (trail : Trail) : Bool := path.leadsAlong .encloses trail

end Path
end PathQuery
