import Mathlib.Data.List.Basic
import PathQuery.Proofs.Loading
import PathQuery.Proofs.Pruning

/-! What a query answers. A selection in a document does not depend on the number of the
document, and with a limit it gives the first hits of the whole selection. So a query puts the
reports on the selections in the documents of its source together, and one for the first hit takes
the head. An error of the expression or of the source is answered as it is. -/

namespace PathQuery.Proofs.Queries
open WalkedTrails Visited Pruning LoadedTrees Loading

variable {document : Nat} {root : Node} {trail : Trail}

/-- The element in the same document under another number. -/
def renumber (number : Nat) (element : Element) : Element := ⟨⟨number, element.place.path⟩, element.content⟩

def renumberTrail (number : Nat) (trail : Trail) : Trail := ⟨trail.elements.map (renumber number)⟩

private theorem children_renumber (number : Nat) (element : Element) :
    (renumber number element).children = element.children.map (renumber number) := by
  obtain ⟨place, content⟩ := element
  cases content with
  | document root | mappingEntry key root | sequenceEntry root => cases root <;> rfl
  | mapping entries | sequence items =>
    apply List.ext_getElem?
    intro index
    simp only [renumber, Element.children, List.getElem?_mapIdx, List.getElem?_map, Option.map_map]
    rfl
  | scalar leaf => rfl

private theorem document_of_descends (descends : Descends document root trail) :
    ∀ element ∈ trail.elements, element.place.document = document := by
  induction descends with
  | start => simp [Trail.push, Trail.empty, Element.ofDocument]
  | @down trail parent child _ member ih =>
    intro element among
    rcases List.mem_append.mp among with above | last
    · exact ih element above
    · obtain ⟨index, found⟩ := List.getElem?_of_mem member
      rw [List.mem_singleton.mp last, place_of_child found]
      exact ih parent (by simp [Trail.push])

/-- Within one document only the paths of places count. -/
theorem indexBelow_renumber (number : Nat) {parent place : Place} (same : parent.document = place.document) :
    (⟨number, parent.path⟩ : Place).indexBelow? ⟨number, place.path⟩ = parent.indexBelow? place := by
  apply Option.ext
  intro index
  obtain ⟨document, path⟩ := place
  simp_all [Place.indexBelow?_eq_some_iff, Place.child]

private theorem step_renumber (number : Nat) {before : Option Element} {element : Element}
    (same : ∀ parent ∈ before, parent.place.document = element.place.document) :
    Step.of? (before.map (renumber number)) (renumber number element) = Step.of? before element := by
  obtain ⟨place, content⟩ := element
  cases content with
  | document | mappingEntry | mapping | sequence | scalar => rfl
  | sequenceEntry value =>
    rcases before with _ | ⟨parent, content⟩
    · rfl
    · cases content with
      | sequence items =>
        have found := indexBelow_renumber number (same _ rfl)
        simp only [renumber, Step.of?, Option.map_some, Element.positionOf?, found]
      | document | mapping | mappingEntry | sequenceEntry | scalar => rfl

private theorem chain_renumber (number : Nat) (before : Option Element) {chain : List Element}
    (start : ∀ parent ∈ before, parent.place.document = document)
    (within : ∀ element ∈ chain, element.place.document = document) :
    Step.ofChain (before.map (renumber number)) (chain.map (renumber number)) = Step.ofChain before chain := by
  induction chain generalizing before with
  | nil => rfl
  | cons element chain ih =>
    have here : element.place.document = document := within element (by simp)
    have step := step_renumber number (fun parent first => (start parent first).trans here.symm)
    have rest := ih (some element) (by simpa using here) (fun other among => within other (by simp [among]))
    rw [List.map_cons, Step.ofChain, Step.ofChain, step, ← rest, Option.map_some]

private theorem steps_renumber (number : Nat) (descends : Descends document root trail) :
    (renumberTrail number trail).steps = trail.steps :=
  chain_renumber number none (by simp) (document_of_descends descends)

private theorem current_renumber (number : Nat) (trail : Trail) :
    (renumberTrail number trail).current? = trail.current?.map (renumber number) := List.getLast?_map

private theorem wanted_renumber (path : Path) (mode : Mode) (number : Nat) (descends : Descends document root trail) :
    wanted path mode (renumberTrail number trail) = wanted path mode trail := by
  have atStep : (renumberTrail number trail).atStep = trail.atStep := by
    rw [Trail.atStep, Trail.atStep, current_renumber, Option.any_map]
    rfl
  cases mode with
  | encloses => exact atStep
  | «matches» =>
    rw [wanted, wanted, Path.isMatch, Path.isMatch, atStep, Path.leadsAlong, Path.leadsAlong,
      steps_renumber number descends]

private theorem encloses_renumber (path : Path) (number : Nat) (descends : Descends document root trail) :
    path.encloses (renumberTrail number trail) = path.encloses trail := by
  rw [Path.encloses, Path.encloses, Path.leadsAlong, Path.leadsAlong, steps_renumber number descends]

/-- A walk of the renumbered document goes the same way. -/
theorem visited_renumber (number : Nat) {enters : Trail → Bool}
    (same : ∀ trail, Descends document root trail → enters (renumberTrail number trail) = enters trail)
    (trail : Trail) (elements : List Element)
    (start : ∀ element ∈ elements, Descends document root (trail.push element)) :
    visited enters (renumberTrail number trail) (elements.map (renumber number)) =
      (visited enters trail elements).map (renumberTrail number) := by
  induction trail, elements using walk_induction with
  | nil trail => rw [List.map_nil, visited_nil, visited_nil, List.map_nil]
  | cons trail element siblings beside below =>
    have here := start element (by simp)
    have pushed : (renumberTrail number trail).push (renumber number element) =
        renumberTrail number (trail.push element) := by simp [renumberTrail, Trail.push]
    rw [List.map_cons, visited_cons, visited_cons, pushed, same _ here, children_renumber,
      below (fun child among => .down here among), beside (fun sibling among => start sibling (by simp [among]))]
    split <;> simp

/-- The reports on a document depend on its number only where they name it. -/
theorem collect_renumber (path : Path) (mode : Mode) (document number named : Nat) (root : Node) :
    (path.collect mode none number root).map (·.report named) =
      (path.collect mode none document root).map (·.report named) := by
  have walked := visited_renumber number (fun _ => encloses_renumber path number) .empty
    [.ofDocument document root] start_descends
  have fresh : [Element.ofDocument document root].map (renumber number) = [.ofDocument number root] := rfl
  have empty : renumberTrail number .empty = .empty := rfl
  rw [fresh, empty] at walked
  rw [collect_eq, collect_eq, walked, List.filterMap_map, List.map_filterMap, List.map_filterMap]
  apply List.filterMap_congr
  intro trail member
  have descends := visited_descends start_descends member
  simp only [Function.comp_apply, hitAt?, hit?, wanted_renumber path mode number descends,
    encloses_renumber path number descends, current_renumber, Trail.location, steps_renumber number descends]
  split
  · cases trail.current? <;> rfl
  · rfl

/-- How a walk with a limit ends: it goes on while there are fewer hits. -/
def capped (limit : Nat) (hits : List Hit) : Except Path.LimitReached Unit × List Hit :=
  if hits.length < limit then (.ok (), hits) else (.error .mk, hits.take limit)

private theorem collector_turn (path : Path) (mode : Mode) {limit : Nat} (trail : Trail) {hits : List Hit}
    (room : hits.length < limit) :
    (path.collector mode (some limit) trail).run hits =
      let found := hits ++ (hitAt? path mode trail).toList
      if found.length < limit then (.ok (if path.encloses trail then .descend else .skip), found)
      else (.error .mk, found) := by
  rw [collector_run]
  cases found : hitAt? path mode trail with
  | none => simp [room]
  | some hit =>
    by_cases more : hits.length + 1 < limit
    · have below : ¬ limit ≤ hits.length + 1 := by omega
      simp [encloses_of_hit found, more, below]
    · have met : limit ≤ hits.length + 1 := by omega
      simp [more, met]

/-- Once a walk with a limit has ended, what lies ahead of it does not matter. -/
theorem capped_append {limit : Nat} {hits : List Hit} (full : ¬ hits.length < limit) (ahead : List Hit) :
    capped limit (hits ++ ahead) = (.error .mk, hits.take limit) := by
  rw [capped, if_neg (by rw [List.length_append]; omega), List.take_append_of_le_length (by omega)]

private theorem visitAll_capped (path : Path) (mode : Mode) {limit : Nat} (trail : Trail) (elements : List Element)
    (hits : List Hit) (room : hits.length < limit) :
    ((path.collector mode (some limit)).visitAll trail elements).run hits =
      capped limit (hits ++ (visited path.encloses trail elements).filterMap (hitAt? path mode)) := by
  induction trail, elements using walk_induction generalizing hits with
  | nil trail => rw [visitAll_nil, visited_nil, List.filterMap_nil, List.append_nil, capped, if_pos room]
  | cons trail element siblings beside below =>
    have split : (visited path.encloses trail (element :: siblings)).filterMap (hitAt? path mode) =
        (hitAt? path mode (trail.push element)).toList ++
          ((if path.encloses (trail.push element) then visited path.encloses (trail.push element) element.children
            else []).filterMap (hitAt? path mode) ++
          (visited path.encloses trail siblings).filterMap (hitAt? path mode)) := by
      rw [visited_cons, List.filterMap_cons, List.filterMap_append]
      cases hitAt? path mode (trail.push element) <;> rfl
    rw [visitAll_cons, collector_turn path mode _ room, split, ← List.append_assoc]
    dsimp only
    -- the walk stops here, inside, or not before the siblings
    generalize found : hits ++ (hitAt? path mode (trail.push element)).toList = here
    by_cases roomHere : here.length < limit
    · rw [if_pos roomHere]
      by_cases enclosed : path.encloses (trail.push element) = true
      · simp only [enclosed, if_true, below here roomHere, ← List.append_assoc]
        generalize here ++ (visited path.encloses (trail.push element) element.children).filterMap
          (hitAt? path mode) = inside
        by_cases roomInside : inside.length < limit
        · rw [capped, if_pos roomInside]
          exact beside inside roomInside
        · rw [capped_append roomInside, capped, if_neg roomInside]
      · simp [enclosed, beside here roomHere]
    · have last : here.length ≤ limit := by
        rw [← found, List.length_append]
        have := Option.length_toList_le (o := hitAt? path mode (trail.push element))
        omega
      rw [if_neg roomHere, capped_append roomHere, List.take_of_length_le last]

/-- With a limit a walk finds the first of the hits that it would find without one. -/
theorem collect_limited (path : Path) (mode : Mode) {limit : Nat} (positive : 0 < limit) (document : Nat)
    (root : Node) :
    path.collect mode (some limit) document root = (path.collect mode none document root).take limit := by
  have ended := visitAll_capped path mode .empty [.ofDocument document root] [] positive
  rw [List.nil_append, ← collect_eq] at ended
  rw [Path.collect, Visitor.walk, ended, capped]
  split
  next few => exact (List.take_of_length_le (Nat.le_of_lt few)).symm
  next => rfl

/-- What a selection in the mode gives: the matches, or what encloses them. -/
def picked (path : Path) : Mode → Node → List Hit
  | .matches => path.select
  | .encloses => path.selectEnclosing

private theorem picked_eq (path : Path) (mode : Mode) (root : Node) :
    picked path mode root = path.collect mode none 0 root := by
  cases mode <;> rfl

variable {path : Path} {mode : Mode} {number : Nat} {documents : List Node}

private theorem value_of_picked {hit : Hit} (found : hit ∈ picked path mode root) :
    ∃ value, hit.element.value? = some value := by
  rw [picked_eq, collect_eq] at found
  obtain ⟨trail, _, kept⟩ := List.mem_filterMap.mp found
  obtain ⟨looked, current, _⟩ := hit_eq_some_iff.mp kept
  have atStep : trail.atStep = true := by
    cases mode with
    | encloses => exact (Bool.and_eq_true_iff.mp looked).1
    | «matches» => exact (Bool.and_eq_true_iff.mp (Bool.and_eq_true_iff.mp looked).1).1
  simpa [Trail.atStep, Element.isKeyed, current, Option.isSome_iff_exists] using atStep

/-- The report on a hit says in which document it is and where, and of what kind and text its value is. -/
inductive Describes (number : Nat) (hit : Hit) : Report → Prop where
  | valued {value : Node} (found : hit.element.value? = some value) :
      Describes number hit ⟨number, hit.location, value.kind, some value.summary⟩

/-- The reports on documents that are numbered in their order: on each of them those on its selection, before
those on the documents after it. -/
inductive Gathers (path : Path) (mode : Mode) : Nat → List Node → List Report → Prop where
  | nothing {number : Nat} : Gathers path mode number [] []
  | document {number : Nat} {root : Node} {documents : List Node} {here after : List Report}
      (described : List.Forall₂ (Describes number) (picked path mode root) here)
      (further : Gathers path mode (number + 1) documents after) :
      Gathers path mode number (root :: documents) (here ++ after)

private theorem describes_unique (number : Nat) : Relator.RightUnique (Describes number) := by
  intro hit first second one other
  obtain ⟨found⟩ := one
  obtain ⟨again⟩ := other
  rw [found] at again
  cases again
  rfl

private theorem describes_report (number : Nat) {hit : Hit} (found : hit ∈ picked path mode root) :
    Describes number hit (hit.report number) := by
  obtain ⟨value, valued⟩ := value_of_picked found
  have said : hit.report number = ⟨number, hit.location, value.kind, some value.summary⟩ := by
    simp [Hit.report, valued]
  exact said ▸ .valued valued

private theorem describes_reports (path : Path) (mode : Mode) (number : Nat) (root : Node) :
    List.Forall₂ (Describes number) (picked path mode root) ((picked path mode root).map (·.report number)) := by
  rw [List.forall₂_map_right_iff, List.forall₂_same]
  intro hit found
  exact describes_report number found

private theorem gathers_unique {first second : List Report} (one : Gathers path mode number documents first)
    (other : Gathers path mode number documents second) : first = second := by
  induction one generalizing second with
  | nothing => cases other; rfl
  | @document number root documents here after described further ih =>
    cases other with
    | @document _ _ _ here' after' described' further' =>
      have same : here = here' := List.right_unique_forall₂' (describes_unique number) described described'
      rw [same, ih further']

private theorem value_of_gathers {reports : List Report} (gathers : Gathers path mode number documents reports) :
    ∀ report ∈ reports, report.value.isSome = true := by
  induction gathers with
  | nothing => simp
  | document described further ih =>
    intro report among
    rcases List.mem_append.mp among with here | after
    · obtain ⟨hit, valued⟩ := exists_of_forall₂ described.flip here
      cases valued
      rfl
    · exact ih report after

/-- Without `first`, no document stops the run. -/
theorem go_all (path : Path) (mode : Mode) (number : Nat) (root : Node) (documents : List Node) :
    Path.reports.go path mode false number (root :: documents) =
      (picked path mode root).map (·.report number) ++ Path.reports.go path mode false (number + 1) documents := by
  rw [Path.reports.go, picked_eq, ← collect_renumber path mode 0 number]
  simp

private theorem gathers_all (path : Path) (mode : Mode) (number : Nat) (documents : List Node) :
    Gathers path mode number documents (Path.reports.go path mode false number documents) := by
  induction documents generalizing number with
  | nil => exact .nothing
  | cons root documents ih =>
    rw [go_all]
    exact .document (describes_reports path mode number root) (ih (number + 1))

private theorem go_first (path : Path) (mode : Mode) (number : Nat) (documents : List Node) :
    Path.reports.go path mode true number documents = (Path.reports.go path mode false number documents).take 1 := by
  induction documents generalizing number with
  | nil => rfl
  | cons root documents ih =>
    rw [Path.reports.go, Path.reports.go]
    simp only [if_true, Bool.false_eq_true, if_false, Bool.false_and, collect_limited path mode Nat.one_pos, ih]
    -- a document without hits leaves the head to those after it
    cases path.collect mode none number root with
    | nil => simp
    | cons hit hits => simp

/-- What a query comes to: the error of the expression goes before that of the source, and no
report is given where a document is broken. A query without a format reads YAML. -/
inductive Answers {ε δ : Type} (query : Query) (codecs : Codecs ε δ) (source : String) :
    Except (QueryError ε δ) (List Report) → Prop where
  | expression {error : SyntaxError Nat} (refused : Path.compile query.expression = .error error) :
      Answers query codecs source (.error (.expression error))
  | source {path : Path} {error : LoadError ε δ} (compiled : Path.compile query.expression = .ok path)
      (fails : Fails codecs source (query.format.getD .yaml) error) :
      Answers query codecs source (.error (.source error))
  | reports {path : Path} {documents : List Node} {all : List Report}
      (compiled : Path.compile query.expression = .ok path)
      (loads : Loads codecs source (query.format.getD .yaml) documents)
      (gathers : Gathers path query.mode 0 documents all) :
      Answers query codecs source (.ok (if query.first then all.take 1 else all))

private theorem reports_of_gathers (first : Bool) {all : List Report} (gathers : Gathers path mode 0 documents all) :
    path.reports mode first documents = if first then all.take 1 else all := by
  rw [gathers_unique gathers (gathers_all path mode 0 documents)]
  cases first with
  | false => rfl
  | true => exact go_first path mode 0 documents

private theorem run_eq {ε δ : Type} (query : Query) (codecs : Codecs ε δ) (source : String) : query.run codecs source =
    match Path.compile query.expression, (query.format.getD .yaml).load codecs source with
    | .error error, _ => .error (.expression error)
    | .ok _, .error error => .error (.source error)
    | .ok path, .ok documents => .ok (path.reports query.mode query.first documents) := by
  have reads : SourceFormat.resolve query.format none = query.format.getD .yaml := rfl
  rw [Query.run, reads]
  cases Path.compile query.expression with
  | error error => rfl
  | ok path =>
    simp only [Except.mapError, bind, Except.bind]
    cases (query.format.getD .yaml).load codecs source <;> rfl

private theorem answers_run {ε δ : Type} (query : Query) (codecs : Codecs ε δ) (source : String) :
    Answers query codecs source (query.run codecs source) := by
  rw [run_eq]
  cases compiled : Path.compile query.expression with
  | error error => exact .expression compiled
  | ok path =>
    cases loaded : (query.format.getD .yaml).load codecs source with
    | error error => exact .source compiled (load_eq_error_iff.mp loaded)
    | ok documents =>
      have gathers := gathers_all path query.mode 0 documents
      dsimp only
      rw [reports_of_gathers query.first gathers]
      exact .reports compiled (load_eq_ok_iff.mp loaded) gathers

/-- With any readers and printers, a query gives this answer and no other, and every report in it carries a
value. -/
theorem run_iff_answers {ε δ : Type} (query : Query) (codecs : Codecs ε δ) (source : String) :
    (∀ outcome, query.run codecs source = outcome ↔ Answers query codecs source outcome) ∧
    ∀ reports, query.run codecs source = .ok reports → ∀ report ∈ reports, report.value.isSome = true := by
  refine ⟨fun outcome => ⟨fun ran => ran ▸ answers_run query codecs source, ?_⟩, ?_⟩
  · intro answers
    rw [run_eq]
    cases answers with
    | expression refused => rw [refused]
    | source compiled fails => rw [compiled, load_eq_error_iff.mpr fails]
    | reports compiled loads gathers =>
      rw [compiled, load_eq_ok_iff.mpr loads]
      exact congrArg Except.ok (reports_of_gathers query.first gathers)
  · intro reports ran report among
    have answers := answers_run query codecs source
    rw [ran] at answers
    cases answers with
    | reports compiled loads gathers =>
      apply value_of_gathers gathers
      split at among
      · exact List.mem_of_mem_take among
      · exact among

def firstB : Query := ⟨"$.b", .matches, none, true⟩

def pathB : Path := ⟨[.root, .field "b"]⟩

def hitB : Hit := ⟨"$.b", ⟨⟨0, [0, 0]⟩, .mappingEntry "b" (.plain "x")⟩⟩

def secondHolds : String := "a: 1\n---\nb: x\n"

/-- The first document of it has a hit, and the second one has a key twice. -/
def secondBroken : String := "b: x\n---\na: 1\na: 2\n"

theorem run_iff_answers_in_streams :
    firstB.run Codecs.builtIn secondHolds = .ok [⟨1, "$.b", "scalar", some "x"⟩] ∧
      firstB.run Codecs.builtIn secondBroken = .error (.source (.yaml .malformed)) := by
  have compiled : Path.compile "$.b" = .ok pathB := by decide +kernel
  constructor
  · have loads : Loads Codecs.builtIn secondHolds .yaml [.mapping [("a", .plain "1")], .mapping [("b", .plain "x")]] :=
      load_eq_ok_iff.mp (by decide +kernel)
    have none : picked pathB .matches (.mapping [("a", .plain "1")]) = [] := by decide +kernel
    have one : picked pathB .matches (.mapping [("b", .plain "x")]) = [hitB] := by decide +kernel
    have described : Describes 1 hitB ⟨1, "$.b", "scalar", some "x"⟩ := @Describes.valued 1 hitB (.plain "x") rfl
    have empty : List.Forall₂ (Describes 0) (picked pathB .matches (.mapping [("a", .plain "1")])) [] := by
      rw [none]
      exact .nil
    have single : List.Forall₂ (Describes 1) (picked pathB .matches (.mapping [("b", .plain "x")]))
        [⟨1, "$.b", "scalar", some "x"⟩] := by
      rw [one]
      exact .cons described .nil
    have gathers := Gathers.document empty (.document single .nothing)
    have answers := @Answers.reports _ _ firstB Codecs.builtIn secondHolds _ _ _ compiled loads gathers
    exact ((run_iff_answers firstB Codecs.builtIn secondHolds).1 _).mpr answers
  · have fails : Fails Codecs.builtIn secondBroken .yaml (.yaml .malformed) := load_eq_error_iff.mp (by decide +kernel)
    exact ((run_iff_answers firstB Codecs.builtIn secondBroken).1 _).mpr (.source compiled fails)

end PathQuery.Proofs.Queries
