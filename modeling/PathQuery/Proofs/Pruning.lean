import Mathlib.Data.List.Basic
import PathQuery.Selection.Query
import PathQuery.Proofs.Leads
import PathQuery.Proofs.Visited

/-! Pruning costs no hits. What a path does not enclose it encloses nowhere below either, so
a selection finds what a walk into everything would find. -/

namespace PathQuery.Proofs.Pruning
open WalkedTrails Visited Positions Leads

variable {segments : List Segment} {here : Node} {ahead : List Step}

private theorem encloses_of_matches (run : Run .matches segments here ahead) : Run .encloses segments here ahead := by
  induction run with
  | ended => exact .ended (.inl rfl)
  | arrived _ ih => exact .arrived ih
  | deeper _ ih => exact .deeper ih
  | kept accepted _ ih => exact .kept accepted ih
  | chosen accepted _ ih => exact .chosen accepted ih
  | across crosses accepted _ ih => exact .across crosses accepted ih
  | inward wider | choosing wider | into _ wider => cases wider

theorem container_of_entry {position entry : Element} {step : Step} (hangs : Entry position step entry)
    (holds : position.value? = some here) : here.isContainer = true := by
  cases hangs with
  | mapping holds' => cases holds.symm.trans holds'; rfl
  | sequence holds' => cases holds.symm.trans holds'; rfl

theorem mem_of_entry {position entry : Element} {step : Step} {items : List Node}
    (hangs : Entry position step entry) (holds : position.value? = some (.sequence items)) : step.value ∈ items := by
  cases hangs with
  | mapping holds' => cases holds.symm.trans holds'
  | sequence holds' found =>
    cases holds.symm.trans holds'
    exact List.mem_of_getElem? found

/-- A segment that goes over a step from a position leads into the value there. -/
theorem leadsInto_of_entry {segment : Segment} {position entry : Element} {step : Step} (crosses : OverKey segment)
    (hangs : Entry position step entry) (holds : position.value? = some here)
    (accepted : segment.acceptsKey step.key = true) : segment.leadsInto here = true := by
  cases segment with
  | root | descent | predicate => exact crosses.elim
  | wildcard =>
    cases hangs with
    | mapping holds' found =>
      cases holds.symm.trans holds'
      have some := List.ne_nil_of_mem (List.mem_of_getElem? found)
      simpa [Segment.leadsInto] using some
    | sequence holds' found =>
      cases holds.symm.trans holds'
      have some := List.ne_nil_of_mem (List.mem_of_getElem? found)
      simpa [Segment.leadsInto] using some
  | field name =>
    cases hangs with
    | sequence => cases accepted
    | @mapping entries _ key value holds' found =>
      cases holds.symm.trans holds'
      cases beq_iff_eq.mp accepted
      have member : value ∈ Node.valuesAt name entries := by
        simp only [Node.valuesAt, List.mem_filterMap]
        exact ⟨_, List.mem_of_getElem? found, by simp⟩
      simpa [Segment.leadsInto] using List.ne_nil_of_mem member
  | index position =>
    cases hangs with
    | mapping => cases accepted
    | sequence holds' found =>
      cases holds.symm.trans holds'
      cases beq_iff_eq.mp accepted
      have inside := (List.getElem?_eq_some_iff.mp found).1
      simpa [Segment.leadsInto] using inside

/-- The entry that a route goes on to answers for whatever the next segment asks of an extension. -/
theorem encloses_here {position last : Element} {steps : List Step} (run : Run .encloses segments here steps)
    (route : Route position steps last) (holds : position.value? = some here) : Run .encloses segments here [] := by
  induction run generalizing position with
  | ended => exact .ended (.inl rfl)
  | arrived _ ih => exact .arrived (ih route holds)
  | deeper =>
    cases route with
    | down hangs => exact .inward rfl (container_of_entry hangs holds)
  | inward wider container => exact .inward wider container
  | kept accepted _ ih => exact .kept accepted (ih route holds)
  | chosen accepted =>
    cases route with
    | down hangs => exact .choosing rfl (mem_of_entry hangs holds) accepted
  | choosing wider member accepted => exact .choosing wider member accepted
  | across crosses accepted =>
    cases route with
    | down hangs => exact .into crosses rfl (leadsInto_of_entry crosses hangs holds accepted)
  | into crosses wider leading => exact .into crosses wider leading

/-- What is enclosed at the end of a route is enclosed all along it. -/
theorem encloses_shorter {position last : Element} {all steps more : List Step}
    (run : Run .encloses segments here all) (route : Route position all last)
    (holds : position.value? = some here) (split : all = steps ++ more) : Run .encloses segments here steps := by
  induction run generalizing position steps with
  | ended => exact .ended (.inl rfl)
  | arrived _ ih => exact .arrived (ih route holds split)
  | deeper run ih =>
    cases steps with
    | nil => exact encloses_here (.deeper run) route holds
    | cons step steps =>
      cases split
      cases route with
      | down hangs route => exact .deeper (ih route hangs.value rfl)
  | inward wider container =>
    obtain ⟨rfl, rfl⟩ := List.nil_eq_append_iff.mp split
    exact .inward wider container
  | kept accepted _ ih => exact .kept accepted (ih route holds split)
  | chosen accepted run ih =>
    cases steps with
    | nil => exact encloses_here (.chosen accepted run) route holds
    | cons step steps =>
      cases split
      cases route with
      | down hangs route => exact .chosen accepted (ih route hangs.value rfl)
  | choosing wider member accepted =>
    obtain ⟨rfl, rfl⟩ := List.nil_eq_append_iff.mp split
    exact .choosing wider member accepted
  | across crosses accepted run ih =>
    cases steps with
    | nil => exact encloses_here (.across crosses accepted run) route holds
    | cons step steps =>
      cases split
      cases route with
      | down hangs route => exact .across crosses accepted (ih route hangs.value rfl)
  | into crosses wider leading =>
    obtain ⟨rfl, rfl⟩ := List.nil_eq_append_iff.mp split
    exact .into crosses wider leading

/-- A visitor that goes everywhere and keeps the hits at the trails that pass a test. -/
def gatherer (keep : Trail → Bool) : Visitor (List Hit) Empty := fun trail => do
  if keep trail then
    if let some element := trail.current? then
      modify (· ++ [⟨trail.location, element⟩])
  return .descend

/-- The hits of a walk that is not pruned. -/
def gathered (keep : Trail → Bool) (document : Nat) (root : Node) : List Hit :=
  (((gatherer keep).walk document root).run []).2

def hit? (keep : Trail → Bool) (trail : Trail) : Option Hit :=
  if keep trail then trail.current?.map fun element => ⟨trail.location, element⟩ else none

private theorem gatherer_steady (keep : Trail → Bool) :
    Steady (gatherer keep) (fun _ => true) (fun trail hits => hits ++ (hit? keep trail).toList) := by
  intro trail hits
  by_cases kept : keep trail = true
  · cases current : trail.current? with
    | none => simp [gatherer, hit?, kept, current]; rfl
    | some element => simp [gatherer, hit?, kept, current]; rfl
  · simp [gatherer, hit?, kept]; rfl

/-- What a selection looks for among the trails it enters. -/
def wanted (path : Path) : Mode → Trail → Bool
  | .matches, trail => path.isMatch trail
  | .encloses, trail => trail.atStep

/-- A hit has the element that its trail ends at and the location of the trail. -/
theorem hit_eq_some_iff {keep : Trail → Bool} {trail : Trail} {hit : Hit} : hit? keep trail = some hit ↔
    keep trail = true ∧ trail.current? = some hit.element ∧ trail.location = hit.location := by
  obtain ⟨location, element⟩ := hit
  simp only [hit?, Option.ite_none_right_eq_some, Option.map_eq_some_iff, Hit.mk.injEq]
  constructor
  · rintro ⟨kept, _, current, located, rfl⟩
    exact ⟨kept, current, located⟩
  · rintro ⟨kept, current, located⟩
    exact ⟨kept, element, current, located, rfl⟩

/-- The hit that a selection finds at a trail. -/
def hitAt? (path : Path) (mode : Mode) : Trail → Option Hit :=
  hit? fun trail => wanted path mode trail && path.encloses trail

theorem collector_run (path : Path) (mode : Mode) (limit : Option Nat) (trail : Trail) (hits : List Hit) :
    (path.collector mode limit trail).run hits =
      match hitAt? path mode trail with
      | none => (.ok (if path.encloses trail then .descend else .skip), hits)
      | some hit =>
        if limit.any (· ≤ hits.length + 1) then (.error .mk, hits ++ [hit]) else (.ok .descend, hits ++ [hit]) := by
  have added (hit : Hit) : (do
        modify (· ++ [hit])
        let found ← get
        if limit.any (· ≤ found.length) then throw .mk
        return .descend :
          ExceptT Path.LimitReached (StateM (List Hit)) Visit).run hits =
      if limit.any (· ≤ hits.length + 1) then (.error .mk, hits ++ [hit]) else (.ok .descend, hits ++ [hit]) := by
    rw [← List.length_singleton (a := hit), ← List.length_append]
    change (if limit.any (· ≤ (hits ++ [hit]).length) then throw .mk else pure .descend :
      ExceptT Path.LimitReached (StateM (List Hit)) Visit).run (hits ++ [hit]) = _
    split <;> rfl
  by_cases enclosed : path.encloses trail = true
  · by_cases found : wanted path mode trail = true
    · cases current : trail.current? with
      | none =>
        cases mode <;> simp only [wanted] at found
        all_goals simp [Path.collector, hitAt?, hit?, wanted, enclosed, found, current]; rfl
      | some element =>
        cases mode <;> simp only [wanted] at found
        all_goals
          simp only [Path.collector, hitAt?, hit?, wanted, enclosed, found, current, Bool.not_true, Bool.and_true,
            if_true, Option.map_some, ← added]
          rfl
    · cases mode <;> simp only [wanted] at found
      all_goals simp [Path.collector, hitAt?, hit?, wanted, enclosed, found]; rfl
  · simp [Path.collector, hitAt?, hit?, enclosed]; rfl

theorem encloses_of_hit {path : Path} {mode : Mode} {trail : Trail} {hit : Hit}
    (found : hitAt? path mode trail = some hit) : path.encloses trail = true :=
  (Bool.and_eq_true_iff.mp (hit_eq_some_iff.mp found).1).2

private theorem collector_steady (path : Path) (mode : Mode) : Steady (path.collector mode none) path.encloses
    (fun trail hits => hits ++ (hitAt? path mode trail).toList) := by
  intro trail hits
  rw [collector_run]
  cases found : hitAt? path mode trail with
  | none => simp [found]
  | some hit => simp [found, encloses_of_hit found]

private theorem folded_hits (find : Trail → Option Hit) (trails : List Trail) (hits : List Hit) :
    trails.foldl (fun hits trail => hits ++ (find trail).toList) hits = hits ++ trails.filterMap find := by
  induction trails generalizing hits with
  | nil => simp
  | cons trail trails ih =>
    rw [List.foldl_cons, ih, List.filterMap_cons]
    cases find trail <;> simp

private theorem gathered_eq (keep : Trail → Bool) (document : Nat) (root : Node) : gathered keep document root =
    (visited (fun _ => true) .empty [.ofDocument document root]).filterMap (hit? keep) := by
  simp only [gathered, Visitor.walk, visitAll_steady (gatherer_steady keep), folded_hits, List.nil_append]

theorem collect_eq (path : Path) (mode : Mode) (document : Nat) (root : Node) : path.collect mode none document root =
    (visited path.encloses .empty [.ofDocument document root]).filterMap (hitAt? path mode) := by
  simp only [Path.collect, Visitor.walk, visitAll_steady (collector_steady path mode), folded_hits, List.nil_append]

theorem collect_nodup (path : Path) (mode : Mode) (document : Nat) (root : Node) :
    ((path.collect mode none document root).map Hit.element).Nodup := by
  have distinct := visited_distinct path.encloses .empty [.ofDocument document root] (List.pairwise_singleton _ _)
  rw [collect_eq, List.Nodup, List.pairwise_map, List.pairwise_filterMap]
  refine distinct.imp ?_
  intro first second differ hit found hit' found' same
  exact differ (by rw [(hit_eq_some_iff.mp found).2.1, (hit_eq_some_iff.mp found').2.1, same])

variable {expression : String} {path : Path} {document : Nat} {root : Node}

private theorem encloses_of_isMatch (compiled : Path.compile expression = .ok path) {trail : Trail}
    (descends : Descends document root trail) (found : path.isMatch trail = true) : path.encloses trail = true := by
  obtain ⟨segments, rfl, _⟩ := segments_of_compile compiled
  obtain ⟨last, steps, stands⟩ := stands_of_descends descends
  have leading := (Bool.and_eq_true_iff.mp found).2
  rw [leadsAlong_iff stands, leads_iff] at leading
  rw [Path.encloses, leadsAlong_iff stands, leads_iff]
  exact encloses_of_matches leading

private theorem encloses_above (compiled : Path.compile expression = .ok path) {above below : Trail}
    (descendsAbove : Descends document root above) (descendsBelow : Descends document root below)
    (under : above.elements <+: below.elements) (enclosed : path.encloses below = true) :
    path.encloses above = true := by
  obtain ⟨segments, rfl, _⟩ := segments_of_compile compiled
  obtain ⟨_, steps, standsAbove⟩ := stands_of_descends descendsAbove
  obtain ⟨_, further, standsBelow⟩ := stands_of_descends descendsBelow
  obtain ⟨more, same⟩ := steps_prefix under
  rw [standsAbove.rooted, standsBelow.rooted, List.cons_append] at same
  obtain rfl := (List.cons.inj same).2
  rw [Path.encloses, leadsAlong_iff standsBelow, leads_iff] at enclosed
  rw [Path.encloses, leadsAlong_iff standsAbove, leads_iff]
  exact encloses_shorter enclosed standsBelow.route rfl rfl

/-- A trail that a path does not enclose has no enclosed trail and no match at it or below it. -/
theorem nothing_below (compiled : Path.compile expression = .ok path) {above below : Trail}
    (descendsAbove : Descends document root above) (descendsBelow : Descends document root below)
    (under : above.elements <+: below.elements) (outside : path.encloses above = false) :
    path.encloses below = false ∧ path.isMatch below = false := by
  have closed : path.encloses below = false := by
    apply Bool.eq_false_iff.mpr
    intro enclosed
    rw [encloses_above compiled descendsAbove descendsBelow under enclosed] at outside
    cases outside
  refine ⟨closed, Bool.eq_false_iff.mpr ?_⟩
  intro found
  rw [encloses_of_isMatch compiled descendsBelow found] at closed
  cases closed

/-- A pruned walk finds what a walk into everything finds at the trails that are enclosed. -/
theorem collect_eq_gathered (compiled : Path.compile expression = .ok path) (mode : Mode) :
    path.collect mode none document root =
      gathered (fun trail => wanted path mode trail && path.encloses trail) document root := by
  rw [collect_eq, gathered_eq]
  apply visited_pruned _ _ _ start_descends
  intro above below descendsAbove descendsBelow under outside
  simp [hitAt?, hit?, (nothing_below compiled descendsAbove descendsBelow under outside).1]

private theorem gathered_congr {keep keep' : Trail → Bool}
    (same : ∀ trail, Descends document root trail → keep trail = keep' trail) :
    gathered keep document root = gathered keep' document root := by
  rw [gathered_eq, gathered_eq]
  apply List.filterMap_congr
  intro trail member
  rw [hit?, hit?, same trail (visited_descends start_descends member)]

/-- The hits of a selection are the matches in the document, each with the location of its trail. -/
theorem mem_collect_iff (compiled : Path.compile expression = .ok path) {hit : Hit} :
    hit ∈ path.collect .matches none document root ↔ ∃ trail, Descends document root trail ∧
      path.isMatch trail = true ∧ trail.current? = some hit.element ∧ trail.location = hit.location := by
  rw [collect_eq_gathered compiled, gathered_eq, List.mem_filterMap]
  constructor
  · rintro ⟨trail, member, found⟩
    obtain ⟨kept, current, located⟩ := hit_eq_some_iff.mp found
    exact ⟨trail, mem_visited_iff.mp member, (Bool.and_eq_true_iff.mp kept).1, current, located⟩
  · rintro ⟨trail, descends, found, current, located⟩
    have kept : (wanted path .matches trail && path.encloses trail) = true := by
      simp [wanted, found, encloses_of_isMatch compiled descends found]
    exact ⟨trail, mem_visited_iff.mpr descends, hit_eq_some_iff.mpr ⟨kept, current, located⟩⟩

/-- Pruning a document loses nothing: what is not enclosed has nothing enclosed or matching below it, the
selections give the hits of walks into everything, each element once, and neither of them visits anything
below what is not enclosed. -/
structure Lossless (path : Path) (document : Nat) (root : Node) : Prop where
  closed : ∀ above below, Walked document root above → Walked document root below →
    above.elements <+: below.elements → path.encloses above = false →
    path.encloses below = false ∧ path.isMatch below = false
  selected : path.select root = gathered path.isMatch 0 root
  selectedOnce : ((path.select root).map Hit.element).Nodup
  enclosing : path.selectEnclosing root = gathered (fun trail => trail.atStep && path.encloses trail) 0 root
  enclosingOnce : ((path.selectEnclosing root).map Hit.element).Nodup
  inside : ∀ mode, ∀ below ∈ calls (path.collector mode none) document root [], ∀ above : Trail,
    above.elements ≠ [] → above.elements <+: below.elements → above ≠ below → path.encloses above = true

/-- Pruning with a compiled path loses nothing in any document. -/
theorem selections_lossless (compiled : Path.compile expression = .ok path) (document : Nat) (root : Node) :
    Lossless path document root := by
  refine ⟨?_, ?_, collect_nodup .., collect_eq_gathered compiled .encloses, collect_nodup .., ?_⟩
  · intro above below walkedAbove walkedBelow under outside
    exact nothing_below compiled walkedAbove.descends walkedBelow.descends under outside
  · rw [Path.select, collect_eq_gathered compiled .matches]
    apply gathered_congr
    intro trail descends
    by_cases found : path.isMatch trail = true
    · simp [wanted, found, encloses_of_isMatch compiled descends found]
    · simp [wanted, found]
  · intro mode below called above some under other
    rw [calls_steady (collector_steady path mode)] at called
    refine visited_entered called (List.length_pos_iff.mpr some) ?_ under
    apply Nat.lt_of_le_of_ne under.length_le
    intro size
    apply other
    cases above
    exact congrArg Trail.mk (under.eq_of_length size)

/-- Two branches, of which `$.a.b` leaves the second alone. -/
def branches : Node := .mapping [("a", .mapping [("b", .plain "1")]), ("c", .mapping [("b", .plain "2")])]

def outside : Trail :=
  ((Trail.empty.push (.ofDocument 0 branches)).push (.ofNode ⟨0, [0]⟩ branches)).push
    ⟨⟨0, [0, 1]⟩, .mappingEntry "c" (.mapping [("b", .plain "2")])⟩

def farOutside : Trail := outside.push (.ofNode ⟨0, [0, 1, 0]⟩ (.mapping [("b", .plain "2")]))

theorem selections_lossless_in_branches :
    Path.compile "$.a.b" = .ok ⟨[.root, .field "a", .field "b"]⟩ ∧
      Walked 0 branches outside ∧ Walked 0 branches farOutside ∧ outside.elements <+: farOutside.elements ∧
      Path.encloses ⟨[.root, .field "a", .field "b"]⟩ outside = false ∧
      farOutside ∉ calls (Path.collector ⟨[.root, .field "a", .field "b"]⟩ .matches none) 0 branches [] ∧
      ((Path.select ⟨[.root, .field "a", .field "b"]⟩ branches).map Hit.location = ["$.a.b"]) ∧
      Lossless ⟨[.root, .field "a", .field "b"]⟩ 0 branches := by
  have compiled : Path.compile "$.a.b" = .ok ⟨[.root, .field "a", .field "b"]⟩ :=
    Compiling.compile_of_toOption (by decide +kernel)
  have walked : Descends 0 branches outside := .down (.down .start (by decide)) (by decide)
  refine ⟨compiled, walked_iff.mpr walked, walked_iff.mpr (.down walked (by decide)), ⟨[_], rfl⟩, by decide,
    ?_, ?_, selections_lossless compiled 0 branches⟩
  · decide +kernel
  · decide +kernel

end PathQuery.Proofs.Pruning
