import PathQuery.Proofs.Lookahead

/-! What holds on every trail, also on those that no walk makes: trails of several documents or of
none, with detached entries, and with elements in any order. Nothing is known here about what lies
below what, only that pushing elements onto a trail leaves the steps it has as they are. -/

namespace PathQuery.Proofs.AnyTrail
open PathQuery.Path Positions Leads

variable {mode : Mode} {path : Path} {trail : Trail}

/-- The segments that a run goes through. -/
def afterRoot (path : Path) : List Segment :=
  match path.segments with
  | .root :: segments => segments
  | segments => segments

private theorem leadsAlong_rooted {root : Node} {ahead : List Step} (rooted : trail.steps = ⟨.root, root⟩ :: ahead) :
    leadsAlong mode path trail = leads mode (afterRoot path) root ahead := by
  rw [leadsAlong, rooted]
  obtain ⟨segments⟩ := path
  cases segments with
  | nil => rfl
  | cons first more => cases first <;> rfl

theorem leadsAlong_iff_run : leadsAlong mode path trail = true ↔
    ∃ root ahead, trail.steps = ⟨.root, root⟩ :: ahead ∧ Run mode (afterRoot path) root ahead := by
  constructor
  · intro leading
    cases same : trail.steps with
    | nil =>
      rw [leadsAlong, same] at leading
      cases leading
    | cons step ahead =>
      obtain ⟨key, root⟩ := step
      cases key with
      | root => exact ⟨root, ahead, rfl, run_of_leads (leadsAlong_rooted same ▸ leading)⟩
      | name | index | detached =>
        rw [leadsAlong, same] at leading
        cases leading
  · rintro ⟨root, ahead, rooted, run⟩
    exact (leadsAlong_rooted rooted).trans (leads_of_run run)

private theorem elements_pushed (trail : Trail) (more : List Element) :
    (more.foldl Trail.push trail).elements = trail.elements ++ more := by
  induction more generalizing trail with
  | nil => simp
  | cons element more ih => simp [ih, Trail.push]

/-- A match on a trail is enclosed there and on every longer trail, whatever has been pushed. -/
theorem encloses_onward (path : Path) (trail : Trail) (found : path.isMatch trail = true) :
    path.encloses trail = true ∧ ∀ more : List Element, path.encloses (more.foldl Trail.push trail) = true := by
  have onward (more : List Element) : path.encloses (more.foldl Trail.push trail) = true := by
    obtain ⟨root, ahead, rooted, run⟩ := leadsAlong_iff_run.mp (Bool.and_eq_true_iff.mp found).2
    have under : trail.elements <+: (more.foldl Trail.push trail).elements := by
      rw [elements_pushed]
      exact List.prefix_append _ _
    obtain ⟨further, longer⟩ := steps_prefix under
    rw [rooted, List.cons_append] at longer
    have along := Lookahead.encloses_of_above run (List.prefix_append ahead further)
    exact leadsAlong_iff_run.mpr ⟨root, ahead ++ further, longer.symm, along⟩
  exact ⟨onward [], onward⟩

/-- An entry that does not follow the sequence it belongs to. -/
def strayEntry : Trail :=
  (Trail.empty.push (.ofDocument 0 (.sequence [.plain "x"]))).push
    ⟨⟨1, [0, 4]⟩, .sequenceEntry (.mapping [("k", .plain "v")])⟩

/-- Elements of several documents, out of order. -/
def strayElements : List Element :=
  [.ofDocument 2 (.plain "y"), ⟨⟨0, [0]⟩, .sequence [.plain "x"]⟩, ⟨⟨1, [7]⟩, .mappingEntry "a" (.sequence [])⟩]

theorem encloses_onward_from_stray_entry :
    Path.compile "$..*[?(@.k == 'v')]" = .ok ⟨[.root, .descent, .wildcard, .predicate ⟨"k", "v"⟩]⟩ ∧
      strayEntry.location = "$[?]" ∧
      Path.isMatch ⟨[.root, .descent, .wildcard, .predicate ⟨"k", "v"⟩]⟩ strayEntry = true ∧
      Path.encloses ⟨[.root, .descent, .wildcard, .predicate ⟨"k", "v"⟩]⟩ strayEntry = true ∧
      (strayElements.foldl Trail.push strayEntry).location = "$[?]$.a" ∧
      Path.encloses ⟨[.root, .descent, .wildcard, .predicate ⟨"k", "v"⟩]⟩
        (strayElements.foldl Trail.push strayEntry) = true := by
  obtain ⟨here, onward⟩ := encloses_onward ⟨[.root, .descent, .wildcard, .predicate ⟨"k", "v"⟩]⟩ strayEntry (by decide)
  exact ⟨Compiling.compile_of_toOption (by decide +kernel), by decide +kernel, by decide, here, by decide +kernel,
    onward strayElements⟩

end PathQuery.Proofs.AnyTrail
