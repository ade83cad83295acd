import PathQuery.Proofs.Positions

/-! Scopes. A scope takes off whatever element is last when it is left, so it is right only if what was
done inside has taken off its own elements. Changes that do so leave a trail as they found it, and up to
then they change nothing of what was on it before. -/

namespace PathQuery.Proofs.Scopes
open Trail (Edit Outcome edit editAll)

/-- Changes in which every element is taken off again, by the end of its scope or by a pop. -/
inductive Balanced : List Edit → Prop where
  | nil : Balanced []
  | append {first second : List Edit} (before : Balanced first) (after : Balanced second) : Balanced (first ++ second)
  | enter {element : Element} {inside : List Edit} (within : Balanced inside) : Balanced [.enter element inside]
  | push {element : Element} {inside : List Edit} (within : Balanced inside) :
      Balanced (.push element :: (inside ++ [.pop]))

/-- What balanced changes lead to from a trail. A pop gives the element of the push that it belongs to, and
what was on the trail before the push is on it again; the same goes for the end of a scope. -/
inductive Restores : Trail → List Edit → List Outcome → Prop where
  | nil {trail : Trail} : Restores trail [] []
  | append {trail : Trail} {first second : List Edit} {outcomes more : List Outcome}
      (before : Restores trail first outcomes) (after : Restores trail second more) :
      Restores trail (first ++ second) (outcomes ++ more)
  | enter {trail : Trail} {element : Element} {inside : List Edit} {outcomes : List Outcome}
      (within : Restores (trail.push element) inside outcomes) :
      Restores trail [.enter element inside] [.entered (trail.push element) outcomes trail]
  | push {trail : Trail} {element : Element} {inside : List Edit} {outcomes : List Outcome}
      (within : Restores (trail.push element) inside outcomes) :
      Restores trail (.push element :: (inside ++ [.pop]))
        (.pushed (trail.push element) :: (outcomes ++ [.popped (some element) trail]))

mutual
/-- The trails that an edit goes through, those inside a scope included. -/
def momentsOf : Outcome → List Trail
  | .pushed after | .popped _ after => [after]
  | .entered inside outcomes left => inside :: (moments outcomes ++ [left])

def moments : List Outcome → List Trail
  | [] => []
  | outcome :: outcomes => momentsOf outcome ++ moments outcomes
end

/-- From one trail to another, with one element put on or taken off at a time. -/
inductive Passes : Trail → List Trail → Trail → Prop where
  | done {trail : Trail} : Passes trail [] trail
  | pushed {trail last : Trail} {between : List Trail} (element : Element)
      (onward : Passes (trail.push element) between last) : Passes trail (trail.push element :: between) last
  | popped {trail last : Trail} {between : List Trail} (onward : Passes trail.pop between last) :
      Passes trail (trail.pop :: between) last

/-- A trail is the beginning of another one, and so are its steps and its location. -/
structure Begins (trail longer : Trail) : Prop where
  elements : trail.elements <+: longer.elements
  steps : trail.steps <+: longer.steps
  location : ∃ further, longer.location = trail.location ++ further

theorem Passes.append {first middle last : Trail} {between more : List Trail} (passes : Passes first between middle)
    (onward : Passes middle more last) : Passes first (between ++ more) last := by
  induction passes with
  | done => exact onward
  | pushed element _ ih => exact .pushed element (ih onward)
  | popped _ ih => exact .popped (ih onward)

mutual
/-- No trail on the way is left out of the moments. -/
theorem passes_edit (trail : Trail) (change : Edit) :
    Passes trail (momentsOf (edit trail change).1) (edit trail change).2 := by
  match change with
  | .push element => exact .pushed element .done
  | .pop => exact .popped .done
  | .enter element inside =>
    have within := passes_editAll (trail.push element) inside
    exact .pushed element (within.append (.popped .done))

private theorem passes_editAll (trail : Trail) (changes : List Edit) :
    Passes trail (moments (editAll trail changes).1) (editAll trail changes).2 := by
  match changes with
  | [] => exact .done
  | change :: changes => exact (passes_edit trail change).append (passes_editAll _ changes)
end

private theorem editAll_cons (trail : Trail) (change : Edit) (changes : List Edit) : editAll trail (change :: changes) =
    ((edit trail change).1 :: (editAll (edit trail change).2 changes).1, (editAll (edit trail change).2 changes).2) :=
  rfl

private theorem editAll_append (trail : Trail) (first second : List Edit) : editAll trail (first ++ second) =
    ((editAll trail first).1 ++ (editAll (editAll trail first).2 second).1,
      (editAll (editAll trail first).2 second).2) := by
  induction first generalizing trail with
  | nil => rfl
  | cons change first ih => rw [List.cons_append, editAll_cons, editAll_cons, ih, List.cons_append]

private theorem editAll_enter {trail : Trail} {element : Element} {inside : List Edit} {outcomes : List Outcome}
    (ran : editAll (trail.push element) inside = (outcomes, trail.push element)) :
    editAll trail [.enter element inside] = ([.entered (trail.push element) outcomes trail], trail) := by
  rw [editAll_cons, edit, ran]
  simp [editAll]

private theorem editAll_push {trail : Trail} {element : Element} {inside : List Edit} {outcomes : List Outcome}
    (ran : editAll (trail.push element) inside = (outcomes, trail.push element)) :
    editAll trail (.push element :: (inside ++ [.pop])) =
      (.pushed (trail.push element) :: (outcomes ++ [.popped (some element) trail]), trail) := by
  rw [editAll_cons, edit, editAll_append, ran, editAll_cons, edit, Trail.pop_push, Trail.current?_push]
  rfl

private theorem restores_of_balanced {changes : List Edit} (balanced : Balanced changes) (trail : Trail) :
    ∃ outcomes, editAll trail changes = (outcomes, trail) ∧ Restores trail changes outcomes := by
  -- what is inside a scope or between a push and its pop starts from a longer trail
  induction balanced generalizing trail with
  | nil => exact ⟨[], rfl, .nil⟩
  | append _ _ first second =>
    obtain ⟨outcomes, ran, before⟩ := first trail
    obtain ⟨more, ran', after⟩ := second trail
    refine ⟨outcomes ++ more, ?_, .append before after⟩
    rw [editAll_append, ran, ran']
  | @enter element _ _ ih =>
    obtain ⟨_, ran, within⟩ := ih (trail.push element)
    exact ⟨_, editAll_enter ran, .enter within⟩
  | @push element _ _ ih =>
    obtain ⟨_, ran, within⟩ := ih (trail.push element)
    exact ⟨_, editAll_push ran, .push within⟩

private theorem begins_of_prefix {trail longer : Trail} (elements : trail.elements <+: longer.elements) :
    Begins trail longer := by
  obtain ⟨more, same⟩ := Positions.steps_prefix elements
  refine ⟨elements, ⟨more, same⟩, String.join (more.map fun step => step.key.location), ?_⟩
  rw [Trail.location, Trail.location, ← same]
  simp

private theorem moments_append (outcomes more : List Outcome) :
    moments (outcomes ++ more) = moments outcomes ++ moments more := by
  induction outcomes with
  | nil => rfl
  | cons outcome outcomes ih => rw [List.cons_append, moments, ih, moments, List.append_assoc]

/-- The moments of an element on a trail: it is put on, what is inside goes on, and it is off again. -/
theorem keeps_around {trail : Trail} {element : Element} {inside : List Trail}
    (within : ∀ moment ∈ inside, (trail.push element).elements <+: moment.elements) :
    ∀ moment ∈ trail.push element :: (inside ++ [trail]), trail.elements <+: moment.elements := by
  have pushed : trail.elements <+: (trail.push element).elements := List.prefix_append _ _
  refine List.forall_mem_cons.mpr ⟨pushed, List.forall_mem_append.mpr ⟨?_, by simp⟩⟩
  exact fun moment among => pushed.trans (within moment among)

/-- What was on the trail at the start is never taken off. -/
theorem Restores.keeps {trail : Trail} {changes : List Edit} {outcomes : List Outcome}
    (restores : Restores trail changes outcomes) :
    ∀ moment ∈ moments outcomes, trail.elements <+: moment.elements := by
  induction restores with
  | nil => simp [moments]
  | append _ _ before after =>
    rw [moments_append]
    exact List.forall_mem_append.mpr ⟨before, after⟩
  | enter _ ih =>
    rw [moments, momentsOf, moments, List.append_nil]
    exact keeps_around ih
  | push _ ih =>
    rw [moments, momentsOf, moments_append, List.singleton_append]
    exact keeps_around ih

/-- Balanced changes give back the trail they were made to, and each pop gives the element of its own push.
Between them the trail changes by one element at a time and always begins with what it was, so that the
steps and the location of what was there stay as they are. -/
theorem balanced_restores {changes : List Edit} (balanced : Balanced changes) (trail : Trail) :
    ∃ outcomes, editAll trail changes = (outcomes, trail) ∧ Restores trail changes outcomes ∧
      Passes trail (moments outcomes) trail ∧ ∀ moment ∈ moments outcomes, Begins trail moment := by
  obtain ⟨outcomes, ran, restores⟩ := restores_of_balanced balanced trail
  have passes := passes_editAll trail changes
  rw [ran] at passes
  exact ⟨outcomes, ran, restores, passes, fun moment among => begins_of_prefix (restores.keeps moment among)⟩

def namedEntry : Element := ⟨⟨0, [0, 1]⟩, .mappingEntry "k" (.plain "v")⟩

def bareLeaf : Element := ⟨⟨0, [0, 1, 0]⟩, .scalar ⟨"v", .plain⟩⟩

/-- Two scopes in one another, with pushes of the same elements within and after them. -/
def detours : List Edit :=
  [.enter namedEntry [.push bareLeaf, .pop, .enter bareLeaf [.push namedEntry, .push bareLeaf, .pop, .pop]],
    .push namedEntry, .pop]

/-- The trail at the start has an element that is put on again, and does not come from a walk. -/
def twisted : Trail := ⟨[bareLeaf, .ofDocument 0 (.plain "v"), namedEntry]⟩

theorem balanced_restores_after_detours :
    Balanced detours ∧
      (moments (editAll twisted detours).1).map (·.elements.length) = [4, 5, 4, 5, 6, 7, 6, 5, 4, 3, 4, 3] ∧
      ∃ outcomes, editAll twisted detours = (outcomes, twisted) ∧ Restores twisted detours outcomes ∧
        Passes twisted (moments outcomes) twisted ∧ ∀ moment ∈ moments outcomes, Begins twisted moment := by
  have inner : Balanced [.enter bareLeaf [.push namedEntry, .push bareLeaf, .pop, .pop]] := .enter (.push (.push .nil))
  have outer : Balanced [.push bareLeaf, .pop, .enter bareLeaf [.push namedEntry, .push bareLeaf, .pop, .pop]] :=
    .append (.push .nil) inner
  have balanced : Balanced detours := .append (.enter outer) (.push .nil)
  exact ⟨balanced, by decide, balanced_restores balanced twisted⟩

end PathQuery.Proofs.Scopes
