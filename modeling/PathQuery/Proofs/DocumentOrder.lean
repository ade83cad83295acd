import PathQuery.Proofs.Visited

/-! What a walk asks a visitor, whose answers may hang on all that it was asked before. The
trails come in document order; those below a skipped one are left out, and an error is the
last answer. -/

namespace PathQuery.Proofs.DocumentOrder
open WalkedTrails Visited

variable {σ ε : Type}

/-- Every element comes before its children, and these with all below them before its siblings. -/
def preorder : List Element → List Element
  | [] => []
  | element :: siblings => element :: (preorder element.children ++ preorder siblings)
termination_by elements => Element.totalSize elements
decreasing_by
  · simp only [Element.totalSize_cons]; have := element.size_eq_children; omega
  · simp only [Element.totalSize_cons]; have := element.size_pos; omega

structure Call (ε : Type) where
  trail : Trail
  answer : Except ε Visit

def Call.skips (call : Call ε) : Bool :=
  match call.answer with
  | .ok .skip => true
  | _ => false

/-- A visitor that does as another does, and keeps the trails with the answers to them. -/
def recording (visitor : Visitor σ ε) : Visitor (List (Call ε) × σ) ε := fun trail record =>
  let outcome := (visitor trail).run record.2
  (outcome.1, record.1 ++ [⟨trail, outcome.1⟩], outcome.2)

/-- The last element of the one trail is a proper ancestor of that of the other. -/
def Above (above below : Trail) : Prop := above.elements <+: below.elements ∧ above ≠ below

instance (above below : Trail) : Decidable (Above above below) :=
  inferInstanceAs (Decidable (_ ∧ _))

/-- The trail lies below one that the visitor skipped. -/
def shut (calls : List (Call ε)) (trail : Trail) : Bool :=
  calls.any fun call => call.skips && decide (Above call.trail trail)

/-- One call for each of the trails in turn, the shut ones left out. -/
def Passes (calls : List (Call ε)) (trails : List Trail) : Prop :=
  calls.map Call.trail = trails.filter (!shut calls ·)

/-- The calls pass all of the trails and are never answered by an error, or they pass those up
to the first one that is, and this error is the outcome. -/
inductive InOrder : List (Call ε) → List Trail → Except ε Unit → Prop where
  | finished {calls : List (Call ε)} {trails : List Trail} (passes : Passes calls trails)
      (allowed : ∀ call ∈ calls, ∃ visit, call.answer = .ok visit) : InOrder calls trails (.ok ())
  | stopped {earlier : List (Call ε)} {reached : List Trail} {last : Trail} {error : ε} (ahead : List Trail)
      (passes : Passes (earlier ++ [⟨last, .error error⟩]) (reached ++ [last]))
      (allowed : ∀ call ∈ earlier, ∃ visit, call.answer = .ok visit) :
      InOrder (earlier ++ [⟨last, .error error⟩]) (reached ++ [last] ++ ahead) (.error error)

variable {calls first second : List (Call ε)} {trails former later : List Trail} {outcome : Except ε Unit}

private theorem shut_append (first second : List (Call ε)) (trail : Trail) :
    shut (first ++ second) trail = (shut first trail || shut second trail) := List.any_append

private theorem shut_eq_false_iff {trail : Trail} :
    shut calls trail = false ↔ ∀ call ∈ calls, call.skips = true → ¬ Above call.trail trail := by
  simp [shut]

private theorem Passes.mem (passes : Passes calls trails) : ∀ call ∈ calls, call.trail ∈ trails := by
  intro call member
  have kept : call.trail ∈ trails.filter (!shut calls ·) := passes ▸ List.mem_map_of_mem member
  exact (List.mem_filter.mp kept).1

theorem Passes.append (front : Passes first former) (back : Passes second later)
    (ahead : ∀ call ∈ first, call.skips = true → ∀ trail ∈ later, ¬ Above call.trail trail)
    (behind : ∀ trail ∈ former, ∀ below ∈ later, ¬ Above below trail) :
    Passes (first ++ second) (former ++ later) := by
  -- neither part shuts a trail of the other, so each is left as it is
  have formerSame : former.filter (!shut (first ++ second) ·) = former.filter (!shut first ·) := by
    apply List.filter_congr
    intro trail member
    have unshut : shut second trail = false :=
      shut_eq_false_iff.mpr fun call among _ => behind trail member call.trail (back.mem call among)
    rw [shut_append, unshut, Bool.or_false]
  have laterSame : later.filter (!shut (first ++ second) ·) = later.filter (!shut second ·) := by
    apply List.filter_congr
    intro trail member
    have unshut : shut first trail = false :=
      shut_eq_false_iff.mpr fun call among skips => ahead call among skips trail member
    rw [shut_append, unshut, Bool.false_or]
  rw [Passes, List.map_append, List.filter_append, formerSame, laterSame, front, back]

theorem InOrder.append (front : InOrder first former (.ok ())) (back : InOrder second later outcome)
    (ahead : ∀ call ∈ first, call.skips = true → ∀ trail ∈ later, ¬ Above call.trail trail)
    (behind : ∀ trail ∈ former, ∀ below ∈ later, ¬ Above below trail) :
    InOrder (first ++ second) (former ++ later) outcome := by
  obtain ⟨passed, wentOn⟩ := front
  cases back with
  | finished passes allowed =>
    refine .finished (passed.append passes ahead behind) ?_
    intro call member
    exact (List.mem_append.mp member).elim (wentOn call) (allowed call)
  | @stopped earlier reached last error rest passes allowed =>
    have joined := passed.append passes
      (fun call among skips trail met => ahead call among skips trail (List.mem_append_left _ met))
      (fun trail among below met => behind trail among below (List.mem_append_left _ met))
    rw [← List.append_assoc, ← List.append_assoc] at joined
    rw [← List.append_assoc, ← List.append_assoc, ← List.append_assoc]
    refine .stopped rest joined ?_
    intro call member
    exact (List.mem_append.mp member).elim (wentOn call) (allowed call)

/-- Nothing is asked after an error. -/
theorem InOrder.append_of_error {error : ε} (order : InOrder calls trails (.error error)) (later : List Trail) :
    InOrder calls (trails ++ later) (.error error) := by
  cases order with
  | stopped rest passes allowed =>
    rw [List.append_assoc _ rest]
    exact .stopped (rest ++ later) passes allowed

theorem InOrder.entered (trail : Trail) : InOrder [(⟨trail, .ok .descend⟩ : Call ε)] [trail] (.ok ()) :=
  .finished (by simp [Passes, shut, Call.skips]) (by simp)

theorem InOrder.failed (trail : Trail) (error : ε) : InOrder [⟨trail, .error error⟩] [trail] (.error error) := by
  have passes : Passes ([] ++ [⟨trail, .error error⟩]) ([] ++ [trail]) := by simp [Passes, shut, Call.skips]
  exact .stopped [] passes (by simp)

private theorem InOrder.skipped {trail : Trail} {below : List Trail} (beneath : ∀ found ∈ below, Above trail found) :
    InOrder [(⟨trail, .ok .skip⟩ : Call ε)] (trail :: below) (.ok ()) := by
  refine .finished ?_ (by simp)
  have closed : below.filter (!shut [(⟨trail, .ok .skip⟩ : Call ε)] ·) = [] := by
    apply List.filter_eq_nil_iff.mpr
    intro found member
    simp [shut, Call.skips, beneath found member]
  rw [Passes, List.filter_cons_of_pos (by simp [shut, Above]), closed]
  rfl

private theorem InOrder.mem (order : InOrder calls trails outcome) : ∀ call ∈ calls, call.trail ∈ trails := by
  cases order with
  | finished passes allowed => exact passes.mem
  | stopped ahead passes allowed => exact fun call member => List.mem_append_left _ (passes.mem call member)

/-- How a walk of a visitor goes on from a state, with the calls it makes: one rule for each way
that it leaves an element. -/
inductive Traverses (visitor : Visitor σ ε) :
    Trail → List Element → σ → List (Call ε) → Except ε Unit → σ → Prop where
  | done (trail : Trail) (state : σ) : Traverses visitor trail [] state [] (.ok ()) state
  | failed {trail : Trail} {element : Element} {siblings : List Element} {state after : σ} {error : ε}
      (turn : (visitor (trail.push element)).run state = (.error error, after)) :
      Traverses visitor trail (element :: siblings) state [⟨trail.push element, .error error⟩] (.error error) after
  | skipped {trail : Trail} {element : Element} {siblings : List Element} {state after last : σ}
      {calls : List (Call ε)} {outcome : Except ε Unit}
      (turn : (visitor (trail.push element)).run state = (.ok .skip, after))
      (beside : Traverses visitor trail siblings after calls outcome last) :
      Traverses visitor trail (element :: siblings) state (⟨trail.push element, .ok .skip⟩ :: calls) outcome last
  | stopped {trail : Trail} {element : Element} {siblings : List Element} {state after last : σ}
      {calls : List (Call ε)} {error : ε}
      (turn : (visitor (trail.push element)).run state = (.ok .descend, after))
      (below : Traverses visitor (trail.push element) element.children after calls (.error error) last) :
      Traverses visitor trail (element :: siblings) state (⟨trail.push element, .ok .descend⟩ :: calls)
        (.error error) last
  | passed {trail : Trail} {element : Element} {siblings : List Element} {state after later last : σ}
      {inner outer : List (Call ε)} {outcome : Except ε Unit}
      (turn : (visitor (trail.push element)).run state = (.ok .descend, after))
      (below : Traverses visitor (trail.push element) element.children after inner (.ok ()) later)
      (beside : Traverses visitor trail siblings later outer outcome last) :
      Traverses visitor trail (element :: siblings) state
        (⟨trail.push element, .ok .descend⟩ :: inner ++ outer) outcome last

/-- A walk goes as one of the rules says, and a record of it holds the calls. -/
theorem visitAll_traverses (visitor : Visitor σ ε) (trail : Trail) (elements : List Element)
    (record : List (Call ε)) (state : σ) : ∃ calls,
      let outcome := (visitor.visitAll trail elements).run state
      Traverses visitor trail elements state calls outcome.1 outcome.2 ∧
      ((recording visitor).visitAll trail elements).run (record, state) = (outcome.1, record ++ calls, outcome.2) := by
  induction trail, elements using walk_induction generalizing record state with
  | nil trail =>
    simp only [visitAll_nil]
    exact ⟨[], .done trail state, by rw [List.append_nil]⟩
  | cons trail element siblings beside below =>
    have recorded : (recording visitor (trail.push element)).run (record, state) =
        let outcome := (visitor (trail.push element)).run state
        (outcome.1, record ++ [⟨trail.push element, outcome.1⟩], outcome.2) := rfl
    simp only [visitAll_cons, recorded]
    rcases turn : (visitor (trail.push element)).run state with ⟨error | _ | _, after⟩
    · exact ⟨_, .failed turn, rfl⟩
    · obtain ⟨inner, inside, ran⟩ := below (record ++ [⟨trail.push element, .ok .descend⟩]) after
      dsimp only at ran ⊢
      rw [ran]
      rcases outcome : (visitor.visitAll (trail.push element) element.children).run after with ⟨error | _, later⟩
      · rw [outcome] at inside
        exact ⟨_, .stopped turn inside, by simp⟩
      · rw [outcome] at inside
        obtain ⟨outer, outside, went⟩ := beside (record ++ [⟨trail.push element, .ok .descend⟩] ++ inner) later
        refine ⟨_, .passed turn inside outside, ?_⟩
        dsimp only at went ⊢
        rw [went]
        simp
    · obtain ⟨calls, outside, went⟩ := beside (record ++ [⟨trail.push element, .ok .skip⟩]) after
      refine ⟨_, .skipped turn outside, ?_⟩
      dsimp only at went ⊢
      rw [went]
      simp

private theorem above_of_visited {trail found : Trail} {element : Element}
    (member : found ∈ visited (fun _ => true) (trail.push element) element.children) :
    Above (trail.push element) found := by
  obtain ⟨child, _, under⟩ := visited_under member
  refine ⟨(List.prefix_append _ _).trans under, ?_⟩
  rintro rfl
  have size := under.length_le
  simp [Trail.push] at size

private theorem Above.asymm {above below : Trail} (first : Above above below) : ¬ Above below above := by
  intro second
  exact first.2 (congrArg Trail.mk (first.1.eq_of_length_le second.1.length_le))

/-- Neither of two trails through different elements is above the other. -/
theorem not_above_across {trail first second : Trail} {element sibling : Element} (different : element ≠ sibling)
    (through : (trail.push element).elements <+: first.elements)
    (across : (trail.push sibling).elements <+: second.elements) : ¬ Above first second := by
  intro above
  have both := List.prefix_of_prefix_length_le (through.trans above.1) across (by simp [Trail.push])
  have same := both.eq_of_length (by simp [Trail.push])
  exact different (by simpa [Trail.push] using same)

private theorem visited_apart {trail : Trail} {element : Element} {siblings : List Element}
    (alone : element ∉ siblings) :
    ∀ first ∈ trail.push element :: visited (fun _ => true) (trail.push element) element.children,
      ∀ second ∈ visited (fun _ => true) trail siblings, ¬ Above first second ∧ ¬ Above second first := by
  intro first member second beyond
  have through : (trail.push element).elements <+: first.elements := by
    rcases List.mem_cons.mp member with rfl | below
    · exact List.prefix_rfl
    · exact (above_of_visited below).1
  obtain ⟨sibling, among, across⟩ := visited_under beyond
  have different : element ≠ sibling := fun same => alone (same ▸ among)
  exact ⟨not_above_across different through across, not_above_across different.symm across through⟩

private theorem children_nodup (element : Element) : element.children.Nodup := by
  refine (children_apart element).imp ?_
  rintro first second apart rfl
  have beneath : Beneath first.place (Trail.empty.push first) := ⟨first, [], by simp, by simp⟩
  exact apart _ beneath beneath

private theorem InOrder.append_apart (front : InOrder first former (.ok ())) (back : InOrder second later outcome)
    (apart : ∀ trail ∈ former, ∀ other ∈ later, ¬ Above trail other ∧ ¬ Above other trail) :
    InOrder (first ++ second) (former ++ later) outcome :=
  front.append back (fun call member _ other beyond => (apart call.trail (front.mem call member) other beyond).1)
    (fun trail member other beyond => (apart trail member other beyond).2)

private theorem InOrder.descended {trail : Trail} {element : Element}
    (inside : InOrder calls (visited (fun _ => true) (trail.push element) element.children) outcome) :
    InOrder (⟨trail.push element, .ok .descend⟩ :: calls)
      (trail.push element :: visited (fun _ => true) (trail.push element) element.children) outcome := by
  refine (InOrder.entered _).append inside ?_ ?_
  · intro call member skips
    simp [List.mem_singleton.mp member, Call.skips] at skips
  · intro entered member found below
    rw [List.mem_singleton.mp member]
    exact (above_of_visited below).asymm

private theorem Traverses.inOrder {visitor : Visitor σ ε} {trail : Trail} {elements : List Element} {state last : σ}
    (traverses : Traverses visitor trail elements state calls outcome last) (distinct : elements.Nodup) :
    InOrder calls (visited (fun _ => true) trail elements) outcome := by
  -- siblings differ, so what is skipped or called at one of them says nothing of the next
  induction traverses with
  | done trail state =>
    rw [visited_nil]
    exact .finished rfl (by simp)
  | @failed trail element siblings =>
    rw [visited_cons]
    exact (InOrder.failed _ _).append_of_error _
  | @skipped trail element siblings _ _ _ _ _ _ _ beside =>
    obtain ⟨alone, others⟩ := List.nodup_cons.mp distinct
    rw [visited_cons, if_pos rfl, ← List.cons_append, ← List.singleton_append]
    exact (InOrder.skipped fun found => above_of_visited).append_apart (beside others) (visited_apart alone)
  | @stopped trail element siblings _ _ _ _ _ _ _ below =>
    rw [visited_cons, if_pos rfl, ← List.cons_append]
    exact (below (children_nodup element)).descended.append_of_error _
  | @passed trail element siblings _ _ _ _ _ _ _ _ _ _ below beside =>
    obtain ⟨alone, others⟩ := List.nodup_cons.mp distinct
    rw [visited_cons, if_pos rfl, ← List.cons_append]
    exact (below (children_nodup element)).descended.append_apart (beside others) (visited_apart alone)

private theorem visited_preorder (trail : Trail) (elements : List Element) :
    (visited (fun _ => true) trail elements).map Trail.current? = (preorder elements).map some := by
  induction trail, elements using walk_induction with
  | nil trail => rw [visited_nil, preorder]; rfl
  | cons trail element siblings beside below =>
    rw [visited_cons, preorder, if_pos rfl, List.map_cons, List.map_cons, List.map_append, List.map_append,
      Trail.current?_push, below, beside]

/-- The walk with a single trail: an element is pushed before the visitor is asked, and popped
whichever way the walk leaves it. -/
def visitInPlace (visitor : Visitor σ ε) : List Element → Trail × σ → Except ε Unit × Trail × σ
  | [], here => (.ok (), here)
  | element :: siblings, (trail, state) =>
    let inside := trail.push element
    match (visitor inside).run state with
    | (.error error, after) => (.error error, inside.pop, after)
    | (.ok .skip, after) => visitInPlace visitor siblings (inside.pop, after)
    | (.ok .descend, after) =>
      match visitInPlace visitor element.children (inside, after) with
      | (.error error, left, later) => (.error error, left.pop, later)
      | (.ok (), left, later) => visitInPlace visitor siblings (left.pop, later)
termination_by elements => Element.totalSize elements
decreasing_by
  · simp only [Element.totalSize_cons]; have := element.size_pos; omega
  · simp only [Element.totalSize_cons]; have := element.size_eq_children; omega
  · simp only [Element.totalSize_cons]; have := element.size_pos; omega

/-- Every push is undone, so each visit finds the trail as if it had been built anew. -/
theorem visitInPlace_eq (visitor : Visitor σ ε) (trail : Trail) (elements : List Element) (state : σ) :
    let outcome := (visitor.visitAll trail elements).run state
    visitInPlace visitor elements (trail, state) = (outcome.1, trail, outcome.2) := by
  induction trail, elements using walk_induction generalizing state with
  | nil trail => rw [visitAll_nil, visitInPlace]
  | cons trail element siblings beside below =>
    rw [visitAll_cons, visitInPlace]
    rcases (visitor (trail.push element)).run state with ⟨error | _ | _, after⟩
    · simp
    · simp only [below]
      rcases (visitor.visitAll (trail.push element) element.children).run after with ⟨error | _, later⟩
      · simp
      · simp [beside]
    · simp [beside]

/-- A walk goes past all elements of the document in document order. Each is called with the
chain of elements that leads down to it, unless a proper ancestor was skipped, and the first
error ends the walk and is its outcome. The walk that pushes to one trail and pops from it
makes the same calls and ends with an empty trail. -/
theorem walk_in_document_order (visitor : Visitor σ ε) (document : Nat) (root : Node) (state : σ) :
    let outcome := (visitor.walk document root).run state
    ∃ calls trails,
      ((recording visitor).walk document root).run ([], state) = (outcome.1, calls, outcome.2) ∧
      visitInPlace (recording visitor) [.ofDocument document root] (.empty, [], state) =
        (outcome.1, .empty, calls, outcome.2) ∧
      trails.map Trail.current? = (preorder [.ofDocument document root]).map some ∧
      (∀ trail ∈ trails, Descends document root trail) ∧
      InOrder calls trails outcome.1 := by
  obtain ⟨calls, traverses, recorded⟩ := visitAll_traverses visitor .empty [.ofDocument document root] [] state
  rw [List.nil_append] at recorded
  refine ⟨calls, visited (fun _ => true) .empty [.ofDocument document root], recorded, ?_, ?_, ?_, ?_⟩
  · rw [visitInPlace_eq, recorded]
    rfl
  · exact visited_preorder _ _
  · exact fun trail => mem_visited_iff.mp
  · exact traverses.inOrder (by simp)

end PathQuery.Proofs.DocumentOrder
