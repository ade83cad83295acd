import PathQuery.Proofs.Leads

/-! The run by numbers. Segments and steps stay where they are, and every call says by two numbers how far
it has come. What is looked up at such a number may be missing, the root may be met where it must not be,
and calls may nest without end; along a compiled path none of this happens, whatever the trail is. -/

namespace PathQuery.Proofs.CountedRuns
open PathQuery.Path Leads

/-- A run from a segment, counted from zero, with the current step counted from one. -/
structure Call where
  segment : Nat
  step : Nat
deriving DecidableEq, Repr

inductive Fault where
  /-- There is no step with the number. -/
  | noStep
  /-- The root stands past the head of the path. -/
  | lateRoot
  /-- Calls nest deeper than is allowed for. -/
  | tooDeep
deriving DecidableEq, Repr

/-- A computation that keeps the calls it makes, in their order, also when it fails. -/
abbrev Counting := ExceptT Fault (StateM (List Call))

def note (call : Call) : Counting Unit := modify (· ++ [call])

def stepAt (steps : List Step) : Nat → Counting Step
  | 0 => throw .noStep
  | number + 1 =>
    match steps[number]? with
    | some step => pure step
    | none => throw .noStep

/-- What a call does with its segment and the current value; `again` makes a further call. -/
def turn (mode : Mode) (again : (s c : Nat) → Counting Bool) (segment : Segment) (current : Node)
    (next : Option Step) (s c : Nat) : Counting Bool :=
  match segment with
  | .root => if s = 0 then again (s + 1) c else throw .lateRoot
  | .descent => do
    if ← again (s + 1) c then pure true
    else
      match next with
      | some _ => again s (c + 1)
      | none => pure (mode == .encloses && current.isContainer)
  | .predicate filter =>
    match current with
    | .mapping _ => if filter.accepts current then again (s + 1) c else pure false
    | .sequence items =>
      match next with
      | some element => if filter.accepts element.value then again (s + 1) (c + 1) else pure false
      | none => pure (mode == .encloses && items.any filter.accepts)
    | .scalar _ => pure false
  | .wildcard | .field _ | .index _ =>
    match next with
    | some step => if segment.acceptsKey step.key then again (s + 1) (c + 1) else pure false
    | none => pure (mode == .encloses && segment.leadsInto current)

/-- A call, below which others may nest down to a depth. -/
def call (mode : Mode) (segments : List Segment) (steps : List Step) : (depth s c : Nat) → Counting Bool
  | 0, _, _ => throw .tooDeep
  | depth + 1, s, c => do
    note ⟨s, c⟩
    match segments[s]? with
    | none => pure (mode == .encloses || c == steps.length)
    | some segment => do
      let current ← stepAt steps c
      turn mode (call mode segments steps depth) segment current.value steps[c]? s c

/-- A question to a path about a trail. The run starts at the first step, which has to be a root. -/
def evaluate (mode : Mode) (path : Path) (trail : Trail) (depth : Nat) : Counting Bool :=
  if mode = .matches ∧ trail.atStep = false then pure false
  else if trail.steps.head?.map Step.key = some .root then call mode path.segments trail.steps depth 0 1
  else pure false

/-- What a path answers to the question about a trail. -/
def answer (mode : Mode) (path : Path) (trail : Trail) : Bool :=
  match mode with
  | .matches => path.isMatch trail
  | .encloses => path.encloses trail

variable {mode : Mode} {segments : List Segment} {steps : List Step} {depth s c : Nat}

structure Inside (segments : List Segment) (steps : List Step) (call : Call) : Prop where
  segment : call.segment ≤ segments.length
  first : 1 ≤ call.step
  last : call.step ≤ steps.length

/-- A computation comes to an answer, which is whether something holds, and makes calls within bounds only. -/
def Answers (segments : List Segment) (steps : List Step) (asked : Counting Bool) (holds : Prop) : Prop :=
  ∀ earlier, ∃ answer calls, asked.run earlier = (.ok answer, earlier ++ calls) ∧ (answer = true ↔ holds) ∧
    ∀ call ∈ calls, Inside segments steps call

theorem Answers.pure {answer : Bool} {holds : Prop} (same : answer = true ↔ holds) :
    Answers segments steps (pure answer) holds :=
  fun earlier => ⟨answer, [], by rw [List.append_nil]; rfl, same, by simp⟩

theorem Answers.congr {asked : Counting Bool} {holds other : Prop} (answers : Answers segments steps asked holds)
    (same : holds ↔ other) : Answers segments steps asked other := by
  intro earlier
  obtain ⟨answer, calls, ran, meant, inside⟩ := answers earlier
  exact ⟨answer, calls, ran, meant.trans same, inside⟩

theorem Answers.noted {asked : Counting Bool} {holds : Prop} {call : Call} (inside : Inside segments steps call)
    (answers : Answers segments steps asked holds) : Answers segments steps (note call >>= fun _ => asked) holds := by
  intro earlier
  obtain ⟨answer, calls, ran, meant, within⟩ := answers (earlier ++ [call])
  refine ⟨answer, call :: calls, ?_, meant, List.forall_mem_cons.mpr ⟨inside, within⟩⟩
  rw [List.append_cons, ← ran]
  rfl

private theorem Answers.orElse {first second : Counting Bool} {former latter : Prop}
    (answers : Answers segments steps first former) (otherwise : Answers segments steps second latter) :
    Answers segments steps (do if ← first then Pure.pure true else second) (former ∨ latter) := by
  intro earlier
  obtain ⟨answer, calls, ran, meant, within⟩ := answers earlier
  rw [WalkedTrails.run_bind, ran]
  cases answer with
  | true => exact ⟨true, calls, rfl, by simp [meant.mp rfl], within⟩
  | false =>
    obtain ⟨answer, more, ran, meant', within'⟩ := otherwise (earlier ++ calls)
    have none : ¬ former := fun found => nomatch meant.mpr found
    refine ⟨answer, calls ++ more, by rw [← List.append_assoc]; exact ran, by simp [meant', none], ?_⟩
    exact List.forall_mem_append.mpr ⟨within, within'⟩

private theorem Answers.andThen {test : Bool} {next : Counting Bool} {holds : Prop}
    (answers : Answers segments steps next holds) :
    Answers segments steps (if test then next else Pure.pure false) (test = true ∧ holds) := by
  cases test with
  | true => exact answers.congr (by simp)
  | false => exact .pure (by simp)

private theorem stepAt_eq (first : 1 ≤ c) {current : Step} (found : steps[c - 1]? = some current) :
    stepAt steps c = pure current := by
  obtain ⟨number, rfl⟩ := Nat.exists_eq_add_of_le' first
  rw [Nat.add_sub_cancel] at found
  rw [stepAt, found]

private theorem turn_over {again : Nat → Nat → Counting Bool} {segment : Segment} (crosses : OverKey segment)
    (current : Node) (next : Option Step) : turn mode again segment current next s c =
      match next with
      | some step => if segment.acceptsKey step.key then again (s + 1) (c + 1) else pure false
      | none => pure (mode == .encloses && segment.leadsInto current) := by
  cases segment with
  | root | descent | predicate => exact crosses.elim
  | wildcard | field | index => rfl

/-- A turn answers for the segment if the calls that it may make do for what is left after it. -/
theorem turn_answers {again : Nat → Nat → Counting Bool} {segment : Segment} {rest : List Segment} {current : Node}
    {ahead : List Step} (past : segment ≠ .root)
    (arrived : Answers segments steps (again (s + 1) c) (leads mode rest current ahead = true))
    (deeper : ∀ step more, ahead = step :: more →
      Answers segments steps (again s (c + 1)) (leads mode (segment :: rest) step.value more = true))
    (across : ∀ step more, ahead = step :: more →
      Answers segments steps (again (s + 1) (c + 1)) (leads mode rest step.value more = true)) :
    Answers segments steps (turn mode again segment current ahead.head? s c)
      (leads mode (segment :: rest) current ahead = true) := by
  obtain rfl | rfl | ⟨filter, rfl⟩ | crosses := segment_cases segment
  · exact absurd rfl past
  · cases ahead with
    | nil =>
      refine (arrived.orElse (.pure ?_)).congr leads_descent_nil.symm
      simp
    | cons step more => exact (arrived.orElse (deeper step more rfl)).congr leads_descent_cons.symm
  · cases current with
    | mapping entries => exact arrived.andThen.congr leads_predicate_mapping.symm
    | sequence items =>
      cases ahead with
      | nil =>
        refine .pure ?_
        rw [leads_predicate_nil]
        simp
      | cons step more => exact (across step more rfl).andThen.congr leads_predicate_cons.symm
    | scalar leaf =>
      refine .pure ?_
      rw [leads_predicate_scalar]
  · rw [turn_over crosses]
    cases ahead with
    | nil =>
      refine .pure ?_
      rw [leads_over_nil crosses]
      simp
    | cons step more => exact (across step more rfl).andThen.congr (leads_over_cons crosses).symm

/-- What a call is asked: whether the segments from its own on lead over the steps after the current one. -/
theorem call_answers (onlyFirst : ∀ number, segments[number]? = some .root → number = 0) (later : 0 < s)
    (inside : s ≤ segments.length) (first : 1 ≤ c) (last : c ≤ steps.length)
    (enough : segments.length + steps.length < depth + s + c) {current : Step} (found : steps[c - 1]? = some current) :
    Answers segments steps (call mode segments steps depth s c)
      (leads mode (segments.drop s) current.value (steps.drop c) = true) := by
  induction depth generalizing s c current with
  | zero => omega
  | succ depth ih =>
    rw [call]
    refine .noted ⟨inside, first, last⟩ ?_
    cases reached : segments[s]? with
    | none =>
      have none : segments.drop s = [] := List.drop_eq_nil_of_le (List.getElem?_eq_none_iff.mp reached)
      rw [none, leads_nil]
      refine .pure ?_
      have spent : c = steps.length ↔ steps.drop c = [] := by
        rw [List.drop_eq_nil_iff]
        omega
      simp [spent]
    | some segment =>
      obtain ⟨within, rfl⟩ := List.getElem?_eq_some_iff.mp reached
      have past : segments[s] ≠ .root := by
        intro root
        have head := onlyFirst s (root ▸ reached)
        omega
      simp only [stepAt_eq first found, pure_bind]
      rw [List.drop_eq_getElem_cons within, ← List.head?_drop]
      -- where a step follows, it is the current one of the calls that go past it
      have following {step : Step} {more : List Step} (split : steps.drop c = step :: more) :
          c + 1 ≤ steps.length ∧ steps[c + 1 - 1]? = some step ∧ steps.drop (c + 1) = more := by
        have size := congrArg List.length split
        have next := congrArg List.head? split
        have tail := congrArg List.tail split
        rw [List.length_drop, List.length_cons] at size
        rw [List.head?_drop] at next
        rw [List.tail_drop] at tail
        exact ⟨by omega, next, tail⟩
      refine turn_answers past (ih (by omega) (by omega) first last (by omega) found) ?_ ?_
      · intro step more split
        obtain ⟨last, found, rfl⟩ := following split
        rw [← List.drop_eq_getElem_cons within]
        exact ih later inside (by omega) last (by omega) found
      · intro step more split
        obtain ⟨last, found, rfl⟩ := following split
        exact ih (by omega) (by omega) (by omega) last (by omega) found

/-- The root is taken by the first call, at the first step. -/
theorem call_answers_at_root {root : Step} {ahead : List Step} (noRoot : .root ∉ segments)
    (enough : segments.length + 1 + (ahead.length + 1) ≤ depth) :
    Answers (.root :: segments) (root :: ahead) (call mode (.root :: segments) (root :: ahead) depth 0 1)
      (leads mode segments root.value ahead = true) := by
  have onlyFirst (number : Nat) (found : (Segment.root :: segments)[number]? = some .root) : number = 0 := by
    cases number with
    | zero => rfl
    | succ number =>
      rw [List.getElem?_cons_succ] at found
      exact absurd (List.mem_of_getElem? found) noRoot
  cases depth with
  | zero => omega
  | succ depth =>
    have next : Answers (.root :: segments) (root :: ahead) (call mode (.root :: segments) (root :: ahead) depth 1 1)
        (leads mode segments root.value ahead = true) :=
      call_answers onlyFirst (by omega) (by simp) (by omega) (by simp) (by simp; omega) rfl
    rw [call]
    exact .noted ⟨by simp, by simp, by simp⟩ next

private theorem evaluate_answers {path : Path} {trail : Trail} (rooted : path.segments = .root :: segments)
    (noRoot : .root ∉ segments) (enough : path.segments.length + trail.steps.length ≤ depth) :
    Answers path.segments trail.steps (evaluate mode path trail depth) (answer mode path trail = true) := by
  obtain ⟨_⟩ := path
  subst rooted
  have asked : answer mode ⟨.root :: segments⟩ trail = true ↔
      ¬ (mode = .matches ∧ trail.atStep = false) ∧ leadsAlong mode ⟨.root :: segments⟩ trail = true := by
    cases mode <;> simp [answer, isMatch, encloses]
  rw [evaluate]
  split
  next missing => exact .pure (by rw [asked]; simp [missing])
  next asking =>
    have asked : leadsAlong mode ⟨.root :: segments⟩ trail = true ↔ answer mode ⟨.root :: segments⟩ trail = true := by
      simp [asked, asking]
    refine .congr ?_ asked
    unfold leadsAlong
    generalize trail.steps = steps at enough ⊢
    cases steps with
    | nil => exact .pure (by simp)
    | cons step ahead =>
      obtain ⟨key, root⟩ := step
      cases key with
      | root => exact call_answers_at_root noRoot enough
      | name | index | detached => exact .pure (by simp)

/-- A compiled path answers every question about every trail. The run to the answer is made of calls that stay
within the segments and the steps, does not come upon the root again, and nests its calls no deeper than
there are segments and steps. -/
theorem evaluation_in_bounds {expression : String} {path : Path} (compiled : Path.compile expression = .ok path)
    (mode : Mode) (trail : Trail) (depth : Nat) (enough : path.segments.length + trail.steps.length ≤ depth) :
    ∃ calls, (evaluate mode path trail depth).run [] = (.ok (answer mode path trail), calls) ∧
      ∀ call ∈ calls, call.segment ≤ path.segments.length ∧ 1 ≤ call.step ∧ call.step ≤ trail.steps.length := by
  obtain ⟨segments, rfl, noRoot⟩ := segments_of_compile compiled
  have answers : Answers (.root :: segments) trail.steps (evaluate mode ⟨.root :: segments⟩ trail depth)
      (answer mode ⟨.root :: segments⟩ trail = true) := evaluate_answers rfl noRoot enough
  obtain ⟨given, calls, ran, meant, inside⟩ := answers []
  obtain rfl : given = answer mode ⟨.root :: segments⟩ trail := Bool.eq_iff_iff.mpr meant
  exact ⟨calls, ran, fun call made => ⟨(inside call made).segment, (inside call made).first, (inside call made).last⟩⟩

/-- A document, an entry and an item from elsewhere, and the document once more. -/
def strayTrail : Trail :=
  (((Trail.empty.push (.ofDocument 0 (.mapping [("k", .plain "v")]))).push
    ⟨⟨1, [0, 2]⟩, .mappingEntry "x" (.sequence [])⟩).push
    ⟨⟨2, [0, 7]⟩, .sequenceEntry (.mapping [("k", .plain "v")])⟩).push
    (.ofDocument 0 (.mapping [("k", .plain "v")]))

/-- The descent at the fourth segment is tried at one step, and after that at the next. -/
theorem evaluation_in_bounds_along_stray_elements :
    Path.compile "$..x[?(@.k == 'v')]..y" =
        .ok ⟨[.root, .descent, .field "x", .predicate ⟨"k", "v"⟩, .descent, .field "y"]⟩ ∧
      strayTrail.steps.map Step.key = [.root, .name "x", .detached, .root] ∧
      ((evaluate .encloses ⟨[.root, .descent, .field "x", .predicate ⟨"k", "v"⟩, .descent, .field "y"]⟩
          strayTrail 10).run []).2 = [⟨0, 1⟩, ⟨1, 1⟩, ⟨2, 1⟩, ⟨3, 2⟩, ⟨4, 3⟩, ⟨5, 3⟩, ⟨4, 4⟩, ⟨5, 4⟩] ∧
      ∃ calls, (evaluate .encloses ⟨[.root, .descent, .field "x", .predicate ⟨"k", "v"⟩, .descent, .field "y"]⟩
          strayTrail 10).run [] = (.ok true, calls) ∧
        ∀ call ∈ calls, call.segment ≤ 6 ∧ 1 ≤ call.step ∧ call.step ≤ 4 := by
  have compiled : Path.compile "$..x[?(@.k == 'v')]..y" =
      .ok ⟨[.root, .descent, .field "x", .predicate ⟨"k", "v"⟩, .descent, .field "y"]⟩ :=
    Compiling.compile_of_toOption (by decide +kernel)
  exact ⟨compiled, by decide, by decide, evaluation_in_bounds compiled .encloses strayTrail 10 (by decide)⟩

end PathQuery.Proofs.CountedRuns
