import PathQuery.Proofs.Refusals

/-! What stands before the place that reading has come to, in the words of the grammar: whole segments, and
inside a bracket that was opened after them the parts of its content that are complete. -/

namespace PathQuery.Proofs.Openings
open PathQuery.Expression Grammar Reading Compiling Stages StagedReading Refusals

/-- An expression up to the end of one of its segments, or up to the end of the root. -/
inductive Begun (text : List Char) : List Char → Prop where
  | rooted {rest : List Char} (blanks : Blanks text ('$' :: rest)) : Begun text rest
  | further {before here rest : List Char} {segments : List Segment} (begun : Begun text before)
      (blanks : Blanks before here) (written : Written here segments rest) : Begun text rest

/-- An expression up to a bracket that begins a segment, or follows the two dots of a descent. -/
inductive Opened (text : List Char) : (inside : List Char) → Prop where
  | segment {before inside : List Char} (begun : Begun text before) (blanks : Blanks before ('[' :: inside)) :
      Opened text inside
  | descent {before inside : List Char} (begun : Begun text before)
      (blanks : Blanks before ('.' :: '.' :: '[' :: inside)) : Opened text inside

theorem Opened.closed {text inside start afterContent rest : List Char} {segment : Segment}
    (opened : Opened text inside) (spacing : Blanks inside start) (content : BracketContent start segment afterContent)
    (closing : Blanks afterContent (']' :: rest)) : Begun text rest := by
  have bracket : Bracket ('[' :: inside) segment rest := .enclosed spacing content closing
  cases opened with
  | segment begun blanks => exact .further begun blanks (.bracket bracket)
  | descent begun blanks => exact .further begun blanks (.descentBracket bracket)

/-- What stands in an expression before a place that a stage is reached at. -/
inductive Within (text : List Char) : Stage → (opening here : List Char) → Prop where
  | root {opening : List Char} : Within text .root opening text
  | segment {opening here : List Char} (begun : Begun text here) : Within text .segment opening here
  | member {opening before here : List Char} (begun : Begun text before) (dot : Blanks before ('.' :: here)) :
      Within text .member opening here
  | descentTarget {opening before here : List Char} (begun : Begun text before)
      (dots : Blanks before ('.' :: '.' :: here)) : Within text .descentTarget opening here
  | bracketContent {inside : List Char} (opened : Opened text inside) :
      Within text .bracketContent ('[' :: inside) inside
  | predicateOpening {inside here : List Char} (opened : Opened text inside) (mark : Blanks inside ('?' :: here)) :
      Within text .predicateOpening ('[' :: inside) here
  | currentNode {inside here : List Char} (opened : Opened text inside) (mark : Blanks inside ('?' :: '(' :: here)) :
      Within text .currentNode ('[' :: inside) here
  | memberAccess {inside start here : List Char} (opened : Opened text inside)
      (mark : Blanks inside ('?' :: '(' :: start)) (current : Blanks start ('@' :: here)) :
      Within text .memberAccess ('[' :: inside) here
  | fieldName {inside start here : List Char} (opened : Opened text inside)
      (mark : Blanks inside ('?' :: '(' :: start)) (current : Blanks start ('@' :: '.' :: here)) :
      Within text .fieldName ('[' :: inside) here
  | equality {inside start afterDot here : List Char} {field : String} (opened : Opened text inside)
      (mark : Blanks inside ('?' :: '(' :: start)) (current : Blanks start ('@' :: '.' :: afterDot))
      (named : Name afterDot field here) : Within text .equality ('[' :: inside) here
  | quotedString {inside start afterDot afterName here : List Char} {field : String} (opened : Opened text inside)
      (mark : Blanks inside ('?' :: '(' :: start)) (current : Blanks start ('@' :: '.' :: afterDot))
      (named : Name afterDot field afterName) (equality : Blanks afterName ('=' :: '=' :: here)) :
      Within text .quotedString ('[' :: inside) here
  | predicateClosing {inside start here : List Char} {filter : Filter} (opened : Opened text inside)
      (mark : Blanks inside ('?' :: '(' :: start)) (condition : Condition start filter here) :
      Within text .predicateClosing ('[' :: inside) here
  | bracketClosing {inside start here : List Char} {segment : Segment} (opened : Opened text inside)
      (spacing : Blanks inside start) (content : BracketContent start segment here) :
      Within text .bracketClosing ('[' :: inside) here

theorem Condition.spaced {text here rest : List Char} {filter : Filter} (condition : Condition text filter here)
    (blanks : Blanks here rest) : Condition text filter rest := by
  cases condition with
  | equal opening named equality spacing quoted closing =>
    obtain ⟨run, rfl, blankRun⟩ := closing
    obtain ⟨more, rfl, blankMore⟩ := blanks
    refine .equal opening named equality spacing quoted ⟨run ++ more, by simp, ?_⟩
    intro c member
    exact (List.mem_append.mp member).elim (blankRun c) (blankMore c)

/-- A sign keeps what is within a place. -/
theorem Within.sign {text here ahead rest opening : List Char} {stage next : Stage} {c : Char}
    (within : Within text stage opening here) (blanks : Blanks here ahead) (tight : stage.spaced = false → ahead = here)
    (same : ahead = c :: rest) (leads : stage.sign c = some next) :
    Within text next (next.opened opening rest) rest := by
  subst same
  unfold Stage.sign at leads
  split at leads <;> cases leads
  next =>
    cases within with
    | root => exact .segment (.rooted blanks)
  next =>
    cases within with
    | segment begun => exact .bracketContent (.segment begun blanks)
  next =>
    cases tight rfl
    cases within with
    | descentTarget begun dots => exact .bracketContent (.descent begun dots)
  next =>
    cases tight rfl
    cases within with
    | member begun dot => exact .segment (.further begun dot .wildcard)
  next =>
    cases tight rfl
    cases within with
    | descentTarget begun dots => exact .segment (.further begun dots .descentWildcard)
  next =>
    cases within with
    | bracketContent opened => exact .bracketClosing opened blanks .wildcard
  next =>
    cases within with
    | bracketContent opened => exact .predicateOpening opened blanks
  next =>
    cases tight rfl
    cases within with
    | predicateOpening opened mark => exact .currentNode opened mark
  next =>
    cases within with
    | currentNode opened mark => exact .memberAccess opened mark blanks
  next =>
    cases tight rfl
    cases within with
    | memberAccess opened mark current => exact .fieldName opened mark current
  next =>
    cases within with
    | predicateClosing opened mark condition =>
      exact .bracketClosing opened mark (.predicate (Condition.spaced condition blanks))
  next =>
    cases within with
    | bracketClosing opened spacing content => exact .segment (opened.closed spacing content blanks)

theorem Within.onward {text here rest opening : List Char} {stage next : Stage}
    (within : Within text stage opening here) (token : Token stage (stage.ahead here) next rest) :
    Within text next (next.opened opening rest) rest := by
  have blanks := blanks_ahead stage here
  have tight : stage.spaced = false → stage.ahead here = here := fun tight => if_neg (by simp [tight])
  generalize same : stage.ahead here = ahead at token blanks tight
  cases token with
  | sign leads => exact within.sign blanks tight rfl leads
  | dot single =>
    cases within with
    | segment begun => exact .member begun blanks
  | dots =>
    cases within with
    | segment begun => exact .descentTarget begun blanks
  | member named =>
    cases tight rfl
    cases within with
    | member begun dot => exact .segment (.further begun dot (.name named))
  | target named =>
    cases tight rfl
    cases within with
    | descentTarget begun dots => exact .segment (.further begun dots (.descentName named))
  | index counted =>
    cases within with
    | bracketContent opened => exact .bracketClosing opened blanks (.index counted)
  | name quoted =>
    cases within with
    | bracketContent opened => exact .bracketClosing opened blanks (.field quoted)
  | field named direct =>
    cases tight rfl
    cases within with
    | fieldName opened mark current => exact .equality opened mark current named
  | equality =>
    cases within with
    | equality opened mark current named => exact .quotedString opened mark current named blanks
  | literal quoted =>
    cases within with
    | quotedString opened mark current named equality =>
      exact .predicateClosing opened mark (.equal current named equality blanks quoted (blanks_refl _))

theorem Comes.within {text here opening : List Char} {stage : Stage} (comes : Comes text stage opening here) :
    Within text stage opening here := by
  induction comes with
  | start => exact .root
  | onward comes token ih => exact ih.onward token

/-! The way back: reading comes to every place that the grammar puts in an expression. -/

section Coming
variable {text opening here : List Char} {stage next : Stage}

theorem Comes.compared {start afterDot afterName afterEquality : List Char} {field : String}
    (comes : Comes text .currentNode opening start) (current : Blanks start ('@' :: '.' :: afterDot))
    (named : Name afterDot field afterName) (equality : Blanks afterName ('=' :: '=' :: afterEquality)) :
    Comes text .quotedString opening afterEquality := by
  have direct : afterName.head? ≠ some '.' ∧ afterName.head? ≠ some '[' := by
    obtain ⟨run, rfl, inside⟩ := equality
    cases run with
    | nil => exact ⟨by simp, by simp⟩
    | cons c run =>
      have blank : Text.isBlank c = true := inside c (by simp)
      constructor <;> (rintro ⟨⟩; cases blank)
  have atMember : Comes text .memberAccess opening ('.' :: afterDot) := comes.after rfl current (.sign rfl)
  have atField : Comes text .fieldName opening afterDot := atMember.onward (.sign rfl)
  have atEquality : Comes text .equality opening afterName := atField.onward (.field named direct)
  exact atEquality.after rfl equality .equality

theorem Comes.condition {start rest : List Char} {filter : Filter} (comes : Comes text .currentNode opening start)
    (condition : Condition start filter rest) :
    ∃ here, Comes text .predicateClosing opening here ∧ Blanks here rest := by
  cases condition with
  | equal current named equality spacing quoted closing =>
    have compared := Comes.compared comes current named equality
    exact ⟨_, compared.after rfl spacing (.literal quoted), closing⟩

theorem Comes.predicate {inside start : List Char} (comes : Comes text .bracketContent opening inside)
    (mark : Blanks inside ('?' :: '(' :: start)) : Comes text .currentNode opening start := by
  have atOpening : Comes text .predicateOpening opening ('(' :: start) := comes.after rfl mark (.sign rfl)
  exact atOpening.onward (.sign rfl)

theorem Comes.content {inside start rest : List Char} {segment : Segment}
    (comes : Comes text .bracketContent opening inside) (spacing : Blanks inside start)
    (content : BracketContent start segment rest) : Comes text .bracketClosing opening rest := by
  cases content with
  | wildcard => exact comes.after rfl spacing (.sign rfl)
  | index counted => exact comes.after rfl spacing (.index counted)
  | field quoted => exact comes.after rfl spacing (.name quoted)
  | predicate condition =>
    obtain ⟨here, atClosing, closing⟩ := Comes.condition (Comes.predicate comes spacing) condition
    exact atClosing.after rfl closing (.sign rfl)

theorem Comes.bracket {rest : List Char} {segment : Segment}
    (comes : ∀ inside, here = '[' :: inside → Comes text .bracketContent here inside)
    (bracket : Bracket here segment rest) : Comes text .segment here rest := by
  cases bracket with
  | enclosed spacing content closing =>
    exact (Comes.content (comes _ rfl) spacing content).after rfl closing (.sign rfl)

theorem Name.single_dot {rest : List Char} {name : String} (named : Name here name rest) : here.head? ≠ some '.' := by
  obtain ⟨c, after, rfl, nameChar⟩ := Name.first named
  rintro ⟨⟩
  cases nameChar

theorem Comes.written {before rest : List Char} {segments : List Segment} (comes : Comes text .segment opening before)
    (blanks : Blanks before here) (written : Written here segments rest) :
    ∃ opening, Comes text .segment opening rest := by
  have atMember {rest : List Char} (same : here = '.' :: rest) (single : rest.head? ≠ some '.') :
      Comes text .member opening rest := by
    subst same
    exact comes.after rfl blanks (.dot single)
  have atTarget {rest : List Char} (same : here = '.' :: '.' :: rest) : Comes text .descentTarget opening rest := by
    subst same
    exact comes.after rfl blanks .dots
  cases written with
  | descentName named => exact ⟨_, (atTarget rfl).onward (.target named)⟩
  | descentWildcard => exact ⟨_, (atTarget rfl).onward (.sign rfl)⟩
  | descentBracket bracket =>
    refine ⟨_, Comes.bracket ?_ bracket⟩
    rintro inside rfl
    exact (atTarget rfl).onward (.sign rfl)
  | name named =>
    exact ⟨_, (atMember rfl (Name.single_dot named)).onward (.member named)⟩
  | wildcard => exact ⟨_, (atMember rfl (by simp)).onward (.sign rfl)⟩
  | bracket bracket =>
    refine ⟨_, Comes.bracket ?_ bracket⟩
    rintro inside rfl
    exact comes.after rfl blanks (.sign rfl)

theorem Begun.comes (begun : Begun text here) : ∃ opening, Comes text .segment opening here := by
  induction begun with
  | rooted blanks => exact ⟨_, Comes.start.after rfl blanks (.sign rfl)⟩
  | further begun blanks written ih =>
    obtain ⟨opening, comes⟩ := ih
    exact Comes.written comes blanks written

theorem Opened.comes {inside : List Char} (opened : Opened text inside) :
    Comes text .bracketContent ('[' :: inside) inside := by
  cases opened with
  | segment begun blanks =>
    obtain ⟨opening, comes⟩ := Begun.comes begun
    exact comes.after rfl blanks (.sign rfl)
  | descent begun blanks =>
    obtain ⟨opening, comes⟩ := Begun.comes begun
    have atTarget : Comes text .descentTarget opening ('[' :: inside) := comes.after rfl blanks .dots
    exact atTarget.onward (.sign rfl)

end Coming

end PathQuery.Proofs.Openings
