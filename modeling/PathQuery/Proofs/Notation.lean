import PathQuery.Proofs.Compiling

/-! Bracket notation. The paths that expressions compile to are those whose descents have
targets and whose indexes and fields can be written. Each of them is read back from its own
notation, whatever text its names and literals are. -/

namespace PathQuery.Proofs.Notation
open PathQuery.Expression Grammar

/-- The root comes first and nowhere else, and a descent is followed by what it descends to. -/
structure WellFormed (segments : List Segment) : Prop where
  rooted : segments.head? = some .root
  once : .root ∉ segments.tail
  aimed : ∀ position, segments[position]? = some .descent →
    ∃ target, segments[position + 1]? = some target ∧ target ≠ .descent ∧ target ≠ .root
  counted : ∀ position, .index position ∈ segments → position < Nat.pow 2 64
  named : ∀ filter, .predicate filter ∈ segments →
    filter.field ≠ "" ∧ ∀ c ∈ filter.field.toList, isNameChar c = true

/-- A segment that is written as a bracket. -/
def Bracketed : Segment → Prop
  | .root | .descent => False
  | .wildcard | .field _ => True
  | .index position => position < Nat.pow 2 64
  | .predicate filter => filter.field ≠ "" ∧ ∀ c ∈ filter.field.toList, isNameChar c = true

/-- The segments after the root, in the groups that they are written in. -/
inductive Grouped : List Segment → Prop where
  | nil : Grouped []
  | single {segment : Segment} {more : List Segment} (bracketed : Bracketed segment) (grouped : Grouped more) :
      Grouped (segment :: more)
  | descent {segment : Segment} {more : List Segment} (bracketed : Bracketed segment) (grouped : Grouped more) :
      Grouped (.descent :: segment :: more)

private theorem Bracketed.ne {segment : Segment} (bracketed : Bracketed segment) :
    segment ≠ .descent ∧ segment ≠ .root := by
  constructor <;> (rintro rfl; exact bracketed)

theorem Grouped.noRoot {segments : List Segment} (grouped : Grouped segments) : .root ∉ segments := by
  induction grouped with
  | nil => simp
  | single bracketed _ ih => simp [ih, (Bracketed.ne bracketed).2.symm]
  | descent bracketed _ ih => simp [ih, (Bracketed.ne bracketed).2.symm]

private theorem Grouped.aimed {segments : List Segment} (grouped : Grouped segments) (position : Nat)
    (descent : segments[position]? = some .descent) :
    ∃ target, segments[position + 1]? = some target ∧ target ≠ .descent ∧ target ≠ .root := by
  induction grouped generalizing position with
  | nil => simp at descent
  | @single segment more bracketed _ ih =>
    cases position with
    | zero => exact absurd (Option.some.inj descent) (Bracketed.ne bracketed).1
    | succ position => exact ih position descent
  | @descent segment more bracketed _ ih =>
    match position with
    | 0 => exact ⟨segment, rfl, Bracketed.ne bracketed⟩
    | 1 => exact absurd (Option.some.inj descent) (Bracketed.ne bracketed).1
    | position + 2 => exact ih position descent

/-- All of the segments apart from descents are written as brackets. -/
theorem Grouped.bracketed {segments : List Segment} (grouped : Grouped segments) {segment : Segment}
    (member : segment ∈ segments) (other : segment ≠ .descent) : Bracketed segment := by
  induction grouped with
  | nil => cases member
  | single bracketed _ ih =>
    rcases List.mem_cons.mp member with rfl | member
    · exact bracketed
    · exact ih member
  | descent bracketed _ ih =>
    rcases List.mem_cons.mp member with rfl | member
    · exact absurd rfl other
    · rcases List.mem_cons.mp member with rfl | member
      · exact bracketed
      · exact ih member

theorem wellFormed_of_grouped {segments : List Segment} (grouped : Grouped segments) :
    WellFormed (.root :: segments) := by
  refine ⟨rfl, grouped.noRoot, ?_, ?_, ?_⟩
  · intro position descent
    cases position with
    | zero => cases descent
    | succ position => exact grouped.aimed position descent
  · intro position member
    exact grouped.bracketed (by simpa using member) (by simp)
  · intro filter member
    exact grouped.bracketed (by simpa using member) (by simp)

/-- Segments fall into groups from the front: what follows a descent is its target. -/
private theorem grouped_of_aimed (segments : List Segment)
    (bracketed : ∀ segment ∈ segments, segment ≠ .descent → Bracketed segment)
    (aimed : ∀ position, segments[position]? = some .descent →
      ∃ target, segments[position + 1]? = some target ∧ target ≠ .descent) : Grouped segments := by
  match segments with
  | [] => exact .nil
  | first :: more =>
    by_cases descent : first = .descent
    · subst descent
      obtain ⟨target, found, other⟩ := aimed 0 rfl
      match more with
      | [] => cases found
      | _ :: more =>
        cases found
        refine .descent (bracketed target (by simp) other) (grouped_of_aimed more ?_ ?_)
        · intro segment member
          exact bracketed segment (by simp [member])
        · intro position
          exact aimed (position + 2)
    · refine .single (bracketed first (by simp) descent) (grouped_of_aimed more ?_ ?_)
      · intro segment member
        exact bracketed segment (by simp [member])
      · intro position
        exact aimed (position + 1)

theorem grouped_of_wellFormed {segments : List Segment} (valid : WellFormed (.root :: segments)) :
    Grouped segments := by
  apply grouped_of_aimed
  · intro segment member other
    cases segment with
    | root => exact valid.once member
    | descent => exact other rfl
    | wildcard | field _ => trivial
    | index position => exact valid.counted position (List.mem_cons_of_mem _ member)
    | predicate filter => exact valid.named filter (List.mem_cons_of_mem _ member)
  · intro position descent
    obtain ⟨target, found, other, _⟩ := valid.aimed (position + 1) descent
    exact ⟨target, found, other⟩

private theorem name_valid {text rest : List Char} {name : String} (named : Name text name rest) :
    name ≠ "" ∧ ∀ c ∈ name.toList, isNameChar c = true :=
  ⟨named.1, named.2.2.1⟩

private theorem bracketed_of_bracket {text rest : List Char} {segment : Segment} (bracket : Bracket text segment rest) :
    Bracketed segment := by
  obtain ⟨_, content, _⟩ := bracket
  cases content with
  | wildcard | field _ => trivial
  | index counted =>
    obtain ⟨_, _, _, _, small⟩ := counted
    exact small
  | predicate condition =>
    cases condition with
    | equal _ named => exact name_valid named

private theorem grouped_of_continued {text : List Char} {segments : List Segment}
    (continued : Continued text segments) :
    Grouped segments := by
  induction continued with
  | finished => exact .nil
  | further _ written _ ih =>
    cases written with
    | descentName | descentWildcard => exact .descent trivial ih
    | descentBracket bracket => exact .descent (bracketed_of_bracket bracket) ih
    | name | wildcard => exact .single trivial ih
    | bracket bracket => exact .single (bracketed_of_bracket bracket) ih

theorem wellFormed_of_compile {expression : String} {path : Path} (compiled : Path.compile expression = .ok path) :
    WellFormed path.segments := by
  obtain ⟨segments⟩ := path
  cases Compiling.compile_iff.mp compiled with
  | rooted _ continued => exact wellFormed_of_grouped (grouped_of_continued continued)

/-- Escaping is undone between single quotes. -/
theorem items_escape (content rest : List Char) :
    Items '\'' (Text.Quoted.escapeChars content ++ '\'' :: rest) content rest := by
  induction content with
  | nil => exact .closing
  | cons c content ih =>
    by_cases backslash : c = '\\'
    · subst backslash
      exact .escaped (.named (by simp [namedEscapes])) ih
    by_cases quote : c = '\''
    · subst quote
      exact .escaped (.named (by simp [namedEscapes])) ih
    rw [Text.Quoted.escapeChars.eq_4 c content backslash quote]
    exact .plain quote backslash ih

theorem quoted_escape (content : String) (rest : List Char) :
    Quoted ('\'' :: ((Text.Quoted.escape content).toList ++ '\'' :: rest)) content rest := by
  have quoted := Quoted.single (items_escape content.toList rest)
  rwa [String.ofList_toList, ← String.toList_ofList (l := Text.Quoted.escapeChars content.toList)] at quoted

private theorem one_blank (text : List Char) : Blanks (' ' :: text) text :=
  ⟨[' '], rfl, by simpa using (by decide : Text.isBlank ' ' = true)⟩

theorem digits_display (position : Nat) (rest : List Char) :
    Longest Char.isDigit (Nat.toDigits 10 position ++ ']' :: rest) (Nat.toDigits 10 position) (']' :: rest) := by
  refine ⟨rfl, ?_, ?_⟩
  · intro c digit
    exact Nat.isDigit_of_mem_toDigits (by decide) (by decide) digit
  · intro c closing
    cases closing
    rfl

private theorem index_display {position : Nat} (small : position < Nat.pow 2 64) (rest : List Char) :
    Index (Nat.toDigits 10 position ++ ']' :: rest) position (']' :: rest) :=
  ⟨Nat.toDigits 10 position, Nat.toDigits_ne_nil, digits_display position rest,
    Nat.ofDigitChars_ten_toDigits.symm, small⟩

private theorem condition_display (filter : Filter)
    (valid : filter.field ≠ "" ∧ ∀ c ∈ filter.field.toList, isNameChar c = true) (rest : List Char) :
    Condition (filter.display.toList ++ ')' :: rest) filter (')' :: rest) := by
  obtain ⟨field, literal⟩ := filter
  obtain ⟨some, inside⟩ := valid
  have named (after : List Char) : Name (field.toList ++ ' ' :: after) field (' ' :: after) := by
    refine ⟨some, rfl, inside, ?_⟩
    intro c space
    cases space
    decide
  have shown : (Filter.display ⟨field, literal⟩).toList ++ ')' :: rest =
      '@' :: '.' :: (field.toList ++ ' ' :: '=' :: '=' :: ' ' :: '\'' ::
        ((Text.Quoted.escape literal).toList ++ '\'' :: ')' :: rest)) := by
    simp [Filter.display]
  rw [shown]
  exact .equal (blanks_refl _) (named _) (one_blank _) (one_blank _) (quoted_escape literal _) (blanks_refl _)

theorem bracket_display {segment : Segment} (bracketed : Bracketed segment) (rest : List Char) :
    Bracket (segment.display.toList ++ rest) segment rest := by
  cases segment with
  | root | descent => exact bracketed.elim
  | wildcard => exact .enclosed (blanks_refl _) .wildcard (blanks_refl _)
  | field name =>
    have shown : (Segment.field name).display.toList ++ rest =
        '[' :: '\'' :: ((Text.Quoted.escape name).toList ++ '\'' :: ']' :: rest) := by
      simp [Segment.display]
    rw [shown]
    exact .enclosed (blanks_refl _) (.field (quoted_escape name _)) (blanks_refl _)
  | index position =>
    have shown : (Segment.index position).display.toList ++ rest =
        '[' :: (Nat.toDigits 10 position ++ ']' :: rest) := by
      simp [Segment.display]
    rw [shown]
    exact .enclosed (blanks_refl _) (.index (index_display bracketed rest)) (blanks_refl _)
  | predicate filter =>
    have shown : (Segment.predicate filter).display.toList ++ rest =
        '[' :: '?' :: '(' :: (filter.display.toList ++ ')' :: ']' :: rest) := by
      simp [Segment.display]
    rw [shown]
    exact .enclosed (blanks_refl _) (.predicate (condition_display filter bracketed _)) (blanks_refl _)

private theorem continued_display {segments : List Segment} (grouped : Grouped segments) :
    Continued (segments.flatMap fun segment => segment.display.toList) segments := by
  induction grouped with
  | nil => exact .finished (blanks_refl _)
  | single bracketed _ ih => exact .further (blanks_refl _) (.bracket (bracket_display bracketed _)) ih
  | descent bracketed _ ih => exact .further (blanks_refl _) (.descentBracket (bracket_display bracketed _)) ih

theorem compile_display {path : Path} (valid : WellFormed path.segments) :
    Path.compile path.display = .ok path := by
  obtain ⟨segments⟩ := path
  cases segments with
  | nil => cases valid.rooted
  | cons first segments =>
    cases valid.rooted
    have continued := continued_display (grouped_of_wellFormed valid)
    apply Compiling.compile_iff.mpr
    have shown : (Path.display ⟨.root :: segments⟩).toList =
        '$' :: segments.flatMap fun segment => segment.display.toList := by
      simp [Path.display, Segment.display, String.toList_join, List.flatMap_map]
    rw [shown]
    exact .rooted (blanks_refl _) continued

/-- Some expression compiles to a path just when the path is well formed, and its own notation is
then such an expression. -/
theorem display_inverts_compile (path : Path) :
    ((∃ expression, Path.compile expression = .ok path) ↔ WellFormed path.segments) ∧
      (WellFormed path.segments ↔ Path.compile path.display = .ok path) := by
  refine ⟨⟨?_, fun valid => ⟨path.display, compile_display valid⟩⟩, compile_display, wellFormed_of_compile⟩
  rintro ⟨expression, compiled⟩
  exact wellFormed_of_compile compiled

end PathQuery.Proofs.Notation
