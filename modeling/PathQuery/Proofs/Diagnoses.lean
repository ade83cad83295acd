import PathQuery.Proofs.Openings

/-! What an error says about an expression is so: the characters and texts it shows stand where it says, and
a construct that it names is what the end of the expression leaves open. -/

namespace PathQuery.Proofs.Diagnoses
open PathQuery.Expression Grammar Reading Compiling Stages StagedReading Refusals Openings

/-- The innermost construct that the end of an expression leaves open, with the text from its first character
on: a bracket that is empty or lacks its closing bracket only, a predicate that lacks its parenthesis, or a
quoted text without its second quote. -/
inductive StillOpen (text : List Char) : Construct → (opening : List Char) → Prop where
  | empty {inside : List Char} (opened : Opened text inside) (blanks : Blanks inside []) :
      StillOpen text .bracket ('[' :: inside)
  | content {inside start rest : List Char} {segment : Segment} (opened : Opened text inside)
      (spacing : Blanks inside start) (content : BracketContent start segment rest) (blanks : Blanks rest []) :
      StillOpen text .bracket ('[' :: inside)
  | filter {inside start : List Char} {filter : Filter} (opened : Opened text inside)
      (mark : Blanks inside ('?' :: '(' :: start)) (condition : Condition start filter []) :
      StillOpen text .predicate ('[' :: inside)
  | name {inside chars : List Char} {quote : Char} (opened : Opened text inside)
      (spacing : Blanks inside (quote :: chars)) (quoting : quote = '\'' ∨ quote = '"')
      (unclosed : ∀ meant rest, ¬ Items quote chars meant rest) : StillOpen text .stringLiteral (quote :: chars)
  | literal {inside start afterDot afterName afterEquality chars : List Char} {field : String} {quote : Char}
      (opened : Opened text inside) (mark : Blanks inside ('?' :: '(' :: start))
      (current : Blanks start ('@' :: '.' :: afterDot)) (named : Name afterDot field afterName)
      (equality : Blanks afterName ('=' :: '=' :: afterEquality)) (spacing : Blanks afterEquality (quote :: chars))
      (quoting : quote = '\'' ∨ quote = '"') (unclosed : ∀ meant rest, ¬ Items quote chars meant rest) :
      StillOpen text .stringLiteral (quote :: chars)

private theorem isQuote_iff {c : Char} : isQuote c = true ↔ c = '\'' ∨ c = '"' := by
  simp only [isQuote, Bool.or_eq_true, beq_iff_eq]

private theorem unclosed_iff {quote : Char} {chars : List Char} (quoting : quote = '\'' ∨ quote = '"') :
    Text.Quoted.read? quote chars = none ↔ ∀ meant rest, ¬ Items quote chars meant rest := by
  have different : quote ≠ '\\' := by rcases quoting with rfl | rfl <;> decide
  constructor
  · intro unclosed meant rest items
    cases unclosed.symm.trans (read_of_items different items)
  · intro unclosed
    cases read : Text.Quoted.read? quote chars with
    | none => rfl
    | some found => exact absurd (items_of_read read) (unclosed found.1 found.2)

/-- Only a bracket or a predicate that lacks its end may be found unterminated with nothing ahead. -/
theorem refusal_unterminated {stage : Stage} {bracket here opening : List Char} {construct : Construct}
    (same : stage.refusal bracket here = .unterminated construct opening) : here = [] ∧ opening = bracket ∧
      (stage = .bracketContent ∧ construct = .bracket ∨ stage = .predicateClosing ∧ construct = .predicate ∨
        stage = .bracketClosing ∧ construct = .bracket) := by
  cases here with
  | cons c rest =>
    obtain ⟨other, _⟩ | ⟨_, other⟩ := refusal_cons stage bracket c rest
    · cases other.symm.trans same
    · cases other.symm.trans same
  | nil =>
    refine ⟨rfl, ?_⟩
    cases stage with
    | bracketContent => cases same; exact ⟨rfl, .inl ⟨rfl, rfl⟩⟩
    | predicateClosing => cases same; exact ⟨rfl, .inr (.inl ⟨rfl, rfl⟩)⟩
    | bracketClosing => cases same; exact ⟨rfl, .inr (.inr ⟨rfl, rfl⟩)⟩
    | root | segment | member | descentTarget | predicateOpening | currentNode | memberAccess | fieldName | equality
      | quotedString => cases same

private theorem Refused.stillOpen {text here bracket opening : List Char} {stage : Stage} {construct : Construct}
    {error : SyntaxError (List Char)} (comes : Comes text stage bracket here)
    (refused : Refused bracket stage (stage.ahead here) error) (same : error = .unterminated construct opening) :
    StillOpen text construct opening := by
  have within := Comes.within comes
  have blanks := blanks_ahead stage here
  generalize stage.ahead here = ahead at refused blanks
  cases refused with
  | other =>
    obtain ⟨rfl, rfl, ⟨rfl, rfl⟩ | ⟨rfl, rfl⟩ | ⟨rfl, rfl⟩⟩ := refusal_unterminated same
    · cases within with
      | bracketContent opened => exact .empty opened blanks
    · cases within with
      | predicateClosing opened mark condition => exact .filter opened mark (Condition.spaced condition blanks)
    · cases within with
      | bracketClosing opened spacing content => exact .content opened spacing content blanks
  | bang | operator | fieldPath | index => cases same
  | unclosed awaited quoting unclosed =>
    cases same
    have quoting := isQuote_iff.mp quoting
    have unclosed := (unclosed_iff quoting).mp unclosed
    obtain rfl | rfl := awaited
    · cases within with
      | bracketContent opened => exact .name opened blanks quoting unclosed
    · cases within with
      | quotedString opened mark current named equality =>
        exact .literal opened mark current named equality blanks quoting unclosed

theorem StillOpen.refused {text opening : List Char} {construct : Construct}
    (stillOpen : StillOpen text construct opening) :
    ∃ stage bracket here, Comes text stage bracket here ∧
      Refused bracket stage (stage.ahead here) (.unterminated construct opening) := by
  have finished {stage : Stage} {here : List Char} (spaced : stage.spaced = true) (blanks : Blanks here []) :
      stage.ahead here = [] := by
    rw [Stage.ahead, if_pos spaced]
    exact dropBlank_eq blanks (fun _ none => by cases none)
  have missing {stage : Stage} {bracket here : List Char} (spaced : stage.spaced = true) (inside : stage ≠ .segment)
      (blanks : Blanks here []) : Refused bracket stage (stage.ahead here) (stage.refusal bracket []) := by
    rw [finished spaced blanks]
    exact .other (fun _ none => by cases none) (fun same => absurd same inside)
  have string {stage : Stage} {bracket here chars : List Char} {quote : Char} (spaced : stage.spaced = true)
      (awaited : stage = .bracketContent ∨ stage = .quotedString) (spacing : Blanks here (quote :: chars))
      (quoting : quote = '\'' ∨ quote = '"') (unclosed : ∀ meant rest, ¬ Items quote chars meant rest) :
      Refused bracket stage (stage.ahead here) (.unterminated .stringLiteral (quote :: chars)) := by
    have starts : Starts (quote :: chars) := by rcases quoting with rfl | rfl <;> exact starts_cons (by decide)
    rw [Stage.ahead, if_pos spaced, dropBlank_eq spacing starts]
    exact .unclosed awaited (isQuote_iff.mpr quoting) ((unclosed_iff quoting).mpr unclosed)
  cases stillOpen with
  | empty opened blanks => exact ⟨_, _, _, Opened.comes opened, missing rfl (by decide) blanks⟩
  | content opened spacing content blanks =>
    exact ⟨_, _, _, Comes.content (Opened.comes opened) spacing content, missing rfl (by decide) blanks⟩
  | filter opened mark condition =>
    obtain ⟨here, comes, blanks⟩ := Comes.condition (Comes.predicate (Opened.comes opened) mark) condition
    exact ⟨_, _, _, comes, missing rfl (by decide) blanks⟩
  | name opened spacing quoting unclosed =>
    exact ⟨_, _, _, Opened.comes opened, string rfl (.inl rfl) spacing quoting unclosed⟩
  | literal opened mark current named equality spacing quoting unclosed =>
    have comes := Comes.compared (Comes.predicate (Opened.comes opened) mark) current named equality
    exact ⟨_, _, _, comes, string rfl (.inr rfl) spacing quoting unclosed⟩

/-- A construct is reported as unterminated just if the end of the expression leaves it open. -/
theorem unterminated_iff {text opening : List Char} {construct : Construct} :
    Path.read text = .error (.unterminated construct opening) ↔ StillOpen text construct opening := by
  rw [read_eq_error_iff]
  constructor
  · rintro ⟨stage, bracket, here, comes, refused⟩
    exact Refused.stillOpen comes refused rfl
  · exact StillOpen.refused

/-- An expression in two parts, the second of which begins at a byte offset. -/
structure Parted (expression : String) (position : Nat) (before rest : String) : Prop where
  whole : expression = before ++ rest
  offset : before.utf8ByteSize = position

/-- What the path of a nested field in an error ends before. -/
def EndsPath (c : Char) : Prop := Text.isBlank c = true ∨ c ∈ ['=', '!', '<', '>', ')']

/-- What an error says about an expression. -/
def Describes (expression : String) : SyntaxError Nat → Prop
  | .empty => ∀ c ∈ expression.toList, Text.isBlank c = true
  | .missingRoot found => ∃ blanks rest, expression = blanks ++ String.singleton found ++ rest ∧
      (∀ c ∈ blanks.toList, Text.isBlank c = true) ∧ Text.isBlank found = false ∧ found ≠ '$'
  | .unterminated construct position => ∃ before opening, Parted expression position before opening ∧
      StillOpen expression.toList construct opening.toList
  | .unexpectedToken found position _ => ∃ before after,
      Parted expression position before (String.singleton found ++ after)
  | .unexpectedEnd _ => ∀ construct opening, ¬ StillOpen expression.toList construct opening
  | .unsupportedOperator operator position => ∃ before rest, Parted expression position before rest ∧
      operator ∈ unsupportedOperators ∧ operator.toList <+: rest.toList ∧
      (∀ other ∈ unsupportedOperators, other.toList <+: rest.toList → other.length ≤ operator.length) ∧
      ¬ "==".toList <+: rest.toList
  | .unsupportedFieldPath path => ∃ before field more after, expression = before ++ "@." ++ path ++ after ∧
      path = field ++ more ∧ Name path.toList field more.toList ∧
      (more.toList.head? = some '.' ∨ more.toList.head? = some '[') ∧
      (∀ c ∈ path.toList, ¬ EndsPath c) ∧ ∀ c ∈ after.toList.head?, EndsPath c
  | .invalidIndex text position => ∃ before after, Parted expression position before (text ++ after) ∧ text ≠ "" ∧
      (∀ c ∈ text.toList, c.isDigit = true) ∧ (∀ c ∈ before.toList.getLast?, c.isDigit = false) ∧
      (∀ c ∈ after.toList.head?, c.isDigit = false) ∧ Nat.pow 2 64 ≤ Nat.ofDigitChars 10 text.toList 0

theorem parted {expression : String} {before rest : List Char} (split : expression.toList = before ++ rest) :
    Parted expression (offset expression.toList rest) (String.ofList before) (String.ofList rest) where
  whole := by rw [← String.ofList_append, ← split, String.ofList_toList]
  offset := by rw [split, offset_append]

private theorem Parted.position_lt {expression before rest : String} {position : Nat}
    (parted : Parted expression position before rest) (some : rest ≠ "") : position < expression.utf8ByteSize := by
  have size : 0 < rest.utf8ByteSize := by
    rw [Nat.pos_iff_ne_zero]
    simpa using some
  rw [parted.whole, String.utf8ByteSize_append, parted.offset]
  omega

theorem Parted.isValid {expression before rest : String} {position : Nat}
    (parted : Parted expression position before rest) : String.Pos.Raw.IsValid expression ⟨position⟩ := by
  refine String.Pos.Raw.isValid_iff_exists_append.mpr ⟨before, rest, parted.whole, ?_⟩
  rw [String.rawEndPos, parted.offset]

section Kinds
variable {expression : String} {here bracket : List Char} {stage : Stage}

private theorem describes_unterminated {construct : Construct} {opening : List Char}
    (comes : Comes expression.toList stage bracket here)
    (refused : Refused bracket stage (stage.ahead here) (.unterminated construct opening)) :
    Describes expression (.unterminated construct (offset expression.toList opening)) := by
  have stillOpen := Refused.stillOpen comes refused rfl
  have suffix : opening <:+ expression.toList := by
    generalize same : SyntaxError.unterminated construct opening = error at refused
    have ahead : stage.ahead here <:+ expression.toList :=
      (Blanks.suffix (blanks_ahead stage here)).trans comes.suffix.1
    generalize stage.ahead here = text at refused ahead
    cases refused with
    | other =>
      obtain ⟨_, rfl, _⟩ := refusal_unterminated same.symm
      exact comes.suffix.2
    | bang | operator | fieldPath | index => cases same
    | unclosed => cases same; exact ahead
  obtain ⟨before, split⟩ := suffix
  refine ⟨_, _, parted split.symm, ?_⟩
  rwa [String.toList_ofList]

private theorem describes_token {found : Char} {before rest : List Char} {expected : Expected}
    (split : expression.toList = before ++ found :: rest) :
    Describes expression (.unexpectedToken found (offset expression.toList (found :: rest)) expected) := by
  have parted := parted split
  rw [String.ofList_cons] at parted
  exact ⟨_, _, parted⟩

/-- Operators are tried in an order in which none comes before a longer one. -/
theorem longest_operator {text : List Char} {operator : String}
    (first : unsupportedOperators.find? (fun operator => operator.toList.isPrefixOf text) = some operator) :
    ∀ other ∈ unsupportedOperators, other.toList <+: text → other.length ≤ operator.length := by
  have ordered : unsupportedOperators.Pairwise fun a b => b.length ≤ a.length := by decide
  obtain ⟨_, earlier, later, split, unshown⟩ := List.find?_eq_some_iff_append.mp first
  intro other listed shown
  rw [split] at listed ordered
  rcases List.mem_append.mp listed with before | after
  · have hidden := unshown other before
    rw [List.isPrefixOf_iff_prefix.mpr shown] at hidden
    cases hidden
  · rcases List.mem_cons.mp after with rfl | after
    · exact Nat.le_refl _
    · exact (List.pairwise_cons.mp (List.pairwise_append.mp ordered).2.1).1 other after

private theorem describes_operator {before ahead : List Char} {operator : String}
    (split : expression.toList = before ++ ahead) (different : ¬ ['=', '='] <+: ahead)
    (first : unsupportedOperators.find? (fun operator => operator.toList.isPrefixOf ahead) = some operator) :
    Describes expression (.unsupportedOperator operator (offset expression.toList ahead)) := by
  refine ⟨_, _, parted split, List.mem_of_find?_eq_some first, ?_⟩
  rw [String.toList_ofList]
  refine ⟨by simpa using List.find?_some first, longest_operator first, different⟩

private theorem endsFieldPath_iff {c : Char} : endsFieldPath c = true ↔ EndsPath c := by
  simp [endsFieldPath, EndsPath, or_assoc]

theorem nameChar_range {c : Char} (nameChar : isNameChar c = true) : 45 ≤ c.toNat ∧ c.toNat ≤ 122 := by
  have classes : c.isAlphanum = (decide (c.val ≥ 65 ∧ c.val ≤ 90) || (decide (c.val ≥ 97) && decide (c.val ≤ 122)) ||
      c.isDigit) := rfl
  simp only [isNameChar, classes, Bool.or_eq_true, beq_iff_eq, Bool.and_eq_true, decide_eq_true_eq, ge_iff_le,
    UInt32.le_iff_toNat_le, Char.isDigit_iff_toNat] at nameChar
  rcases nameChar with (rfl | rfl) | letter
  · decide
  · decide
  · simp at letter
    omega

private theorem isBlank_nameChar {c : Char} (nameChar : isNameChar c = true) : Text.isBlank c = false := by
  have range := nameChar_range nameChar
  simp only [Text.isBlank, Bool.or_eq_false_iff, Bool.and_eq_false_iff, decide_eq_false_iff_not, beq_eq_false_iff_ne]
  omega

private theorem nameChar_goesOn {c : Char} (nameChar : isNameChar c = true) : ¬ EndsPath c := by
  rintro (blank | listed)
  · cases blank.symm.trans (isBlank_nameChar nameChar)
  · simp only [List.mem_cons, List.not_mem_nil, or_false] at listed
    rcases listed with rfl | rfl | rfl | rfl | rfl <;> cases nameChar

private theorem describes_fieldPath {before rest : List Char} {name : String}
    (split : expression.toList = before ++ '@' :: '.' :: here) (named : Name here name rest)
    (nested : rest.head? = some '.' ∨ rest.head? = some '[') :
    Describes expression
      (.unsupportedFieldPath (name ++ String.ofList (rest.takeWhile fun c => !endsFieldPath c))) := by
  obtain ⟨more, after, goesOn, run⟩ : ∃ more after, rest.takeWhile (fun c => !endsFieldPath c) = more ∧
      Longest (fun c => !endsFieldPath c) rest more after := ⟨_, _, rfl, longest_iff.mpr ⟨rfl, rfl⟩⟩
  obtain ⟨rfl, inside, stop⟩ := run
  obtain ⟨nonempty, rfl, nameChars, _⟩ := named
  rw [goesOn]
  have first : more.head? = some '.' ∨ more.head? = some '[' := by
    cases more with
    | cons c more => exact nested
    | nil => rcases nested with nested | nested <;> cases stop _ nested
  refine ⟨String.ofList before, name, String.ofList more, String.ofList after, ?_, rfl, ?_, ?_, ?_, ?_⟩
  · rw [← String.toList_inj, split]
    simp
  · rw [String.toList_append, String.toList_ofList]
    refine ⟨nonempty, rfl, nameChars, ?_⟩
    rcases first with first | first <;> (rw [first]; rintro _ ⟨⟩; rfl)
  · rwa [String.toList_ofList]
  · intro c member
    rw [String.toList_append, String.toList_ofList] at member
    rcases List.mem_append.mp member with nameChar | later
    · exact nameChar_goesOn (nameChars c nameChar)
    · rw [← endsFieldPath_iff]
      simpa using inside c later
  · intro c member
    rw [String.toList_ofList] at member
    exact endsFieldPath_iff.mp (by simpa using stop c member)

private theorem describes_index {before ahead digits rest : List Char}
    (split : expression.toList = before ++ ahead) (first : ∀ c ∈ before.getLast?, c.isDigit = false)
    (some : digits ≠ []) (run : Longest Char.isDigit ahead digits rest)
    (large : Nat.pow 2 64 ≤ Nat.ofDigitChars 10 digits 0) :
    Describes expression (.invalidIndex (String.ofList digits) (offset expression.toList ahead)) := by
  obtain ⟨rfl, inside, stop⟩ := run
  have parted := parted split
  rw [String.ofList_append] at parted
  refine ⟨_, _, parted, ?_⟩
  simp only [String.toList_ofList]
  refine ⟨?_, inside, first, stop, large⟩
  simpa using some

private theorem isDigit_blank {c : Char} (blank : Text.isBlank c = true) : c.isDigit = false := by
  cases digit : c.isDigit with
  | false => rfl
  | true => cases blank.symm.trans (isBlank_digit digit)

/-- Between a bracket and an index there are blanks only. -/
theorem index_first {text before ahead inside : List Char} (opened : '[' :: inside <:+ text)
    (blanks : Blanks inside ahead) (split : text = before ++ ahead) : ∀ c ∈ before.getLast?, c.isDigit = false := by
  obtain ⟨run, rfl, blankRun⟩ := blanks
  obtain ⟨front, rfl⟩ := opened
  obtain rfl : before = front ++ '[' :: run := by
    rw [← List.cons_append, ← List.append_assoc] at split
    exact (List.append_cancel_right split).symm
  intro c last
  have member : c ∈ '[' :: run := by
    rw [List.getLast?_append_of_ne_nil _ (List.cons_ne_nil '[' run)] at last
    exact List.mem_of_getLast? last
  rcases List.mem_cons.mp member with rfl | member
  · rfl
  · exact isDigit_blank (blankRun c member)

private theorem describes_empty (blanks : Blanks expression.toList []) : Describes expression .empty := by
  obtain ⟨run, same, blankRun⟩ := blanks
  rw [List.append_nil] at same
  rwa [← same] at blankRun

private theorem describes_missingRoot {found : Char} {rest : List Char}
    (blanks : Blanks expression.toList (found :: rest))
    (visible : Text.isBlank found = false) (other : found ≠ '$') : Describes expression (.missingRoot found) := by
  obtain ⟨run, same, blankRun⟩ := blanks
  refine ⟨String.ofList run, String.ofList rest, ?_, ?_, visible, other⟩
  · rw [← String.toList_inj, same]
    simp
  · rwa [String.toList_ofList]

private theorem describes_refused {error : SyntaxError (List Char)} (comes : Comes expression.toList stage bracket here)
    (refused : Refused bracket stage (stage.ahead here) error) :
    Describes expression (error.map (offset expression.toList)) := by
  have within := Comes.within comes
  have blanks := blanks_ahead stage here
  obtain ⟨before, split⟩ := (Blanks.suffix blanks).trans comes.suffix.1
  have unfinished {expected : Expected} (same : error = .unexpectedEnd expected) (construct : Construct)
      (opening : List Char) : ¬ StillOpen expression.toList construct opening := by
    subst same
    intro stillOpen
    have read := read_eq_error_iff.mpr ⟨_, _, _, comes, refused⟩
    cases read.symm.trans (unterminated_iff.mpr stillOpen)
  have unterminated {construct : Construct} {opening : List Char} (same : error = .unterminated construct opening) :
      Describes expression (error.map (offset expression.toList)) := by
    subst same
    exact describes_unterminated comes refused
  generalize same : stage.ahead here = ahead at refused blanks split
  cases refused with
  | other refuses =>
    cases ahead with
    | nil =>
      obtain ⟨empty, rfl⟩ | ⟨expected, ended⟩ | ⟨construct, unclosed⟩ := refusal_nil stage bracket
      · rw [empty]
        cases within with
        | root => exact describes_empty blanks
      · rw [ended]
        exact unfinished ended
      · exact unterminated unclosed
    | cons c rest =>
      obtain ⟨missing, rfl⟩ | ⟨expected, token⟩ := refusal_cons stage bracket c rest
      · have other : c ≠ '$' := by
          rintro rfl
          cases refuses '$' rfl
        rw [missing]
        cases within with
        | root => exact describes_missingRoot blanks (ahead_visible rfl same) other
      · rw [token]
        exact describes_token split.symm
  | bang => exact describes_token split.symm
  | operator different first => exact describes_operator split.symm different first
  | fieldPath named nested =>
    cases within with
    | fieldName opened mark current =>
      cases same
      have inside := (Blanks.suffix mark).trans (Opened.comes opened).suffix.1
      have start := (List.suffix_cons _ _).trans ((List.suffix_cons _ _).trans inside)
      obtain ⟨before, split⟩ := (Blanks.suffix current).trans start
      exact describes_fieldPath split.symm named nested
  | index some run large =>
    cases within with
    | bracketContent opened =>
      exact describes_index split.symm (index_first comes.suffix.2 blanks split.symm) some run large
  | unclosed => exact unterminated rfl

end Kinds

/-- The byte offset that an error carries. -/
def position? : SyntaxError Nat → Option Nat
  | .unterminated _ position | .unexpectedToken _ position _ | .unsupportedOperator _ position
  | .invalidIndex _ position => some position
  | .empty | .missingRoot _ | .unexpectedEnd _ | .unsupportedFieldPath _ => none

theorem StillOpen.nonempty {text opening : List Char} {construct : Construct}
    (stillOpen : StillOpen text construct opening) : opening ≠ [] := by
  cases stillOpen <;> exact List.cons_ne_nil _ _

/-- A position is inside the expression and does not part the bytes of a character. -/
theorem Describes.position {expression : String} {error : SyntaxError Nat} (describes : Describes expression error) :
    ∀ position ∈ position? error,
      position < expression.utf8ByteSize ∧ String.Pos.Raw.IsValid expression ⟨position⟩ := by
  have inside {position : Nat} {before rest : String} (parted : Parted expression position before rest)
      (some : rest.toList ≠ []) : position < expression.utf8ByteSize ∧ String.Pos.Raw.IsValid expression ⟨position⟩ :=
    ⟨parted.position_lt (by simpa using some), parted.isValid⟩
  rintro position carried
  cases error with
  | empty | missingRoot | unexpectedEnd | unsupportedFieldPath => cases carried
  | unterminated construct opening =>
    cases carried
    obtain ⟨before, opening, parted, stillOpen⟩ := describes
    exact inside parted stillOpen.nonempty
  | unexpectedToken found =>
    cases carried
    obtain ⟨before, after, parted⟩ := describes
    exact inside parted (by simp)
  | unsupportedOperator operator =>
    cases carried
    obtain ⟨before, rest, parted, listed, shown, _⟩ := describes
    have some : operator.toList ≠ [] := by
      have all : ∀ operator ∈ unsupportedOperators, operator.toList ≠ [] := by decide
      exact all operator listed
    exact inside parted (fun none => some (List.prefix_nil.mp (none ▸ shown)))
  | invalidIndex text =>
    cases carried
    obtain ⟨before, after, parted, some, _⟩ := describes
    exact inside parted (by simp [some])

private theorem compile_of_empty {expression : String} (describes : Describes expression .empty) :
    Path.compile expression = .error .empty := by
  refine compile_eq_error_iff.mpr ⟨.empty, ?_, rfl⟩
  have blank : dropBlank expression.toList = [] := List.dropWhile_eq_nil_iff.mpr describes
  simp only [Path.read, blank]

private theorem compile_of_missingRoot {expression : String} {found : Char}
    (describes : Describes expression (.missingRoot found)) :
    Path.compile expression = .error (.missingRoot found) := by
  obtain ⟨blanks, rest, rfl, blank, visible, other⟩ := describes
  refine compile_eq_error_iff.mpr ⟨.missingRoot found, ?_, rfl⟩
  have ahead : dropBlank (blanks ++ String.singleton found ++ rest).toList = found :: rest.toList := by
    refine dropBlank_eq ⟨blanks.toList, by simp, blank⟩ (starts_cons visible)
  unfold Path.read
  rw [ahead]
  split
  next same => cases same
  next same => cases same; exact absurd rfl other
  next same => cases same; rfl

private theorem compile_of_stillOpen {expression : String} {construct : Construct} {position : Nat}
    (describes : Describes expression (.unterminated construct position)) :
    Path.compile expression = .error (.unterminated construct position) := by
  obtain ⟨before, opening, parted, stillOpen⟩ := describes
  refine compile_eq_error_iff.mpr ⟨_, unterminated_iff.mpr stillOpen, ?_⟩
  have split : expression.toList = before.toList ++ opening.toList := by rw [parted.whole, String.toList_append]
  rw [SyntaxError.map, split, offset_append, String.ofList_toList, parted.offset]

/-- What an error says about an expression is so, and its position is one in the expression. An empty text, a
missing root and an unterminated construct are also reported whenever they are there. -/
theorem compile_error_describes (expression : String) :
    (∀ error, Path.compile expression = .error error → Describes expression error ∧
      ∀ position ∈ position? error, position < expression.utf8ByteSize ∧ String.Pos.Raw.IsValid expression ⟨position⟩) ∧
    (Describes expression .empty → Path.compile expression = .error .empty) ∧
    (∀ found, Describes expression (.missingRoot found) → Path.compile expression = .error (.missingRoot found)) ∧
    (∀ construct position, Describes expression (.unterminated construct position) →
      Path.compile expression = .error (.unterminated construct position)) := by
  refine ⟨?_, compile_of_empty, fun _ => compile_of_missingRoot, fun _ _ => compile_of_stillOpen⟩
  intro error failed
  obtain ⟨error, read, rfl⟩ := compile_eq_error_iff.mp failed
  obtain ⟨stage, bracket, here, comes, refused⟩ := read_eq_error_iff.mp read
  have describes := describes_refused comes refused
  exact ⟨describes, describes.position⟩

theorem compile_error_describes_open_predicate :
    Path.compile "$['é'][?( @.k == 'v' " = .error (.unterminated .predicate 7) ∧
      Describes "$['é'][?( @.k == 'v' " (.unterminated .predicate 7) ∧
      ∀ position ∈ position? (.unterminated .predicate 7), position < "$['é'][?( @.k == 'v' ".utf8ByteSize ∧
        String.Pos.Raw.IsValid "$['é'][?( @.k == 'v' " ⟨position⟩ := by
  have failed : Path.compile "$['é'][?( @.k == 'v' " = .error (.unterminated .predicate 7) := by decide +kernel
  exact ⟨failed, (compile_error_describes _).1 _ failed⟩

end PathQuery.Proofs.Diagnoses
