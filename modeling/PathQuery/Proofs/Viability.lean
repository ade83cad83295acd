import PathQuery.Proofs.Refusals

/-! Errors tell an unfinished expression from a wrong one. An expression is viable if some continuation of it
compiles. An error for the end of the expression leaves it viable, and any other error is at a place up
to which it is viable and from which on it is not. -/

namespace PathQuery.Proofs.Viability
open PathQuery.Expression Grammar Reading Compiling Stages StagedReading Refusals

def Viable (text : String) : Prop := ∃ more path, Path.compile (text ++ more) = .ok path

/-- Some continuation of the text is read as a path. -/
def Completable (text : List Char) : Prop := ∃ more path, Path.read (text ++ more) = .ok path

variable {text here before front opening : List Char} {stage : Stage} {error : SyntaxError (List Char)}

private theorem Completable.of_append {rest : List Char} (completable : Completable (front ++ rest)) :
    Completable front := by
  obtain ⟨more, path, read⟩ := completable
  rw [List.append_assoc] at read
  exact ⟨rest ++ more, path, read⟩

private theorem viable_ofList : Viable (String.ofList text) ↔ Completable text := by
  have compiles (expression : String) : (∃ path, Path.compile expression = .ok path) ↔
      ∃ path, Path.read expression.toList = .ok path := by
    constructor
    · rintro ⟨path, compiled⟩
      exact ⟨path, read_iff.mpr (compile_iff.mp compiled)⟩
    · rintro ⟨path, read⟩
      exact ⟨path, compile_iff.mpr (read_iff.mp read)⟩
  constructor
  · rintro ⟨more, compiled⟩
    have read := (compiles _).mp compiled
    simp only [String.toList_append, String.toList_ofList] at read
    exact ⟨more.toList, read⟩
  · rintro ⟨more, read⟩
    refine ⟨String.ofList more, (compiles _).mpr ?_⟩
    simpa only [String.toList_append, String.toList_ofList] using read

/-- A shortest way to the end of an expression. -/
def completion : Stage → List Char
  | .root => ['$']
  | .segment => []
  | .member | .descentTarget => ['*']
  | .bracketContent => ['*', ']']
  | .predicateOpening => ['(', '@', '.', 'a', '=', '=', '"', '"', ')', ']']
  | .currentNode => ['@', '.', 'a', '=', '=', '"', '"', ')', ']']
  | .memberAccess => ['.', 'a', '=', '=', '"', '"', ')', ']']
  | .fieldName => ['a', '=', '=', '"', '"', ')', ']']
  | .equality => ['=', '=', '"', '"', ')', ']']
  | .quotedString => ['"', '"', ')', ']']
  | .predicateClosing => [')', ']']
  | .bracketClosing => [']']

private theorem ahead_completion (stage : Stage) : stage.ahead (completion stage) = completion stage := by
  cases stage <;> rfl

private theorem completion_fits (stage : Stage) (rest : List Char) : Fits stage rest (completion stage) := by
  right
  cases stage <;> rintro _ ⟨⟩ <;> rfl

private theorem completion_ends (stage : Stage) (opening : List Char) :
    Ends stage opening (completion stage) (.ok ()) := by
  have segment (opening : List Char) : Ends .segment opening (completion .segment) (.ok ()) := .finished rfl
  have bracketClosing : Ends .bracketClosing opening (completion .bracketClosing) (.ok ()) :=
    .onward (.sign rfl) (segment _)
  have predicateClosing : Ends .predicateClosing opening (completion .predicateClosing) (.ok ()) :=
    .onward (.sign rfl) bracketClosing
  have quotedString : Ends .quotedString opening (completion .quotedString) (.ok ()) :=
    .onward (.literal (.double .closing)) predicateClosing
  have equality : Ends .equality opening (completion .equality) (.ok ()) := .onward .equality quotedString
  have named : Name (completion .fieldName) "a" (completion .equality) := by
    refine ⟨by decide, rfl, ?_, by rintro _ ⟨⟩; rfl⟩
    intro c member
    obtain rfl : c = 'a' := by simpa using member
    rfl
  have fieldName : Ends .fieldName opening (completion .fieldName) (.ok ()) :=
    .onward (.field named ⟨by decide, by decide⟩) equality
  have memberAccess : Ends .memberAccess opening (completion .memberAccess) (.ok ()) := .onward (.sign rfl) fieldName
  have currentNode : Ends .currentNode opening (completion .currentNode) (.ok ()) := .onward (.sign rfl) memberAccess
  cases stage with
  | root => exact .onward (.sign rfl) (segment _)
  | segment => exact segment _
  | member => exact .onward (.sign rfl) (segment _)
  | descentTarget => exact .onward (.sign rfl) (segment _)
  | bracketContent => exact .onward (.sign rfl) bracketClosing
  | predicateOpening => exact .onward (.sign rfl) currentNode
  | currentNode => exact currentNode
  | memberAccess => exact memberAccess
  | fieldName => exact fieldName
  | equality => exact equality
  | quotedString => exact quotedString
  | predicateClosing => exact predicateClosing
  | bracketClosing => exact bracketClosing

private theorem Comes.completes (comes : Comes text stage opening here) (ahead : stage.ahead here = completion stage) :
    ∃ path, Path.read text = .ok path := by
  have ends : Ends stage opening here (.ok ()) := by
    refine Ends.of_ahead ?_ (completion_ends stage opening)
    rw [ahead, ahead_completion]
  exact read_eq_ok_iff.mpr (comes.finishes ends rfl)

/-- Up to any place that reading comes to, an expression is viable. -/
theorem Leads.completable {ahead : List Char} (leads : Leads before stage ahead) : Completable before := by
  obtain ⟨opening, here, comes, same⟩ := leads _ (ahead_completion stage) (completion_fits stage ahead)
  exact ⟨_, Comes.completes comes same⟩

/-- What is refused at a stage whatever follows it. -/
def Final (stage : Stage) (front : List Char) : Prop :=
  ∀ opening more, ∃ error, Refused opening stage (front ++ more) error

private theorem Leads.not_completable {rest : List Char} (leads : Leads before stage (front ++ rest))
    (starts : stage.ahead (front ++ rest) = front ++ rest) (some : front ≠ []) (final : Final stage front) :
    ¬ Completable (before ++ front) := by
  rintro ⟨more, path, read⟩
  obtain ⟨c, front, rfl⟩ := List.exists_cons_of_ne_nil some
  obtain ⟨opening, here, comes, ahead⟩ := leads (c :: front ++ more) (ahead_cons starts _) (.inl rfl)
  obtain ⟨error, refused⟩ := final opening more
  rw [← ahead] at refused
  have failed := read_eq_error_iff.mpr ⟨_, _, _, comes, refused⟩
  rw [List.append_assoc] at read
  cases read.symm.trans failed

private theorem Leads.dead {ahead : List Char} (leads : Leads before stage ahead) (starts : stage.ahead ahead = ahead)
    (some : ahead ≠ []) (final : Final stage ahead) : ¬ Completable (before ++ ahead) := by
  rw [← List.append_nil ahead] at leads starts
  exact Leads.not_completable leads starts some final

private theorem final_other {c : Char} (refuses : stage.takes c = false) : Final stage [c] := by
  intro opening more
  exact ⟨_, .other (by rintro _ ⟨⟩; exact refuses) (fun _ => List.cons_ne_nil _ _)⟩

private theorem final_bang : Final .equality ['!'] := by
  intro opening more
  by_cases first : more.head? = some '='
  · obtain ⟨more, rfl⟩ := List.head?_eq_some_iff.mp first
    exact ⟨_, .operator (by rintro ⟨_, ⟨⟩⟩) (by rfl)⟩
  · exact ⟨_, .bang first⟩

/-- Only an equals sign at the end may still become the operator that is supported. -/
theorem final_operator {operator : String} (different : ¬ ['=', '='] <+: here)
    (first : unsupportedOperators.find? (fun operator => operator.toList.isPrefixOf here) = some operator)
    (more : here ≠ ['=']) : Final .equality here := by
  intro opening rest
  have stillDifferent : ¬ ['=', '='] <+: here ++ rest := by
    obtain ⟨c, after, rfl, _⟩ := operator_takes first
    cases after with
    | nil =>
      rintro ⟨_, ⟨⟩⟩
      exact more rfl
    | cons d after =>
      rintro ⟨_, ⟨⟩⟩
      exact different ⟨after, rfl⟩
  have shown : operator.toList <+: here := by simpa using List.find?_some first
  have found : (unsupportedOperators.find? fun operator => operator.toList.isPrefixOf (here ++ rest)).isSome := by
    refine List.find?_isSome.mpr ⟨operator, List.mem_of_find?_eq_some first, ?_⟩
    simpa using shown.trans (List.prefix_append here rest)
  obtain ⟨longer, found⟩ := Option.isSome_iff_exists.mp found
  exact ⟨_, .operator stillDifferent found⟩

private theorem final_fieldPath {rest : List Char} {name : String} (named : Name here name rest)
    (nested : rest.head? = some '.' ∨ rest.head? = some '[') : Final .fieldName here := by
  intro opening more
  obtain ⟨some, rfl, inside, stop⟩ := named
  obtain ⟨c, after, rfl⟩ : ∃ c after, rest = c :: after := by
    cases rest with
    | nil => simp at nested
    | cons c after => exact ⟨c, after, rfl⟩
  have named : Name (name.toList ++ c :: after ++ more) name (c :: after ++ more) := ⟨some, by simp, inside, stop⟩
  exact ⟨_, .fieldPath named nested⟩

/-- Further digits only make an index larger. -/
theorem final_index {digits rest : List Char} (some : digits ≠ []) (run : Longest Char.isDigit here digits rest)
    (large : Nat.pow 2 64 ≤ Nat.ofDigitChars 10 digits 0) : Final .bracketContent here := by
  intro opening more
  obtain ⟨rfl, inside, _⟩ := run
  have longer : (digits ++ rest ++ more).takeWhile Char.isDigit = digits ++ (rest ++ more).takeWhile Char.isDigit := by
    rw [List.append_assoc, List.takeWhile_append_of_pos inside]
  refine ⟨_, .index ?_ (longest_iff.mpr ⟨rfl, rfl⟩) ?_⟩
  · rw [longer]
    exact List.append_ne_nil_of_left_ne_nil some _
  · rw [longer, Nat.ofDigitChars_append, Nat.ofDigitChars_eq_ofDigitChars_zero]
    have scaled := Nat.le_mul_of_pos_left (Nat.ofDigitChars 10 digits 0)
      (Nat.pow_pos (by decide : 0 < 10) (n := ((rest ++ more).takeWhile Char.isDigit).length))
    omega

/-- A quoted text that is not closed may be closed, whatever is to follow it. -/
theorem items_closed {quote : Char} {inside : List Char} (unclosed : Text.Quoted.read? quote inside = none) :
    ∃ closing, ∀ rest, ∃ meant, Items quote (inside ++ closing ++ rest) meant rest := by
  fun_induction Text.Quoted.read? quote inside with
  | case1 => exact ⟨[quote], fun rest => ⟨_, .closing⟩⟩
  | case2 => cases unclosed
  | case3 => exact ⟨[quote, quote], fun rest => ⟨_, .escaped (escape_iff.mpr rfl) .closing⟩⟩
  | case4 _ escaped text ih =>
    obtain ⟨closing, closes⟩ := ih (Option.map_eq_none_iff.mp unclosed)
    refine ⟨closing, fun rest => ?_⟩
    obtain ⟨meant, items⟩ := closes rest
    exact ⟨_, .escaped (escape_iff.mpr rfl) items⟩
  | case5 c text inside unescaped ih =>
    obtain ⟨closing, closes⟩ := ih (Option.map_eq_none_iff.mp unclosed)
    refine ⟨closing, fun rest => ?_⟩
    obtain ⟨meant, items⟩ := closes rest
    exact ⟨_, .plain inside unescaped items⟩

private theorem quoted_closed {quote : Char} {inside : List Char} (quoting : isQuote quote = true)
    (unclosed : Text.Quoted.read? quote inside = none) :
    ∃ closing, ∀ rest, ∃ content, Quoted (quote :: (inside ++ closing ++ rest)) content rest := by
  obtain ⟨closing, closes⟩ := items_closed unclosed
  refine ⟨closing, fun rest => ?_⟩
  obtain ⟨meant, items⟩ := closes rest
  simp only [isQuote, Bool.or_eq_true, beq_iff_eq] at quoting
  rcases quoting with rfl | rfl
  · exact ⟨_, .single items⟩
  · exact ⟨_, .double items⟩

private theorem Leads.string_completable {quote : Char} {inside : List Char}
    (leads : Leads before stage (quote :: inside)) (starts : stage.ahead (quote :: inside) = quote :: inside)
    (awaited : stage = .bracketContent ∨ stage = .quotedString) (quoting : isQuote quote = true)
    (unclosed : Text.Quoted.read? quote inside = none) : Completable (before ++ quote :: inside) := by
  obtain ⟨closing, closes⟩ := quoted_closed quoting unclosed
  have completes {next : Stage}
      (token : ∀ content, Quoted (quote :: (inside ++ closing ++ completion next)) content (completion next) →
        Token stage (quote :: (inside ++ closing ++ completion next)) next (completion next)) :
      Completable (before ++ quote :: inside) := by
    obtain ⟨content, quoted⟩ := closes (completion next)
    have still := ahead_cons starts (inside ++ closing ++ completion next)
    obtain ⟨opening, here, comes, ahead⟩ := leads _ still (.inl rfl)
    have onward := token content quoted
    rw [← ahead] at onward
    obtain ⟨path, read⟩ := Comes.completes (comes.onward onward) (ahead_completion next)
    exact ⟨closing ++ completion next, path, by simpa using read⟩
  obtain rfl | rfl := awaited
  · exact completes fun _ => .name
  · exact completes fun _ => .literal

private theorem Leads.equality_completable (leads : Leads before .equality ['=']) : Completable (before ++ ['=']) := by
  obtain ⟨opening, here, comes, ahead⟩ := leads ('=' :: '=' :: completion .quotedString) rfl (.inl rfl)
  have token : Token .equality (Stage.ahead .equality here) .quotedString (completion .quotedString) := by
    rw [ahead]
    exact .equality
  obtain ⟨path, read⟩ := Comes.completes (comes.onward token) (ahead_completion _)
  exact ⟨'=' :: completion .quotedString, path, by simpa using read⟩

/-- What an error tells about the continuations of an expression and of the text before the place it names. -/
def Separates (expression : String) : SyntaxError Nat → Prop
  | .empty | .unexpectedEnd _ | .unterminated _ _ => Viable expression
  | .unexpectedToken found position _ => ∃ before after,
      expression = before ++ String.singleton found ++ after ∧ before.utf8ByteSize = position ∧
        Viable before ∧ ¬ Viable (before ++ String.singleton found)
  | .missingRoot _ | .invalidIndex _ _ | .unsupportedFieldPath _ => ¬ Viable expression
  | .unsupportedOperator operator position => ∃ before after,
      expression = before ++ operator ++ after ∧ before.utf8ByteSize = position ∧
        Viable before ∧ (Viable expression ↔ operator = "=" ∧ after = "")

private theorem Leads.separates_token {c : Char} {rest : List Char} (expected : Expected)
    (leads : Leads before stage (c :: rest)) (starts : stage.ahead (c :: rest) = c :: rest) (final : Final stage [c]) :
    Separates (String.ofList (before ++ c :: rest))
      (.unexpectedToken c (offset (before ++ c :: rest) (c :: rest)) expected) := by
  refine ⟨String.ofList before, String.ofList rest, ?_, (offset_append before (c :: rest)).symm, ?_, ?_⟩
  · rw [String.ofList_append, String.ofList_cons, String.append_assoc]
  · exact viable_ofList.mpr (Leads.completable leads)
  · rw [String.singleton_eq_ofList, ← String.ofList_append, viable_ofList]
    exact Leads.not_completable leads starts (List.cons_ne_nil _ _) final

private theorem Leads.separates_operator {ahead : List Char} {operator : String} (leads : Leads before .equality ahead)
    (starts : Stage.ahead .equality ahead = ahead) (different : ¬ ['=', '='] <+: ahead)
    (first : unsupportedOperators.find? (fun operator => operator.toList.isPrefixOf ahead) = some operator) :
    Separates (String.ofList (before ++ ahead)) (.unsupportedOperator operator (offset (before ++ ahead) ahead)) := by
  obtain ⟨after, rfl⟩ : operator.toList <+: ahead := by simpa using List.find?_some first
  refine ⟨String.ofList before, String.ofList after, ?_, (offset_append before _).symm, ?_, ?_⟩
  · rw [String.ofList_append, String.ofList_append, String.ofList_toList, String.append_assoc]
  · exact viable_ofList.mpr (Leads.completable leads)
  rw [viable_ofList]
  constructor
  · intro completable
    have single : operator.toList ++ after = ['='] := by
      by_contra more
      have some : operator.toList ++ after ≠ [] := by
        obtain ⟨c, rest, same, _⟩ := operator_takes first
        rw [same]
        exact List.cons_ne_nil c rest
      exact Leads.dead leads starts some (final_operator different first more) completable
    rw [single] at first
    cases first
    exact ⟨rfl, by simpa using single⟩
  · rintro ⟨rfl, none⟩
    obtain rfl : after = [] := by simpa using none
    exact Leads.equality_completable leads

private theorem Leads.separates {ahead : List Char} (leads : Leads before stage ahead)
    (starts : stage.ahead ahead = ahead) (refused : Refused opening stage ahead error) :
    Separates (String.ofList (before ++ ahead)) (error.map (offset (before ++ ahead))) := by
  cases refused with
  | other refuses =>
    cases ahead with
    | nil =>
      have viable : Viable (String.ofList (before ++ [])) := by
        rw [List.append_nil]
        exact viable_ofList.mpr (Leads.completable leads)
      obtain ⟨same, _⟩ | ⟨expected, same⟩ | ⟨construct, same⟩ := refusal_nil stage opening <;> (rw [same]; exact viable)
    | cons c rest =>
      have final : Final stage [c] := final_other (refuses c rfl)
      obtain ⟨same, rfl⟩ | ⟨expected, same⟩ := refusal_cons stage opening c rest
      · rw [same]
        intro viable
        have completable : Completable ((before ++ [c]) ++ rest) := by simpa using viable_ofList.mp viable
        exact Leads.not_completable leads starts (List.cons_ne_nil c []) final completable.of_append
      · rw [same]
        exact Leads.separates_token expected leads starts final
  | bang => exact Leads.separates_token .equality leads starts final_bang
  | operator different first => exact Leads.separates_operator leads starts different first
  | fieldPath named nested =>
    obtain ⟨c, rest, rfl, _⟩ := Name.first named
    intro viable
    have dead := Leads.dead leads starts (List.cons_ne_nil c rest) (final_fieldPath named nested)
    exact dead (viable_ofList.mp viable)
  | index some run large =>
    intro viable
    have nonempty : ahead ≠ [] := by
      rw [run.1]
      exact List.append_ne_nil_of_left_ne_nil some _
    exact Leads.dead leads starts nonempty (final_index some run large) (viable_ofList.mp viable)
  | unclosed awaited quoting unclosed =>
    exact viable_ofList.mpr (Leads.string_completable leads starts awaited quoting unclosed)

/-- An error for the end of an expression leaves it viable. Any other error names the place up to which the
expression is viable and from which on it is not, an equals sign at the very end apart. -/
theorem compile_error_separates {expression : String} {error : SyntaxError Nat}
    (failed : Path.compile expression = .error error) : Separates expression error := by
  obtain ⟨error, read, rfl⟩ := compile_eq_error_iff.mp failed
  obtain ⟨stage, opening, here, comes, refused⟩ := read_eq_error_iff.mp read
  obtain ⟨before, split, leads⟩ := comes.leads
  have separates := Leads.separates leads (ahead_idempotent here) refused
  rw [← split, String.ofList_toList] at separates
  exact separates

theorem compile_error_separates_at_lone_bang :
    Path.compile "$['é'][?(@.k ! 'v')]" = .error (.unexpectedToken '!' 14 .equality) ∧
      Separates "$['é'][?(@.k ! 'v')]" (.unexpectedToken '!' 14 .equality) := by
  have failed : Path.compile "$['é'][?(@.k ! 'v')]" = .error (.unexpectedToken '!' 14 .equality) := by decide +kernel
  exact ⟨failed, compile_error_separates failed⟩

end PathQuery.Proofs.Viability
