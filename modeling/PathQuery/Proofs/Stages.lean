import PathQuery.Proofs.Compiling

/-! Reading an expression as a walk through stages. A stage says what is to come next; a token
that may come there leads to the next stage, and anything else is refused with an error that the
stage determines. No part of an expression lies inside another of its kind, so that a stage is all
that has to be remembered, apart from the bracket that was opened last. -/

namespace PathQuery.Proofs.Stages
open PathQuery.Expression Grammar Reading Compiling

/-- What is to come next. After one dot it is a member, after two a descent target. -/
inductive Stage where
  | root
  | segment
  | member
  | descentTarget
  | bracketContent
  | predicateOpening
  | currentNode
  | memberAccess
  | fieldName
  | equality
  | quotedString
  | predicateClosing
  | bracketClosing
deriving DecidableEq, Repr

namespace Stage

/-- Whether blanks may come first. -/
def spaced : Stage → Bool
  | .root | .segment | .bracketContent | .currentNode | .equality | .quotedString | .predicateClosing
  | .bracketClosing => true
  | .member | .descentTarget | .predicateOpening | .memberAccess | .fieldName => false

/-- The text without the blanks that may come first. -/
def ahead (stage : Stage) (text : List Char) : List Char := if stage.spaced then dropBlank text else text

/-- The tokens of one character, with the stage that follows each. -/
def sign : Stage → Char → Option Stage
  | .root, '$' => some .segment
  | .segment, '[' | .descentTarget, '[' => some .bracketContent
  | .member, '*' | .descentTarget, '*' => some .segment
  | .bracketContent, '*' => some .bracketClosing
  | .bracketContent, '?' => some .predicateOpening
  | .predicateOpening, '(' => some .currentNode
  | .currentNode, '@' => some .memberAccess
  | .memberAccess, '.' => some .fieldName
  | .predicateClosing, ')' => some .bracketClosing
  | .bracketClosing, ']' => some .segment
  | _, _ => none

/-- The characters that some token, or the beginning of an operator, starts with. -/
def takes : Stage → Char → Bool
  | .segment, c => c == '.' || c == '['
  | .member, c => isNameChar c || c == '*'
  | .descentTarget, c => isNameChar c || c == '*' || c == '['
  | .bracketContent, c => c == '*' || c == '?' || isQuote c || c.isDigit
  | .fieldName, c => isNameChar c
  | .equality, c => c == '=' || c == '!' || c == '<' || c == '>'
  | .quotedString, c => isQuote c
  | stage, c => (stage.sign c).isSome

/-- The error for a text that cannot go on at this stage, `opening` being the last bracket. -/
def refusal (opening here : List Char) : Stage → SyntaxError (List Char)
  | .root =>
    match here with
    | [] => .empty
    | found :: _ => .missingRoot found
  | .segment => .unexpected .segment here
  | .member | .fieldName => .unexpected .fieldName here
  | .descentTarget => .unexpected .descentTarget here
  | .bracketContent => unclosed .bracket .bracketContent
  | .predicateOpening => .unexpected .predicateOpening here
  | .currentNode => .unexpected .currentNode here
  | .memberAccess => .unexpected .memberAccess here
  | .equality => .unexpected .equality here
  | .quotedString => .unexpected .quotedString here
  | .predicateClosing => unclosed .predicate .predicateClosing
  | .bracketClosing => unclosed .bracket .bracketClosing
where
  unclosed (construct : Construct) (expected : Expected) : SyntaxError (List Char) :=
    if here = [] then .unterminated construct opening else .unexpected expected here

/-- The bracket that was opened last, once a stage is reached in front of `rest`. -/
def opened (stage : Stage) (opening rest : List Char) : List Char :=
  if stage = .bracketContent then '[' :: rest else opening

end Stage

/-- What may come at a stage, with the stage after it. -/
inductive Token : Stage → List Char → Stage → List Char → Prop where
  | sign {stage next : Stage} {c : Char} {rest : List Char} (leads : stage.sign c = some next) :
      Token stage (c :: rest) next rest
  | dot {rest : List Char} (single : rest.head? ≠ some '.') : Token .segment ('.' :: rest) .member rest
  | dots {rest : List Char} : Token .segment ('.' :: '.' :: rest) .descentTarget rest
  | member {text rest : List Char} {name : String} (named : Name text name rest) : Token .member text .segment rest
  | target {text rest : List Char} {name : String} (named : Name text name rest) :
      Token .descentTarget text .segment rest
  | index {text rest : List Char} {position : Nat} (counted : Index text position rest) :
      Token .bracketContent text .bracketClosing rest
  | name {text rest : List Char} {name : String} (quoted : Quoted text name rest) :
      Token .bracketContent text .bracketClosing rest
  | field {text rest : List Char} {name : String} (named : Name text name rest)
      (direct : rest.head? ≠ some '.' ∧ rest.head? ≠ some '[') : Token .fieldName text .equality rest
  | equality {rest : List Char} : Token .equality ('=' :: '=' :: rest) .quotedString rest
  | literal {text rest : List Char} {literal : String} (quoted : Quoted text literal rest) :
      Token .quotedString text .predicateClosing rest

/-- What may not come at a stage, with the error for it. -/
inductive Refused (opening : List Char) : Stage → List Char → SyntaxError (List Char) → Prop where
  | other {stage : Stage} {here : List Char} (refuses : ∀ c ∈ here.head?, stage.takes c = false)
      (unfinished : stage = .segment → here ≠ []) : Refused opening stage here (stage.refusal opening here)
  | bang {rest : List Char} (alone : rest.head? ≠ some '=') :
      Refused opening .equality ('!' :: rest) (.unexpectedToken '!' ('!' :: rest) .equality)
  | operator {here : List Char} {operator : String} (different : ¬ ['=', '='] <+: here)
      (first : unsupportedOperators.find? (fun operator => operator.toList.isPrefixOf here) = some operator) :
      Refused opening .equality here (.unsupportedOperator operator here)
  | fieldPath {here rest : List Char} {name : String} (named : Name here name rest)
      (nested : rest.head? = some '.' ∨ rest.head? = some '[') : Refused opening .fieldName here
        (.unsupportedFieldPath (name ++ String.ofList (rest.takeWhile fun c => !endsFieldPath c)))
  | index {here digits rest : List Char} (some : digits ≠ []) (run : Longest Char.isDigit here digits rest)
      (large : Nat.pow 2 64 ≤ Nat.ofDigitChars 10 digits 0) :
      Refused opening .bracketContent here (.invalidIndex (String.ofList digits) here)
  | unclosed {stage : Stage} {quote : Char} {inside : List Char}
      (awaited : stage = .bracketContent ∨ stage = .quotedString) (quoting : isQuote quote = true)
      (unclosed : Text.Quoted.read? quote inside = none) :
      Refused opening stage (quote :: inside) (.unterminated .stringLiteral (quote :: inside))

/-- How reading ends from a stage on, with the bracket that was opened last. -/
inductive Ends : Stage → (opening text : List Char) → Except (SyntaxError (List Char)) Unit → Prop where
  | finished {opening text : List Char} (blank : dropBlank text = []) : Ends .segment opening text (.ok ())
  | refused {stage : Stage} {opening text : List Char} {error : SyntaxError (List Char)}
      (refused : Refused opening stage (stage.ahead text) error) : Ends stage opening text (.error error)
  | onward {stage next : Stage} {opening text rest : List Char} {result : Except (SyntaxError (List Char)) Unit}
      (token : Token stage (stage.ahead text) next rest) (ends : Ends next (next.opened opening rest) rest result) :
      Ends stage opening text result

theorem refusal_nil (stage : Stage) (opening : List Char) :
    stage.refusal opening [] = .empty ∧ stage = .root ∨
      (∃ expected, stage.refusal opening [] = .unexpectedEnd expected) ∨
      ∃ construct, stage.refusal opening [] = .unterminated construct opening := by
  cases stage with
  | root => exact .inl ⟨rfl, rfl⟩
  | bracketContent => exact .inr (.inr ⟨_, rfl⟩)
  | predicateClosing => exact .inr (.inr ⟨_, rfl⟩)
  | bracketClosing => exact .inr (.inr ⟨_, rfl⟩)
  | segment | member | descentTarget | predicateOpening | currentNode | memberAccess | fieldName | equality
    | quotedString => exact .inr (.inl ⟨_, rfl⟩)

theorem refusal_cons (stage : Stage) (opening : List Char) (c : Char) (rest : List Char) :
    stage.refusal opening (c :: rest) = .missingRoot c ∧ stage = .root ∨
      ∃ expected, stage.refusal opening (c :: rest) = .unexpectedToken c (c :: rest) expected := by
  cases stage with
  | root => exact .inl ⟨rfl, rfl⟩
  | segment | member | descentTarget | bracketContent | predicateOpening | currentNode | memberAccess | fieldName
    | equality | quotedString | predicateClosing | bracketClosing => exact .inr ⟨_, rfl⟩

/-! At every stage there is at most one way on. -/

variable {stage next next' : Stage} {opening here rest rest' : List Char} {error error' : SyntaxError (List Char)}

private theorem sign_takes {c : Char} (leads : stage.sign c = some next) : stage.takes c = true := by
  unfold Stage.sign at leads
  split at leads <;> first | rfl | cases leads

theorem Quoted.first {text rest : List Char} {content : String} (quoted : Quoted text content rest) :
    ∃ quote inside, text = quote :: inside ∧ isQuote quote = true ∧
      ∃ meant, Text.Quoted.read? quote inside = some meant := by
  cases quoted with
  | single items => exact ⟨_, _, rfl, rfl, _, read_of_items (by decide) items⟩
  | double items => exact ⟨_, _, rfl, rfl, _, read_of_items (by decide) items⟩

theorem Token.takes (token : Token stage here next rest) : ∃ c more, here = c :: more ∧ stage.takes c = true := by
  cases token with
  | sign leads => exact ⟨_, _, rfl, sign_takes leads⟩
  | dot | dots | equality => exact ⟨_, _, rfl, rfl⟩
  | member named | target named | field named =>
    obtain ⟨c, after, rfl, nameChar⟩ := Name.first named
    exact ⟨c, after, rfl, by simp [Stage.takes, nameChar]⟩
  | index counted =>
    obtain ⟨c, after, rfl, digit⟩ := Index.first counted
    exact ⟨c, after, rfl, by simp [Stage.takes, digit]⟩
  | name quoted | literal quoted =>
    obtain ⟨quote, inside, rfl, quoting, _⟩ := Quoted.first quoted
    exact ⟨quote, inside, rfl, by simp [Stage.takes, quoting]⟩

theorem Name.unique {text rest rest' : List Char} {name name' : String} (named : Name text name rest)
    (named' : Name text name' rest') : name = name' ∧ rest = rest' := by
  cases (readName_iff.mpr named).symm.trans (readName_iff.mpr named')
  exact ⟨rfl, rfl⟩

private theorem sign_plain {c : Char} (leads : stage.sign c = some next) :
    isNameChar c = false ∧ c.isDigit = false ∧ isQuote c = false := by
  unfold Stage.sign at leads
  split at leads <;> first | exact ⟨by decide, by decide, by decide⟩ | cases leads

/-- A character that is a token by itself is the beginning of no other token. -/
theorem Token.of_sign {c : Char} (leads : stage.sign c = some next) (token : Token stage (c :: rest) next' rest') :
    next = next' ∧ rest = rest' := by
  obtain ⟨noName, noDigit, noQuote⟩ := sign_plain leads
  generalize same : c :: rest = here at token
  cases token with
  | sign leads' =>
    cases same
    cases leads.symm.trans leads'
    exact ⟨rfl, rfl⟩
  | dot | dots | equality =>
    cases same
    cases leads
  | member named | target named | field named =>
    obtain ⟨_, _, rfl, nameChar⟩ := Name.first named
    cases same
    cases nameChar.symm.trans noName
  | index counted =>
    obtain ⟨_, _, rfl, digit⟩ := Index.first counted
    cases same
    cases digit.symm.trans noDigit
  | name quoted | literal quoted =>
    obtain ⟨_, _, rfl, quoting, _⟩ := Quoted.first quoted
    cases same
    cases quoting.symm.trans noQuote

theorem Token.unique (token : Token stage here next rest) (token' : Token stage here next' rest') :
    next = next' ∧ rest = rest' := by
  cases token with
  | sign leads => exact Token.of_sign leads token'
  | dot single =>
    cases token' with
    | sign leads' => cases leads'
    | dot => exact ⟨rfl, rfl⟩
    | dots => exact absurd rfl single
  | dots =>
    cases token' with
    | sign leads' => cases leads'
    | dot single' => exact absurd rfl single'
    | dots => exact ⟨rfl, rfl⟩
  | member named =>
    cases token' with
    | sign leads' => exact (Token.of_sign leads' (.member named)).imp Eq.symm Eq.symm
    | member named' => exact ⟨rfl, (Name.unique named named').2⟩
  | target named =>
    cases token' with
    | sign leads' => exact (Token.of_sign leads' (.target named)).imp Eq.symm Eq.symm
    | target named' => exact ⟨rfl, (Name.unique named named').2⟩
  | index counted =>
    cases token' with
    | sign leads' => exact (Token.of_sign leads' (.index counted)).imp Eq.symm Eq.symm
    | index counted' =>
      cases (readIndex_iff.mpr counted).symm.trans (readIndex_iff.mpr counted')
      exact ⟨rfl, rfl⟩
    | name quoted =>
      obtain ⟨_, _, rfl, digit⟩ := Index.first counted
      obtain ⟨_, _, same, quoting, _⟩ := Quoted.first quoted
      cases same
      cases quoting.symm.trans (isQuote_digit digit)
  | name quoted =>
    cases token' with
    | sign leads' => exact (Token.of_sign leads' (.name quoted)).imp Eq.symm Eq.symm
    | index counted =>
      obtain ⟨_, _, rfl, digit⟩ := Index.first counted
      obtain ⟨_, _, same, quoting, _⟩ := Quoted.first quoted
      cases same
      cases quoting.symm.trans (isQuote_digit digit)
    | name quoted' =>
      cases (readQuoted_iff.mpr quoted).symm.trans (readQuoted_iff.mpr quoted')
      exact ⟨rfl, rfl⟩
  | field named direct =>
    cases token' with
    | sign leads' => exact (Token.of_sign leads' (.field named direct)).imp Eq.symm Eq.symm
    | field named' => exact ⟨rfl, (Name.unique named named').2⟩
  | equality =>
    cases token' with
    | sign leads' => cases leads'
    | equality => exact ⟨rfl, rfl⟩
  | literal quoted =>
    cases token' with
    | sign leads' => exact (Token.of_sign leads' (.literal quoted)).imp Eq.symm Eq.symm
    | literal quoted' =>
      cases (readQuoted_iff.mpr quoted).symm.trans (readQuoted_iff.mpr quoted')
      exact ⟨rfl, rfl⟩

/-- What is refused at a stage is no token there. -/
theorem Refused.no_token (refused : Refused opening stage here error) : ¬ Token stage here next rest := by
  intro token
  obtain ⟨c, more, same, taken⟩ := token.takes
  cases refused with
  | other refuses =>
    subst same
    cases taken.symm.trans (refuses c rfl)
  | bang alone =>
    cases token with
    | sign leads => cases leads
  | operator different =>
    cases token with
    | sign leads => cases leads
    | equality => exact different ⟨_, rfl⟩
  | fieldPath named nested =>
    cases token with
    | sign leads => cases leads
    | field named' direct =>
      obtain ⟨_, rfl⟩ := Name.unique named named'
      exact nested.elim direct.1 direct.2
  | index some run large =>
    obtain ⟨first, digits, rfl⟩ := List.exists_cons_of_ne_nil some
    obtain ⟨rfl, inside, stop⟩ := run
    have digit : first.isDigit = true := inside first (by simp)
    cases token with
    | sign leads => cases digit.symm.trans (sign_plain leads).2.1
    | index counted =>
      obtain ⟨digits', _, run', rfl, small⟩ := counted
      obtain ⟨rfl, _⟩ := longest_iff.mp run'
      rw [← (longest_iff.mp ⟨rfl, inside, stop⟩).1] at small
      exact absurd large (Nat.not_le.mpr small)
    | name quoted =>
      obtain ⟨_, _, same, quoting, _⟩ := Quoted.first quoted
      cases same
      cases quoting.symm.trans (isQuote_digit digit)
  | @unclosed _ quote inside awaited quoting unclosed =>
    have noString (content : String) : ¬ Quoted (quote :: inside) content rest := by
      intro quoted
      obtain ⟨_, _, same, _, meant, read⟩ := Quoted.first quoted
      cases same
      cases unclosed.symm.trans read
    cases token with
    | sign leads => cases quoting.symm.trans (sign_plain leads).2.2
    | index counted =>
      obtain ⟨_, _, same, digit⟩ := Index.first counted
      cases same
      cases quoting.symm.trans (isQuote_digit digit)
    | name quoted | literal quoted => exact noString _ quoted
    | dot | dots | member | target | field | equality => simp at awaited

theorem operator_takes {operator : String}
    (first : unsupportedOperators.find? (fun operator => operator.toList.isPrefixOf here) = some operator) :
    ∃ c more, here = c :: more ∧ Stage.takes .equality c = true := by
  have listed := List.mem_of_find?_eq_some first
  obtain ⟨more, rfl⟩ : operator.toList <+: here := by simpa using List.find?_some first
  simp only [unsupportedOperators, List.mem_cons, List.not_mem_nil, or_false] at listed
  rcases listed with rfl | rfl | rfl | rfl | rfl | rfl | rfl <;> exact ⟨_, _, rfl, rfl⟩

private theorem bang_operator (alone : rest.head? ≠ some '=') :
    unsupportedOperators.find? (fun operator => operator.toList.isPrefixOf ('!' :: rest)) = none := by
  cases rest with
  | nil => rfl
  | cons c rest =>
    have different : c ≠ '=' := by simpa using alone
    simp [unsupportedOperators, List.isPrefixOf, different.symm]

/-- What begins as no token does is refused with the error of the stage. -/
theorem Refused.eq_refusal (refused : Refused opening stage here error)
    (refuses : ∀ c ∈ here.head?, stage.takes c = false) : error = stage.refusal opening here := by
  have untaken {c : Char} {more : List Char} (same : here = c :: more) : stage.takes c = false := by
    subst same
    exact refuses c rfl
  cases refused with
  | other => rfl
  | bang => rfl
  | operator different first =>
    obtain ⟨c, more, same, taken⟩ := operator_takes first
    cases taken.symm.trans (untaken same)
  | fieldPath named =>
    obtain ⟨c, more, same, nameChar⟩ := Name.first named
    cases nameChar.symm.trans (untaken same)
  | index some run =>
    obtain ⟨first, digits, rfl⟩ := List.exists_cons_of_ne_nil some
    have digit : first.isDigit = true := run.2.1 first (by simp)
    have free := untaken run.1
    simp [Stage.takes, digit] at free
  | unclosed awaited quoting =>
    have free := untaken rfl
    rcases awaited with rfl | rfl <;> simp [Stage.takes, quoting] at free

theorem Refused.unique (refused : Refused opening stage here error) (refused' : Refused opening stage here error') :
    error = error' := by
  cases refused with
  | other refuses => exact (refused'.eq_refusal refuses).symm
  | bang alone =>
    cases refused' with
    | other => rfl
    | bang => rfl
    | operator different first => cases (bang_operator alone).symm.trans first
    | unclosed awaited => simp at awaited
  | operator different first =>
    cases refused' with
    | other refuses => exact Refused.eq_refusal (.operator different first) refuses
    | bang alone => cases (bang_operator alone).symm.trans first
    | operator different' first' =>
      cases first.symm.trans first'
      rfl
    | unclosed awaited => simp at awaited
  | fieldPath named nested =>
    cases refused' with
    | other refuses => exact Refused.eq_refusal (.fieldPath named nested) refuses
    | fieldPath named' nested' =>
      obtain ⟨rfl, rfl⟩ := Name.unique named named'
      rfl
    | unclosed awaited => simp at awaited
  | index some run large =>
    cases refused' with
    | other refuses => exact Refused.eq_refusal (.index some run large) refuses
    | index some' run' large' =>
      rw [(longest_iff.mp run).1, (longest_iff.mp run').1]
    | unclosed awaited quoting unclosed =>
      obtain ⟨first, digits, rfl⟩ := List.exists_cons_of_ne_nil some
      cases run.1
      cases quoting.symm.trans (isQuote_digit (run.2.1 _ (by simp)))
  | unclosed awaited quoting unclosed =>
    cases refused' with
    | other refuses => exact Refused.eq_refusal (.unclosed awaited quoting unclosed) refuses
    | bang => simp at awaited
    | operator => simp at awaited
    | fieldPath => simp at awaited
    | index some run large =>
      obtain ⟨first, digits, rfl⟩ := List.exists_cons_of_ne_nil some
      cases run.1
      cases quoting.symm.trans (isQuote_digit (run.2.1 _ (by simp)))
    | unclosed => rfl

private theorem Refused.not_finished {opening text : List Char} (refused : Refused opening .segment text error) :
    text ≠ [] := by
  cases refused with
  | other refuses unfinished => exact unfinished rfl
  | unclosed => exact List.cons_ne_nil _ _

private theorem Token.not_finished (token : Token stage here next rest) : here ≠ [] := by
  obtain ⟨c, more, rfl, _⟩ := token.takes
  exact List.cons_ne_nil c more

/-- Reading ends in one way. -/
theorem Ends.unique {opening text : List Char} {result result' : Except (SyntaxError (List Char)) Unit}
    (ends : Ends stage opening text result) (ends' : Ends stage opening text result') : result = result' := by
  induction ends with
  | finished blank =>
    cases ends' with
    | finished => rfl
    | refused refused => exact absurd blank refused.not_finished
    | onward token => exact absurd blank token.not_finished
  | refused refused =>
    cases ends' with
    | finished blank => exact absurd blank refused.not_finished
    | refused refused' => rw [refused.unique refused']
    | onward token => exact absurd token refused.no_token
  | onward token ends ih =>
    cases ends' with
    | finished blank => exact absurd blank token.not_finished
    | refused refused => exact absurd token refused.no_token
    | onward token' more =>
      obtain ⟨rfl, rfl⟩ := token.unique token'
      exact ih more

end PathQuery.Proofs.Stages
