import PathQuery.Expression.Error
import PathQuery.Expression.Segment
import PathQuery.Text

/-! Readers for the parts of an expression. A reader takes the text ahead and gives what
it read with the text that follows, which is always an end of the text it was given. -/

namespace PathQuery.Expression

/-- A reader keeps the text ahead as its state. -/
abbrev Reader := StateT (List Char) (Except (SyntaxError (List Char)))

def dropBlank (text : List Char) : List Char := text.dropWhile Text.isBlank

def skipBlank : Reader Unit := fun text => .ok ((), dropBlank text)

def expect (c : Char) (expected : Expected) : Reader Unit := fun text =>
  match text with
  | found :: rest => if found = c then .ok ((), rest) else .error (.unexpected expected text)
  | [] => .error (.unexpected expected text)

/-- Takes the character that closes a construct; at the end of the text the construct is
unterminated. -/
def close (c : Char) (construct : Construct) (opening : List Char) (expected : Expected) :
    Reader Unit := fun text =>
  if text = [] then .error (.unterminated construct opening) else expect c expected text

/-- A name is a longest run of name characters. -/
def readName : Reader String := fun text =>
  let name := text.takeWhile isNameChar
  if name = [] then .error (.unexpected .fieldName text)
  else .ok (String.ofList name, text.dropWhile isNameChar)

/-- One more than the greatest index. -/
def indexLimit : Nat := Nat.pow 2 64

/-- An index is a longest run of digits, with any number of leading zeros. -/
def readIndex : Reader Nat := fun text =>
  let digits := text.takeWhile Char.isDigit
  if digits = [] then .error (.unexpected .index text)
  else
    let value := Nat.ofDigitChars 10 digits 0
    if value < indexLimit then .ok (value, text.dropWhile Char.isDigit)
    else .error (.invalidIndex (String.ofList digits) text)

def isQuote (c : Char) : Bool := c == '\'' || c == '"'

def readQuoted : Reader String := fun text =>
  match text with
  | quote :: rest =>
    if isQuote quote then
      match Text.Quoted.read? quote rest with
      | some (content, after) => .ok (String.ofList content, after)
      | none => .error (.unterminated .stringLiteral text)
    else .error (.unexpected .quotedString text)
  | [] => .error (.unexpected .quotedString text)

/-- Operators that are recognised and refused, a longer one before those it begins with. -/
def unsupportedOperators : List String := ["!=", "<=", ">=", "=~", "<", ">", "="]

def readEquality : Reader Unit := fun text =>
  match text with
  | '=' :: '=' :: rest => .ok ((), rest)
  | _ =>
    match unsupportedOperators.find? fun operator => operator.toList.isPrefixOf text with
    | some operator => .error (.unsupportedOperator operator text)
    | none => .error (.unexpected .equality text)

/-- Where the path of a nested field is cut off in an error. -/
def endsFieldPath (c : Char) : Bool :=
  Text.isBlank c || c == '=' || c == '!' || c == '<' || c == '>' || c == ')'

/-- Refuses a field that is followed by a further step. -/
def endField (field : String) : Reader Unit := fun text =>
  match text with
  | '.' :: _ | '[' :: _ =>
    let more := text.takeWhile fun c => !endsFieldPath c
    .error (.unsupportedFieldPath (field ++ String.ofList more))
  | _ => .ok ((), text)

/-- The inside of a predicate, with the blanks around it. -/
def readFilter : Reader Filter := do
  skipBlank
  expect '@' .currentNode
  expect '.' .memberAccess
  let field ← readName
  endField field
  skipBlank
  readEquality
  skipBlank
  let literal ← readQuoted
  skipBlank
  return ⟨field, literal⟩

/-- What follows the question mark of a predicate. `opening` is the text from the bracket
on. -/
def readPredicate (opening : List Char) : Reader Segment := do
  expect '(' .predicateOpening
  let filter ← readFilter
  close ')' .predicate opening .predicateClosing
  return .predicate filter

def readBracketContent (opening : List Char) : Reader Segment := fun text =>
  match text with
  | [] => .error (.unterminated .bracket opening)
  | '*' :: rest => .ok (.wildcard, rest)
  | '?' :: rest => readPredicate opening rest
  | c :: _ =>
    if isQuote c then (Segment.field <$> readQuoted) text
    else if c.isDigit then (Segment.index <$> readIndex) text
    else .error (.unexpected .bracketContent text)

/-- What follows an opening bracket. -/
def readBracket (opening : List Char) : Reader Segment := do
  skipBlank
  let segment ← readBracketContent opening
  skipBlank
  close ']' .bracket opening .bracketClosing
  return segment

/-- The target of a descent. A bracket is left to be read as the next segment. -/
def readDescentTarget : Reader (List Segment) := fun text =>
  match text with
  | '*' :: rest => .ok ([.wildcard], rest)
  | '[' :: _ => .ok ([], text)
  | c :: _ =>
    if isNameChar c then ((fun name => [.field name]) <$> readName) text
    else .error (.unexpected .descentTarget text)
  | [] => .error (.unexpected .descentTarget text)

/-- One turn through the segments of a path: a descent and its target, or one segment. -/
def readSegments : Reader (List Segment) := fun text =>
  match text with
  | '.' :: '.' :: rest => ((fun target => .descent :: target) <$> readDescentTarget) rest
  | '.' :: '*' :: rest => .ok ([.wildcard], rest)
  | '.' :: rest => ((fun name => [.field name]) <$> readName) rest
  | '[' :: rest => ((fun segment => [segment]) <$> readBracket text) rest
  | _ => .error (.unexpected .segment text)

/-! What is left after a reader is an end of what it was given. -/

theorem bind_eq_ok {α β : Type} {first : Reader α} {next : α → Reader β} {text rest : List Char}
    {result : β} (done : (first >>= next) text = .ok (result, rest)) :
    ∃ value middle, first text = .ok (value, middle) ∧ next value middle = .ok (result, rest) := by
  simp only [bind, StateT.bind] at done
  cases ran : first text with
  | error => rw [ran] at done; cases done
  | ok pair => rw [ran] at done; exact ⟨pair.1, pair.2, rfl, done⟩

theorem map_eq_ok {α β : Type} {convert : α → β} {reader : Reader α} {text rest : List Char}
    {result : β} (done : (convert <$> reader) text = .ok (result, rest)) :
    ∃ value, reader text = .ok (value, rest) ∧ convert value = result := by
  simp only [Functor.map, StateT.map] at done
  cases ran : reader text with
  | error => rw [ran] at done; cases done
  | ok pair => rw [ran] at done; cases done; exact ⟨pair.1, rfl, rfl⟩

theorem return_eq_ok {α : Type} {value result : α} {text rest : List Char}
    (done : (pure value : Reader α) text = .ok (result, rest)) : value = result ∧ text = rest := by
  cases done; exact ⟨rfl, rfl⟩

theorem dropBlank_suffix (text : List Char) : dropBlank text <:+ text :=
  List.dropWhile_suffix _

theorem skipBlank_eq_ok {text rest : List Char} (done : skipBlank text = .ok ((), rest)) :
    rest = dropBlank text := by
  cases done; rfl

theorem expect_eq_ok {c : Char} {expected : Expected} {text rest : List Char}
    (done : expect c expected text = .ok ((), rest)) : text = c :: rest := by
  unfold expect at done
  split at done
  · split at done
    case isTrue same => cases done; rw [same]
    case isFalse => cases done
  · cases done

theorem close_eq_ok {c : Char} {construct : Construct} {opening : List Char}
    {expected : Expected} {text rest : List Char}
    (done : close c construct opening expected text = .ok ((), rest)) : text = c :: rest := by
  unfold close at done
  split at done
  · cases done
  · exact expect_eq_ok done

theorem readName_suffix {text rest : List Char} {name : String}
    (done : readName text = .ok (name, rest)) : rest <:+ text := by
  unfold readName at done
  simp only at done
  split at done
  · cases done
  · cases done; exact List.dropWhile_suffix _

theorem readIndex_suffix {text rest : List Char} {value : Nat}
    (done : readIndex text = .ok (value, rest)) : rest <:+ text := by
  unfold readIndex at done
  simp only at done
  split at done
  · cases done
  · split at done
    · cases done; exact List.dropWhile_suffix _
    · cases done

theorem read?_suffix {quote : Char} {text content rest : List Char}
    (done : Text.Quoted.read? quote text = some (content, rest)) : rest <:+ text := by
  fun_induction Text.Quoted.read? quote text generalizing content with
  | case1 => cases done
  | case2 => cases done; exact List.suffix_cons _ _
  | case3 => cases done
  | case4 _ escaped text step =>
    obtain ⟨⟨_, _⟩, found, same⟩ := Option.map_eq_some_iff.1 done
    cases same
    exact (step found).trans ((List.suffix_cons _ _).trans (List.suffix_cons _ _))
  | case5 c text _ _ step =>
    obtain ⟨⟨_, _⟩, found, same⟩ := Option.map_eq_some_iff.1 done
    cases same
    exact (step found).trans (List.suffix_cons _ _)

theorem readQuoted_suffix {text rest : List Char} {content : String}
    (done : readQuoted text = .ok (content, rest)) : rest <:+ text := by
  unfold readQuoted at done
  split at done
  · split at done
    · split at done
      case h_1 found => cases done; exact (read?_suffix found).trans (List.suffix_cons _ _)
      case h_2 => cases done
    · cases done
  · cases done

theorem readEquality_suffix {text rest : List Char} (done : readEquality text = .ok ((), rest)) :
    rest <:+ text := by
  unfold readEquality at done
  split at done
  · cases done; exact (List.suffix_cons _ _).trans (List.suffix_cons _ _)
  · split at done <;> cases done

theorem endField_eq_ok {field : String} {text rest : List Char}
    (done : endField field text = .ok ((), rest)) : text = rest := by
  unfold endField at done
  split at done <;> cases done
  rfl

theorem readFilter_suffix {text rest : List Char} {filter : Filter}
    (done : readFilter text = .ok (filter, rest)) : rest <:+ text := by
  unfold readFilter at done
  obtain ⟨_, _, blank, done⟩ := bind_eq_ok done
  obtain ⟨_, _, opened, done⟩ := bind_eq_ok done
  obtain ⟨_, _, dotted, done⟩ := bind_eq_ok done
  obtain ⟨_, _, named, done⟩ := bind_eq_ok done
  obtain ⟨_, _, ended, done⟩ := bind_eq_ok done
  obtain ⟨_, _, nextBlank, done⟩ := bind_eq_ok done
  obtain ⟨_, _, compared, done⟩ := bind_eq_ok done
  obtain ⟨_, _, innerBlank, done⟩ := bind_eq_ok done
  obtain ⟨_, _, quoted, done⟩ := bind_eq_ok done
  obtain ⟨_, _, lastBlank, done⟩ := bind_eq_ok done
  have last := (return_eq_ok done).2
  rw [← last, skipBlank_eq_ok lastBlank]
  have start : _ <:+ text := skipBlank_eq_ok blank ▸ dropBlank_suffix text
  rw [expect_eq_ok opened, expect_eq_ok dotted] at start
  have name := readName_suffix named
  rw [endField_eq_ok ended] at name
  exact (dropBlank_suffix _).trans <| (readQuoted_suffix quoted).trans <|
    (skipBlank_eq_ok innerBlank ▸ dropBlank_suffix _ : _ <:+ _).trans <|
    (readEquality_suffix compared).trans <|
    (skipBlank_eq_ok nextBlank ▸ dropBlank_suffix _ : _ <:+ _).trans <|
    name.trans <| (List.suffix_cons _ _).trans <| (List.suffix_cons _ _).trans start

theorem readPredicate_suffix {opening text rest : List Char} {segment : Segment}
    (done : readPredicate opening text = .ok (segment, rest)) : rest <:+ text := by
  unfold readPredicate at done
  obtain ⟨_, _, opened, done⟩ := bind_eq_ok done
  obtain ⟨_, _, filtered, done⟩ := bind_eq_ok done
  obtain ⟨_, _, closed, done⟩ := bind_eq_ok done
  rw [← (return_eq_ok done).2, expect_eq_ok opened]
  have filter := readFilter_suffix filtered
  rw [close_eq_ok closed] at filter
  exact (List.suffix_cons _ _).trans (filter.trans (List.suffix_cons _ _))

theorem readBracketContent_suffix {opening text rest : List Char} {segment : Segment}
    (done : readBracketContent opening text = .ok (segment, rest)) : rest <:+ text := by
  unfold readBracketContent at done
  split at done
  · cases done
  · cases done; exact List.suffix_cons _ _
  · exact (readPredicate_suffix done).trans (List.suffix_cons _ _)
  · split at done
    · obtain ⟨_, quoted, _⟩ := map_eq_ok done
      exact readQuoted_suffix quoted
    · split at done
      · obtain ⟨_, indexed, _⟩ := map_eq_ok done
        exact readIndex_suffix indexed
      · cases done

theorem readBracket_suffix {opening text rest : List Char} {segment : Segment}
    (done : readBracket opening text = .ok (segment, rest)) : rest <:+ text := by
  unfold readBracket at done
  obtain ⟨_, _, blank, done⟩ := bind_eq_ok done
  obtain ⟨_, _, content, done⟩ := bind_eq_ok done
  obtain ⟨_, _, nextBlank, done⟩ := bind_eq_ok done
  obtain ⟨_, _, closed, done⟩ := bind_eq_ok done
  rw [← (return_eq_ok done).2]
  have after : _ <:+ _ := skipBlank_eq_ok nextBlank ▸ dropBlank_suffix _
  rw [close_eq_ok closed] at after
  exact (List.suffix_cons _ _).trans <| after.trans <|
    (readBracketContent_suffix content).trans (skipBlank_eq_ok blank ▸ dropBlank_suffix text)

theorem readDescentTarget_suffix {text rest : List Char} {segments : List Segment}
    (done : readDescentTarget text = .ok (segments, rest)) : rest <:+ text := by
  unfold readDescentTarget at done
  split at done
  · cases done; exact List.suffix_cons _ _
  · cases done; exact List.suffix_rfl
  · split at done
    · obtain ⟨_, named, _⟩ := map_eq_ok done
      exact readName_suffix named
    · cases done
  · cases done

/-- Every turn takes at least one character. -/
theorem readSegments_suffix {text rest : List Char} {segments : List Segment}
    (done : readSegments text = .ok (segments, rest)) :
    ∃ c after, text = c :: after ∧ rest <:+ after := by
  unfold readSegments at done
  split at done
  · obtain ⟨_, target, _⟩ := map_eq_ok done
    exact ⟨_, _, rfl, (readDescentTarget_suffix target).trans (List.suffix_cons _ _)⟩
  · cases done; exact ⟨_, _, rfl, List.suffix_cons _ _⟩
  · obtain ⟨_, named, _⟩ := map_eq_ok done
    exact ⟨_, _, rfl, readName_suffix named⟩
  · obtain ⟨_, bracketed, _⟩ := map_eq_ok done
    exact ⟨_, _, rfl, readBracket_suffix bracketed⟩
  · cases done

end PathQuery.Expression
