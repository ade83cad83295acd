import PathQuery.Expression.Reader
import PathQuery.Proofs.Grammar

/-! Every reader of a part of an expression finds what the grammar puts at the start of a
text, and nothing else. -/

namespace PathQuery.Proofs.Reading
open PathQuery.Expression Grammar

theorem longest_iff {member : Char → Bool} {text run rest : List Char} :
    Longest member text run rest ↔ run = text.takeWhile member ∧ rest = text.dropWhile member := by
  constructor
  · rintro ⟨rfl, inside, stop⟩
    rw [List.takeWhile_append_of_pos inside, List.dropWhile_append_of_pos inside]
    cases rest with
    | nil => simp
    | cons c rest => simp [stop c rfl]
  · rintro ⟨rfl, rfl⟩
    refine ⟨List.takeWhile_append_dropWhile.symm, List.all_eq_true.mp List.all_takeWhile, ?_⟩
    intro c first
    have stop := List.head?_dropWhile_not member text
    rw [Option.mem_def.mp first] at stop
    simpa using stop

theorem blanks_dropBlank (text : List Char) : Blanks text (dropBlank text) :=
  ⟨text.takeWhile Text.isBlank, List.takeWhile_append_dropWhile.symm,
    List.all_eq_true.mp List.all_takeWhile⟩

/-- A text that a run of blanks cannot go on in. -/
def Starts (text : List Char) : Prop := ∀ c ∈ text.head?, Text.isBlank c = false

theorem dropBlank_eq {text rest : List Char} (blanks : Blanks text rest) (starts : Starts rest) :
    dropBlank text = rest := by
  obtain ⟨run, same, inside⟩ := blanks
  exact (longest_iff.mp ⟨same, inside, starts⟩).2.symm

theorem starts_cons {c : Char} {text : List Char} (visible : Text.isBlank c = false) : Starts (c :: text) := by
  intro first same
  cases same
  exact visible

theorem bind_of_ok {α β : Type} {first : Reader α} {next : α → Reader β} {text middle : List Char}
    {value : α} (done : first text = .ok (value, middle)) : (first >>= next) text = next value middle := by
  simp only [bind, StateT.bind, done, Except.bind]

theorem map_of_ok {α β : Type} {convert : α → β} {reader : Reader α} {text rest : List Char} {value : α}
    (done : reader text = .ok (value, rest)) : (convert <$> reader) text = .ok (convert value, rest) := by
  simp only [Functor.map, StateT.map, done, bind, Except.bind, pure, Except.pure]

private theorem skipBlank_of_blanks {text rest : List Char} (blanks : Blanks text rest) (starts : Starts rest) :
    skipBlank text = .ok ((), rest) := by
  rw [← dropBlank_eq blanks starts]
  rfl

private theorem blanks_of_skipBlank {text rest : List Char} (done : skipBlank text = .ok ((), rest)) :
    Blanks text rest := by
  rw [skipBlank_eq_ok done]
  exact blanks_dropBlank text

private theorem expect_cons (c : Char) (expected : Expected) (rest : List Char) :
    expect c expected (c :: rest) = .ok ((), rest) := by
  simp [expect]

private theorem close_cons (c : Char) (construct : Construct) (opening : List Char) (expected : Expected)
    (rest : List Char) : close c construct opening expected (c :: rest) = .ok ((), rest) := by
  simp [close, expect]

theorem readName_iff {text rest : List Char} {name : String} :
    readName text = .ok (name, rest) ↔ Name text name rest := by
  rw [Name, longest_iff]
  constructor
  · intro done
    simp only [readName] at done
    split at done
    next => cases done
    next some =>
      cases done
      refine ⟨?_, String.toList_ofList, rfl⟩
      intro empty
      exact some (by simpa using congrArg String.toList empty)
  · rintro ⟨some, same, rfl⟩
    have found : text.takeWhile isNameChar ≠ [] := by
      rw [← same]
      simpa using some
    simp only [readName, found, if_false]
    rw [← same, String.ofList_toList]

theorem readIndex_iff {text rest : List Char} {position : Nat} :
    readIndex text = .ok (position, rest) ↔ Index text position rest := by
  have limit : indexLimit = Nat.pow 2 64 := rfl
  constructor
  · intro done
    simp only [readIndex] at done
    split at done
    next => cases done
    next some =>
      split at done
      next small =>
        cases done
        exact ⟨text.takeWhile Char.isDigit, some, longest_iff.mpr ⟨rfl, rfl⟩, rfl, limit ▸ small⟩
      next => cases done
  · rintro ⟨digits, some, run, rfl, small⟩
    obtain ⟨rfl, rfl⟩ := longest_iff.mp run
    rw [← limit] at small
    simp only [readIndex, some, small, if_false, if_true]

theorem escape_iff {c : Char} {meaning : List Char} :
    Escape c meaning ↔ meaning = Text.Quoted.unescape c := by
  constructor
  · intro escape
    cases escape with
    | named listed =>
      simp only [namedEscapes, List.mem_cons, Prod.mk.injEq, List.not_mem_nil, or_false] at listed
      rcases listed with ⟨rfl, rfl⟩ | ⟨rfl, rfl⟩ | ⟨rfl, rfl⟩ | ⟨rfl, rfl⟩ | ⟨rfl, rfl⟩ | ⟨rfl, rfl⟩ <;> rfl
    | plain unlisted =>
      unfold Text.Quoted.unescape
      split
      case h_7 => rfl
      all_goals simp [namedEscapes] at unlisted
  · rintro rfl
    unfold Text.Quoted.unescape
    split
    case h_7 n t r backslash double single =>
      apply Escape.plain
      intro meant listed
      simp only [namedEscapes, List.mem_cons, Prod.mk.injEq, List.not_mem_nil, or_false] at listed
      grind
    all_goals exact .named (by simp [namedEscapes])

theorem items_of_read {quote : Char} {text meant rest : List Char}
    (done : Text.Quoted.read? quote text = some (meant, rest)) : Items quote text meant rest := by
  fun_induction Text.Quoted.read? quote text generalizing meant with
  | case1 => cases done
  | case2 => cases done; exact .closing
  | case3 => cases done
  | case4 _ escaped text step =>
    obtain ⟨⟨_, _⟩, found, same⟩ := Option.map_eq_some_iff.mp done
    cases same
    exact .escaped (escape_iff.mpr rfl) (step found)
  | case5 c text inside unescaped step =>
    obtain ⟨⟨_, _⟩, found, same⟩ := Option.map_eq_some_iff.mp done
    cases same
    exact .plain inside unescaped (step found)

theorem read_of_items {quote : Char} {text meant rest : List Char} (different : quote ≠ '\\')
    (items : Items quote text meant rest) : Text.Quoted.read? quote text = some (meant, rest) := by
  induction items with
  | closing =>
    unfold Text.Quoted.read?
    rw [if_pos rfl]
  | escaped escape more ih =>
    unfold Text.Quoted.read?
    rw [escape_iff.mp escape, if_neg different.symm, if_pos rfl]
    simp [ih]
  | plain inside unescaped more ih =>
    unfold Text.Quoted.read?
    rw [if_neg inside, if_neg unescaped]
    simp [ih]

theorem readQuoted_iff {text rest : List Char} {content : String} :
    readQuoted text = .ok (content, rest) ↔ Quoted text content rest := by
  constructor
  · intro done
    unfold readQuoted at done
    split at done
    next quote text =>
      split at done
      next quoting =>
        split at done
        next found =>
          cases done
          have items := items_of_read found
          simp only [isQuote, Bool.or_eq_true, beq_iff_eq] at quoting
          rcases quoting with rfl | rfl
          · exact .single items
          · exact .double items
        next => cases done
      next => cases done
    next => cases done
  · rintro (items | items)
    · simp [readQuoted, isQuote, read_of_items (by decide) items]
    · simp [readQuoted, isQuote, read_of_items (by decide) items]

theorem readEquality_iff {text rest : List Char} :
    readEquality text = .ok ((), rest) ↔ text = '=' :: '=' :: rest := by
  constructor
  · intro done
    unfold readEquality at done
    split at done
    next => cases done; rfl
    next => split at done <;> cases done
  · rintro rfl
    rfl

/-- What a name is followed by does not go on the path of a field. -/
theorem endField_of_blanks {field : String} {text rest : List Char}
    (blanks : Blanks text ('=' :: '=' :: rest)) : endField field text = .ok ((), text) := by
  obtain ⟨run, rfl, inside⟩ := blanks
  cases run with
  | nil => rfl
  | cons c run =>
    have blank : Text.isBlank c = true := inside c (by simp)
    have noDot : c ≠ '.' := by rintro rfl; exact absurd blank (by decide)
    have noBracket : c ≠ '[' := by rintro rfl; exact absurd blank (by decide)
    unfold endField
    split
    next same => exact absurd (List.cons.inj same).1 noDot
    next same => exact absurd (List.cons.inj same).1 noBracket
    next => rfl

theorem Quoted.starts {text rest : List Char} {content : String} (quoted : Quoted text content rest) :
    Starts text := by
  cases quoted <;> exact starts_cons (by decide)

private theorem readFilter_sound {text rest : List Char} {filter : Filter}
    (done : readFilter text = .ok (filter, rest)) : Condition text filter rest := by
  unfold readFilter at done
  obtain ⟨_, _, opening, done⟩ := bind_eq_ok done
  obtain ⟨_, _, current, done⟩ := bind_eq_ok done
  obtain ⟨_, _, member, done⟩ := bind_eq_ok done
  obtain ⟨field, afterName, named, done⟩ := bind_eq_ok done
  obtain ⟨_, _, ended, done⟩ := bind_eq_ok done
  obtain ⟨_, _, nextBlank, done⟩ := bind_eq_ok done
  obtain ⟨_, _, equality, done⟩ := bind_eq_ok done
  obtain ⟨_, _, innerBlank, done⟩ := bind_eq_ok done
  obtain ⟨literal, _, quoted, done⟩ := bind_eq_ok done
  obtain ⟨_, _, lastBlank, done⟩ := bind_eq_ok done
  obtain ⟨rfl, rfl⟩ := return_eq_ok done
  have beforeField := blanks_of_skipBlank opening
  rw [expect_eq_ok current, expect_eq_ok member] at beforeField
  have afterField := blanks_of_skipBlank nextBlank
  rw [← endField_eq_ok ended, readEquality_iff.mp equality] at afterField
  exact .equal beforeField (readName_iff.mp named) afterField (blanks_of_skipBlank innerBlank)
    (readQuoted_iff.mp quoted) (blanks_of_skipBlank lastBlank)

private theorem readFilter_complete {text rest : List Char} {filter : Filter}
    (condition : Condition text filter rest) (starts : Starts rest) :
    readFilter text = .ok (filter, rest) := by
  cases condition with
  | equal opening named equality spacing quoted closing =>
    unfold readFilter
    rw [bind_of_ok (skipBlank_of_blanks opening (starts_cons (by decide))), bind_of_ok (expect_cons ..),
      bind_of_ok (expect_cons ..), bind_of_ok (readName_iff.mpr named), bind_of_ok (endField_of_blanks equality),
      bind_of_ok (skipBlank_of_blanks equality (starts_cons (by decide))),
      bind_of_ok (readEquality_iff.mpr rfl), bind_of_ok (skipBlank_of_blanks spacing (Quoted.starts quoted)),
      bind_of_ok (readQuoted_iff.mpr quoted), bind_of_ok (skipBlank_of_blanks closing starts)]
    rfl

private theorem readPredicate_sound {opening text rest : List Char} {segment : Segment}
    (done : readPredicate opening text = .ok (segment, rest)) :
    BracketContent ('?' :: text) segment rest := by
  unfold readPredicate at done
  obtain ⟨_, _, opened, done⟩ := bind_eq_ok done
  obtain ⟨filter, _, filtered, done⟩ := bind_eq_ok done
  obtain ⟨_, _, closed, done⟩ := bind_eq_ok done
  obtain ⟨rfl, rfl⟩ := return_eq_ok done
  have condition := readFilter_sound filtered
  rw [close_eq_ok closed] at condition
  rw [expect_eq_ok opened]
  exact .predicate condition

private theorem readPredicate_complete {text rest : List Char} {filter : Filter} (opening : List Char)
    (condition : Condition text filter (')' :: rest)) :
    readPredicate opening ('(' :: text) = .ok (.predicate filter, rest) := by
  unfold readPredicate
  rw [bind_of_ok (expect_cons ..), bind_of_ok (readFilter_complete condition (starts_cons (by decide))),
    bind_of_ok (close_cons ..)]
  rfl

private theorem readBracketContent_sound {opening text rest : List Char} {segment : Segment}
    (done : readBracketContent opening text = .ok (segment, rest)) : BracketContent text segment rest := by
  unfold readBracketContent at done
  split at done
  next => cases done
  next => cases done; exact .wildcard
  next => exact readPredicate_sound done
  next =>
    split at done
    next =>
      obtain ⟨name, quoted, rfl⟩ := map_eq_ok done
      exact .field (readQuoted_iff.mp quoted)
    next =>
      split at done
      next =>
        obtain ⟨position, counted, rfl⟩ := map_eq_ok done
        exact .index (readIndex_iff.mp counted)
      next => cases done

/-- An index begins with a digit, which no other content of a bracket begins with. -/
theorem Index.first {text rest : List Char} {position : Nat} (counted : Index text position rest) :
    ∃ c after, text = c :: after ∧ c.isDigit = true := by
  obtain ⟨digits, some, ⟨rfl, inside, _⟩, _⟩ := counted
  obtain ⟨c, digits, rfl⟩ := List.exists_cons_of_ne_nil some
  exact ⟨c, digits ++ rest, rfl, inside c (by simp)⟩

theorem isBlank_digit {c : Char} (digit : c.isDigit = true) : Text.isBlank c = false := by
  have range := Char.isDigit_iff_toNat.mp digit
  have zero : '0'.toNat = 48 := rfl
  have nine : '9'.toNat = 57 := rfl
  simp only [Text.isBlank, Bool.or_eq_false_iff, Bool.and_eq_false_iff, decide_eq_false_iff_not, beq_eq_false_iff_ne]
  omega

theorem isQuote_digit {c : Char} (digit : c.isDigit = true) : isQuote c = false := by
  simp only [isQuote, Bool.or_eq_false_iff, beq_eq_false_iff_ne]
  constructor <;> (rintro rfl; exact absurd digit (by decide))

theorem BracketContent.starts {text rest : List Char} {segment : Segment}
    (content : BracketContent text segment rest) : Starts text := by
  cases content with
  | wildcard => exact starts_cons (by decide)
  | index counted =>
    obtain ⟨c, after, rfl, digit⟩ := Index.first counted
    exact starts_cons (isBlank_digit digit)
  | field quoted => exact Quoted.starts quoted
  | predicate => exact starts_cons (by decide)

private theorem readBracketContent_complete {text rest : List Char} {segment : Segment} (opening : List Char)
    (content : BracketContent text segment rest) : readBracketContent opening text = .ok (segment, rest) := by
  cases content with
  | wildcard => rfl
  | index counted =>
    obtain ⟨c, after, rfl, digit⟩ := Index.first counted
    unfold readBracketContent
    split
    next same => cases same
    next same => cases same; exact absurd digit (by decide)
    next same => cases same; exact absurd digit (by decide)
    next same =>
      cases same
      simp only [isQuote_digit digit, digit, if_true, Bool.false_eq_true, if_false]
      exact map_of_ok (readIndex_iff.mpr counted)
  | field quoted =>
    have read := readQuoted_iff.mpr quoted
    cases quoted <;> exact map_of_ok read
  | predicate condition => exact readPredicate_complete opening condition

theorem readBracket_sound {opening text rest : List Char} {segment : Segment}
    (done : readBracket opening text = .ok (segment, rest)) : Bracket ('[' :: text) segment rest := by
  unfold readBracket at done
  obtain ⟨_, _, blank, done⟩ := bind_eq_ok done
  obtain ⟨segment, _, content, done⟩ := bind_eq_ok done
  obtain ⟨_, _, nextBlank, done⟩ := bind_eq_ok done
  obtain ⟨_, _, closed, done⟩ := bind_eq_ok done
  obtain ⟨rfl, rfl⟩ := return_eq_ok done
  have closing := blanks_of_skipBlank nextBlank
  rw [close_eq_ok closed] at closing
  exact .enclosed (blanks_of_skipBlank blank) (readBracketContent_sound content) closing

theorem readBracket_complete {text rest : List Char} {segment : Segment} (opening : List Char)
    (bracket : Bracket ('[' :: text) segment rest) : readBracket opening text = .ok (segment, rest) := by
  cases bracket with
  | enclosed blanks content closing =>
    unfold readBracket
    rw [bind_of_ok (skipBlank_of_blanks blanks (BracketContent.starts content)),
      bind_of_ok (readBracketContent_complete opening content),
      bind_of_ok (skipBlank_of_blanks closing (starts_cons (by decide))), bind_of_ok (close_cons ..)]
    rfl

theorem Bracket.first {text rest : List Char} {segment : Segment} (bracket : Bracket text segment rest) :
    ∃ inside, text = '[' :: inside := by
  cases bracket
  exact ⟨_, rfl⟩

end PathQuery.Proofs.Reading
