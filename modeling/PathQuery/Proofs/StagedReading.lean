import Mathlib.Data.List.DropRight
import PathQuery.Proofs.Stages

/-! The compiler walks through the stages: every reader of a part goes from one stage to another, or is
refused at a stage on its way. -/

namespace PathQuery.Proofs.StagedReading
open PathQuery.Expression Grammar Reading Compiling Stages

/-- A reader that takes the token of a stage. -/
structure Takes {α : Type} (opening : List Char) (reader : Reader α) (stage next : Stage) : Prop where
  token : ∀ {here rest : List Char} {value : α}, reader here = .ok (value, rest) → Token stage here next rest
  refused : ∀ {here : List Char} {error : SyntaxError (List Char)}, reader here = .error error →
    Refused opening stage here error

/-- A reader that goes on from a stage to a later one. -/
structure Reads {α : Type} (opening : List Char) (reader : Reader α) (stage last : Stage) (text : List Char) :
    Prop where
  onward : ∀ {rest : List Char} {value : α} {result : Except (SyntaxError (List Char)) Unit},
    reader text = .ok (value, rest) → Ends last opening rest result → Ends stage opening text result
  refused : ∀ {error : SyntaxError (List Char)}, reader text = .error error → Ends stage opening text (.error error)

variable {stage next last : Stage} {opening text here rest : List Char} {error : SyntaxError (List Char)}
  {result : Except (SyntaxError (List Char)) Unit}

private theorem bind_eq_error {α β : Type} {first : Reader α} {next : α → Reader β}
    (failed : (first >>= next) text = .error error) :
    first text = .error error ∨ ∃ value rest, first text = .ok (value, rest) ∧ next value rest = .error error := by
  simp only [bind, StateT.bind] at failed
  cases ran : first text with
  | error => rw [ran] at failed; cases failed; exact .inl rfl
  | ok pair => rw [ran] at failed; exact .inr ⟨pair.1, pair.2, rfl, failed⟩

private theorem map_eq_error {α β : Type} {convert : α → β} {reader : Reader α}
    (failed : (convert <$> reader) text = .error error) : reader text = .error error := by
  simp only [Functor.map, StateT.map] at failed
  cases ran : reader text with
  | error => rw [ran] at failed; cases failed; rfl
  | ok pair => rw [ran] at failed; cases failed

private theorem ahead_dropBlank (text : List Char) : stage.ahead (dropBlank text) = dropBlank text := by
  unfold Stage.ahead
  split
  · exact List.dropWhile_idempotent _ _
  · rfl

theorem ahead_idempotent (text : List Char) : stage.ahead (stage.ahead text) = stage.ahead text := by
  cases spaced : stage.spaced with
  | false => simp [Stage.ahead, spaced]
  | true =>
    have dropped : stage.ahead text = dropBlank text := if_pos spaced
    rw [dropped, ahead_dropBlank]

theorem Ends.of_ahead {opening text text' : List Char} (same : stage.ahead text = stage.ahead text')
    (ends : Ends stage opening text result) : Ends stage opening text' result := by
  cases ends with
  | finished blank => exact .finished (same.symm.trans blank)
  | refused refused => exact .refused (same ▸ refused)
  | onward token ends => exact .onward (same ▸ token) ends

theorem Ends.skip (spaced : stage.spaced = true) (ends : Ends stage opening (dropBlank text) result) :
    Ends stage opening text result := by
  refine Ends.of_ahead ?_ ends
  rw [ahead_dropBlank, Stage.ahead, if_pos spaced]

theorem Ends.token (here : stage.ahead text = text) (token : Token stage text next rest)
    (inside : next ≠ .bracketContent) (ends : Ends next opening rest result) : Ends stage opening text result := by
  rw [← here] at token
  exact .onward token (by rwa [Stage.opened, if_neg inside])

theorem Ends.refusal (here : stage.ahead text = text) (refused : Refused opening stage text error) :
    Ends stage opening text (.error error) := by
  rw [← here] at refused
  exact .refused refused

section Composition
variable {α β : Type}

theorem Reads.pure (value : α) : Reads opening (Pure.pure value : Reader α) stage stage text where
  onward done ends := (return_eq_ok done).2 ▸ ends
  refused failed := nomatch failed

theorem Reads.bind {reader : Reader α} {more : α → Reader β} (first : Reads opening reader stage next text)
    (following : ∀ value rest, Reads opening (more value) next last rest) :
    Reads opening (reader >>= more) stage last text where
  onward done ends := by
    obtain ⟨value, rest, read, done⟩ := bind_eq_ok done
    exact first.onward read ((following value rest).onward done ends)
  refused failed := by
    obtain failed | ⟨value, rest, read, failed⟩ := bind_eq_error failed
    · exact first.refused failed
    · exact first.onward read ((following value rest).refused failed)

theorem Reads.skip {reader : Reader α} (spaced : stage.spaced = true)
    (reads : Reads opening reader stage last (dropBlank text)) :
    Reads opening (skipBlank >>= fun _ => reader) stage last text where
  onward done ends := Ends.skip spaced (reads.onward done ends)
  refused failed := Ends.skip spaced (reads.refused failed)

theorem Reads.token {reader : Reader α} {more : α → Reader β} (takes : Takes opening reader stage next)
    (here : stage.ahead text = text) (inside : next ≠ .bracketContent)
    (following : ∀ value rest, Reads opening (more value) next last rest) :
    Reads opening (reader >>= more) stage last text := by
  have first : Reads opening reader stage next text := by
    constructor
    · intro rest value result read ends
      exact Ends.token here (takes.token read) inside ends
    · intro error failed
      exact Ends.refusal here (takes.refused failed)
  exact first.bind following

end Composition

private theorem expect_error {c : Char} {expected : Expected} (failed : expect c expected here = .error error) :
    (∀ found ∈ here.head?, found ≠ c) ∧ error = .unexpected expected here := by
  unfold expect at failed
  split at failed
  next found rest =>
    split at failed
    next => cases failed
    next different =>
      cases failed
      exact ⟨fun _ same => by cases same; exact different, rfl⟩
  next =>
    cases failed
    exact ⟨fun _ none => (nomatch none), rfl⟩

private theorem expect_takes {c : Char} {expected : Expected} (leads : stage.sign c = some next)
    (only : ∀ found, found ≠ c → stage.takes found = false) (inside : stage ≠ .segment)
    (refusal : ∀ here, stage.refusal opening here = .unexpected expected here) :
    Takes opening (expect c expected) stage next where
  token done := by
    rw [expect_eq_ok done]
    exact .sign leads
  refused {here _} failed := by
    obtain ⟨different, rfl⟩ := expect_error failed
    rw [← refusal here]
    exact .other (fun found first => only found (different found first)) (fun same => absurd same inside)

private theorem close_takes {c : Char} {construct : Construct} {expected : Expected} (leads : stage.sign c = some next)
    (only : ∀ found, found ≠ c → stage.takes found = false) (inside : stage ≠ .segment)
    (refusal : ∀ here, stage.refusal opening here = Stage.refusal.unclosed opening here construct expected) :
    Takes opening (close c construct opening expected) stage next where
  token done := by
    rw [close_eq_ok done]
    exact .sign leads
  refused {here _} failed := by
    have same := refusal here
    unfold close at failed
    unfold Stage.refusal.unclosed at same
    split at failed
    next empty =>
      cases failed
      rw [if_pos empty] at same
      rw [← same]
      exact .other (by simp [empty]) (fun same => absurd same inside)
    next some =>
      obtain ⟨different, rfl⟩ := expect_error failed
      rw [if_neg some] at same
      rw [← same]
      exact .other (fun found first => only found (different found first)) (fun same => absurd same inside)

private theorem readName_error (failed : readName here = .error error) :
    (∀ c ∈ here.head?, isNameChar c = false) ∧ error = .unexpected .fieldName here := by
  simp only [readName] at failed
  split at failed
  next none =>
    cases failed
    refine ⟨?_, rfl⟩
    cases here with
    | nil => simp
    | cons c rest => simpa using none
  next => cases failed

/-- The field that a predicate asks for, with the check that no further step follows it. -/
def readField : Reader String := do
  let field ← readName
  endField field
  return field

private theorem readField_takes (opening : List Char) : Takes opening readField .fieldName .equality where
  token {here rest value} done := by
    unfold readField at done
    obtain ⟨name, after, named, done⟩ := bind_eq_ok done
    obtain ⟨_, _, ended, done⟩ := bind_eq_ok done
    obtain ⟨rfl, rfl⟩ := return_eq_ok done
    obtain rfl := endField_eq_ok ended
    refine .field (readName_iff.mp named) ?_
    unfold endField at ended
    split at ended
    next => cases ended
    next => cases ended
    next noDot noBracket =>
      constructor <;> (intro first; obtain ⟨more, rfl⟩ := List.head?_eq_some_iff.mp first)
      · exact noDot more rfl
      · exact noBracket more rfl
  refused {here error} failed := by
    obtain failed | ⟨name, after, named, failed⟩ := bind_eq_error failed
    · obtain ⟨different, rfl⟩ := readName_error failed
      exact .other different (fun same => nomatch same)
    · obtain ended | ⟨_, _, _, failed⟩ := bind_eq_error failed
      · unfold endField at ended
        split at ended
        next => cases ended; exact .fieldPath (readName_iff.mp named) (.inl rfl)
        next => cases ended; exact .fieldPath (readName_iff.mp named) (.inr rfl)
        next => cases ended
      · cases failed

/-- A bang is refused as it stands, and not as the beginning of an operator, if it stands alone. -/
theorem equality_refused (none : unsupportedOperators.find? (fun operator => operator.toList.isPrefixOf here) = none) :
    Refused opening .equality here (.unexpected .equality here) := by
  cases here with
  | nil => exact .other (by simp) (fun same => nomatch same)
  | cons c rest =>
    simp only [unsupportedOperators, List.find?_eq_none, List.mem_cons, List.not_mem_nil, or_false, forall_eq_or_imp,
      forall_eq, List.isPrefixOf_iff_prefix] at none
    obtain ⟨noBangEqual, _, _, _, noLess, noGreater, noEqual⟩ := none
    by_cases bang : c = '!'
    · subst bang
      refine .bang ?_
      intro first
      obtain ⟨more, rfl⟩ := List.head?_eq_some_iff.mp first
      exact noBangEqual ⟨more, rfl⟩
    · refine .other ?_ (fun same => nomatch same)
      rintro _ ⟨⟩
      have less : c ≠ '<' := by rintro rfl; exact noLess ⟨rest, rfl⟩
      have greater : c ≠ '>' := by rintro rfl; exact noGreater ⟨rest, rfl⟩
      have equal : c ≠ '=' := by rintro rfl; exact noEqual ⟨rest, rfl⟩
      simp [Stage.takes, bang, less, greater, equal]

private theorem readEquality_takes (opening : List Char) : Takes opening readEquality .equality .quotedString where
  token done := by
    rw [readEquality_iff.mp done]
    exact .equality
  refused {here error} failed := by
    unfold readEquality at failed
    split at failed
    next => cases failed
    next different =>
      split at failed
      next operator first =>
        cases failed
        refine .operator ?_ first
        rintro ⟨rest, rfl⟩
        exact different rest rfl
      next none =>
        cases failed
        exact equality_refused none

private theorem readQuoted_error (failed : readQuoted here = .error error) :
    (∃ quote inside, here = quote :: inside ∧ isQuote quote = true ∧ Text.Quoted.read? quote inside = none ∧
        error = .unterminated .stringLiteral here) ∨
      (∀ c ∈ here.head?, isQuote c = false) ∧ error = .unexpected .quotedString here := by
  unfold readQuoted at failed
  split at failed
  next quote inside =>
    split at failed
    next quoting =>
      split at failed
      next => cases failed
      next unclosed => cases failed; exact .inl ⟨quote, inside, rfl, quoting, unclosed, rfl⟩
    next plain =>
      cases failed
      exact .inr ⟨fun c same => by cases same; simpa using plain, rfl⟩
  next =>
    cases failed
    exact .inr ⟨fun _ none => (nomatch none), rfl⟩

private theorem readQuoted_takes (opening : List Char) : Takes opening readQuoted .quotedString .predicateClosing where
  token done := .literal (readQuoted_iff.mp done)
  refused failed := by
    obtain ⟨quote, inside, rfl, quoting, unclosed, rfl⟩ | ⟨plain, rfl⟩ := readQuoted_error failed
    · exact .unclosed (.inr rfl) quoting unclosed
    · exact .other plain (fun same => nomatch same)

private theorem readPredicate_spelled (opening : List Char) : readPredicate opening = do
    expect '(' .predicateOpening
    skipBlank
    expect '@' .currentNode
    expect '.' .memberAccess
    let field ← readField
    skipBlank
    readEquality
    skipBlank
    let literal ← readQuoted
    skipBlank
    close ')' .predicate opening .predicateClosing
    return .predicate ⟨field, literal⟩ := by
  simp only [readPredicate, readFilter, readField, bind_assoc, pure_bind]

private theorem readPredicate_reads (opening text : List Char) :
    Reads opening (readPredicate opening) .predicateOpening .bracketClosing text := by
  have parenthesis : Takes opening (expect '(' .predicateOpening) .predicateOpening .currentNode :=
    expect_takes rfl (by simp +contextual [Stage.takes, Stage.sign]) (by decide) fun _ => rfl
  have current : Takes opening (expect '@' .currentNode) .currentNode .memberAccess :=
    expect_takes rfl (by simp +contextual [Stage.takes, Stage.sign]) (by decide) fun _ => rfl
  have member : Takes opening (expect '.' .memberAccess) .memberAccess .fieldName :=
    expect_takes rfl (by simp +contextual [Stage.takes, Stage.sign]) (by decide) fun _ => rfl
  have closing : Takes opening (close ')' .predicate opening .predicateClosing) .predicateClosing .bracketClosing :=
    close_takes rfl (by simp +contextual [Stage.takes, Stage.sign]) (by decide) fun _ => rfl
  rw [readPredicate_spelled]
  refine Reads.token parenthesis rfl (by decide) fun _ _ => ?_
  refine Reads.skip rfl ?_
  refine Reads.token current (ahead_dropBlank _) (by decide) fun _ _ => ?_
  refine Reads.token member rfl (by decide) fun _ _ => ?_
  refine Reads.token (readField_takes opening) rfl (by decide) fun _ _ => ?_
  refine Reads.skip rfl ?_
  refine Reads.token (readEquality_takes opening) (ahead_dropBlank _) (by decide) fun _ _ => ?_
  refine Reads.skip rfl ?_
  refine Reads.token (readQuoted_takes opening) (ahead_dropBlank _) (by decide) fun _ _ => ?_
  refine Reads.skip rfl ?_
  refine Reads.token closing (ahead_dropBlank _) (by decide) fun _ _ => ?_
  exact Reads.pure _

private theorem readIndex_refused {c : Char} (digit : c.isDigit = true)
    (failed : readIndex (c :: rest) = .error error) :
    Refused opening .bracketContent (c :: rest) error := by
  have some : (c :: rest).takeWhile Char.isDigit ≠ [] := by simp [digit]
  simp only [readIndex, if_neg some] at failed
  split at failed
  next => cases failed
  next large =>
    cases failed
    exact .index some (longest_iff.mpr ⟨rfl, rfl⟩) (Nat.not_lt.mp large)

private theorem readBracketContent_reads (starts : Stage.ahead .bracketContent text = text) :
    Reads opening (readBracketContent opening) .bracketContent .bracketClosing text where
  onward {rest segment result} done ends := by
    unfold readBracketContent at done
    split at done
    next => cases done
    next =>
      cases done
      exact Ends.token starts (.sign rfl) (by decide) ends
    next => exact Ends.token starts (.sign rfl) (by decide) ((readPredicate_reads opening _).onward done ends)
    next =>
      split at done
      next =>
        obtain ⟨name, quoted, _⟩ := map_eq_ok done
        exact Ends.token starts (.name (readQuoted_iff.mp quoted)) (by decide) ends
      next =>
        split at done
        next =>
          obtain ⟨position, counted, _⟩ := map_eq_ok done
          exact Ends.token starts (.index (readIndex_iff.mp counted)) (by decide) ends
        next => cases done
  refused {error} failed := by
    unfold readBracketContent at failed
    split at failed
    next =>
      cases failed
      exact Ends.refusal starts (.other (by simp) (fun same => nomatch same))
    next => cases failed
    next rest =>
      exact Ends.token starts (.sign rfl) (by decide) ((readPredicate_reads opening rest).refused failed)
    next c rest noStar noMark =>
      split at failed
      next quoting =>
        obtain ⟨quote, inside, same, _, unclosed, rfl⟩ | ⟨plain, _⟩ := readQuoted_error (map_eq_error failed)
        · cases same
          exact Ends.refusal starts (.unclosed (.inl rfl) quoting unclosed)
        · cases quoting.symm.trans (plain c rfl)
      next plain =>
        split at failed
        next digit => exact Ends.refusal starts (readIndex_refused digit (map_eq_error failed))
        next noDigit =>
          cases failed
          have noStar : c ≠ '*' := by rintro rfl; exact noStar rfl
          have noMark : c ≠ '?' := by rintro rfl; exact noMark rfl
          refine Ends.refusal starts (.other ?_ (fun same => nomatch same))
          rintro _ ⟨⟩
          simp [Stage.takes, noStar, noMark, plain, noDigit]

private theorem readBracket_reads (opening text : List Char) :
    Reads opening (readBracket opening) .bracketContent .segment text := by
  have closing : Takes opening (close ']' .bracket opening .bracketClosing) .bracketClosing .segment :=
    close_takes rfl (by simp +contextual [Stage.takes, Stage.sign]) (by decide) fun _ => rfl
  refine Reads.skip rfl (Reads.bind (readBracketContent_reads (ahead_dropBlank _)) fun _ _ => ?_)
  refine Reads.skip rfl (Reads.token closing (ahead_dropBlank _) (by decide) fun _ _ => ?_)
  exact Reads.pure _

/-- What is read from a bracket as the next segment may be read from it after two dots. -/
theorem Ends.after_dots {opening inside : List Char} (ends : Ends .segment opening ('[' :: inside) result) :
    Ends .descentTarget opening ('[' :: inside) result := by
  have sign : Token .segment ('[' :: inside) .bracketContent inside := .sign rfl
  cases ends with
  | finished blank => cases blank
  | refused refused => exact absurd sign refused.no_token
  | onward token ends =>
    obtain ⟨rfl, rfl⟩ := sign.unique token
    exact .onward (.sign rfl) ends

private theorem readDescentTarget_onward {segments : List Segment}
    (done : readDescentTarget text = .ok (segments, rest))
    (ends : Ends .segment opening rest result) : Ends .descentTarget opening text result := by
  unfold readDescentTarget at done
  split at done
  next =>
    cases done
    exact .onward (.sign rfl) ends
  next =>
    cases done
    exact Ends.after_dots ends
  next =>
    split at done
    next =>
      obtain ⟨name, named, _⟩ := map_eq_ok done
      exact .onward (.target (readName_iff.mp named)) ends
    next => cases done
  next => cases done

private theorem readDescentTarget_refused (failed : readDescentTarget text = .error error) :
    Refused opening .descentTarget text error := by
  unfold readDescentTarget at failed
  split at failed
  next => cases failed
  next => cases failed
  next c rest noStar noBracket =>
    split at failed
    next nameChar =>
      cases nameChar.symm.trans ((readName_error (map_eq_error failed)).1 c rfl)
    next noName =>
      cases failed
      have noStar : c ≠ '*' := by rintro rfl; exact noStar rfl
      have noBracket : c ≠ '[' := by rintro rfl; exact noBracket rfl
      refine .other ?_ (fun same => nomatch same)
      rintro _ ⟨⟩
      simp [Stage.takes, noStar, noBracket, noName]
  next =>
    cases failed
    exact .other (by simp) (fun same => nomatch same)

theorem single_dot (single : ∀ more, rest ≠ '.' :: more) : rest.head? ≠ some '.' := by
  intro first
  obtain ⟨more, rfl⟩ := List.head?_eq_some_iff.mp first
  exact single more rfl

private theorem readSegments_onward {segments : List Segment} (done : readSegments text = .ok (segments, rest))
    (ends : ∀ opening, Ends .segment opening rest result) : Ends .segment opening text result := by
  unfold readSegments at done
  split at done
  next =>
    obtain ⟨target, read, _⟩ := map_eq_ok done
    exact .onward .dots (readDescentTarget_onward read (ends opening))
  next =>
    cases done
    exact .onward (.dot (by simp)) (.onward (.sign rfl) (ends opening))
  next single _ =>
    obtain ⟨name, named, _⟩ := map_eq_ok done
    exact .onward (.dot (single_dot single)) (.onward (.member (readName_iff.mp named)) (ends opening))
  next inside =>
    obtain ⟨segment, bracketed, _⟩ := map_eq_ok done
    exact .onward (.sign rfl) ((readBracket_reads _ inside).onward bracketed (ends _))
  next => cases done

private theorem readSegments_refused (starts : Stage.ahead .segment text = text) (some : text ≠ [])
    (failed : readSegments text = .error error) : Ends .segment opening text (.error error) := by
  unfold readSegments at failed
  split at failed
  next => exact .onward .dots (.refused (readDescentTarget_refused (map_eq_error failed)))
  next => cases failed
  next rest single noStar =>
    obtain ⟨noName, rfl⟩ := readName_error (map_eq_error failed)
    refine .onward (.dot (single_dot single)) (.refused (.other ?_ (fun same => nomatch same)))
    intro c first
    obtain ⟨more, rfl⟩ := List.head?_eq_some_iff.mp first
    have noStar : c ≠ '*' := by rintro rfl; exact noStar more rfl
    simp [Stage.takes, noName c rfl, noStar]
  next inside => exact .onward (.sign rfl) ((readBracket_reads _ inside).refused (map_eq_error failed))
  next noDots noWildcard noDot noBracket =>
    cases failed
    refine Ends.refusal starts (.other ?_ (fun _ => some))
    intro c first
    obtain ⟨more, rfl⟩ := List.head?_eq_some_iff.mp first
    have noDot : c ≠ '.' := by rintro rfl; exact noDot more rfl
    have noBracket : c ≠ '[' := by rintro rfl; exact noBracket more rfl
    simp [Stage.takes, noDot, noBracket]

private theorem readRest_eq_error (failed : Path.readRest text = .error error) :
    dropBlank text ≠ [] ∧ (readSegments (dropBlank text) = .error error ∨
      ∃ first rest, readSegments (dropBlank text) = .ok (first, rest) ∧ Path.readRest rest = .error error) := by
  rw [Path.readRest] at failed
  split at failed
  next => cases failed
  next some =>
    refine ⟨some, ?_⟩
    split at failed
    next first rest found =>
      cases read : Path.readRest rest with
      | ok => rw [read] at failed; cases failed
      | error =>
        rw [read] at failed
        cases failed
        exact .inr ⟨first, rest, found, read⟩
    next found =>
      cases failed
      exact .inl found

/-- Reading the segments goes through the stages from that of a segment on. -/
theorem readRest_ends (opening text : List Char) :
    Ends .segment opening text ((Path.readRest text).map fun _ => ()) := by
  have shorter {first : List Segment} {rest : List Char} (found : readSegments (dropBlank text) = .ok (first, rest)) :
      rest.length < text.length := by
    obtain ⟨c, after, same, suffix⟩ := readSegments_suffix found
    have lengthHere := (dropBlank_suffix text).length_le
    have lengthRest := suffix.length_le
    rw [same, List.length_cons] at lengthHere
    omega
  cases read : Path.readRest text with
  | ok segments =>
    obtain ⟨none, _⟩ | ⟨first, rest, more, found, readMore, _⟩ := readRest_inversion read
    · exact .finished none
    · have := shorter found
      have ends (opening : List Char) := readRest_ends opening rest
      simp only [readMore] at ends
      exact Ends.skip rfl (readSegments_onward found ends)
  | error error =>
    obtain ⟨some, failed | ⟨first, rest, found, readMore⟩⟩ := readRest_eq_error read
    · exact Ends.skip rfl (readSegments_refused (ahead_dropBlank text) some failed)
    · have := shorter found
      have ends (opening : List Char) := readRest_ends opening rest
      simp only [readMore] at ends
      exact Ends.skip rfl (readSegments_onward found ends)
termination_by text.length

theorem read_ends (text : List Char) : Ends .root text text ((Path.read text).map fun _ => ()) := by
  have missing {here : List Char} (same : dropBlank text = here) (refuses : ∀ c ∈ here.head?, c ≠ '$') :
      Ends .root text text (.error (Stage.refusal text here .root)) := by
    have refused : Refused text .root here (Stage.refusal text here .root) :=
      .other (fun c first => by simp [Stage.takes, Stage.sign, refuses c first]) (fun same => nomatch same)
    subst same
    exact .refused refused
  unfold Path.read
  split
  next empty => exact missing empty (by simp)
  next rest rooted =>
    have token : Token .root (dropBlank text) .segment rest := by
      rw [rooted]
      exact .sign rfl
    have ends := readRest_ends text rest
    cases read : Path.readRest rest with
    | ok => rw [read] at ends; exact .onward token ends
    | error => rw [read] at ends; exact .onward token ends
  next found rest noRoot same => exact missing same (by rintro _ ⟨⟩ rfl; exact noRoot rfl)

/-- Reading an expression ends as the stages say, and in no other way. -/
theorem read_iff_ends : (Path.read text).map (fun _ => ()) = result ↔ Ends .root text text result := by
  constructor
  · rintro rfl
    exact read_ends text
  · exact (read_ends text).unique

end PathQuery.Proofs.StagedReading
