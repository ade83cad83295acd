import PathQuery.Expression.Compile
import PathQuery.Proofs.Reading

/-! The compiler accepts what the grammar derives and nothing else. A descent before a bracket
takes it two turns, of which the grammar knows one. -/

namespace PathQuery.Proofs.Compiling
open PathQuery.Expression Grammar Reading

/-- What a turn of the compiler takes: a segment as it is written, or a descent with a bracket left for
the next turn. -/
inductive Turn : List Char → List Segment → List Char → Prop where
  | written {text rest : List Char} {segments : List Segment} (written : Written text segments rest) :
      Turn text segments rest
  | descent {inside : List Char} : Turn ('.' :: '.' :: '[' :: inside) [.descent] ('[' :: inside)

theorem readSegments_sound {text rest : List Char} {segments : List Segment}
    (done : readSegments text = .ok (segments, rest)) : Turn text segments rest := by
  unfold readSegments at done
  split at done
  next after =>
    obtain ⟨target, read, rfl⟩ := map_eq_ok done
    unfold readDescentTarget at read
    split at read
    next => cases read; exact .written .descentWildcard
    next => cases read; exact .descent
    next =>
      split at read
      next =>
        obtain ⟨name, named, rfl⟩ := map_eq_ok read
        exact .written (.descentName (readName_iff.mp named))
      next => cases read
    next => cases read
  next => cases done; exact .written .wildcard
  next =>
    obtain ⟨name, named, rfl⟩ := map_eq_ok done
    exact .written (.name (readName_iff.mp named))
  next =>
    obtain ⟨segment, bracketed, rfl⟩ := map_eq_ok done
    exact .written (.bracket (readBracket_sound bracketed))
  next => cases done

theorem Name.first {text rest : List Char} {name : String} (named : Name text name rest) :
    ∃ c after, text = c :: after ∧ isNameChar c = true := by
  obtain ⟨some, same, inside, _⟩ := named
  have found : name.toList ≠ [] := by simpa using some
  obtain ⟨c, after, split⟩ := List.exists_cons_of_ne_nil found
  exact ⟨c, after ++ rest, by rw [same, split]; rfl, inside c (by simp [split])⟩

private theorem readDescentTarget_name {text rest : List Char} {name : String} (named : Name text name rest) :
    readDescentTarget text = .ok ([.field name], rest) := by
  obtain ⟨c, after, rfl, nameChar⟩ := Name.first named
  unfold readDescentTarget
  split
  next same => cases same; exact absurd nameChar (by decide)
  next same => cases same; exact absurd nameChar (by decide)
  next same =>
    cases same
    rw [if_pos nameChar]
    exact map_of_ok (readName_iff.mpr named)
  next same => cases same

theorem readSegments_name {text rest : List Char} {name : String} (named : Name text name rest) :
    readSegments ('.' :: text) = .ok ([.field name], rest) := by
  have read := readName_iff.mpr named
  obtain ⟨c, after, rfl, nameChar⟩ := Name.first named
  unfold readSegments
  split
  next same => cases same; exact absurd nameChar (by decide)
  next same => cases same; exact absurd nameChar (by decide)
  next same => cases same; exact map_of_ok read
  next same => cases same
  next other _ => exact absurd rfl (other _)

theorem readSegments_bracket {text rest : List Char} {segment : Segment} (bracket : Bracket text segment rest) :
    readSegments text = .ok ([segment], rest) := by
  obtain ⟨inside, rfl⟩ := Bracket.first bracket
  exact map_of_ok (readBracket_complete _ bracket)

theorem readRest_finished {text : List Char} (blanks : Blanks text []) : Path.readRest text = .ok [] := by
  rw [Path.readRest]
  simp only [dropBlank_eq blanks (fun _ none => by cases none), if_true]

theorem readRest_turn {text here rest : List Char} {first more : List Segment} (blanks : Blanks text here)
    (starts : Starts here) (turn : readSegments here = .ok (first, rest)) (read : Path.readRest rest = .ok more) :
    Path.readRest text = .ok (first ++ more) := by
  obtain rfl := dropBlank_eq blanks starts
  have some : dropBlank text ≠ [] := by
    intro none
    rw [none] at turn
    cases turn
  rw [Path.readRest]
  simp only [some, if_false]
  split
  next found =>
    cases turn.symm.trans found
    rw [read]
    rfl
  next found => cases turn.symm.trans found

/-- A descent before a bracket is the one segment that is read in two turns. -/
theorem readRest_written {text here rest : List Char} {first more : List Segment} (blanks : Blanks text here)
    (written : Written here first rest) (read : Path.readRest rest = .ok more) :
    Path.readRest text = .ok (first ++ more) := by
  cases written with
  | descentName named =>
    exact readRest_turn blanks (starts_cons (by decide)) (map_of_ok (readDescentTarget_name named)) read
  | descentWildcard => exact readRest_turn blanks (starts_cons (by decide)) rfl read
  | descentBracket bracket =>
    obtain ⟨inside, rfl⟩ := Bracket.first bracket
    have bracketStarts : Starts ('[' :: inside) := starts_cons (by decide)
    have next : Path.readRest ('[' :: inside) = _ :=
      readRest_turn ⟨[], rfl, by simp⟩ bracketStarts (readSegments_bracket bracket) read
    have descent : readSegments ('.' :: '.' :: '[' :: inside) = .ok ([.descent], '[' :: inside) := rfl
    have whole := readRest_turn blanks (starts_cons (by decide)) descent next
    exact whole
  | name named => exact readRest_turn blanks (starts_cons (by decide)) (readSegments_name named) read
  | wildcard => exact readRest_turn blanks (starts_cons (by decide)) rfl read
  | bracket bracket =>
    obtain ⟨inside, rfl⟩ := Bracket.first bracket
    exact readRest_turn blanks (starts_cons (by decide)) (readSegments_bracket bracket) read

theorem readRest_complete {text : List Char} {segments : List Segment} (continued : Continued text segments) :
    Path.readRest text = .ok segments := by
  induction continued with
  | finished blanks => exact readRest_finished blanks
  | further blanks written continued ih => exact readRest_written blanks written ih

/-- What follows a descent that was left without a target is written as a bracket. -/
theorem Continued.bracket {inside : List Char} {segments : List Segment}
    (continued : Continued ('[' :: inside) segments) :
    ∃ segment rest more, Bracket ('[' :: inside) segment rest ∧ Continued rest more ∧
      segments = segment :: more := by
  cases continued with
  | finished blanks =>
    have none := dropBlank_eq blanks (fun _ none => by cases none)
    cases none
  | @further _ here rest _ more blanks written continued =>
    obtain ⟨run, same, inside⟩ := blanks
    cases run with
    | cons c run =>
      cases same
      exact absurd (inside '[' (by simp)) (by decide)
    | nil =>
      rw [List.nil_append] at same
      subst same
      cases written with
      | bracket bracket => exact ⟨_, _, _, bracket, continued, rfl⟩

theorem readRest_inversion {text : List Char} {segments : List Segment}
    (done : Path.readRest text = .ok segments) :
    (dropBlank text = [] ∧ segments = []) ∨
      ∃ first rest more, readSegments (dropBlank text) = .ok (first, rest) ∧ Path.readRest rest = .ok more ∧
        segments = first ++ more := by
  rw [Path.readRest] at done
  split at done
  next none =>
    cases done
    exact .inl ⟨none, rfl⟩
  next =>
    split at done
    next first rest found =>
      cases read : Path.readRest rest with
      | error => rw [read] at done; cases done
      | ok more =>
        rw [read] at done
        cases done
        exact .inr ⟨first, rest, more, found, read, rfl⟩
    next => cases done

theorem readRest_sound {text : List Char} {segments : List Segment} (done : Path.readRest text = .ok segments) :
    Continued text segments := by
  have blanks := blanks_dropBlank text
  obtain ⟨none, rfl⟩ | ⟨first, rest, more, found, read, rfl⟩ := readRest_inversion done
  · exact .finished (none ▸ blanks)
  · have continued := readRest_sound read
    have turn := readSegments_sound found
    generalize dropBlank text = here at blanks turn
    cases turn with
    | written written => exact .further blanks written continued
    | descent =>
      obtain ⟨segment, after, more, bracket, remaining, rfl⟩ := Continued.bracket continued
      have whole := Continued.further blanks (.descentBracket bracket) remaining
      exact whole
termination_by text.length
decreasing_by
  obtain ⟨c, after, same, shorter⟩ := readSegments_suffix found
  have lengthHere := (dropBlank_suffix text).length_le
  have lengthRest := shorter.length_le
  rw [same, List.length_cons] at lengthHere
  omega

theorem read_iff {text : List Char} {segments : List Segment} :
    Path.read text = .ok ⟨segments⟩ ↔ Derives text segments := by
  constructor
  · intro done
    have blanks := blanks_dropBlank text
    unfold Path.read at done
    split at done
    next => cases done
    next rest same =>
      rw [same] at blanks
      cases read : Path.readRest rest with
      | error => rw [read] at done; cases done
      | ok more =>
        rw [read] at done
        cases done
        exact .rooted blanks (readRest_sound read)
    next => cases done
  · intro derived
    cases derived with
    | rooted blanks continued =>
      unfold Path.read
      rw [dropBlank_eq blanks (starts_cons (by decide))]
      simp only [readRest_complete continued]
      rfl

theorem compile_iff {expression : String} {segments : List Segment} :
    Path.compile expression = .ok ⟨segments⟩ ↔ Derives expression.toList segments := by
  rw [← read_iff]
  simp only [Path.compile]
  cases Path.read expression.toList with
  | ok path =>
    constructor
    · intro compiled
      cases compiled
      rfl
    · intro done
      cases done
      rfl
  | error error =>
    constructor
    · intro compiled
      cases compiled
    · intro done
      cases done

theorem compile_of_toOption {expression : String} {path : Path}
    (found : (Path.compile expression).toOption = some path) : Path.compile expression = .ok path := by
  cases compiled : Path.compile expression with
  | error error => rw [compiled] at found; cases found
  | ok other => rw [compiled] at found; cases found; rfl

/-- An expression compiles to exactly the segments that the grammar derives for it, and if the
grammar derives none, it is refused with an error. -/
theorem compile_derives (expression : String) :
    (∀ segments, Path.compile expression = .ok ⟨segments⟩ ↔ Derives expression.toList segments) ∧
      ((∃ error, Path.compile expression = .error error) ↔ ¬ ∃ segments, Derives expression.toList segments) := by
  refine ⟨fun segments => compile_iff, ?_⟩
  constructor
  · rintro ⟨error, refused⟩ ⟨segments, derived⟩
    have compiled := compile_iff.mpr derived
    cases refused.symm.trans compiled
  · intro underivable
    cases compiled : Path.compile expression with
    | error error => exact ⟨error, rfl⟩
    | ok path => exact absurd ⟨path.segments, compile_iff.mp compiled⟩ underivable

end PathQuery.Proofs.Compiling
