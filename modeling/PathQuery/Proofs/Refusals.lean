import PathQuery.Proofs.StagedReading

/-! Where reading comes to, and where it is refused. An expression may be cut in front of what is ahead at a
stage and continued otherwise: reading comes to the same stage, unless the new text runs on in what was
read last. -/

namespace PathQuery.Proofs.Refusals
open PathQuery.Expression Grammar Reading Compiling Stages StagedReading

/-- A stage that reading comes to, with the bracket that was opened last and the text that is left. -/
inductive Comes (text : List Char) : Stage → (opening here : List Char) → Prop where
  | start : Comes text .root text text
  | onward {stage next : Stage} {opening here rest : List Char} (comes : Comes text stage opening here)
      (token : Token stage (stage.ahead here) next rest) : Comes text next (next.opened opening rest) rest

variable {text here rest opening : List Char} {stage next : Stage}

theorem Comes.ends {result : Except (SyntaxError (List Char)) Unit} (comes : Comes text stage opening here)
    (ends : Ends stage opening here result) : Ends .root text text result := by
  induction comes with
  | start => exact ends
  | onward comes token ih => exact ih (.onward token ends)

theorem Comes.finishes {result : Except (SyntaxError (List Char)) Unit} (comes : Comes text stage opening here)
    (ends : Ends stage opening here result) (done : result = .ok ()) :
    ∃ opening here, Comes text .segment opening here ∧ dropBlank here = [] := by
  induction ends with
  | finished blank => exact ⟨_, _, comes, blank⟩
  | refused => cases done
  | onward token ends ih => exact ih (comes.onward token) done

theorem Comes.refused {error : SyntaxError (List Char)} {result : Except (SyntaxError (List Char)) Unit}
    (comes : Comes text stage opening here) (ends : Ends stage opening here result) (failed : result = .error error) :
    ∃ stage opening here, Comes text stage opening here ∧ Refused opening stage (stage.ahead here) error := by
  induction ends with
  | finished => cases failed
  | refused refused =>
    cases failed
    exact ⟨_, _, _, comes, refused⟩
  | onward token ends ih => exact ih (comes.onward token) failed

theorem read_eq_ok_iff : (∃ path, Path.read text = .ok path) ↔
    ∃ opening here, Comes text .segment opening here ∧ dropBlank here = [] := by
  constructor
  · rintro ⟨path, read⟩
    have ends := read_ends text
    rw [read] at ends
    exact Comes.start.finishes ends rfl
  · rintro ⟨opening, here, comes, blank⟩
    have outcome := read_iff_ends.mpr (comes.ends (.finished blank))
    cases read : Path.read text with
    | ok path => exact ⟨path, rfl⟩
    | error => rw [read] at outcome; cases outcome

/-- An expression is refused with an error just if reading comes to a stage that refuses what is ahead
with it. -/
theorem read_eq_error_iff {error : SyntaxError (List Char)} : Path.read text = .error error ↔
    ∃ stage opening here, Comes text stage opening here ∧ Refused opening stage (stage.ahead here) error := by
  constructor
  · intro read
    have ends := read_ends text
    rw [read] at ends
    exact Comes.start.refused ends rfl
  · rintro ⟨stage, opening, here, comes, refused⟩
    have outcome := read_iff_ends.mpr (comes.ends (.refused refused))
    cases read : Path.read text with
    | ok => rw [read] at outcome; cases outcome
    | error => rw [read] at outcome; cases outcome; rfl

theorem Token.starts {stage next : Stage} {here rest : List Char} (spaced : stage.spaced = true)
    (token : Token stage here next rest) : Starts here := by
  cases token with
  | sign leads =>
    unfold Stage.sign at leads
    split at leads <;> cases leads <;> exact starts_cons (by decide)
  | dot | dots | equality => exact starts_cons (by decide)
  | member | target | field => cases spaced
  | index counted =>
    obtain ⟨c, after, rfl, digit⟩ := Index.first counted
    exact starts_cons (isBlank_digit digit)
  | name quoted | literal quoted => exact Quoted.starts quoted

theorem Token.bracket (token : Token stage here .bracketContent rest) : here = '[' :: rest := by
  generalize same : Stage.bracketContent = next at token
  cases token with
  | sign leads =>
    subst same
    unfold Stage.sign at leads
    split at leads <;> first | rfl | cases leads
  | dot | dots | member | target | index | name | field | equality | literal => cases same

theorem Comes.after {ahead rest : List Char} (comes : Comes text stage opening here) (spaced : stage.spaced = true)
    (blanks : Blanks here ahead) (token : Token stage ahead next rest) :
    Comes text next (next.opened opening rest) rest := by
  have same : stage.ahead here = ahead := by
    rw [Stage.ahead, if_pos spaced]
    exact dropBlank_eq blanks (Token.starts spaced token)
  rw [← same] at token
  exact comes.onward token

theorem blanks_ahead (stage : Stage) (here : List Char) : Blanks here (stage.ahead here) := by
  cases spaced : stage.spaced with
  | false =>
    rw [Stage.ahead, if_neg (by simp [spaced])]
    exact ⟨[], rfl, by simp⟩
  | true =>
    rw [Stage.ahead, if_pos spaced]
    exact blanks_dropBlank here

/-- What may stand in place of a text after a token without running on in it: it begins as the text does,
or as something that is taken at the stage after it. -/
def Fits (stage : Stage) (rest rest' : List Char) : Prop :=
  rest'.head? = rest.head? ∨ ∀ c ∈ rest'.head?, stage.takes c = true

private theorem Fits.avoids {rest' : List Char} {member : Char → Bool} (fits : Fits stage rest rest')
    (stop : ∀ c ∈ rest.head?, member c = false) (foreign : ∀ c, stage.takes c = true → member c = false) :
    ∀ c ∈ rest'.head?, member c = false := by
  intro c first
  obtain same | taken := fits
  · exact stop c (same ▸ first)
  · exact foreign c (taken c first)

private theorem segment_takes {c : Char} (taken : Stage.takes .segment c = true) : isNameChar c = false := by
  simp only [Stage.takes, Bool.or_eq_true, beq_iff_eq] at taken
  rcases taken with rfl | rfl <;> rfl

private theorem bracketClosing_takes {c : Char} (taken : Stage.takes .bracketClosing c = true) : c.isDigit = false := by
  by_cases same : c = ']'
  · subst same
    rfl
  · simp [Stage.takes, Stage.sign, same] at taken

private theorem equality_takes {c : Char} (taken : Stage.takes .equality c = true) :
    isNameChar c = false ∧ c ≠ '.' ∧ c ≠ '[' := by
  simp only [Stage.takes, Bool.or_eq_true, beq_iff_eq] at taken
  rcases taken with ((rfl | rfl) | rfl) | rfl <;> exact ⟨rfl, by decide, by decide⟩

private theorem Items.recut {quote : Char} {text meant rest : List Char} (items : Items quote text meant rest) :
    ∃ taken, text = taken ++ rest ∧ ∀ rest', Items quote (taken ++ rest') meant rest' := by
  induction items with
  | closing => exact ⟨[quote], rfl, fun _ => .closing⟩
  | @escaped c _ _ _ _ escape _ ih =>
    obtain ⟨taken, rfl, again⟩ := ih
    exact ⟨'\\' :: c :: taken, rfl, fun rest' => .escaped escape (again rest')⟩
  | @plain c _ _ _ inside unescaped _ ih =>
    obtain ⟨taken, rfl, again⟩ := ih
    exact ⟨c :: taken, rfl, fun rest' => .plain inside unescaped (again rest')⟩

private theorem Quoted.recut {text rest : List Char} {content : String} (quoted : Quoted text content rest) :
    ∃ c taken, text = c :: taken ++ rest ∧ ∀ rest', Quoted (c :: taken ++ rest') content rest' := by
  cases quoted with
  | single items =>
    obtain ⟨taken, rfl, again⟩ := Items.recut items
    exact ⟨'\'', taken, rfl, fun rest' => .single (again rest')⟩
  | double items =>
    obtain ⟨taken, rfl, again⟩ := Items.recut items
    exact ⟨'"', taken, rfl, fun rest' => .double (again rest')⟩

private theorem Name.recut {text rest : List Char} {name : String} (named : Name text name rest) :
    ∃ c taken, text = c :: taken ++ rest ∧
      ∀ rest', (∀ c ∈ rest'.head?, isNameChar c = false) → Name (c :: taken ++ rest') name rest' := by
  obtain ⟨some, rfl, inside, _⟩ := named
  have found : name.toList ≠ [] := by simpa using some
  obtain ⟨c, taken, split⟩ := List.exists_cons_of_ne_nil found
  exact ⟨c, taken, by rw [split], fun rest' stop => ⟨some, by rw [split], inside, stop⟩⟩

/-- A token is read again in front of a text that does not run on in it. -/
theorem Token.recut (token : Token stage here next rest) : ∃ c taken, here = c :: taken ++ rest ∧
    ∀ rest', Fits next rest rest' → Token stage (c :: taken ++ rest') next rest' := by
  cases token with
  | sign leads => exact ⟨_, [], rfl, fun _ _ => .sign leads⟩
  | dot single =>
    refine ⟨'.', [], rfl, fun rest' fits => ?_⟩
    have single' : rest'.head? ≠ some '.' := by
      obtain same | taken := fits
      · rwa [same]
      · intro first
        cases taken '.' first
    exact .dot single'
  | dots => exact ⟨'.', ['.'], rfl, fun _ _ => .dots⟩
  | member named =>
    obtain ⟨c, taken, rfl, again⟩ := Name.recut named
    exact ⟨c, taken, rfl, fun rest' fits => .member (again rest' (fits.avoids named.2.2.2 fun _ => segment_takes))⟩
  | target named =>
    obtain ⟨c, taken, rfl, again⟩ := Name.recut named
    exact ⟨c, taken, rfl, fun rest' fits => .target (again rest' (fits.avoids named.2.2.2 fun _ => segment_takes))⟩
  | index counted =>
    obtain ⟨digits, some, ⟨rfl, inside, stop⟩, value, small⟩ := counted
    obtain ⟨c, taken, rfl⟩ := List.exists_cons_of_ne_nil some
    refine ⟨c, taken, rfl, fun rest' fits => .index ⟨c :: taken, some, ⟨rfl, inside, ?_⟩, value, small⟩⟩
    exact fits.avoids stop fun _ => bracketClosing_takes
  | name quoted =>
    obtain ⟨c, taken, rfl, again⟩ := Quoted.recut quoted
    exact ⟨c, taken, rfl, fun rest' _ => .name (again rest')⟩
  | field named direct =>
    obtain ⟨c, taken, rfl, again⟩ := Name.recut named
    refine ⟨c, taken, rfl, fun rest' fits => .field (again rest' ?_) ?_⟩
    · exact fits.avoids named.2.2.2 fun _ taken => (equality_takes taken).1
    · obtain same | taken := fits
      · rwa [same]
      · constructor <;> intro first
        · exact (equality_takes (taken _ first)).2.1 rfl
        · exact (equality_takes (taken _ first)).2.2 rfl
  | equality => exact ⟨'=', ['='], rfl, fun _ _ => .equality⟩
  | literal quoted =>
    obtain ⟨c, taken, rfl, again⟩ := Quoted.recut quoted
    exact ⟨c, taken, rfl, fun rest' _ => .literal (again rest')⟩

private theorem ahead_recut (stage : Stage) (here : List Char) : ∃ run, here = run ++ stage.ahead here ∧
    ∀ tail, stage.ahead tail = tail → stage.ahead (run ++ tail) = tail := by
  cases spaced : stage.spaced with
  | false =>
    refine ⟨[], ?_, fun tail same => same⟩
    simp [Stage.ahead, spaced]
  | true =>
    refine ⟨here.takeWhile Text.isBlank, ?_, fun tail same => ?_⟩
    · simp [Stage.ahead, spaced, dropBlank]
    · rw [Stage.ahead, if_pos spaced] at same ⊢
      rw [dropBlank, List.dropWhile_append_of_pos (List.all_eq_true.mp List.all_takeWhile)]
      exact same

theorem ahead_visible {c : Char} (spaced : stage.spaced = true) (same : stage.ahead here = c :: rest) :
    Text.isBlank c = false := by
  have visible := List.head?_dropWhile_not Text.isBlank here
  rw [Stage.ahead, if_pos spaced, dropBlank] at same
  rw [same] at visible
  simpa using visible

theorem ahead_cons {c : Char} (same : stage.ahead here = c :: rest) (tail : List Char) :
    stage.ahead (c :: tail) = c :: tail := by
  cases spaced : stage.spaced with
  | false => simp [Stage.ahead, spaced]
  | true =>
    rw [Stage.ahead, if_pos spaced]
    exact dropBlank_eq ⟨[], rfl, by simp⟩ (starts_cons (ahead_visible spaced same))

/-- After `before`, reading comes to the stage whatever fits there in place of what was ahead. -/
def Leads (before : List Char) (stage : Stage) (ahead : List Char) : Prop :=
  ∀ tail, stage.ahead tail = tail → Fits stage ahead tail →
    ∃ opening here, Comes (before ++ tail) stage opening here ∧ stage.ahead here = tail

theorem Comes.leads (comes : Comes text stage opening here) :
    ∃ before, text = before ++ stage.ahead here ∧ Leads before stage (stage.ahead here) := by
  induction comes with
  | start =>
    obtain ⟨run, split, again⟩ := ahead_recut .root text
    exact ⟨run, split, fun tail same _ => ⟨_, _, .start, again tail same⟩⟩
  | @onward stage next opening here rest comes token ih =>
    obtain ⟨before, rfl, cut⟩ := ih
    obtain ⟨c, taken, split, retake⟩ := Token.recut token
    obtain ⟨run, splitRest, again⟩ := ahead_recut next rest
    refine ⟨before ++ (c :: taken ++ run), ?_, ?_⟩
    · rw [split]
      nth_rewrite 1 [splitRest]
      simp
    · intro tail same fits
      have fitsRest : Fits next rest (run ++ tail) := by
        cases run with
        | nil => exact splitRest ▸ fits
        | cons blank run => exact .inl (by rw [splitRest]; rfl)
      have fitsHere : Fits stage (stage.ahead here) (c :: taken ++ (run ++ tail)) := .inl (by rw [split]; rfl)
      obtain ⟨opening', here', comes', ahead'⟩ := cut (c :: taken ++ (run ++ tail)) (ahead_cons split _) fitsHere
      have token' := retake _ fitsRest
      rw [← ahead'] at token'
      have whole := comes'.onward token'
      have joined : before ++ (c :: taken ++ (run ++ tail)) = before ++ (c :: taken ++ run) ++ tail := by simp
      rw [joined] at whole
      exact ⟨_, _, whole, again tail same⟩

theorem Blanks.suffix {text rest : List Char} (blanks : Blanks text rest) : rest <:+ text := by
  obtain ⟨run, rfl, _⟩ := blanks
  exact List.suffix_append run rest

theorem Comes.suffix (comes : Comes text stage opening here) : here <:+ text ∧ opening <:+ text := by
  induction comes with
  | start => exact ⟨List.suffix_rfl, List.suffix_rfl⟩
  | @onward stage next _ here rest comes token ih =>
    have ahead : stage.ahead here <:+ text := (Blanks.suffix (blanks_ahead stage here)).trans ih.1
    obtain ⟨c, taken, split, _⟩ := Token.recut token
    have after : rest <:+ stage.ahead here := by
      rw [split]
      exact List.suffix_append _ rest
    refine ⟨after.trans ahead, ?_⟩
    unfold Stage.opened
    split
    next bracket =>
      subst bracket
      rw [← Token.bracket token]
      exact ahead
    next => exact ih.2

theorem byteLength_eq (text : List Char) : Path.byteLength text = (String.ofList text).utf8ByteSize := by
  induction text with
  | nil => rfl
  | cons c text ih =>
    rw [Path.byteLength, ih, String.ofList_cons, String.utf8ByteSize_append, String.utf8ByteSize_singleton]

/-- The byte offset of a place in a text, given as the text from there on. -/
def offset (text rest : List Char) : Nat := Path.byteLength text - Path.byteLength rest

theorem offset_append (before here : List Char) :
    offset (before ++ here) here = (String.ofList before).utf8ByteSize := by
  rw [offset, byteLength_eq, byteLength_eq, String.ofList_append, String.utf8ByteSize_append, Nat.add_sub_cancel]

theorem compile_eq_error_iff {expression : String} {error : SyntaxError Nat} :
    Path.compile expression = .error error ↔
      ∃ error', Path.read expression.toList = .error error' ∧ error = error'.map (offset expression.toList) := by
  simp only [Path.compile]
  constructor
  · intro failed
    cases read : Path.read expression.toList with
    | ok => rw [read] at failed; cases failed
    | error error' => rw [read] at failed; cases failed; exact ⟨error', rfl, rfl⟩
  · rintro ⟨error', read, rfl⟩
    rw [read]
    rfl

end PathQuery.Proofs.Refusals
