import PathQuery.Proofs.ByteScanner
import PathQuery.Proofs.Refusals

/-! What scanning comes to. Wherever the scanner stands, what it does depends on what is ahead only, and it
stands at the boundary of a character again afterwards. -/

namespace PathQuery.Proofs.Scanning
open PathQuery.Expression PathQuery.Path Reading Refusals ByteScanner

/-- What scanning keeps up: the positions grow and are boundaries of characters, and a turn of a loop that is
followed by another has moved. -/
structure Kept (text : List Char) (scanner : Scanner) : Prop where
  ordered : scanner.passed.Pairwise (· < ·)
  latest : ∀ position ∈ scanner.passed, position ≤ scanner.position
  boundary : ∀ position ∈ scanner.passed, ∃ before rest, text = before ++ rest ∧ byteLength before = position
  moving : ∀ turn ∈ scanner.turns, turn.1 < turn.2

/-- The scanner has come to where `here` is ahead. -/
structure Stands (text here : List Char) (scanner : Scanner) : Prop extends Kept text scanner where
  ahead : ∃ before, text = before ++ here ∧ byteLength before = scanner.position

/-- The end of a scan, and what reading the same text comes to. -/
inductive Agrees {α : Type} (text : List Char) :
    EStateM.Result Stop Scanner α → Except (SyntaxError (List Char)) (α × List Char) → Prop where
  | ok {value : α} {rest : List Char} {after : Scanner} (stands : Stands text rest after) :
    Agrees text (.ok value after) (.ok (value, rest))
  | error {error : SyntaxError (List Char)} {after : Scanner} (kept : Kept text after) :
    Agrees text (.error (.refused (error.map (offset text))) after) (.error error)

/-- Wherever `here` is ahead, scanning comes to the outcome. -/
def Yields {α : Type} (text here : List Char) (scan : Scan α)
    (outcome : Except (SyntaxError (List Char)) (α × List Char)) : Prop :=
  ∀ scanner, Stands text here scanner → Agrees text (scan scanner) outcome

/-- A scan that does what a reader does. -/
def Follows {α : Type} (text : List Char) (scan : Scan α) (reader : Reader α) : Prop :=
  ∀ here, Yields text here scan (reader here)

theorem byteLength_append (before rest : List Char) :
    byteLength (before ++ rest) = byteLength before + byteLength rest := by
  simp only [byteLength_eq, String.ofList_append, String.utf8ByteSize_append]

theorem from?_append (before here : List Char) : from? (before ++ here) (byteLength before) = some here := by
  induction before with
  | nil => cases here <;> rfl
  | cons c before ih =>
    have some := c.utf8Size_pos
    obtain ⟨bytes, same⟩ : ∃ bytes, c.utf8Size + byteLength before = bytes + 1 :=
      Nat.exists_eq_succ_of_ne_zero (by omega)
    rw [byteLength, same, List.cons_append, from?, if_neg (by omega), ← same, Nat.add_sub_cancel_left]
    exact ih

private theorem slice?_append (before part rest : List Char) :
    slice? (before ++ (part ++ rest)) (byteLength before) (byteLength (before ++ part)) = some part := by
  have ahead := from?_append (before ++ part) rest
  rw [List.append_assoc] at ahead
  rw [slice?, if_pos (by rw [byteLength_append]; omega), from?_append, ahead]
  simp

theorem offset_prefixed (before here : List Char) : offset (before ++ here) here = byteLength before := by
  rw [offset_append, byteLength_eq]

theorem byteLength_pos {c : Char} {taken : List Char} : 0 < byteLength (c :: taken) := by
  have some := c.utf8Size_pos
  rw [byteLength]
  omega

theorem byteLength_lt_cons {c : Char} {rest : List Char} : byteLength rest < byteLength (c :: rest) := by
  have some := c.utf8Size_pos
  rw [byteLength]
  omega

variable {α β σ : Type} {text here rest : List Char}

theorem Stands.suffix {scanner : Scanner} (stands : Stands text here scanner) : here <:+ text := by
  obtain ⟨before, rfl, _⟩ := stands.ahead
  exact List.suffix_append before here

private theorem Stands.position_eq {scanner : Scanner} (stands : Stands text here scanner) :
    scanner.position + byteLength here = byteLength text := by
  obtain ⟨before, rfl, same⟩ := stands.ahead
  rw [byteLength_append, same]

theorem Stands.offset_eq {scanner : Scanner} (stands : Stands text here scanner) :
    offset text here = scanner.position := by
  obtain ⟨before, rfl, same⟩ := stands.ahead
  rw [offset_prefixed, same]

theorem Yields.ran {scan : Scan α} {value : α} {scanner : Scanner} (yields : Yields text here scan (.ok (value, rest)))
    (stands : Stands text here scanner) : ∃ after, scan scanner = .ok value after ∧ Stands text rest after := by
  have agrees := yields scanner stands
  generalize scan scanner = result at agrees ⊢
  cases agrees with
  | ok stands => exact ⟨_, rfl, stands⟩

theorem Yields.refused {scan : Scan α} {error : SyntaxError (List Char)} {scanner : Scanner}
    (yields : Yields text here scan (.error error)) (stands : Stands text here scanner) :
    ∃ after, scan scanner = .error (.refused (error.map (offset text))) after ∧ Kept text after := by
  have agrees := yields scanner stands
  generalize scan scanner = result at agrees ⊢
  cases agrees with
  | error kept => exact ⟨_, rfl, kept⟩

/-! One scan after another. -/

theorem Yields.pure (value : α) : Yields text here (Pure.pure value) (.ok (value, here)) :=
  fun _ stands => .ok stands

theorem Yields.refuse {error : SyntaxError Nat} (error' : SyntaxError (List Char))
    (same : error = error'.map (offset text)) : Yields text here (refuse error : Scan α) (.error error') := by
  subst same
  exact fun _ stands => .error stands.toKept

theorem Yields.bind {scan : Scan α} {next : α → Scan β} {value : α}
    {outcome : Except (SyntaxError (List Char)) (β × List Char)} (first : Yields text here scan (.ok (value, rest)))
    (following : Yields text rest (next value) outcome) : Yields text here (scan >>= next) outcome := by
  intro scanner stands
  obtain ⟨after, ran, stands⟩ := first.ran stands
  have onward : (scan >>= next) scanner = next value after := by simp only [Bind.bind, EStateM.bind, ran]
  rw [onward]
  exact following after stands

theorem Yields.bind_error {scan : Scan α} {next : α → Scan β} {error : SyntaxError (List Char)}
    (failed : Yields text here scan (.error error)) : Yields text here (scan >>= next) (.error error) := by
  intro scanner stands
  obtain ⟨after, ran, kept⟩ := failed.refused stands
  simp only [Bind.bind, EStateM.bind, ran]
  exact .error kept

private theorem bind_of_error {reader : Reader α} {more : α → Reader β} {error : SyntaxError (List Char)}
    (failed : reader here = .error error) : (reader >>= more) here = .error error := by
  simp only [Bind.bind, StateT.bind, failed, Except.bind]

theorem map_of_error {convert : α → β} {reader : Reader α} {error : SyntaxError (List Char)}
    (failed : reader here = .error error) : (convert <$> reader) here = .error error := by
  simp only [Functor.map, StateT.map, failed, Bind.bind, Except.bind]

/-- The reader may be given other text than the scanner stands at, for what the scan takes of its own. -/
theorem Yields.onward {scan : Scan α} {next : α → Scan β} {reader : Reader α} {more : α → Reader β}
    (first : Yields text here scan (reader rest)) (following : ∀ value, Follows text (next value) (more value)) :
    Yields text here (scan >>= next) ((reader >>= more) rest) := by
  cases read : reader rest with
  | ok pair =>
    obtain ⟨value, rest⟩ := pair
    rw [read] at first
    rw [bind_of_ok read]
    exact first.bind (following value rest)
  | error error =>
    rw [read] at first
    rw [bind_of_error read]
    exact first.bind_error

theorem Yields.map {convert : α → β} {scan : Scan α} {reader : Reader α} (yields : Yields text here scan (reader rest)) :
    Yields text here (convert <$> scan) ((convert <$> reader) rest) := by
  rw [map_eq_pure_bind, map_eq_pure_bind]
  exact yields.onward fun value _ => .pure (convert value)

theorem Follows.bind {scan : Scan α} {next : α → Scan β} {reader : Reader α} {more : α → Reader β}
    (first : Follows text scan reader) (following : ∀ value, Follows text (next value) (more value)) :
    Follows text (scan >>= next) (reader >>= more) :=
  fun here => (first here).onward following

theorem Follows.pure (value : α) : Follows text (Pure.pure value) (Pure.pure value) :=
  fun _ => .pure value

theorem Yields.discard {scan : Scan α} {value : α} (yields : Yields text here scan (.ok (value, rest))) :
    Yields text here (discard scan) (.ok ((), rest)) :=
  yields.bind (.pure ())

/-- What is ahead may be taken to be an end of the text. -/
theorem Yields.of_suffix {scan : Scan α} {outcome : Except (SyntaxError (List Char)) (α × List Char)}
    (yields : here <:+ text → Yields text here scan outcome) : Yields text here scan outcome :=
  fun scanner stands => yields stands.suffix scanner stands

/-! Looking at what is ahead, and moving over it. -/

theorem Yields.position : Yields text here position (.ok (offset text here, here)) := by
  intro scanner stands
  rw [stands.offset_eq]
  exact .ok stands

theorem Yields.ahead : Yields text here (ahead text) (.ok (here, here)) := by
  intro scanner stands
  obtain ⟨before, rfl, same⟩ := stands.ahead
  have found : from? (before ++ here) scanner.position = some here := same ▸ from?_append before here
  have looked : ByteScanner.ahead (before ++ here) scanner = .ok here scanner := by
    change sliced (from? (before ++ here) scanner.position) scanner = _
    rw [found]
    rfl
  rw [looked]
  exact .ok stands

theorem Yields.peek : Yields text here (peek text) (.ok (here.head?, here)) :=
  Yields.ahead.bind (.pure here.head?)

theorem Yields.atEnd : Yields text here (atEnd text) (.ok (decide (here = []), here)) := by
  intro scanner stands
  have same : byteLength text ≤ scanner.position ↔ here = [] := by
    have left := stands.position_eq
    cases here with
    | nil => simp [← left, byteLength]
    | cons c rest =>
      have some : 0 < byteLength (c :: rest) := byteLength_pos
      exact iff_of_false (by omega) (List.cons_ne_nil c rest)
  rw [← decide_eq_decide.mpr same]
  exact .ok stands

theorem Yields.advance {c : Char} {taken : List Char} {bytes : Nat} (whole : bytes = byteLength (c :: taken)) :
    Yields text (c :: taken ++ rest) (advance bytes) (.ok ((), rest)) := by
  intro scanner stands
  obtain ⟨before, split, same⟩ := stands.ahead
  have some : 0 < bytes := whole ▸ byteLength_pos
  have further : text = before ++ (c :: taken) ++ rest := by rw [split, List.append_assoc]
  have moved : byteLength (before ++ (c :: taken)) = scanner.position + bytes := by rw [byteLength_append, same, whole]
  refine .ok ⟨⟨?_, ?_, ?_, stands.moving⟩, _, further, moved⟩
  · refine List.pairwise_append.mpr ⟨stands.ordered, by simp, fun earlier passed later new => ?_⟩
    have old := stands.latest earlier passed
    rw [List.mem_singleton.mp new]
    omega
  · refine List.forall_mem_append.mpr ⟨fun earlier passed => ?_, by simp⟩
    exact Nat.le_add_right_of_le (stands.latest earlier passed)
  · refine List.forall_mem_append.mpr ⟨stands.boundary, fun later new => ?_⟩
    rw [List.mem_singleton.mp new]
    exact ⟨_, _, further, moved⟩

private theorem byteLength_singleton (c : Char) : byteLength [c] = c.utf8Size := by
  rw [byteLength, byteLength, Nat.add_zero]

theorem Yields.advance_one (c : Char) : Yields text (c :: rest) (ByteScanner.advance c.utf8Size) (.ok ((), rest)) :=
  .advance (byteLength_singleton c).symm

theorem Yields.consume (c : Char) : Yields text (c :: rest) (consume text c) (.ok (true, rest)) :=
  Yields.peek.bind <| by
    rw [List.head?_cons, if_pos rfl]
    exact (Yields.advance_one c).bind (.pure true)

theorem Yields.consume_other {c : Char} (other : here.head? ≠ some c) :
    Yields text here (ByteScanner.consume text c) (.ok (false, here)) :=
  Yields.peek.bind <| by
    rw [if_neg other]
    exact .pure false

theorem Yields.consumeText (c : Char) (part : List Char) :
    Yields text (c :: part ++ rest) (consumeText text (c :: part)) (.ok (true, rest)) :=
  Yields.ahead.bind <| by
    rw [if_pos (List.isPrefixOf_iff_prefix.mpr (List.prefix_append _ rest))]
    exact (Yields.advance rfl).bind (.pure true)

theorem Yields.consumeText_other {part : List Char} (other : ¬ part <+: here) :
    Yields text here (ByteScanner.consumeText text part) (.ok (false, here)) :=
  Yields.ahead.bind <| by
    rw [if_neg (by rwa [List.isPrefixOf_iff_prefix])]
    exact .pure false

theorem Yields.unexpected {expected : Expected} :
    Yields text here (unexpected text expected : Scan α) (.error (.unexpected expected here)) :=
  Yields.peek.bind <| by
    cases here with
    | nil => exact .refuse _ rfl
    | cons found rest => exact Yields.position.bind (.refuse (.unexpected expected (found :: rest)) rfl)

theorem Yields.slice {part : List Char} (within : part ++ rest <:+ text) :
    Yields text here (sliced (slice? text (offset text (part ++ rest)) (offset text rest))) (.ok (part, here)) := by
  obtain ⟨before, rfl⟩ := within
  have first := offset_prefixed before (part ++ rest)
  have last := offset_prefixed (before ++ part) rest
  rw [List.append_assoc] at last
  rw [first, last, slice?_append]
  exact .pure part

/-! Loops. -/

variable {turn : σ → Scan (Turn σ α)} {state next : σ}

theorem Stands.inside {scanner : Scanner} (stands : Stands text here scanner) :
    ¬ byteLength text < scanner.position := by
  have left := stands.position_eq
  omega

theorem Yields.again {outcome : Except (SyntaxError (List Char)) (α × List Char)}
    (went : Yields text here (turn state) (.ok (.again next, rest))) (shorter : byteLength rest < byteLength here)
    (more : Yields text rest (repeated text turn next) outcome) :
    Yields text here (repeated text turn state) outcome := by
  intro scanner stands
  obtain ⟨after, ran, later⟩ := went.ran stands
  -- the position and what is ahead make up the whole text, so where less is ahead the scanner has moved
  have moved : scanner.position < after.position := by
    have before := stands.position_eq
    have left := later.position_eq
    omega
  rw [repeated, if_neg stands.inside, ran]
  simp only [if_pos moved]
  refine more _ ⟨⟨later.ordered, later.latest, later.boundary, ?_⟩, later.ahead⟩
  exact List.forall_mem_append.mpr ⟨later.moving, by simpa using moved⟩

theorem Yields.done {value : α} (ended : Yields text here (turn state) (.ok (.done value, rest))) :
    Yields text here (repeated text turn state) (.ok (value, rest)) := by
  intro scanner stands
  obtain ⟨after, ran, later⟩ := ended.ran stands
  rw [repeated, if_neg stands.inside, ran]
  exact .ok later

theorem Yields.failed {error : SyntaxError (List Char)} (failed : Yields text here (turn state) (.error error)) :
    Yields text here (repeated text turn state) (.error error) := by
  intro scanner stands
  obtain ⟨after, ran, kept⟩ := failed.refused stands
  rw [repeated, if_neg stands.inside, ran]
  exact .error kept

end PathQuery.Proofs.Scanning
