import PathQuery.Proofs.Diagnoses
import PathQuery.Proofs.Scanning

/-! Scanning does what reading does, part by part, so that it never leaves the expression, never cuts a
character and never stands still. -/

namespace PathQuery.Proofs.ScanBounds
open PathQuery.Expression PathQuery.Path Reading Refusals ByteScanner Scanning

variable {text here rest : List Char}

private theorem follows_expect {c : Char} {expected : Expected} :
    Follows text (expect text c expected) (Expression.expect c expected) := by
  intro here
  cases here with
  | nil => exact (Yields.consume_other (by simp)).bind .unexpected
  | cons found rest =>
    rw [Expression.expect]
    split
    next same =>
      subst same
      exact (Yields.consume found).bind (.pure ())
    next other => exact (Yields.consume_other (by simpa using other)).bind .unexpected

private theorem follows_close {c : Char} {construct : Construct} {opening : List Char} {expected : Expected} :
    Follows text (close text c construct (offset text opening) expected)
      (Expression.close c construct opening expected) := by
  intro here
  cases here with
  | nil =>
    refine (Yields.consume_other (by simp)).bind (Yields.atEnd.bind ?_)
    exact .refuse (.unterminated construct opening) rfl
  | cons found rest =>
    rw [Expression.close, if_neg (List.cons_ne_nil found rest), Expression.expect]
    split
    next same =>
      subst same
      exact (Yields.consume found).bind (.pure ())
    next other => exact (Yields.consume_other (by simpa using other)).bind (Yields.atEnd.bind .unexpected)

/-- A run is passed whole if the stride is the size of the characters in it. -/
theorem yields_pass {stride : Stride} {member : Char → Bool}
    (fits : ∀ c, member c = true → stride.bytes c = c.utf8Size) :
    Yields text here (pass text stride member) (.ok ((), here.dropWhile member)) := by
  induction here with
  | nil => exact .done (Yields.peek.bind (.pure _))
  | cons c rest ih =>
    cases inside : member c with
    | true =>
      rw [List.dropWhile_cons_of_pos inside]
      refine .again (Yields.peek.bind ?_) byteLength_lt_cons ih
      simp only [List.head?_cons, inside, if_true, fits c inside]
      exact (Yields.advance_one c).bind (.pure _)
    | false =>
      rw [List.dropWhile_cons_of_neg (by simp [inside])]
      refine .done (Yields.peek.bind ?_)
      simp only [List.head?_cons, inside]
      exact .pure _

private theorem yields_takeWhile {member : Char → Bool} :
    Yields text here (takeWhile text member) (.ok (here.takeWhile member, here.dropWhile member)) := by
  refine .of_suffix fun within => Yields.position.bind ((yields_pass fun _ _ => rfl).bind (Yields.position.bind ?_))
  have part : here.takeWhile member ++ here.dropWhile member <:+ text := by rwa [List.takeWhile_append_dropWhile]
  have sliced : Yields text (here.dropWhile member) _ _ := .slice part
  rwa [List.takeWhile_append_dropWhile] at sliced

private theorem follows_skipBlank : Follows text (skipBlank text) Expression.skipBlank :=
  fun _ => yields_takeWhile.bind (.pure ())

section Runs
variable {member : Char → Bool} {expected : Expected}

private theorem yields_pass_narrow (narrow : ∀ c, member c = true → c.utf8Size = 1) :
    Yields text here (pass text .byte member) (.ok ((), here.dropWhile member)) :=
  yields_pass fun c inside => (narrow c inside).symm

private theorem yields_takeSome_none (none : here.takeWhile member = [])
    (narrow : ∀ c, member c = true → c.utf8Size = 1) :
    Yields text here (takeSome text member expected) (.error (.unexpected expected here)) := by
  have still : here.dropWhile member = here := by
    have whole := List.takeWhile_append_dropWhile (p := member) (l := here)
    rwa [none, List.nil_append] at whole
  refine Yields.position.bind ((yields_pass_narrow narrow).bind (Yields.position.bind ?_))
  rw [still, if_pos rfl]
  exact .unexpected

private theorem yields_takeSome (some : here.takeWhile member ≠ []) (narrow : ∀ c, member c = true → c.utf8Size = 1) :
    Yields text here (takeSome text member expected) (.ok (here.takeWhile member, here.dropWhile member)) := by
  refine .of_suffix fun within => ?_
  refine Yields.position.bind ((yields_pass_narrow narrow).bind (Yields.position.bind ?_))
  have whole : here = here.takeWhile member ++ here.dropWhile member := by rw [List.takeWhile_append_dropWhile]
  generalize here.takeWhile member = part, here.dropWhile member = rest at whole some ⊢
  subst whole
  -- the scanner tells an empty run by its position
  have onward : offset text rest ≠ offset text (part ++ rest) := by
    obtain ⟨before, rfl⟩ := within
    obtain ⟨c, taken, rfl⟩ := List.exists_cons_of_ne_nil some
    have further : 0 < byteLength (c :: taken) := byteLength_pos
    rw [offset_prefixed, ← List.append_assoc, offset_prefixed, byteLength_append]
    omega
  rw [if_neg onward]
  exact Yields.position.bind (.slice within)

end Runs

private theorem utf8Size_nameChar {c : Char} (inside : isNameChar c = true) : c.utf8Size = 1 := by
  have range := (Diagnoses.nameChar_range inside).2
  rw [Char.utf8Size_eq_one_iff, UInt32.le_iff_toNat_le]
  exact range.trans (by decide)

private theorem utf8Size_digit {c : Char} (digit : c.isDigit = true) : c.utf8Size = 1 :=
  utf8Size_nameChar (by simp [isNameChar, Char.isAlphanum, digit])

private theorem utf8Size_quote {c : Char} (quote : isQuote c = true) : c.utf8Size = 1 := by
  obtain rfl | rfl : c = '\'' ∨ c = '"' := by simpa [isQuote] using quote
  · rfl
  · rfl

private theorem follows_name : Follows text (name text) readName := by
  intro here
  rw [name, map_eq_pure_bind]
  unfold readName
  simp only
  split
  next none => exact (yields_takeSome_none none fun _ => utf8Size_nameChar).bind_error
  next some => exact (yields_takeSome some fun _ => utf8Size_nameChar).bind (.pure _)

private theorem follows_index : Follows text (index text) readIndex := by
  intro here
  refine Yields.position.bind ?_
  unfold readIndex
  simp only
  split
  next none => exact (yields_takeSome_none none fun _ => utf8Size_digit).bind_error
  next some =>
    refine (yields_takeSome some fun _ => utf8Size_digit).bind ?_
    split
    next => exact .pure _
    next => exact .refuse (.invalidIndex _ here) rfl

section Quotes
variable {quote c : Char} {out : List Char}

private theorem yields_closingTurn :
    Yields text (quote :: rest) (quotedTurn text quote out) (.ok (.done (some out), rest)) :=
  Yields.peek.bind <| (Yields.advance_one quote).bind <| by
    rw [if_pos rfl]
    exact .pure _

private theorem yields_escapedTurn (other : '\\' ≠ quote) : Yields text ('\\' :: c :: rest) (quotedTurn text quote out)
    (.ok (.again (out ++ Text.Quoted.unescape c), rest)) :=
  Yields.peek.bind <| (Yields.advance_one '\\').bind <| by
    rw [if_neg other, if_pos rfl]
    exact Yields.peek.bind ((Yields.advance_one c).bind (.pure _))

private theorem yields_plainTurn (other : c ≠ quote) (plain : c ≠ '\\') :
    Yields text (c :: rest) (quotedTurn text quote out) (.ok (.again (out ++ [c]), rest)) :=
  Yields.peek.bind <| (Yields.advance_one c).bind <| by
    rw [if_neg other, if_neg plain]
    exact .pure _

private theorem yields_brokenTurn (other : '\\' ≠ quote) :
    Yields text ['\\'] (quotedTurn text quote out) (.ok (.done none, [])) :=
  Yields.peek.bind <| (Yields.advance_one '\\').bind <| by
    rw [if_neg other, if_pos rfl]
    exact Yields.peek.bind (.pure _)

/-- The loop that looks for the closing quote adds what is read up to it to what it has already. -/
theorem yields_quotedRest (out : List Char) : Yields text here (repeated text (quotedTurn text quote) out)
    (.ok ((Text.Quoted.read? quote here).elim (none, []) fun (content, rest) => (some (out ++ content), rest))) := by
  fun_induction Text.Quoted.read? quote here generalizing out with
  | case1 => exact .done (Yields.peek.bind (.pure _))
  | case2 rest =>
    simp only [Option.elim_some, List.append_nil]
    exact .done yields_closingTurn
  | case3 other => exact .done (yields_brokenTurn other)
  | case4 c rest other step =>
    refine .again (yields_escapedTurn other) (byteLength_lt_cons.trans byteLength_lt_cons) ?_
    simpa [Option.elim_map, Function.comp_def] using step (out ++ Text.Quoted.unescape c)
  | case5 c rest other plain step =>
    refine .again (yields_plainTurn other plain) byteLength_lt_cons ?_
    simpa [Option.elim_map, Function.comp_def] using step (out ++ [c])

end Quotes

theorem follows_quoted : Follows text (quoted text) readQuoted := by
  intro here
  refine Yields.position.bind (Yields.peek.bind ?_)
  cases here with
  | nil => exact .unexpected
  | cons quote rest =>
    rw [readQuoted]
    simp only [List.head?_cons]
    split
    next isQuote =>
      have opened : Yields text (quote :: rest) (advance 1) (.ok ((), rest)) := utf8Size_quote isQuote ▸ .advance_one quote
      refine opened.bind ((yields_quotedRest []).bind ?_)
      cases Text.Quoted.read? quote rest with
      | none => exact .refuse (.unterminated .stringLiteral (quote :: rest)) rfl
      | some pair => exact .pure _
    next => exact .unexpected

private theorem follows_equality : Follows text (equality text) readEquality := by
  intro here
  refine Yields.position.bind ?_
  unfold readEquality
  split
  next rest => exact (Yields.consumeText '=' ['=']).bind (.pure ())
  next other =>
    have unequal : ¬ ['=', '='] <+: here := fun ⟨rest, same⟩ => other rest same.symm
    refine (Yields.consumeText_other unequal).bind (Yields.ahead.bind ?_)
    cases unsupportedOperators.find? fun operator => operator.toList.isPrefixOf here with
    | some operator => exact .refuse (.unsupportedOperator operator here) rfl
    | none => exact .unexpected

private theorem yields_further {field : String} (further : here.head? = some '.' ∨ here.head? = some '[') :
    Yields text here (endField text field)
      (.error (.unsupportedFieldPath (field ++ String.ofList (here.takeWhile fun c => !endsFieldPath c)))) :=
  Yields.peek.bind <| by
    rw [if_pos further]
    exact yields_takeWhile.bind (.refuse (.unsupportedFieldPath _) rfl)

private theorem follows_endField {field : String} : Follows text (endField text field) (Expression.endField field) := by
  intro here
  unfold Expression.endField
  split
  next => exact yields_further (.inl rfl)
  next => exact yields_further (.inr rfl)
  next dotless bracketless =>
    have dot : here.head? ≠ some '.' := fun first => dotless here.tail (List.eq_cons_of_mem_head? first)
    have bracket : here.head? ≠ some '[' := fun first => bracketless here.tail (List.eq_cons_of_mem_head? first)
    refine Yields.peek.bind ?_
    rw [if_neg (not_or_intro dot bracket)]
    exact .pure ()

private theorem follows_filter : Follows text (filter text) readFilter :=
  .bind follows_skipBlank fun _ => .bind follows_expect fun _ => .bind follows_expect fun _ =>
  .bind follows_name fun _ => .bind follows_endField fun _ => .bind follows_skipBlank fun _ =>
  .bind follows_equality fun _ => .bind follows_skipBlank fun _ => .bind follows_quoted fun _ =>
  .bind follows_skipBlank fun _ => .pure _

private theorem follows_predicate {opening : List Char} :
    Follows text (predicate text (offset text opening)) (readPredicate opening) :=
  .bind follows_expect fun _ => .bind follows_filter fun _ => .bind follows_close fun _ => .pure _

private theorem follows_bracketContent {opening : List Char} :
    Follows text (bracketContent text (offset text opening)) (readBracketContent opening) := by
  intro here
  unfold readBracketContent
  split
  next => exact Yields.peek.bind (.refuse (.unterminated .bracket opening) rfl)
  next =>
    refine Yields.peek.bind ?_
    simp only [List.head?_cons]
    exact (Yields.consume '*').discard.bind (.pure _)
  next rest =>
    refine Yields.peek.bind ?_
    simp only [List.head?_cons]
    exact (Yields.consume '?').discard.bind (follows_predicate rest)
  next c rest other unasked =>
    refine Yields.peek.bind ?_
    simp only [List.head?_cons, if_neg other, if_neg unasked]
    split
    next => exact (follows_quoted (c :: rest)).map
    next =>
      split
      next => exact (follows_index (c :: rest)).map
      next => exact .unexpected

private theorem yields_bracket : Yields text ('[' :: rest) (bracket text) (readBracket ('[' :: rest) rest) := by
  refine Yields.position.bind ((Yields.consume '[').discard.bind ?_)
  refine Follows.bind follows_skipBlank (fun _ => ?_) rest
  exact .bind follows_bracketContent fun _ => .bind follows_skipBlank fun _ => .bind follows_close fun _ => .pure _

private theorem follows_descentTarget : Follows text (descentTarget text) readDescentTarget := by
  intro here
  unfold readDescentTarget
  split
  next =>
    refine Yields.peek.bind ?_
    simp only [List.head?_cons]
    exact (Yields.consume '*').discard.bind (.pure _)
  next => exact Yields.peek.bind (.pure [])
  next c rest other bracketless =>
    refine Yields.peek.bind ?_
    simp only [List.head?_cons, if_neg other, if_neg bracketless]
    split
    next => exact (follows_name (c :: rest)).map
    next => exact .unexpected
  next => exact Yields.peek.bind .unexpected

private theorem follows_segment : Follows text (segment text) readSegments := by
  intro here
  unfold readSegments
  split
  next rest => exact (Yields.consumeText '.' ['.']).bind (follows_descentTarget rest).map
  next rest =>
    refine (Yields.consumeText_other (by simp)).bind ((Yields.consume '.').bind ?_)
    exact (Yields.consume '*').bind (.pure _)
  next rest undotted unstarred =>
    have single : ¬ ['.', '.'] <+: '.' :: rest := fun ⟨tail, same⟩ => undotted tail (List.cons.inj same).2.symm
    have named : rest.head? ≠ some '*' := fun first =>
      unstarred rest.tail (List.eq_cons_of_mem_head? first)
    refine (Yields.consumeText_other single).bind ((Yields.consume '.').bind ?_)
    exact (Yields.consume_other named).bind (follows_name rest).map
  next rest =>
    refine (Yields.consumeText_other (by simp)).bind ((Yields.consume_other (by simp)).bind (Yields.peek.bind ?_))
    rw [List.head?_cons, if_pos rfl]
    exact yields_bracket.map
  next dotsless _ dotless bracketless =>
    have dots : ¬ ['.', '.'] <+: here := fun ⟨rest, same⟩ => dotsless rest same.symm
    have dot : here.head? ≠ some '.' := fun first => dotless here.tail (List.eq_cons_of_mem_head? first)
    have bracket : here.head? ≠ some '[' := fun first => bracketless here.tail (List.eq_cons_of_mem_head? first)
    refine (Yields.consumeText_other dots).bind ((Yields.consume_other dot).bind (Yields.peek.bind ?_))
    rw [if_neg bracket]
    exact .unexpected

private theorem byteLength_le_of_suffix (shorter : rest <:+ here) : byteLength rest ≤ byteLength here := by
  obtain ⟨before, rfl⟩ := shorter
  rw [byteLength_append]
  exact Nat.le_add_left _ _

section Segments
variable {segments : List Segment}

private theorem yields_lastTurn (none : dropBlank here = []) :
    Yields text here (segmentTurn text segments) (.ok (.done segments, [])) := by
  refine (follows_skipBlank here).bind ?_
  rw [none]
  exact Yields.atEnd.bind (.pure _)

private theorem yields_segmentTurn (some : dropBlank here ≠ []) : Yields text here (segmentTurn text segments)
    (((fun more => Turn.again (segments ++ more)) <$> readSegments) (dropBlank here)) := by
  refine (follows_skipBlank here).bind (Yields.atEnd.bind ?_)
  rw [if_neg (by simpa using some)]
  exact (follows_segment (dropBlank here)).map

/-- A turn that is followed by another has taken something. -/
theorem shorter_of_readSegments {found : List Segment} (read : readSegments (dropBlank here) = .ok (found, rest)) :
    byteLength rest < byteLength here := by
  obtain ⟨c, after, same, shorter⟩ := readSegments_suffix read
  have ahead := byteLength_le_of_suffix (dropBlank_suffix here)
  rw [same] at ahead
  exact ((byteLength_le_of_suffix shorter).trans_lt byteLength_lt_cons).trans_le ahead

/-- The loop over segments adds what is read to the segments it has already. -/
theorem yields_segments (segments : List Segment) : Yields text here (repeated text (segmentTurn text) segments)
    ((readRest here).map fun more => (segments ++ more, [])) := by
  fun_induction readRest here generalizing segments with
  | case1 here _ none =>
    simpa [Except.map] using (yields_lastTurn none).done
  | case2 here _ some found rest read step =>
    have turn : Yields text here (segmentTurn text segments) _ := yields_segmentTurn some
    rw [map_of_ok read] at turn
    refine turn.again (shorter_of_readSegments read) ?_
    have more := step (segments ++ found)
    cases remaining : readRest rest with
    | ok rest =>
      rw [remaining] at more
      simpa [Except.map, bind, Except.bind] using more
    | error error =>
      rw [remaining] at more
      exact more
  | case3 here _ some error read =>
    have turn : Yields text here (segmentTurn text segments) _ := yields_segmentTurn some
    rw [map_of_error read] at turn
    exact turn.failed

end Segments

private theorem yields_path : Yields text text (path text) ((Path.read text).map fun path => (path, [])) := by
  refine (follows_skipBlank text).bind (Yields.peek.bind ?_)
  unfold Path.read
  generalize dropBlank text = here
  cases here with
  | nil => exact .refuse .empty rfl
  | cons found rest =>
    rw [List.head?_cons]
    by_cases root : found = '$'
    · subst root
      refine (Yields.consume '$').discard.bind ?_
      have segments : Yields text rest _ _ := yields_segments [.root]
      rw [map_eq_pure_bind]
      cases read : readRest rest with
      | ok more =>
        rw [read] at segments
        simp only [read]
        exact segments.bind (.pure _)
      | error error =>
        rw [read] at segments
        simp only [read]
        exact segments.bind_error
    · simp only [if_neg root]
      exact .refuse (.missingRoot found) rfl

theorem stands_start : Stands text text .start where
  ordered := List.pairwise_singleton _ _
  latest := by simp [Scanner.start]
  boundary := by simpa [Scanner.start] using ⟨[], ⟨text, rfl⟩, rfl⟩
  moving := by simp [Scanner.start]
  ahead := ⟨[], rfl, rfl⟩

private theorem scan_outcome (expression : String) : ∃ scanner, Kept expression.toList scanner ∧
    ((∃ path, Path.compile expression = .ok path ∧ scan expression = .ok path scanner) ∨
      ∃ error, Path.compile expression = .error error ∧ scan expression = .error (.refused error) scanner) := by
  have yields : Yields expression.toList _ _ _ := yields_path
  rw [Path.compile]
  cases read : Path.read expression.toList with
  | ok path =>
    rw [read] at yields
    obtain ⟨scanner, ran, stands⟩ := yields.ran stands_start
    exact ⟨scanner, stands.toKept, .inl ⟨path, rfl, ran⟩⟩
  | error error =>
    rw [read] at yields
    obtain ⟨scanner, ran, kept⟩ := yields.refused stands_start
    exact ⟨scanner, kept, .inr ⟨_, rfl, ran⟩⟩

/-- Scanning an expression by byte offsets ends as compiling it does, with a path or an error: no slice is off
a boundary or reversed, and no loop stands still. On the way the position only grows, never passes the end
and is always the boundary of a character, and every turn of a loop that is followed by another takes at
least one byte. -/
theorem scan_in_bounds (expression : String) : ∃ scanner : Scanner,
    ((∃ path, Path.compile expression = .ok path ∧ scan expression = .ok path scanner) ∨
      ∃ error, Path.compile expression = .error error ∧ scan expression = .error (.refused error) scanner) ∧
    scanner.passed.Pairwise (· < ·) ∧
    (∀ position ∈ scanner.passed,
      position ≤ expression.utf8ByteSize ∧ String.Pos.Raw.IsValid expression ⟨position⟩) ∧
    ∀ turn ∈ scanner.turns, turn.1 < turn.2 := by
  obtain ⟨scanner, kept, outcome⟩ := scan_outcome expression
  refine ⟨scanner, outcome, kept.ordered, fun position passed => ?_, kept.moving⟩
  obtain ⟨before, rest, split, same⟩ := kept.boundary position passed
  have valid := (Diagnoses.parted split).isValid
  rw [split, offset_prefixed, same] at valid
  exact ⟨valid.le_rawEndPos, valid⟩

end PathQuery.Proofs.ScanBounds
