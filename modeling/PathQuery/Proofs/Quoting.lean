import PathQuery.Proofs.Notation
import PathQuery.Proofs.ScanBounds

/-! Quoting. Escaping a text amounts to two replacements, one after the other. Whatever they made of it,
scanning it between single quotes gives the text back and ends where what follows begins. -/

namespace PathQuery.Proofs.Quoting
open PathQuery.Expression PathQuery.Path Reading ByteScanner Scanning

/-- A text with other characters in the place of each occurrence of one. -/
def replaced (c : Char) (others text : List Char) : List Char :=
  text.flatMap fun found => if found = c then others else [found]

/-- Backslashes are doubled first, and then each quote gets one before it. -/
theorem escapeChars_eq (text : List Char) :
    Text.Quoted.escapeChars text = replaced '\'' ['\\', '\''] (replaced '\\' ['\\', '\\'] text) := by
  induction text with
  | nil => rfl
  | cons c text ih =>
    simp only [replaced, List.flatMap_cons, List.flatMap_append] at ih ⊢
    rw [← ih]
    by_cases backslash : c = '\\'
    · subst backslash
      rfl
    by_cases quote : c = '\''
    · subst quote
      rfl
    rw [Text.Quoted.escapeChars.eq_4 c text backslash quote, if_neg backslash]
    simp [quote]

/-- The other way round, the backslash before the quote is doubled. -/
example : replaced '\\' ['\\', '\\'] (replaced '\'' ['\\', '\''] ['\'']) = ['\\', '\\', '\''] := by decide

/-- A text between single quotes. -/
def singleQuoted (content : String) : String := "'" ++ Text.Quoted.escape content ++ "'"

private theorem readQuoted_singleQuoted (content : String) (rest : List Char) :
    readQuoted ((singleQuoted content).toList ++ rest) = .ok (content, rest) := by
  have quoted := readQuoted_iff.mpr (Notation.quoted_escape content rest)
  simpa [singleQuoted] using quoted

/-- The same text is scanned alike wherever it stands in another one. -/
theorem yields_singleQuoted {text : List Char} (content : String) (rest : List Char) :
    Yields text ((singleQuoted content).toList ++ rest) (quoted text) (.ok (content, rest)) := by
  rw [← readQuoted_singleQuoted]
  exact ScanBounds.follows_quoted _

/-- From the start of a text, the scanner gets past the part that is read to where the rest begins. -/
theorem ran_from_start {α : Type} {part rest : List Char} {scan : Scan α} {value : α}
    (yields : Yields (part ++ rest) (part ++ rest) scan (.ok (value, rest))) :
    ∃ scanner, scan .start = .ok value scanner ∧ scanner.position = byteLength part ∧
      from? (part ++ rest) scanner.position = some rest := by
  obtain ⟨scanner, ran, stands⟩ := yields.ran ScanBounds.stands_start
  have position : scanner.position = byteLength part := by rw [← stands.offset_eq, offset_prefixed]
  exact ⟨scanner, ran, position, by rw [position, from?_append]⟩

/-- Escaping doubles the backslashes and puts one before each quote, and a scanner that is given the text
so made between single quotes, with anything after it, takes out what went in and nothing of what follows. -/
theorem scan_singleQuoted (content continuation : String) :
    Text.Quoted.escape content =
        String.ofList (replaced '\'' ['\\', '\''] (replaced '\\' ['\\', '\\'] content.toList)) ∧
      readQuoted (singleQuoted content ++ continuation).toList = .ok (content, continuation.toList) ∧
      ∃ scanner, quoted (singleQuoted content ++ continuation).toList .start = .ok content scanner ∧
        scanner.position = (singleQuoted content).utf8ByteSize ∧
        from? (singleQuoted content ++ continuation).toList scanner.position = some continuation.toList := by
  rw [String.toList_append]
  have read := readQuoted_singleQuoted content continuation.toList
  obtain ⟨scanner, ran, position, ahead⟩ := ran_from_start (yields_singleQuoted content continuation.toList)
  refine ⟨by rw [Text.Quoted.escape, escapeChars_eq], read, scanner, ran, ?_, ahead⟩
  rw [position, Refusals.byteLength_eq, String.ofList_toList]

end PathQuery.Proofs.Quoting
