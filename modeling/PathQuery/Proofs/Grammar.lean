import PathQuery.Expression.Reader

/-! The grammar of expressions. Each part of it relates a text to what the beginning of the
text means and to the text that follows. Nothing here says how a text is to be read: blanks
may be any run of blanks, and only names and indexes have to be as long as they can be. -/

namespace PathQuery.Proofs.Grammar

/-- `text` starts with a run of characters of a class, which ends with the text or before a
character that is not of the class. -/
def Longest (member : Char → Bool) (text run rest : List Char) : Prop :=
  text = run ++ rest ∧ (∀ c ∈ run, member c = true) ∧ ∀ c ∈ rest.head?, member c = false

def Blanks (text rest : List Char) : Prop :=
  ∃ run, text = run ++ rest ∧ ∀ c ∈ run, Text.isBlank c = true

theorem blanks_refl (text : List Char) : Blanks text text := ⟨[], rfl, by simp⟩

def Name (text : List Char) (name : String) (rest : List Char) : Prop :=
  name ≠ "" ∧ Longest isNameChar text name.toList rest

def Index (text : List Char) (position : Nat) (rest : List Char) : Prop :=
  ∃ digits, digits ≠ [] ∧ Longest Char.isDigit text digits rest ∧
    position = Nat.ofDigitChars 10 digits 0 ∧ position < Nat.pow 2 64

/-- The characters that stand for something else after a backslash. -/
def namedEscapes : List (Char × Char) :=
  [('n', '\n'), ('t', '\t'), ('r', '\r'), ('\\', '\\'), ('"', '"'), ('\'', '\'')]

/-- What a backslash and a character stand for together: the character named, or both. -/
inductive Escape (c : Char) : List Char → Prop where
  | named {meant : Char} (listed : (c, meant) ∈ namedEscapes) : Escape c [meant]
  | plain (unlisted : ∀ meant, (c, meant) ∉ namedEscapes) : Escape c ['\\', c]

/-- What stands between two quotes, with the closing one. -/
inductive Items (quote : Char) : (text meant rest : List Char) → Prop where
  | closing {rest : List Char} : Items quote (quote :: rest) [] rest
  | escaped {c : Char} {meaning text meant rest : List Char} (escape : Escape c meaning)
      (more : Items quote text meant rest) : Items quote ('\\' :: c :: text) (meaning ++ meant) rest
  | plain {c : Char} {text meant rest : List Char} (inside : c ≠ quote) (unescaped : c ≠ '\\')
      (more : Items quote text meant rest) : Items quote (c :: text) (c :: meant) rest

inductive Quoted : List Char → String → List Char → Prop where
  | single {text meant rest : List Char} (items : Items '\'' text meant rest) :
      Quoted ('\'' :: text) (String.ofList meant) rest
  | double {text meant rest : List Char} (items : Items '"' text meant rest) :
      Quoted ('"' :: text) (String.ofList meant) rest

/-- The inside of a predicate, with the blanks around it. -/
inductive Condition : List Char → Filter → List Char → Prop where
  | equal {text afterDot afterName afterEquality beforeQuote afterQuote rest : List Char}
      {field literal : String}
      (opening : Blanks text ('@' :: '.' :: afterDot)) (named : Name afterDot field afterName)
      (equality : Blanks afterName ('=' :: '=' :: afterEquality))
      (spacing : Blanks afterEquality beforeQuote) (quoted : Quoted beforeQuote literal afterQuote)
      (closing : Blanks afterQuote rest) : Condition text ⟨field, literal⟩ rest

inductive BracketContent : List Char → Segment → List Char → Prop where
  | wildcard {rest : List Char} : BracketContent ('*' :: rest) .wildcard rest
  | index {text rest : List Char} {position : Nat} (counted : Index text position rest) :
      BracketContent text (.index position) rest
  | field {text rest : List Char} {name : String} (quoted : Quoted text name rest) :
      BracketContent text (.field name) rest
  | predicate {text rest : List Char} {filter : Filter}
      (condition : Condition text filter (')' :: rest)) :
      BracketContent ('?' :: '(' :: text) (.predicate filter) rest

inductive Bracket : List Char → Segment → List Char → Prop where
  | enclosed {text inside afterContent rest : List Char} {segment : Segment}
      (opening : Blanks text inside) (content : BracketContent inside segment afterContent)
      (closing : Blanks afterContent (']' :: rest)) : Bracket ('[' :: text) segment rest

/-- One segment as it is written. A descent is written together with its target. -/
inductive Written : List Char → List Segment → List Char → Prop where
  | descentName {text rest : List Char} {name : String} (named : Name text name rest) :
      Written ('.' :: '.' :: text) [.descent, .field name] rest
  | descentWildcard {rest : List Char} : Written ('.' :: '.' :: '*' :: rest) [.descent, .wildcard] rest
  | descentBracket {text rest : List Char} {segment : Segment} (bracket : Bracket text segment rest) :
      Written ('.' :: '.' :: text) [.descent, segment] rest
  | name {text rest : List Char} {name : String} (named : Name text name rest) :
      Written ('.' :: text) [.field name] rest
  | wildcard {rest : List Char} : Written ('.' :: '*' :: rest) [.wildcard] rest
  | bracket {text rest : List Char} {segment : Segment} (bracket : Bracket text segment rest) :
      Written text [segment] rest

/-- Segments up to the end of the text, with blanks before each and at the end. -/
inductive Continued : List Char → List Segment → Prop where
  | finished {text : List Char} (blanks : Blanks text []) : Continued text []
  | further {text here rest : List Char} {first more : List Segment} (blanks : Blanks text here)
      (written : Written here first rest) (continued : Continued rest more) :
      Continued text (first ++ more)

/-- A whole expression: the root and the segments after it. -/
inductive Derives : List Char → List Segment → Prop where
  | rooted {text rest : List Char} {segments : List Segment} (blanks : Blanks text ('$' :: rest))
      (continued : Continued rest segments) : Derives text (.root :: segments)

end PathQuery.Proofs.Grammar
