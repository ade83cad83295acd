import PathQuery.Proofs.LoadedTrees

/-! What a source loads as, whatever reads and prints its format. A stream loads if every document in it is
read and its value has a tree. Otherwise its error is that of the first document of which this does not
hold, and no document is loaded, neither before that one nor after it. -/

namespace PathQuery.Proofs.Loading
open LoadedTrees

section Documents
variable {ε : Type} (printer : Yaml.Printer ε)

/-- A document was read, and its value has this tree. -/
inductive Held : Except ε Yaml.Value → Node → Prop where
  | tree {value : Yaml.Value} {root : Node} (loaded : Node.ofYaml printer value = .ok root) : Held (.ok value) root

/-- A document was not read, or its value has no tree. -/
inductive Broken : Except ε Yaml.Value → ε → Prop where
  | unread {error : ε} : Broken (.error error) error
  | unprinted {value : Yaml.Value} {error : ε} (failed : Node.ofYaml printer value = .error error) :
      Broken (.ok value) error

end Documents

section Sources
variable {ε δ : Type} (codecs : Codecs ε δ) (source : String)

inductive Loads : SourceFormat → List Node → Prop where
  | json {value : Json.Value} (read : codecs.json.read source = .ok value) :
      Loads .json [.ofJson codecs.json.numberText value]
  | yaml {documents : List Node}
      (held : List.Forall₂ (Held codecs.yaml.toPrinter) (codecs.yaml.documents source) documents) :
      Loads .yaml documents

/-- The error is that of the format's own reader or printer. In a stream it comes from the first document that
is broken. -/
inductive Fails : SourceFormat → LoadError ε δ → Prop where
  | json {error : δ} (unread : codecs.json.read source = .error error) : Fails .json (.json error)
  | yaml {before after : List (Except ε Yaml.Value)} {roots : List Node} {document : Except ε Yaml.Value} {error : ε}
      (stream : codecs.yaml.documents source = before ++ document :: after)
      (held : List.Forall₂ (Held codecs.yaml.toPrinter) before roots)
      (broken : Broken codecs.yaml.toPrinter document error) : Fails .yaml (.yaml error)

end Sources

variable {ε δ : Type}

private theorem mapM_eq_ok_iff {α β : Type} {read : α → Except ε β} {items : List α} {results : List β} :
    items.mapM read = .ok results ↔ List.Forall₂ (fun item result => read item = .ok result) items results := by
  induction items generalizing results with
  | nil => simp [pure, Except.pure, eq_comm]
  | cons item items ih =>
    rw [List.mapM_cons, bind_eq_ok_iff, List.forall₂_cons_left_iff]
    constructor
    · intro read
      obtain ⟨result, here, done⟩ := read
      obtain ⟨others, rest, same⟩ := bind_eq_ok_iff.mp done
      cases same
      exact ⟨result, others, here, ih.mp rest, rfl⟩
    · intro each
      obtain ⟨result, others, here, rest, same⟩ := each
      refine ⟨result, here, bind_eq_ok_iff.mpr ⟨others, ih.mpr rest, ?_⟩⟩
      rw [same]
      rfl

/-- A list fails with the first item of it that does. -/
theorem mapM_eq_error_iff {α β : Type} {read : α → Except ε β} {items : List α} {error : ε} :
    items.mapM read = .error error ↔ ∃ before item after results, items = before ++ item :: after ∧
      List.Forall₂ (fun item result => read item = .ok result) before results ∧ read item = .error error := by
  constructor
  · intro failed
    induction items with
    | nil => cases failed
    | cons item items ih =>
      rw [List.mapM_cons, bind_eq_error_iff] at failed
      obtain here | ⟨result, read, failed⟩ := failed
      · exact ⟨[], item, items, [], rfl, .nil, here⟩
      · obtain later | ⟨_, _, ended⟩ := bind_eq_error_iff.mp failed
        · obtain ⟨before, other, after, results, split, each, failed⟩ := ih later
          exact ⟨item :: before, other, after, result :: results, by simp [split], .cons read each, failed⟩
        · cases ended
  · intro ⟨before, item, after, results, split, each, failed⟩
    have read : before.mapM read = .ok results := mapM_eq_ok_iff.mpr each
    rw [split, List.mapM_append, read, List.mapM_cons, failed]
    rfl

private theorem held_iff {printer : Yaml.Printer ε} {document : Except ε Yaml.Value} {root : Node} :
    document >>= Node.ofYaml printer = .ok root ↔ Held printer document root := by
  rw [bind_eq_ok_iff]
  constructor
  · intro ⟨value, read, loaded⟩
    rw [read]
    exact .tree loaded
  · intro held
    cases held with
    | tree loaded => exact ⟨_, rfl, loaded⟩

private theorem broken_iff {printer : Yaml.Printer ε} {document : Except ε Yaml.Value} {error : ε} :
    document >>= Node.ofYaml printer = .error error ↔ Broken printer document error := by
  rw [bind_eq_error_iff]
  constructor
  · intro failed
    obtain unread | ⟨value, read, failed⟩ := failed
    · rw [unread]
      exact .unread
    · rw [read]
      exact .unprinted failed
  · intro broken
    cases broken with
    | unread => exact .inl rfl
    | unprinted failed => exact .inr ⟨_, rfl, failed⟩

private theorem stream_eq_ok_iff {codec : Yaml.Codec ε} {source : String} {documents : List Node} :
    codec.load source = .ok documents ↔ List.Forall₂ (Held codec.toPrinter) (codec.documents source) documents := by
  rw [Yaml.Codec.load, mapM_eq_ok_iff]
  simp only [held_iff]

private theorem stream_eq_error_iff {codec : Yaml.Codec ε} {source : String} {error : ε} :
    codec.load source = .error error ↔ ∃ before document after roots,
      codec.documents source = before ++ document :: after ∧ List.Forall₂ (Held codec.toPrinter) before roots ∧
        Broken codec.toPrinter document error := by
  rw [Yaml.Codec.load, mapM_eq_error_iff]
  simp only [held_iff, broken_iff]

private theorem mapError_eq_ok_iff {α η : Type} {first : Except ε α} {change : ε → η} {result : α} :
    first.mapError change = .ok result ↔ first = .ok result := by
  cases first <;> simp [Except.mapError]

private theorem mapError_eq_error_iff {α η : Type} {first : Except ε α} {change : ε → η} {error : η} :
    first.mapError change = .error error ↔ ∃ cause, first = .error cause ∧ change cause = error := by
  cases first <;> simp [Except.mapError]

variable {codecs : Codecs ε δ} {format : SourceFormat} {source : String}

theorem load_eq_ok_iff {documents : List Node} :
    format.load codecs source = .ok documents ↔ Loads codecs source format documents := by
  cases format with
  | json =>
    rw [SourceFormat.load, bind_eq_ok_iff]
    constructor
    · intro ⟨root, loaded, same⟩
      rw [mapError_eq_ok_iff, Json.Codec.load, map_eq_ok_iff] at loaded
      obtain ⟨value, read, rfl⟩ := loaded
      cases same
      exact .json read
    · intro loads
      cases loads with
      | json read => exact ⟨_, mapError_eq_ok_iff.mpr (map_eq_ok_iff.mpr ⟨_, read, rfl⟩), rfl⟩
  | yaml =>
    rw [SourceFormat.load, mapError_eq_ok_iff, stream_eq_ok_iff]
    constructor
    · exact .yaml
    · intro loads
      cases loads with
      | yaml held => exact held

theorem load_eq_error_iff {error : LoadError ε δ} :
    format.load codecs source = .error error ↔ Fails codecs source format error := by
  cases format with
  | json =>
    rw [SourceFormat.load, bind_eq_error_iff]
    constructor
    · intro failed
      obtain failed | ⟨_, _, ended⟩ := failed
      · obtain ⟨cause, unread, rfl⟩ := mapError_eq_error_iff.mp failed
        exact .json (map_eq_error_iff.mp unread)
      · cases ended
    · intro fails
      cases fails with
      | json unread => exact .inl (mapError_eq_error_iff.mpr ⟨_, map_eq_error_iff.mpr unread, rfl⟩)
  | yaml =>
    rw [SourceFormat.load, mapError_eq_error_iff]
    constructor
    · intro ⟨cause, failed, same⟩
      obtain ⟨before, document, after, roots, stream, held, broken⟩ := stream_eq_error_iff.mp failed
      exact same ▸ .yaml stream held broken
    · intro fails
      cases fails with
      | yaml stream held broken => exact ⟨_, stream_eq_error_iff.mpr ⟨_, _, _, _, stream, held, broken⟩, rfl⟩

end PathQuery.Proofs.Loading
