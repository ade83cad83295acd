import Mathlib.Data.List.Forall2
import PathQuery.Proofs.Reached
import PathQuery.Proofs.AnyTrail

/-! What an answer can depend on. A run reads the keys of the steps, and of their values the kinds and the
texts that stand directly in mappings; only at the last value does it look at further keys and at items. Two
trails that are the same in this get the same answers, whatever documents they are of. -/

namespace PathQuery.Proofs.Observations
open PathQuery.Path Leads AnyTrail

/-- A mapping has a scalar with the text directly under the key. -/
def Shows (entries : List (String × Node)) (key text : String) : Prop :=
  ∃ leaf, (key, .scalar leaf) ∈ entries ∧ leaf.text = text

/-- Values of one kind, which show the same texts if they are mappings. -/
inductive Alike : Node → Node → Prop where
  | mapping {first second : List (String × Node)} (same : ∀ key text, Shows first key text ↔ Shows second key text) :
      Alike (.mapping first) (.mapping second)
  | sequence {first second : List Node} : Alike (.sequence first) (.sequence second)
  | scalar {first second : Scalar} : Alike (.scalar first) (.scalar second)

/-- Items that a predicate does not tell apart: mappings that show the same texts, or no mappings at all. -/
inductive Resembling : Node → Node → Prop where
  | mapping {first second : List (String × Node)} (same : ∀ key text, Shows first key text ↔ Shows second key text) :
      Resembling (.mapping first) (.mapping second)
  | other {first second : Node} (former : ∀ entries, first ≠ .mapping entries)
      (latter : ∀ entries, second ≠ .mapping entries) : Resembling first second

/-- What counts at the last step besides: the keys of a mapping, and the items of a sequence. -/
inductive AlikeWithin : Node → Node → Prop where
  | mapping {first second : List (String × Node)}
      (same : ∀ key, key ∈ first.map Prod.fst ↔ key ∈ second.map Prod.fst) :
      AlikeWithin (.mapping first) (.mapping second)
  | sequence {first second : List Node} (items : List.Forall₂ Resembling first second) :
      AlikeWithin (.sequence first) (.sequence second)
  | scalar {first second : Scalar} : AlikeWithin (.scalar first) (.scalar second)

/-- Steps under one key to values that are alike. -/
structure AlikeStep (first second : Step) : Prop where
  key : first.key = second.key
  value : Alike first.value second.value

theorem Alike.symm {first second : Node} (alike : Alike first second) : Alike second first := by
  cases alike with
  | mapping same => exact .mapping fun key text => (same key text).symm
  | sequence => exact .sequence
  | scalar => exact .scalar

theorem Resembling.symm {first second : Node} (resembling : Resembling first second) : Resembling second first := by
  cases resembling with
  | mapping same => exact .mapping fun key text => (same key text).symm
  | other former latter => exact .other latter former

theorem AlikeWithin.symm {first second : Node} (alike : AlikeWithin first second) : AlikeWithin second first := by
  cases alike with
  | mapping same => exact .mapping fun key => (same key).symm
  | sequence items => exact .sequence (List.Forall₂.imp (fun _ _ => Resembling.symm) items.flip)
  | scalar => exact .scalar

theorem AlikeStep.symm {first second : Step} (alike : AlikeStep first second) : AlikeStep second first :=
  ⟨alike.key.symm, alike.value.symm⟩

private theorem Alike.resembling {first second : Node} (alike : Alike first second) : Resembling first second := by
  cases alike with
  | mapping same => exact .mapping same
  | sequence | scalar => exact .other (by simp) (by simp)

theorem Alike.isContainer {first second : Node} (alike : Alike first second)
    (container : first.isContainer = true) : second.isContainer = true := by
  cases alike with
  | mapping | sequence => rfl
  | scalar => cases container

private theorem accepts_mapping {filter : Filter} {entries : List (String × Node)} :
    filter.accepts (.mapping entries) = true ↔ Shows entries filter.field filter.literal := by
  rw [Reached.accepts_iff]
  constructor
  · rintro ⟨_, leaf, same, shown⟩
    cases same
    exact ⟨leaf, shown⟩
  · rintro ⟨leaf, shown⟩
    exact ⟨entries, leaf, rfl, shown⟩

/-- A predicate reads nothing of a value but the texts that it shows. -/
theorem Resembling.accepts {filter : Filter} {first second : Node} (resembling : Resembling first second)
    (accepted : filter.accepts first = true) : filter.accepts second = true := by
  cases resembling with
  | mapping same => exact accepts_mapping.mpr ((same _ _).mp (accepts_mapping.mp accepted))
  | other former =>
    obtain ⟨entries, _, same, _⟩ := Reached.accepts_iff.mp accepted
    exact absurd same (former entries)

private theorem leadsInto_field {name : String} {entries : List (String × Node)} :
    (Segment.field name).leadsInto (.mapping entries) = true ↔ name ∈ entries.map Prod.fst := by
  simp [Segment.leadsInto, Node.valuesAt]

private theorem leadsInto_wildcard {entries : List (String × Node)} :
    Segment.wildcard.leadsInto (.mapping entries) = true ↔ ∃ key, key ∈ entries.map Prod.fst := by
  cases entries with
  | nil => simp [Segment.leadsInto]
  | cons entry entries => exact ⟨fun _ => ⟨entry.1, by simp⟩, fun _ => rfl⟩

/-- To look one step ahead is to read the keys of a mapping, or the number of items in a sequence. -/
theorem AlikeWithin.leadsInto {segment : Segment} {first second : Node} (alike : AlikeWithin first second)
    (leading : segment.leadsInto first = true) : segment.leadsInto second = true := by
  cases alike with
  | mapping same =>
    cases segment with
    | root | descent | index | predicate => cases leading
    | wildcard =>
      obtain ⟨key, member⟩ := leadsInto_wildcard.mp leading
      exact leadsInto_wildcard.mpr ⟨key, (same key).mp member⟩
    | field name => exact leadsInto_field.mpr ((same name).mp (leadsInto_field.mp leading))
  | sequence items =>
    cases segment with
    | root | descent | field | predicate => cases leading
    | wildcard =>
      cases items with
      | nil => cases leading
      | cons => rfl
    | index position => simpa [Segment.leadsInto, items.length_eq] using leading
  | scalar => cases segment <;> cases leading

private theorem exists_resembling {items others : List Node} (alike : List.Forall₂ Resembling items others)
    {item : Node} (member : item ∈ items) : ∃ other ∈ others, Resembling item other := by
  induction alike with
  | nil => cases member
  | cons first _ ih =>
    rcases List.mem_cons.mp member with rfl | member
    · exact ⟨_, by simp, first⟩
    · obtain ⟨other, among, resembling⟩ := ih member
      exact ⟨other, by simp [among], resembling⟩

section Runs
variable {mode : Mode} {segments : List Segment} {here here' : Node} {ahead ahead' : List Step}

/-- A run can be made again where everything that it reads is the same. -/
theorem run_of_alike (run : Run mode segments here ahead) (value : Alike here here')
    (along : List.Forall₂ AlikeStep ahead ahead')
    (within : mode = .encloses → AlikeWithin (arrival here ahead) (arrival here' ahead')) :
    Run mode segments here' ahead' := by
  induction run generalizing here' ahead' with
  | ended settled =>
    refine .ended (settled.imp_right ?_)
    rintro rfl
    exact List.forall₂_nil_left_iff.mp along
  | arrived _ ih => exact .arrived (ih value along within)
  | deeper _ ih =>
    cases along with
    | cons step along => exact .deeper (ih step.value along within)
  | inward wider container =>
    cases along
    exact .inward wider (value.isContainer container)
  | kept accepted _ ih =>
    have accepted := value.resembling.accepts accepted
    have rest := ih value along within
    cases value with
    | mapping => exact .kept accepted rest
  | chosen accepted _ ih =>
    cases value with
    | sequence =>
      cases along with
      | cons step along => exact .chosen (step.value.resembling.accepts accepted) (ih step.value along within)
  | choosing wider member accepted =>
    cases along
    cases within wider with
    | sequence items =>
      obtain ⟨other, among, resembling⟩ := exists_resembling items member
      exact .choosing wider among (resembling.accepts accepted)
  | @across segment _ _ step _ crosses accepted _ ih =>
    cases along with
    | cons step along => exact .across crosses (step.key ▸ accepted) (ih step.value along within)
  | into crosses wider leading =>
    cases along
    exact .into crosses wider ((within wider).leadsInto leading)

end Runs

private theorem alike_symm {steps others : List Step} (along : List.Forall₂ AlikeStep steps others) :
    List.Forall₂ AlikeStep others steps :=
  List.Forall₂.imp (fun _ _ => AlikeStep.symm) along.flip

/-- The last values of two trails are the same to the eye that looks a step ahead. -/
def SameEnd (trail other : Trail) : Prop :=
  ∀ last ∈ trail.steps.getLast?, ∀ last' ∈ other.steps.getLast?, AlikeWithin last.value last'.value

private theorem exists_last (key : StepKey) (here : Node) (ahead : List Step) :
    ∃ last ∈ (⟨key, here⟩ :: ahead : List Step).getLast?, last.value = arrival here ahead :=
  Option.map_eq_some_iff.mp (last_value key here ahead)

private theorem leadsAlong_of_alike {mode : Mode} {path : Path} {trail other : Trail}
    (along : List.Forall₂ AlikeStep trail.steps other.steps) (ends : mode = .encloses → SameEnd trail other)
    (leading : leadsAlong mode path trail = true) : leadsAlong mode path other = true := by
  obtain ⟨root, ahead, rooted, run⟩ := leadsAlong_iff_run.mp leading
  rw [rooted] at along
  generalize same : other.steps = steps at along
  cases along with
  | @cons _ step _ ahead' first along =>
    obtain ⟨key, root'⟩ := step
    obtain rfl : StepKey.root = key := first.key
    refine leadsAlong_iff_run.mpr ⟨root', ahead', same, run_of_alike run first.value along ?_⟩
    intro wider
    obtain ⟨last, found, arrived⟩ := exists_last .root root ahead
    obtain ⟨last', found', arrived'⟩ := exists_last .root root' ahead'
    rw [← arrived, ← arrived']
    exact ends wider last (rooted ▸ found) last' (same ▸ found')

theorem SameEnd.symm {trail other : Trail} (ends : SameEnd trail other) : SameEnd other trail :=
  fun last found last' found' => (ends last' found' last found).symm

private theorem leadsAlong_congr {mode : Mode} {trail other : Trail} (path : Path)
    (along : List.Forall₂ AlikeStep trail.steps other.steps) (ends : mode = .encloses → SameEnd trail other) :
    leadsAlong mode path trail = leadsAlong mode path other := by
  rw [Bool.eq_iff_iff]
  exact ⟨leadsAlong_of_alike along ends, leadsAlong_of_alike (alike_symm along) fun wider => (ends wider).symm⟩

/-- Entries under one key, with the same text in any style or with containers of any content. -/
inductive Restyled : String × Node → String × Node → Prop where
  | scalar {key : String} {first second : Scalar} (same : first.text = second.text) :
      Restyled (key, .scalar first) (key, .scalar second)
  | container {key : String} {first second : Node} (former : first.isContainer = true)
      (latter : second.isContainer = true) : Restyled (key, first) (key, second)

/-- Values of one kind, where the entries of a mapping may be restyled and put in another order. -/
inductive Rearranged : Node → Node → Prop where
  | mapping {first middle second : List (String × Node)} (reordered : first.Perm middle)
      (restyled : List.Forall₂ Restyled middle second) : Rearranged (.mapping first) (.mapping second)
  | sequence {first second : List Node} : Rearranged (.sequence first) (.sequence second)
  | scalar {first second : Scalar} : Rearranged (.scalar first) (.scalar second)

private theorem shows_cons {entry : String × Node} {entries : List (String × Node)} {key text : String} :
    Shows (entry :: entries) key text ↔ (∃ leaf, (key, .scalar leaf) = entry ∧ leaf.text = text) ∨ Shows entries key text := by
  simp only [Shows, List.mem_cons, or_and_right, exists_or]

private theorem shows_of_restyled {first second : List (String × Node)} (restyled : List.Forall₂ Restyled first second)
    (key text : String) : Shows first key text ↔ Shows second key text := by
  induction restyled with
  | nil => rfl
  | cons same _ ih =>
    rw [shows_cons, shows_cons, ih]
    refine or_congr_left ?_
    cases same with
    | scalar same => simp [same]
    | container former latter =>
      have bare {name : String} {value : Node} (container : value.isContainer = true) :
          ¬ ∃ leaf, (key, Node.scalar leaf) = (name, value) ∧ leaf.text = text := by
        rintro ⟨leaf, equal, _⟩
        cases equal
        cases container
      simp only [bare former, bare latter]

private theorem Rearranged.alike {first second : Node} (rearranged : Rearranged first second) : Alike first second := by
  cases rearranged with
  | sequence => exact .sequence
  | scalar => exact .scalar
  | mapping reordered restyled =>
    refine .mapping fun key text => Iff.trans ?_ (shows_of_restyled restyled key text)
    simp only [Shows, reordered.mem_iff]

/-- Two trails with the same keys, to values of the same kinds that show the same texts, get the same answer
to whether they match, and if their last values offer the same further keys or items, also to whether they
are enclosed. So styles, the order of entries and what is in other containers do not count for a match. -/
theorem answers_of_alike (path : Path) (trail other : Trail) (level : trail.atStep = other.atStep) :
    (List.Forall₂ AlikeStep trail.steps other.steps → path.isMatch trail = path.isMatch other ∧
        (SameEnd trail other → path.encloses trail = path.encloses other)) ∧
      (List.Forall₂ (fun step step' => step.key = step'.key ∧ Rearranged step.value step'.value)
        trail.steps other.steps → path.isMatch trail = path.isMatch other) := by
  have isMatch_congr (along : List.Forall₂ AlikeStep trail.steps other.steps) :
      path.isMatch trail = path.isMatch other := by
    have same : leadsAlong .matches path trail = leadsAlong .matches path other :=
      leadsAlong_congr path along fun wider => nomatch wider
    rw [isMatch, isMatch, level, same]
  constructor
  · intro along
    exact ⟨isMatch_congr along, fun ends => leadsAlong_congr path along fun _ => ends⟩
  · intro along
    exact isMatch_congr (along.imp fun _ _ same => ⟨same.1, same.2.alike⟩)

def plainItem : Node := .mapping [("k", .plain "v"), ("n", .mapping [])]

def quotedItem : Node := .mapping [("n", .sequence [.plain "w"]), ("k", .scalar ⟨"v", .doubleQuoted⟩)]

def plainTrail : Trail :=
  ((((Trail.empty.push (.ofDocument 0 (.mapping [("a", .sequence [plainItem])]))).push
    (.ofNode ⟨0, [0]⟩ (.mapping [("a", .sequence [plainItem])]))).push
    ⟨⟨0, [0, 0]⟩, .mappingEntry "a" (.sequence [plainItem])⟩).push
    (.ofNode ⟨0, [0, 0, 0]⟩ (.sequence [plainItem]))).push ⟨⟨0, [0, 0, 0, 0]⟩, .sequenceEntry plainItem⟩

/-- The same keys in another document, with another entry before them. -/
def quotedTrail : Trail :=
  ((((Trail.empty.push (.ofDocument 1 (.mapping [("z", .sequence []), ("a", .sequence [quotedItem])]))).push
    (.ofNode ⟨1, [0]⟩ (.mapping [("z", .sequence []), ("a", .sequence [quotedItem])]))).push
    ⟨⟨1, [0, 1]⟩, .mappingEntry "a" (.sequence [quotedItem])⟩).push
    (.ofNode ⟨1, [0, 1, 0]⟩ (.sequence [quotedItem]))).push ⟨⟨1, [0, 1, 0, 0]⟩, .sequenceEntry quotedItem⟩

theorem answers_of_alike_in_other_style :
    plainTrail.atStep = quotedTrail.atStep ∧ List.Forall₂ AlikeStep plainTrail.steps quotedTrail.steps ∧
      SameEnd plainTrail quotedTrail ∧
      Path.compile "$..[?(@.k == 'v')]" = .ok ⟨[.root, .descent, .predicate ⟨"k", "v"⟩]⟩ ∧
      isMatch ⟨[.root, .descent, .predicate ⟨"k", "v"⟩]⟩ plainTrail = true ∧
      isMatch ⟨[.root, .descent, .predicate ⟨"k", "v"⟩]⟩ quotedTrail = true ∧
      encloses ⟨[.root, .descent, .predicate ⟨"k", "v"⟩]⟩ plainTrail =
        encloses ⟨[.root, .descent, .predicate ⟨"k", "v"⟩]⟩ quotedTrail := by
  have item : Alike plainItem quotedItem := .mapping (by simp [Shows, Node.plain])
  have along : List.Forall₂ AlikeStep plainTrail.steps quotedTrail.steps :=
    .cons ⟨rfl, .mapping (by simp [Shows])⟩ (.cons ⟨rfl, .sequence⟩ (.cons ⟨rfl, item⟩ .nil))
  have ends : SameEnd plainTrail quotedTrail := by
    rintro _ ⟨⟩ _ ⟨⟩
    exact .mapping (by simp [or_comm])
  obtain ⟨same, _⟩ := answers_of_alike ⟨[.root, .descent, .predicate ⟨"k", "v"⟩]⟩ plainTrail quotedTrail rfl
  obtain ⟨matching, enclosing⟩ := same along
  have found : isMatch ⟨[.root, .descent, .predicate ⟨"k", "v"⟩]⟩ plainTrail = true := by decide
  exact ⟨rfl, along, ends, Compiling.compile_of_toOption (by decide +kernel), found, matching ▸ found, enclosing ends⟩

end PathQuery.Proofs.Observations
