import Mathlib.Data.List.Forall2
import PathQuery.Proofs.Pruning

/-! Locations as expressions. The location of a trail is written for people to read, by rules of its
own; read back as an expression it asks for the very keys that the trail goes along. -/

namespace PathQuery.Proofs.Locations
open PathQuery.Expression Grammar Reading Compiling Notation WalkedTrails Positions Leads

/-- The segment that leads over a key and no other. -/
inductive Asks : StepKey → Segment → Prop where
  | name {key : String} : Asks (.name key) (.field key)
  | index {position : Nat} (small : position < Nat.pow 2 64) : Asks (.index position) (.index position)

/-- What locations are made of. -/
def shown (keys : List StepKey) : List Char := keys.flatMap fun key => key.location.toList

private theorem shown_cons (key : StepKey) (keys : List StepKey) :
    shown (key :: keys) = key.location.toList ++ shown keys := rfl

private theorem location_toList (trail : Trail) : trail.location.toList = shown (trail.steps.map Step.key) := by
  simp [Trail.location, shown, String.toList_join, List.flatMap_map]

/-- A name is written after a dot if that can be read back, and as in bracket notation if not. -/
theorem location_name (name : String) :
    (name ≠ "" ∧ (∀ c ∈ name.toList, isNameChar c = true) ∧ (StepKey.name name).location = "." ++ name) ∨
      (StepKey.name name).location = (Segment.field name).display := by
  by_cases plain : name ≠ "" ∧ name.toList.all isNameChar
  · exact .inl ⟨plain.1, List.all_eq_true.mp plain.2, if_pos plain⟩
  · exact .inr (if_neg plain)

private theorem location_index (position : Nat) :
    (StepKey.index position).location = (Segment.index position).display := rfl

/-- The location of any key but the root begins as a segment does. -/
theorem location_first (key : StepKey) :
    key = .root ∨ ∃ c after, key.location.toList = c :: after ∧ (c = '.' ∨ c = '[') := by
  cases key with
  | root => exact .inl rfl
  | detached => exact .inr ⟨'[', ['?', ']'], rfl, .inr rfl⟩
  | index position =>
    rw [location_index]
    exact .inr ⟨'[', (toString position ++ "]").toList, by simp [Segment.display], .inr rfl⟩
  | name name =>
    obtain ⟨_, _, plain⟩ | quoted := location_name name
    · exact .inr ⟨'.', name.toList, by simp [plain], .inl rfl⟩
    · exact .inr ⟨'[', ("'" ++ Text.Quoted.escape name ++ "']").toList, by simp [quoted, Segment.display], .inr rfl⟩

private theorem shown_first (keys : List StepKey) :
    ∀ c ∈ (shown keys).head?, isNameChar c = false ∧ Text.isBlank c = false := by
  cases keys with
  | nil => simp [shown]
  | cons key keys =>
    rintro c first
    obtain rfl | ⟨c, after, text, rfl | rfl⟩ := location_first key
    · cases first
      decide
    · rw [shown_cons, text] at first
      cases first
      decide
    · rw [shown_cons, text] at first
      cases first
      decide

private theorem starts_shown (keys : List StepKey) : Starts (shown keys) := fun c first => (shown_first keys c first).2

private theorem readSegments_location {key : StepKey} {segment : Segment} (asks : Asks key segment)
    (keys : List StepKey) :
    readSegments (shown (key :: keys)) = .ok ([segment], shown keys) := by
  rw [shown_cons]
  cases asks with
  | @index position small =>
    have bracketed : Bracketed (.index position) := small
    rw [location_index]
    exact readSegments_bracket (bracket_display bracketed (shown keys))
  | @name name =>
    obtain ⟨some, inside, plain⟩ | quoted := location_name name
    · have ended : ∀ c ∈ (shown keys).head?, isNameChar c = false := fun c first => (shown_first keys c first).1
      have named : Name (name.toList ++ shown keys) name (shown keys) := ⟨some, rfl, inside, ended⟩
      rw [plain, String.toList_append, List.append_assoc]
      exact readSegments_name named
    · have bracketed : Bracketed (.field name) := trivial
      rw [quoted]
      exact readSegments_bracket (bracket_display bracketed (shown keys))

/-- What stands in a bracket without blanks before it. -/
theorem content_of_readSegments {text rest : List Char} {segments : List Segment}
    (done : readSegments ('[' :: text) = .ok (segments, rest)) (starts : Starts text) :
    ∃ segment after, BracketContent text segment after := by
  cases readSegments_sound done with
  | written written =>
    cases written with
    | bracket bracket =>
      cases bracket with
      | enclosed blanks content =>
        have same := (dropBlank_eq blanks (BracketContent.starts content)).symm.trans
          (dropBlank_eq (blanks_refl text) starts)
        exact ⟨_, _, same ▸ content⟩

/-- Digits in a bracket are read as the index that they are written for. -/
theorem small_of_readSegments {position : Nat} {keys : List StepKey} {segments : List Segment} {rest : List Char}
    (done : readSegments (shown (.index position :: keys)) = .ok (segments, rest)) : position < Nat.pow 2 64 := by
  have text : shown (.index position :: keys) = '[' :: (Nat.toDigits 10 position ++ ']' :: shown keys) := by
    simp [shown_cons, location_index, Segment.display]
  have longest := digits_display position (shown keys)
  obtain ⟨c, digits, same⟩ := List.exists_cons_of_ne_nil (Nat.toDigits_ne_nil (b := 10) (n := position))
  have digit : c.isDigit = true := longest.2.1 c (by simp [same])
  rw [text] at done
  obtain ⟨_, _, content⟩ := content_of_readSegments done (by rw [same]; exact starts_cons (isBlank_digit digit))
  generalize whole : Nat.toDigits 10 position ++ ']' :: shown keys = inside at longest content
  rw [same, List.cons_append] at whole
  cases content with
  | wildcard | predicate =>
    obtain ⟨rfl, _⟩ := List.cons.inj whole
    exact absurd digit (by decide)
  | field quoted =>
    cases quoted with
    | single | double =>
      obtain ⟨rfl, _⟩ := List.cons.inj whole
      exact absurd digit (by decide)
  | index counted =>
    obtain ⟨digits', _, longest', rfl, small⟩ := counted
    rwa [(longest_iff.mp longest').1, ← (longest_iff.mp longest).1, Nat.ofDigitChars_ten_toDigits] at small

/-- Nothing is read at the location of the root or of a detached entry, and no index that is too large. -/
theorem asks_of_readSegments {key : StepKey} {keys : List StepKey} {segments : List Segment} {rest : List Char}
    (done : readSegments (shown (key :: keys)) = .ok (segments, rest)) : ∃ segment, Asks key segment := by
  cases key with
  | name name => exact ⟨_, .name⟩
  | index position => exact ⟨_, .index (small_of_readSegments done)⟩
  | root => cases done
  | detached =>
    have read : readSegments ('[' :: '?' :: ']' :: shown keys) = .ok (segments, rest) := done
    obtain ⟨_, _, content⟩ := content_of_readSegments read (starts_cons (by decide))
    cases content with
    | field quoted => cases quoted
    | index counted =>
      obtain ⟨_, _, same, digit⟩ := Index.first counted
      cases same
      cases digit

/-- Locations are read key by key. -/
theorem readRest_shown {keys : List StepKey} {segments : List Segment} :
    Path.readRest (shown keys) = .ok segments ↔ List.Forall₂ Asks keys segments := by
  have finished : Path.readRest (shown []) = .ok [] := readRest_finished (blanks_refl [])
  constructor
  · intro done
    induction keys generalizing segments with
    | nil =>
      cases finished.symm.trans done
      exact .nil
    | cons key keys ih =>
      have here := dropBlank_eq (blanks_refl _) (starts_shown (key :: keys))
      obtain ⟨empty, _⟩ | ⟨first, rest, more, read, further, rfl⟩ := readRest_inversion done
      · rw [here] at empty
        obtain rfl | ⟨c, after, text, _⟩ := location_first key
        · cases empty
        · rw [shown_cons, text] at empty
          cases empty
      · rw [here] at read
        obtain ⟨segment, asks⟩ := asks_of_readSegments read
        cases (readSegments_location asks keys).symm.trans read
        exact .cons asks (ih further)
  · intro asked
    induction asked with
    | nil => exact finished
    | cons asks _ ih =>
      exact readRest_turn (blanks_refl _) (starts_shown _) (readSegments_location asks _) ih

private theorem read_shown {keys : List StepKey} {segments : List Segment} :
    Path.read (shown keys) = .ok ⟨segments⟩ ↔
      ∃ later asked, keys = .root :: later ∧ segments = .root :: asked ∧ List.Forall₂ Asks later asked := by
  rw [read_iff]
  constructor
  · intro derived
    cases derived with
    | @rooted rest asked blanks continued =>
      have text := (dropBlank_eq (blanks_refl _) (starts_shown keys)).symm.trans
        (dropBlank_eq blanks (starts_cons (by decide)))
      cases keys with
      | nil => cases text
      | cons key later =>
        obtain rfl | ⟨c, after, written, rfl | rfl⟩ := location_first key
        · cases text
          exact ⟨later, asked, rfl, rfl, readRest_shown.mp (readRest_complete continued)⟩
        · rw [shown_cons, written] at text
          cases text
        · rw [shown_cons, written] at text
          cases text
  · rintro ⟨later, asked, rfl, rfl, asks⟩
    exact .rooted (blanks_refl _) (readRest_sound (readRest_shown.mpr asks))

/-- The location of a trail compiles just when it goes from a root over names and indexes, and then to the
segments that ask for these. -/
theorem compile_location {trail : Trail} {segments : List Segment} :
    Path.compile trail.location = .ok ⟨segments⟩ ↔ ∃ later asked,
      trail.steps.map Step.key = .root :: later ∧ segments = .root :: asked ∧ List.Forall₂ Asks later asked := by
  rw [compile_iff, ← read_iff, location_toList, read_shown]

/-- All sequences on the trail can be counted with the indexes that expressions have. -/
def Short (trail : Trail) : Prop :=
  ∀ element ∈ trail.elements, ∀ items, element.content = .sequence items → items.length < Nat.pow 2 64

/-- An index is that of an entry of the sequence before it. -/
theorem index_of_step {before : Option Element} {element : Element} {step : Step} {position : Nat}
    (found : Step.of? before element = some step) (index : step.key = .index position) :
    ∃ parent items, before = some parent ∧ parent.content = .sequence items ∧ position < items.length := by
  obtain ⟨place, content⟩ := element
  unfold Step.of? at found
  split at found
  · cases found
    cases index
  · cases found
    cases index
  · split at found
    next parent items =>
      split at found
      next stands =>
        cases found
        cases index
        exact ⟨_, items, rfl, rfl, of_decide_eq_true (Option.filter_eq_some_iff.mp stands).2⟩
      next =>
        cases found
        cases index
    next =>
      cases found
      cases index
  all_goals cases found

private theorem index_of_chain {before : Option Element} {chain : List Element} {step : Step} {position : Nat}
    (member : step ∈ Step.ofChain before chain) (index : step.key = .index position) :
    ∃ parent ∈ before.toList ++ chain, ∃ items, parent.content = .sequence items ∧ position < items.length := by
  induction chain generalizing before with
  | nil => cases member
  | cons element chain ih =>
    rcases List.mem_append.mp member with here | further
    · obtain ⟨parent, items, rfl, rest⟩ := index_of_step (Option.mem_toList.mp here) index
      exact ⟨parent, by simp, items, rest⟩
    · obtain ⟨parent, among, rest⟩ := ih further
      exact ⟨parent, List.mem_append_right _ among, rest⟩

theorem Short.index {trail : Trail} {step : Step} {position : Nat} (short : Short trail)
    (member : step ∈ trail.steps) (index : step.key = .index position) : position < Nat.pow 2 64 := by
  obtain ⟨parent, among, items, content, inside⟩ := index_of_chain member index
  exact Nat.lt_trans inside (short parent (by simpa using among) items content)

theorem Asks.unique {key other : StepKey} {segment : Segment} (asks : Asks key segment) (asks' : Asks other segment) :
    key = other := by
  cases asks <;> cases asks' <;> rfl

private theorem asked_unique {keys others : List StepKey} {segments : List Segment}
    (asks : List.Forall₂ Asks keys segments) (asks' : List.Forall₂ Asks others segments) : keys = others := by
  induction asks generalizing others with
  | nil =>
    cases asks'
    rfl
  | cons first _ ih =>
    cases asks' with
    | cons first' rest' => rw [first.unique first', ih rest']

private theorem exists_asked_iff {keys : List StepKey} :
    (∃ segments, List.Forall₂ Asks keys segments) ↔ ∀ key ∈ keys, ∃ segment, Asks key segment := by
  constructor
  · rintro ⟨segments, asks⟩
    induction asks with
    | nil => simp
    | cons first _ ih => exact List.forall_mem_cons.mpr ⟨⟨_, first⟩, ih⟩
  · intro each
    induction keys with
    | nil => exact ⟨[], .nil⟩
    | cons key keys ih =>
      obtain ⟨⟨segment, first⟩, others⟩ := List.forall_mem_cons.mp each
      obtain ⟨segments, rest⟩ := ih others
      exact ⟨segment :: segments, .cons first rest⟩

private theorem acceptsKey_iff {key other : StepKey} {segment : Segment} (asks : Asks key segment) :
    segment.acceptsKey other = true ↔ key = other := by
  cases asks <;> cases other <;> simp [Segment.acceptsKey]

/-- The segments that ask for keys lead along these keys and no others, whatever the values are. -/
theorem leads_asked {keys : List StepKey} {segments : List Segment} {here : Node} {steps : List Step}
    (asks : List.Forall₂ Asks keys segments) :
    Path.leads .matches segments here steps = true ↔ keys = steps.map Step.key := by
  induction asks generalizing here steps with
  | nil => simp [leads_nil]
  | @cons key segment keys segments first _ ih =>
    have crosses : OverKey segment := by cases first <;> trivial
    cases steps with
    | nil => simp [leads_over_nil crosses]
    | cons step steps => rw [leads_over_cons crosses, acceptsKey_iff first, ih, List.map_cons, List.cons.injEq]

/-- The first step is a root, and every later one has a name or an index. -/
def Addressed (trail : Trail) : Prop :=
  ∃ root later, trail.steps = ⟨.root, root⟩ :: later ∧
    ∀ step ∈ later, (∃ name, step.key = .name name) ∨ ∃ position, step.key = .index position

private theorem addressed_iff {trail : Trail} (short : Short trail) :
    (∃ path, Path.compile trail.location = .ok path) ↔ Addressed trail := by
  constructor
  · rintro ⟨⟨segments⟩, compiled⟩
    obtain ⟨keys, asked, along, rfl, asks⟩ := compile_location.mp compiled
    obtain ⟨⟨_, root⟩, later, steps, rfl, rfl⟩ := List.map_eq_cons_iff.mp along
    refine ⟨root, later, steps, ?_⟩
    intro step member
    obtain ⟨segment, asks⟩ := exists_asked_iff.mp ⟨asked, asks⟩ step.key (List.mem_map_of_mem member)
    generalize step.key = key at asks
    cases asks with
    | name => exact .inl ⟨_, rfl⟩
    | index => exact .inr ⟨_, rfl⟩
  · rintro ⟨root, later, steps, keyed⟩
    have each : ∀ key ∈ later.map Step.key, ∃ segment, Asks key segment := by
      intro key member
      obtain ⟨step, among, rfl⟩ := List.mem_map.mp member
      obtain ⟨name, named⟩ | ⟨position, index⟩ := keyed step among
      · rw [named]
        exact ⟨_, .name⟩
      · rw [index]
        exact ⟨_, .index (short.index (by simp [steps, among]) index)⟩
    obtain ⟨asked, asks⟩ := exists_asked_iff.mpr each
    exact ⟨_, compile_location.mpr ⟨_, asked, by simp [steps], rfl, asks⟩⟩

private theorem keyed_of_route {first last : Element} {steps : List Step} (route : Route first steps last) :
    ∀ step ∈ steps, (∃ name, step.key = .name name) ∨ ∃ position, step.key = .index position := by
  induction route with
  | here => simp
  | down hangs _ ih =>
    refine List.forall_mem_cons.mpr ⟨?_, ih⟩
    cases hangs with
    | mapping => exact .inl ⟨_, rfl⟩
    | sequence => exact .inr ⟨_, rfl⟩

private theorem location_eq (trail : Trail) :
    trail.location = String.join ((trail.steps.map Step.key).map StepKey.location) := by
  rw [List.map_map]
  rfl

/-- Where the location of one trail compiles, only trails with the same keys have the same location. -/
theorem location_eq_iff {trail other : Trail} {path : Path} (compiled : Path.compile trail.location = .ok path) :
    other.location = trail.location ↔ other.steps.map Step.key = trail.steps.map Step.key := by
  obtain ⟨segments⟩ := path
  constructor
  · intro same
    obtain ⟨keys, asked, along, rfl, asks⟩ := compile_location.mp compiled
    rw [← same] at compiled
    obtain ⟨keys', asked', along', same', asks'⟩ := compile_location.mp compiled
    cases same'
    rw [along, along', asked_unique asks asks']
  · intro same
    rw [location_eq, location_eq, same]

/-- The location of a trail, as a path, matches the steps with the same keys. -/
theorem isMatch_iff_keys {document : Nat} {root : Node} {trail other : Trail} {path : Path}
    (compiled : Path.compile trail.location = .ok path) (descends : Descends document root other) :
    path.isMatch other = true ↔ other.atStep = true ∧ other.steps.map Step.key = trail.steps.map Step.key := by
  obtain ⟨segments⟩ := path
  obtain ⟨keys, asked, along, rfl, asks⟩ := compile_location.mp compiled
  obtain ⟨position, steps, stands⟩ := stands_of_descends descends
  rw [Path.isMatch, Bool.and_eq_true, leadsAlong_iff stands, leads_asked asks, along, stands.rooted, List.map_cons,
    List.cons.injEq, eq_comm (a := keys)]
  simp

/-- No mapping on the trail has two entries under one key. -/
def Distinct (trail : Trail) : Prop :=
  ∀ element ∈ trail.elements, ∀ entries, element.content = .mapping entries → (entries.map Prod.fst).Nodup

/-- In a mapping with distinct keys, and in any sequence, the key tells the entry. -/
theorem entry_of_key {position bare entry other : Element} {step step' : Step} (hangs : Entry position step entry)
    (hangs' : Entry position step' other) (within : bare ∈ position.children) (same : step.key = step'.key)
    (distinct : ∀ entries, bare.content = .mapping entries → (entries.map Prod.fst).Nodup) : entry = other := by
  cases hangs with
  | @mapping entries index key _ holds found =>
    cases hangs' with
    | sequence holds' => cases holds.symm.trans holds'
    | @mapping _ index' _ _ holds' found' =>
      cases holds.symm.trans holds'
      cases same
      rw [children_of_value holds, List.mem_singleton] at within
      have once := distinct entries (by rw [within]; rfl)
      have inside := (List.getElem?_eq_some_iff.mp found).1
      have here : (entries.map Prod.fst)[index]? = some key := by simp [found]
      have there : (entries.map Prod.fst)[index']? = some key := by simp [found']
      obtain rfl := (List.getElem?_inj (by simpa using inside) once).mp (here.trans there.symm)
      cases found.symm.trans found'
      rfl
  | sequence holds found =>
    cases hangs' with
    | mapping holds' => cases holds.symm.trans holds'
    | sequence holds' found' =>
      cases holds.symm.trans holds'
      cases same
      cases found.symm.trans found'
      rfl

/-- Only the first trail of a walk has a single step. -/
theorem start_of_keys {document : Nat} {root : Node} {trail : Trail} (descends : Descends document root trail)
    (atStep : trail.atStep = true) (single : trail.steps.length = 1) :
    trail = Trail.empty.push (.ofDocument document root) := by
  obtain start | ⟨above, _, _, _, _, _, descendsAbove, _, _, _, _, steps⟩ := keyed_cases descends atStep
  · exact start
  · obtain ⟨_, _, stands⟩ := stands_of_descends descendsAbove
    rw [steps, stands.rooted] at single
    simp at single

/-- Along distinct keys there is no other way with the same keys. -/
theorem trail_of_keys {document : Nat} {root : Node} {trail other : Trail} (descends : Descends document root trail)
    (descends' : Descends document root other) (atStep : trail.atStep = true) (atStep' : other.atStep = true)
    (distinct : Distinct trail) (same : trail.steps.map Step.key = other.steps.map Step.key) : other = trail := by
  induction size : trail.elements.length using Nat.strongRecOn generalizing trail other with
  | ind size ih =>
    have lengths : trail.steps.length = other.steps.length := by simpa using congrArg List.length same
    obtain start | ⟨above, position, bare, entry, step, rfl, descendsAbove, atStepAbove, current, within, hangs, steps⟩ :=
      keyed_cases descends atStep
    · rw [start_of_keys descends' atStep' (by rw [← lengths, start]; rfl), start]
    obtain start | ⟨above', position', bare', entry', step', rfl, descendsAbove', atStepAbove', current', within',
        hangs', steps'⟩ := keyed_cases descends' atStep'
    · rw [start_of_keys descends atStep (by rw [lengths, start]; rfl), start]
    rw [steps, steps', List.map_append, List.map_append] at same
    obtain ⟨keys, last⟩ := List.append_inj' same rfl
    have inside : ∀ element ∈ above.elements, element ∈ ((above.push bare).push entry).elements := by
      intro element member
      simp [Trail.push, member]
    obtain rfl := ih above.elements.length (by simp [← size, Trail.push]) descendsAbove descendsAbove'
      atStepAbove atStepAbove' (fun element member => distinct element (inside element member)) keys rfl
    cases current.symm.trans current'
    obtain ⟨value, holds⟩ : ∃ value, position.value? = some value := by cases hangs <;> exact ⟨_, ‹_›⟩
    rw [children_of_value holds, List.mem_singleton] at within within'
    have key : step.key = step'.key := by simpa using last
    have here : bare ∈ position.children := by simp [children_of_value holds, within]
    rw [entry_of_key hangs hangs' here key (fun entries => distinct bare (by simp [Trail.push]) entries), within, within']

variable {document : Nat} {root : Node}

/-- Where keys are distinct, the location of a trail selects its element and nothing else. -/
theorem collect_location {trail : Trail} {path : Path} {element : Element}
    (compiled : Path.compile trail.location = .ok path) (descends : Descends document root trail)
    (current : trail.current? = some element) (atStep : trail.atStep = true) (distinct : Distinct trail) :
    path.collect .matches none document root = [⟨trail.location, element⟩] := by
  have found := (isMatch_iff_keys compiled descends).mpr ⟨atStep, rfl⟩
  have member : ⟨trail.location, element⟩ ∈ path.collect .matches none document root :=
    (Pruning.mem_collect_iff compiled).mpr ⟨trail, descends, found, current, rfl⟩
  have only : ∀ hit ∈ path.collect .matches none document root, hit = ⟨trail.location, element⟩ := by
    rintro ⟨location, element'⟩ among
    obtain ⟨other, descends', found', current', rfl⟩ := (Pruning.mem_collect_iff compiled).mp among
    obtain ⟨atStep', keys⟩ := (isMatch_iff_keys compiled descends').mp found'
    obtain rfl := trail_of_keys descends descends' atStep atStep' distinct keys.symm
    cases current.symm.trans current'
    rfl
  have once := Pruning.collect_nodup path .matches document root
  generalize path.collect .matches none document root = hits at member only once
  match hits with
  | [] => cases member
  | [hit] => rw [only hit (by simp)]
  | first :: second :: _ =>
    rw [only first (by simp), only second (by simp)] at once
    simp at once

/-- The location of any trail is an expression just when the trail goes from a root over names and indexes, and
then it asks for these one after the other. In a document it matches the trail and the elements with the same
location, and where the keys on the way are distinct it selects the element alone. -/
theorem location_names_place (trail : Trail) (short : Short trail) :
    ((∃ path, Path.compile trail.location = .ok path) ↔ Addressed trail) ∧
      (∀ path, Path.compile trail.location = .ok path → ∃ asked, path.segments = .root :: asked ∧
        List.Forall₂ (fun step segment => Asks step.key segment) trail.steps.tail asked) ∧
      ∀ document root element, Walked document root trail → trail.current? = some element →
        element.isKeyed = true → ∃ path, Path.compile trail.location = .ok path ∧ path.isMatch trail = true ∧
          (∀ other, Walked document root other → other.atStep = true →
            (path.isMatch other = true ↔ other.location = trail.location)) ∧
          (Distinct trail → path.collect .matches none document root = [⟨trail.location, element⟩]) := by
  refine ⟨addressed_iff short, ?_, ?_⟩
  · rintro ⟨segments⟩ compiled
    obtain ⟨keys, asked, along, rfl, asks⟩ := compile_location.mp compiled
    refine ⟨asked, rfl, ?_⟩
    have later : trail.steps.tail.map Step.key = keys := by rw [List.map_tail, along, List.tail_cons]
    rwa [← later, List.forall₂_map_left_iff] at asks
  · intro document root element walked current keyed
    obtain ⟨position, steps, stands⟩ := stands_of_descends walked.descends
    have atStep : trail.atStep = true := by simp [Trail.atStep, current, keyed]
    obtain ⟨path, compiled⟩ := (addressed_iff short).mpr ⟨root, steps, stands.rooted, keyed_of_route stands.route⟩
    refine ⟨path, compiled, (isMatch_iff_keys compiled walked.descends).mpr ⟨atStep, rfl⟩, ?_,
      collect_location compiled walked.descends current atStep⟩
    intro other walked' atStep'
    rw [isMatch_iff_keys compiled walked'.descends, location_eq_iff compiled]
    simp [atStep']

/-- Two equal items under a key that has to be quoted. -/
def twins : Node := .mapping [("o'n.e\\", .sequence [.plain "x", .plain "x"])]

def secondTwin : Trail :=
  ((((Trail.empty.push (.ofDocument 0 twins)).push (.ofNode ⟨0, [0]⟩ twins)).push
    ⟨⟨0, [0, 0]⟩, .mappingEntry "o'n.e\\" (.sequence [.plain "x", .plain "x"])⟩).push
    (.ofNode ⟨0, [0, 0, 0]⟩ (.sequence [.plain "x", .plain "x"]))).push
    ⟨⟨0, [0, 0, 0, 1]⟩, .sequenceEntry (.plain "x")⟩

theorem location_names_place_of_twin :
    Short secondTwin ∧ Walked 0 twins secondTwin ∧ Distinct secondTwin ∧
      secondTwin.location = "$['o\\'n.e\\\\'][1]" ∧ Addressed secondTwin ∧
      ∃ path, Path.compile secondTwin.location = .ok path ∧ path.isMatch secondTwin = true ∧
        path.collect .matches none 0 twins =
          [⟨secondTwin.location, ⟨⟨0, [0, 0, 0, 1]⟩, .sequenceEntry (.plain "x")⟩⟩] := by
  have short : Short secondTwin := by
    intro element member items content
    simp only [secondTwin, twins, Trail.push, Trail.empty, List.nil_append, List.cons_append, List.mem_cons,
      List.not_mem_nil, or_false] at member
    rcases member with rfl | rfl | rfl | rfl | rfl <;> cases content
    decide
  have distinct : Distinct secondTwin := by
    intro element member entries content
    simp only [secondTwin, twins, Trail.push, Trail.empty, List.nil_append, List.cons_append, List.mem_cons,
      List.not_mem_nil, or_false] at member
    rcases member with rfl | rfl | rfl | rfl | rfl <;> cases content
    decide
  have walked : Walked 0 twins secondTwin :=
    Visited.walked_iff.mpr (.down (.down (.down (.down .start (by decide)) (by decide)) (by decide)) (by decide))
  obtain ⟨addressed, _, places⟩ := location_names_place secondTwin short
  obtain ⟨path, compiled, found, _, selected⟩ := places 0 twins _ walked rfl rfl
  exact ⟨short, walked, distinct, by decide +kernel, addressed.mp ⟨path, compiled⟩, path, compiled, found, selected distinct⟩

end PathQuery.Proofs.Locations
