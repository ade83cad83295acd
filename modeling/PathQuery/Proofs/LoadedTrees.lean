import Mathlib.Data.List.Forall2
import PathQuery.Source

/-! The trees that values are loaded as. A tree has the shape of its value: an item for each item and an
entry for each pair, in their order and also where two keys have the same text. Tags make no difference,
and a value that is written in both formats is loaded as one tree, up to the style of its scalars. Loading
fails exactly where a collection that stands as a key cannot be printed, with the error of the printer. All
of this holds for any printer and any texts of numbers. -/

namespace PathQuery.Proofs.LoadedTrees
open Yaml (Value)
open Node (ofYaml ofYamlItems ofYamlEntries keyText ofJson ofJsonItems ofJsonMembers)

/-- A value without the tags that are on itself. -/
def bare : Value → Value
  | .tagged _ value => bare value
  | value => value

mutual
/-- A value without the tags on itself and on the values in it. Of a key only the tags on itself are left out. -/
def untagged : Value → Value
  | .tagged _ value => untagged value
  | .sequence items => .sequence (untaggedItems items)
  | .mapping entries => .mapping (untaggedEntries entries)
  | value => value

def untaggedItems : List Value → List Value
  | [] => []
  | item :: items => untagged item :: untaggedItems items

def untaggedEntries : List (Value × Value) → List (Value × Value)
  | [] => []
  | (key, value) :: entries => (bare key, untagged value) :: untaggedEntries entries
end

mutual
/-- A tree with all of its scalars plain. -/
def plainly : Node → Node
  | .mapping entries => .mapping (plainlyEntries entries)
  | .sequence items => .sequence (plainlyItems items)
  | .scalar leaf => .plain leaf.text

def plainlyItems : List Node → List Node
  | [] => []
  | item :: items => plainly item :: plainlyItems items

def plainlyEntries : List (String × Node) → List (String × Node)
  | [] => []
  | (key, value) :: entries => (key, plainly value) :: plainlyEntries entries
end

/-- The keys of a mapping that is the value or is reached from it through values, without the tags on them. -/
inductive KeyWithin : Value → Value → Prop where
  | own {entries : List (Value × Value)} {entry : Value × Value} (among : entry ∈ entries) :
      KeyWithin (.mapping entries) (bare entry.1)
  | tagged {tag : String} {value key : Value} (within : KeyWithin value key) : KeyWithin (.tagged tag value) key
  | item {items : List Value} {item key : Value} (among : item ∈ items) (within : KeyWithin item key) :
      KeyWithin (.sequence items) key
  | value {entries : List (Value × Value)} {entry : Value × Value} {key : Value} (among : entry ∈ entries)
      (within : KeyWithin entry.2 key) : KeyWithin (.mapping entries) key

inductive Collection : Value → Prop where
  | sequence {items : List Value} : Collection (.sequence items)
  | mapping {entries : List (Value × Value)} : Collection (.mapping entries)

section Printing
variable {ε : Type} (printer : Yaml.Printer ε)

/-- The text of a value that is neither a collection nor tagged. -/
inductive Spelled : Value → String → Prop where
  | null : Spelled .null "null"
  | true : Spelled (.bool true) "true"
  | false : Spelled (.bool false) "false"
  | number {number : Yaml.Number} : Spelled (.number number) (printer.numberText number)
  | string {text : String} : Spelled (.string text) text

structure Unprintable (key : Value) (error : ε) : Prop where
  collection : Collection key
  failed : printer.print key = .error error

/-- The text of a key that has no tags on itself. -/
inductive Shown : Value → String → Prop where
  | scalar {key : Value} {text : String} (spelled : Spelled printer key text) : Shown key text
  | collection {key : Value} {text : String} (collection : Collection key) (printed : printer.print key = .ok text) :
      Shown key (Text.trimEnd text)

def KeyText (key : Value) (text : String) : Prop := Shown printer (bare key) text

/-- A tree with all that a value has, item for item and entry for entry. -/
inductive Mirrors : Value → Node → Prop where
  | scalar {value : Value} {text : String} (spelled : Spelled printer value text) : Mirrors value (.plain text)
  | tagged {tag : String} {value : Value} {node : Node} (mirrors : Mirrors value node) :
      Mirrors (.tagged tag value) node
  | sequence {items : List Value} {nodes : List Node} (each : List.Forall₂ Mirrors items nodes) :
      Mirrors (.sequence items) (.sequence nodes)
  | mapping {entries : List (Value × Value)} {fields : List (String × Node)}
      (keys : List.Forall₂ (KeyText printer) (entries.map Prod.fst) (fields.map Prod.fst))
      (values : List.Forall₂ Mirrors (entries.map Prod.snd) (fields.map Prod.snd)) :
      Mirrors (.mapping entries) (.mapping fields)

/-- A key that is a text, with any tags. -/
def Names (key : Value) (name : String) : Prop := bare key = .string name

variable (numberText : Json.Number → String)

/-- A value and the one that JSON has for it. Tags may be anywhere, and numbers need only have the same text. -/
inductive Same : Value → Json.Value → Prop where
  | null : Same .null .null
  | bool {value : Bool} : Same (.bool value) (.bool value)
  | number {first : Yaml.Number} {second : Json.Number} (text : printer.numberText first = numberText second) :
      Same (.number first) (.number second)
  | string {text : String} : Same (.string text) (.string text)
  | tagged {tag : String} {value : Value} {json : Json.Value} (same : Same value json) : Same (.tagged tag value) json
  | array {items : List Value} {others : List Json.Value} (each : List.Forall₂ Same items others) :
      Same (.sequence items) (.array others)
  | object {entries : List (Value × Value)} {members : List (String × Json.Value)}
      (keys : List.Forall₂ Names (entries.map Prod.fst) (members.map Prod.fst))
      (values : List.Forall₂ Same (entries.map Prod.snd) (members.map Prod.snd)) :
      Same (.mapping entries) (.object members)

end Printing

variable {ε : Type} {printer : Yaml.Printer ε}

/-! Results that may be errors, and lists side by side. -/

theorem bind_eq_ok_iff {α β : Type} {first : Except ε α} {next : α → Except ε β} {result : β} :
    first >>= next = .ok result ↔ ∃ value, first = .ok value ∧ next value = .ok result := by
  cases first <;> simp [bind, Except.bind]

theorem bind_eq_error_iff {α β : Type} {first : Except ε α} {next : α → Except ε β} {error : ε} :
    first >>= next = .error error ↔ first = .error error ∨ ∃ value, first = .ok value ∧ next value = .error error := by
  cases first <;> simp [bind, Except.bind]

theorem map_eq_ok_iff {α β : Type} {first : Except ε α} {change : α → β} {result : β} :
    first.map change = .ok result ↔ ∃ value, first = .ok value ∧ change value = result := by
  cases first <;> simp [Except.map]

theorem map_eq_error_iff {α β : Type} {first : Except ε α} {change : α → β} {error : ε} :
    first.map change = .error error ↔ first = .error error := by
  cases first <;> simp [Except.map]

theorem exists_of_forall₂ {α β : Type} {relation : α → β → Prop} {items : List α} {results : List β}
    (each : List.Forall₂ relation items results) {item : α} (among : item ∈ items) :
    ∃ result, relation item result := by
  induction each with
  | nil => cases among
  | @cons _ result _ _ here _ ih =>
    rcases List.mem_cons.mp among with rfl | later
    · exact ⟨result, here⟩
    · exact ih later

/-! Keys. -/

private theorem keyText_bare (key : Value) : keyText printer (bare key) = keyText printer key := by
  fun_induction bare key with
  | case1 tag key ih => rw [ih, keyText]
  | case2 => rfl

private theorem keyText_of_ok {key : Value} {text : String} (found : keyText printer key = .ok text) :
    KeyText printer key text := by
  fun_induction keyText printer key with
  | case1 => cases found; exact .scalar .null
  | case2 value =>
    cases found
    cases value with
    | true => exact .scalar .true
    | false => exact .scalar .false
  | case3 => cases found; exact .scalar .number
  | case4 => cases found; exact .scalar .string
  | case5 tag key ih => exact ih found
  | case6 items =>
    obtain ⟨text, printed, rfl⟩ := map_eq_ok_iff.mp found
    exact .collection .sequence printed
  | case7 entries =>
    obtain ⟨text, printed, rfl⟩ := map_eq_ok_iff.mp found
    exact .collection .mapping printed

private theorem keyText_of_collection {key : Value} (collection : Collection key) :
    keyText printer key = (printer.print key).map Text.trimEnd := by
  cases collection <;> rfl

private theorem keyText_eq_ok_iff {key : Value} {text : String} :
    keyText printer key = .ok text ↔ KeyText printer key text := by
  refine ⟨keyText_of_ok, ?_⟩
  intro shown
  rw [← keyText_bare]
  cases shown with
  | scalar spelled =>
    generalize bare key = key at spelled
    cases spelled <;> rfl
  | collection collection printed => rw [keyText_of_collection collection, printed, Except.map]

private theorem unprintable_of_keyText {key : Value} {error : ε} (failed : keyText printer key = .error error) :
    Unprintable printer (bare key) error := by
  fun_induction keyText printer key with
  | case1 | case2 | case3 | case4 => cases failed
  | case5 tag key ih => exact ih failed
  | case6 => exact ⟨.sequence, map_eq_error_iff.mp failed⟩
  | case7 => exact ⟨.mapping, map_eq_error_iff.mp failed⟩

/-- A key that has a text is not one that the printer refuses. -/
theorem printable_of_keyText {key : Value} {text : String} {error : ε} (shown : KeyText printer key text) :
    ¬ Unprintable printer (bare key) error := by
  intro ⟨collection, failed⟩
  have found := keyText_eq_ok_iff.mpr shown
  rw [← keyText_bare, keyText_of_collection collection, failed, Except.map] at found
  cases found

/-! Trees. -/

private theorem ofYaml_spelled {value : Value} {text : String} (spelled : Spelled printer value text) :
    ofYaml printer value = .ok (.plain text) := by
  cases spelled <;> rw [ofYaml] <;> rfl

private theorem ofYaml_sequence (items : List Value) :
    ofYaml printer (.sequence items) = (ofYamlItems printer items).map .sequence := by
  rw [ofYaml]
  cases ofYamlItems printer items <;> rfl

private theorem ofYaml_mapping (entries : List (Value × Value)) :
    ofYaml printer (.mapping entries) = (ofYamlEntries printer entries).map .mapping := by
  rw [ofYaml]
  cases ofYamlEntries printer entries <;> rfl

private theorem mirrors_spelled {value : Value} {text : String} {node : Node} (spelled : Spelled printer value text) :
    Mirrors printer value node ↔ ofYaml printer value = .ok node := by
  constructor
  · intro mirrors
    cases mirrors with
    | scalar spelled => exact ofYaml_spelled spelled
    | tagged | sequence | mapping => cases spelled
  · intro loaded
    rw [ofYaml_spelled spelled] at loaded
    cases loaded
    exact .scalar spelled

private theorem mirrors_tagged {tag : String} {value : Value} {node : Node} :
    Mirrors printer (.tagged tag value) node ↔ Mirrors printer value node := by
  constructor
  · intro mirrors
    cases mirrors with
    | scalar spelled => cases spelled
    | tagged mirrors => exact mirrors
  · exact .tagged

private theorem mirrors_sequence {items : List Value} {node : Node} : Mirrors printer (.sequence items) node ↔
    ∃ nodes, List.Forall₂ (Mirrors printer) items nodes ∧ .sequence nodes = node := by
  constructor
  · intro mirrors
    cases mirrors with
    | scalar spelled => cases spelled
    | sequence each => exact ⟨_, each, rfl⟩
  · intro ⟨nodes, each, same⟩
    exact same ▸ .sequence each

private theorem mirrors_mapping {entries : List (Value × Value)} {node : Node} :
    Mirrors printer (.mapping entries) node ↔
      ∃ fields, (List.Forall₂ (KeyText printer) (entries.map Prod.fst) (fields.map Prod.fst) ∧
        List.Forall₂ (Mirrors printer) (entries.map Prod.snd) (fields.map Prod.snd)) ∧ .mapping fields = node := by
  constructor
  · intro mirrors
    cases mirrors with
    | scalar spelled => cases spelled
    | mapping keys values => exact ⟨_, ⟨keys, values⟩, rfl⟩
  · intro ⟨fields, ⟨keys, values⟩, same⟩
    exact same ▸ .mapping keys values

mutual
private theorem ofYaml_eq_ok_iff (value : Value) (node : Node) :
    ofYaml printer value = .ok node ↔ Mirrors printer value node := by
  match value with
  | .null => exact (mirrors_spelled .null).symm
  | .bool true => exact (mirrors_spelled .true).symm
  | .bool false => exact (mirrors_spelled .false).symm
  | .number _ => exact (mirrors_spelled .number).symm
  | .string _ => exact (mirrors_spelled .string).symm
  | .tagged _ value => rw [ofYaml, ofYaml_eq_ok_iff value, mirrors_tagged]
  | .sequence items =>
    rw [ofYaml_sequence, map_eq_ok_iff, mirrors_sequence]
    simp only [ofYamlItems_eq_ok_iff items]
  | .mapping entries =>
    rw [ofYaml_mapping, map_eq_ok_iff, mirrors_mapping]
    simp only [ofYamlEntries_eq_ok_iff entries]

private theorem ofYamlItems_eq_ok_iff (items : List Value) (nodes : List Node) :
    ofYamlItems printer items = .ok nodes ↔ List.Forall₂ (Mirrors printer) items nodes := by
  match items with
  | [] => simp [ofYamlItems, eq_comm]
  | item :: items =>
    simp only [ofYamlItems, bind_eq_ok_iff, ofYaml_eq_ok_iff item,
      ofYamlItems_eq_ok_iff items, pure, Except.pure, Except.ok.injEq, List.forall₂_cons_left_iff]
    constructor
    · intro ⟨node, mirrors, others, each, same⟩
      exact ⟨node, others, mirrors, each, same.symm⟩
    · intro ⟨node, others, mirrors, each, same⟩
      exact ⟨node, mirrors, others, each, same.symm⟩

private theorem ofYamlEntries_eq_ok_iff (entries : List (Value × Value)) (fields : List (String × Node)) :
    ofYamlEntries printer entries = .ok fields ↔
      List.Forall₂ (KeyText printer) (entries.map Prod.fst) (fields.map Prod.fst) ∧
        List.Forall₂ (Mirrors printer) (entries.map Prod.snd) (fields.map Prod.snd) := by
  match entries, fields with
  | [], fields => simp [ofYamlEntries, eq_comm]
  | (key, value) :: entries, [] => simp [ofYamlEntries, bind_eq_ok_iff, pure, Except.pure, -bind_pure_comp]
  | (key, value) :: entries, (text, node) :: fields =>
    simp only [ofYamlEntries, bind_eq_ok_iff, keyText_eq_ok_iff,
      ofYaml_eq_ok_iff value, ofYamlEntries_eq_ok_iff entries, pure, Except.pure, Except.ok.injEq, List.map_cons,
      List.forall₂_cons, List.cons.injEq, Prod.mk.injEq]
    constructor
    · rintro ⟨_, shown, _, mirrors, _, ⟨keys, values⟩, ⟨rfl, rfl⟩, rfl⟩
      exact ⟨⟨shown, keys⟩, mirrors, values⟩
    · intro ⟨⟨shown, keys⟩, mirrors, values⟩
      exact ⟨text, shown, node, mirrors, fields, ⟨keys, values⟩, ⟨rfl, rfl⟩, rfl⟩
end

/-! Failures. -/

/-- The error of a value that is not loaded is that of a key in it. -/
def HasUnprintableKey (printer : Yaml.Printer ε) (value : Value) (error : ε) : Prop :=
  ∃ key, KeyWithin value key ∧ Unprintable printer key error

mutual
private theorem hasUnprintableKey_of_ofYaml (value : Value) {error : ε} (failed : ofYaml printer value = .error error) :
    HasUnprintableKey printer value error := by
  match value with
  | .null | .bool _ | .number _ | .string _ => cases failed
  | .tagged _ value =>
    rw [ofYaml] at failed
    obtain ⟨key, within, unprintable⟩ := hasUnprintableKey_of_ofYaml value failed
    exact ⟨key, .tagged within, unprintable⟩
  | .sequence items =>
    rw [ofYaml_sequence, map_eq_error_iff] at failed
    obtain ⟨item, among, key, within, unprintable⟩ := hasUnprintableKey_of_ofYamlItems items failed
    exact ⟨key, .item among within, unprintable⟩
  | .mapping entries =>
    rw [ofYaml_mapping, map_eq_error_iff] at failed
    obtain ⟨entry, among, unprintable | ⟨key, within, unprintable⟩⟩ := hasUnprintableKey_of_ofYamlEntries entries failed
    · exact ⟨bare entry.1, .own among, unprintable⟩
    · exact ⟨key, .value among within, unprintable⟩

private theorem hasUnprintableKey_of_ofYamlItems (items : List Value) {error : ε}
    (failed : ofYamlItems printer items = .error error) : ∃ item ∈ items, HasUnprintableKey printer item error := by
  match items with
  | [] => cases failed
  | item :: items =>
    rw [ofYamlItems, bind_eq_error_iff] at failed
    obtain here | ⟨_, _, failed⟩ := failed
    · exact ⟨item, by simp, hasUnprintableKey_of_ofYaml item here⟩
    · obtain later | ⟨_, _, ended⟩ := bind_eq_error_iff.mp failed
      · obtain ⟨other, among, unprintable⟩ := hasUnprintableKey_of_ofYamlItems items later
        exact ⟨other, by simp [among], unprintable⟩
      · cases ended

private theorem hasUnprintableKey_of_ofYamlEntries (entries : List (Value × Value)) {error : ε}
    (failed : ofYamlEntries printer entries = .error error) : ∃ entry ∈ entries,
      Unprintable printer (bare entry.1) error ∨ HasUnprintableKey printer entry.2 error := by
  match entries with
  | [] => cases failed
  | (key, value) :: entries =>
    -- the key comes before its value, and both before the entries that follow
    rw [ofYamlEntries, bind_eq_error_iff] at failed
    obtain atKey | ⟨_, _, failed⟩ := failed
    · exact ⟨(key, value), by simp, .inl (unprintable_of_keyText atKey)⟩
    · obtain atValue | ⟨_, _, failed⟩ := bind_eq_error_iff.mp failed
      · exact ⟨(key, value), by simp, .inr (hasUnprintableKey_of_ofYaml value atValue)⟩
      · obtain later | ⟨_, _, ended⟩ := bind_eq_error_iff.mp failed
        · obtain ⟨other, among, unprintable⟩ := hasUnprintableKey_of_ofYamlEntries entries later
          exact ⟨other, by simp [among], unprintable⟩
        · cases ended
end

/-- All keys of a value that has a tree can be printed. -/
theorem printable_of_mirrors {value key : Value} (within : KeyWithin value key) {node : Node} {error : ε}
    (mirrors : Mirrors printer value node) : ¬ Unprintable printer key error := by
  induction within generalizing node with
  | own among =>
    cases mirrors with
    | scalar spelled => cases spelled
    | mapping keys values =>
      obtain ⟨text, shown⟩ := exists_of_forall₂ keys (List.mem_map_of_mem among)
      exact printable_of_keyText shown
  | tagged within ih => exact ih (mirrors_tagged.mp mirrors)
  | item among within ih =>
    obtain ⟨nodes, each, _⟩ := mirrors_sequence.mp mirrors
    obtain ⟨node, mirrors⟩ := exists_of_forall₂ each among
    exact ih mirrors
  | value among within ih =>
    obtain ⟨fields, ⟨_, values⟩, _⟩ := mirrors_mapping.mp mirrors
    obtain ⟨node, mirrors⟩ := exists_of_forall₂ values (List.mem_map_of_mem among)
    exact ih mirrors

private theorem ofYaml_fails_iff (value : Value) :
    (∃ error, ofYaml printer value = .error error) ↔ ∃ error, HasUnprintableKey printer value error := by
  constructor
  · intro ⟨error, failed⟩
    exact ⟨error, hasUnprintableKey_of_ofYaml value failed⟩
  · intro ⟨error, key, within, unprintable⟩
    cases loaded : ofYaml printer value with
    | error error => exact ⟨error, rfl⟩
    | ok node => exact absurd unprintable (printable_of_mirrors within ((ofYaml_eq_ok_iff value node).mp loaded))

/-! Tags. -/

mutual
private theorem ofYaml_untagged (value : Value) : ofYaml printer (untagged value) = ofYaml printer value := by
  match value with
  | .null | .bool _ | .number _ | .string _ => rfl
  | .tagged _ value => rw [untagged, ofYaml_untagged value, ofYaml]
  | .sequence items => rw [untagged, ofYaml_sequence, ofYamlItems_untagged items, ofYaml_sequence]
  | .mapping entries => rw [untagged, ofYaml_mapping, ofYamlEntries_untagged entries, ofYaml_mapping]

private theorem ofYamlItems_untagged (items : List Value) :
    ofYamlItems printer (untaggedItems items) = ofYamlItems printer items := by
  match items with
  | [] => rw [untaggedItems]
  | item :: items => rw [untaggedItems, ofYamlItems, ofYaml_untagged item, ofYamlItems_untagged items, ofYamlItems]

private theorem ofYamlEntries_untagged (entries : List (Value × Value)) :
    ofYamlEntries printer (untaggedEntries entries) = ofYamlEntries printer entries := by
  match entries with
  | [] => rw [untaggedEntries]
  | (key, value) :: entries =>
    rw [untaggedEntries, ofYamlEntries, keyText_bare, ofYaml_untagged value, ofYamlEntries_untagged entries,
      ofYamlEntries]
end

/-! Both formats. -/

private theorem keyText_of_names {key : Value} {name : String} (names : Names key name) : KeyText printer key name := by
  rw [KeyText, names]
  exact .scalar .string

variable {numberText : Json.Number → String}

mutual
private theorem mirrors_of_same (value : Value) (json : Json.Value) (same : Same printer numberText value json) :
    Mirrors printer value (plainly (ofJson numberText json)) := by
  -- the recursion is on the value, which has the tags that the other one lacks
  match value, same with
  | .null, .null => exact .scalar .null
  | .bool true, .bool => exact .scalar .true
  | .bool false, .bool => exact .scalar .false
  | .number _, .number text =>
    rw [ofJson, ← text]
    exact .scalar .number
  | .string _, .string => exact .scalar .string
  | .tagged _ value, .tagged same => exact .tagged (mirrors_of_same value json same)
  | .sequence items, .array each =>
    rw [ofJson, plainly]
    exact .sequence (mirrors_of_sameItems items _ each)
  | .mapping entries, .object keys values =>
    rw [ofJson, plainly]
    obtain ⟨keys, values⟩ := mirrors_of_sameEntries entries _ keys values
    exact .mapping keys values

private theorem mirrors_of_sameItems (items : List Value) (others : List Json.Value)
    (each : List.Forall₂ (Same printer numberText) items others) :
    List.Forall₂ (Mirrors printer) items (plainlyItems (ofJsonItems numberText others)) := by
  match items, others, each with
  | [], [], .nil => exact .nil
  | item :: items, other :: others, .cons same each =>
    exact .cons (mirrors_of_same item other same) (mirrors_of_sameItems items others each)

private theorem mirrors_of_sameEntries (entries : List (Value × Value)) (members : List (String × Json.Value))
    (keys : List.Forall₂ Names (entries.map Prod.fst) (members.map Prod.fst))
    (values : List.Forall₂ (Same printer numberText) (entries.map Prod.snd) (members.map Prod.snd)) :
    let fields := plainlyEntries (ofJsonMembers numberText members)
    List.Forall₂ (KeyText printer) (entries.map Prod.fst) (fields.map Prod.fst) ∧
      List.Forall₂ (Mirrors printer) (entries.map Prod.snd) (fields.map Prod.snd) := by
  -- keys and values run side by side, so that each entry is that of the member at its own place
  match entries, members, keys, values with
  | [], [], _, _ => exact ⟨.nil, .nil⟩
  | (key, value) :: entries, (name, other) :: members, .cons names keys, .cons same values =>
    obtain ⟨texts, nodes⟩ := mirrors_of_sameEntries entries members keys values
    exact ⟨.cons (keyText_of_names names) texts, .cons (mirrors_of_same value other same) nodes⟩
end

/-- A value is loaded unless a collection that stands as a key in it cannot be printed; the error is then that
of such a key. Its tree has all its items and entries in their order, is the same with its tags and without,
and is that of the same value in JSON, apart from the style of the scalars. -/
theorem loaded_tree_of_value {ε : Type} (printer : Yaml.Printer ε) (numberText : Json.Number → String) (value : Value) :
    ((∃ error, ofYaml printer value = .error error) ↔
        ∃ error key, KeyWithin value key ∧ Unprintable printer key error) ∧
      (∀ error, ofYaml printer value = .error error →
        ∃ key, KeyWithin value key ∧ Unprintable printer key error) ∧
      ofYaml printer value = ofYaml printer (untagged value) ∧
      (∀ node, ofYaml printer value = .ok node ↔ Mirrors printer value node) ∧
      ∀ json, Same printer numberText value json →
        ofYaml printer value = .ok (plainly (ofJson numberText json)) := by
  refine ⟨ofYaml_fails_iff value, ?_, (ofYaml_untagged value).symm, ofYaml_eq_ok_iff value, ?_⟩
  · intro error failed
    exact hasUnprintableKey_of_ofYaml value failed
  · intro json same
    exact (ofYaml_eq_ok_iff value _).mpr (mirrors_of_same value json same)

/-- Different keys with one text make two entries. -/
example : ofYaml Yaml.Codec.builtIn.toPrinter
    (.mapping [(.number (.integer 1), .null), (.string "1", .bool true)]) =
      .ok (.mapping [("1", .plain "null"), ("1", .plain "true")]) := by rfl

def taggedList : Value :=
  .tagged "doc" (.mapping [(.tagged "key" (.string "list"), .sequence [.tagged "count" (.number (.integer 7)), .null]),
    (.string "", .tagged "rest" (.mapping []))])

def jsonList : Json.Value :=
  .object [("list", .array [.number (.integer 7), .null]), ("", .object [])]

/-- A mapping of one entry cannot be printed if its key is tagged. -/
def unprintable : Value := .mapping [(.tagged "inner" .null, .null)]

def listOfUnprintable : Value := .sequence [.null, .mapping [(.tagged "outer" unprintable, .null)]]

theorem loaded_tree_of_tagged_list :
    Same Yaml.Codec.builtIn.toPrinter Json.Codec.builtIn.numberText taggedList jsonList ∧
      ofYaml Yaml.Codec.builtIn.toPrinter taggedList =
        .ok (.mapping [("list", .sequence [.plain "7", .plain "null"]), ("", .mapping [])]) ∧
      ∃ error, ofYaml Yaml.Codec.builtIn.toPrinter listOfUnprintable = .error error := by
  have items : Same Yaml.Codec.builtIn.toPrinter Json.Codec.builtIn.numberText
      (.sequence [.tagged "count" (.number (.integer 7)), .null]) (.array [.number (.integer 7), .null]) :=
    .array (.cons (.tagged (.number rfl)) (.cons .null .nil))
  have rest : Same Yaml.Codec.builtIn.toPrinter Json.Codec.builtIn.numberText
      (.tagged "rest" (.mapping [])) (.object []) := .tagged (.object .nil .nil)
  have same : Same Yaml.Codec.builtIn.toPrinter Json.Codec.builtIn.numberText taggedList jsonList :=
    .tagged (.object (.cons rfl (.cons rfl .nil)) (.cons items (.cons rest .nil)))
  have key : KeyWithin listOfUnprintable unprintable := .item (.tail _ (.head _)) (.own (.head _))
  have failed : Unprintable Yaml.Codec.builtIn.toPrinter unprintable .unprintable := ⟨.mapping, rfl⟩
  obtain ⟨_, _, _, _, loaded⟩ :=
    loaded_tree_of_value Yaml.Codec.builtIn.toPrinter Json.Codec.builtIn.numberText taggedList
  obtain ⟨fails, _⟩ :=
    loaded_tree_of_value Yaml.Codec.builtIn.toPrinter Json.Codec.builtIn.numberText listOfUnprintable
  exact ⟨same, loaded jsonList same, fails.mpr ⟨_, unprintable, key, failed⟩⟩

end PathQuery.Proofs.LoadedTrees
