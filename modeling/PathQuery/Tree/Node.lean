/-! Value trees as they are read from a document. Mappings keep the order of their
entries and every repetition of a key; a scalar keeps its text and how it was written. -/

namespace PathQuery

/-- How a scalar was written in its source text. -/
inductive ScalarStyle where
  | plain
  | singleQuoted
  | doubleQuoted
  | literal
  | folded
deriving DecidableEq, Repr

structure Scalar where
  text : String
  style : ScalarStyle
deriving DecidableEq, Repr

inductive Node where
  | mapping (entries : List (String × Node))
  | sequence (items : List Node)
  | scalar (leaf : Scalar)

namespace Node

def plain (text : String) : Node := .scalar ⟨text, .plain⟩

mutual
/-- Equality looks at order, repetition and scalar style. -/
def decEq : (first second : Node) → Decidable (first = second)
  | .mapping first, .mapping second =>
    match decEqEntries first second with
    | .isTrue same => .isTrue (by rw [same])
    | .isFalse differ => .isFalse (fun same => differ (mapping.inj same))
  | .sequence first, .sequence second =>
    match decEqItems first second with
    | .isTrue same => .isTrue (by rw [same])
    | .isFalse differ => .isFalse (fun same => differ (sequence.inj same))
  | .scalar first, .scalar second =>
    if same : first = second then .isTrue (by rw [same])
    else .isFalse (fun equal => same (scalar.inj equal))
  | .mapping _, .sequence _ | .mapping _, .scalar _ => .isFalse nofun
  | .sequence _, .mapping _ | .sequence _, .scalar _ => .isFalse nofun
  | .scalar _, .mapping _ | .scalar _, .sequence _ => .isFalse nofun

def decEqEntries : (first second : List (String × Node)) → Decidable (first = second)
  | [], [] => .isTrue rfl
  | [], _ :: _ | _ :: _, [] => .isFalse nofun
  | (key, value) :: first, (key', value') :: second =>
    if sameKey : key = key' then
      match decEq value value' with
      | .isTrue sameValue =>
        match decEqEntries first second with
        | .isTrue same => .isTrue (by rw [sameKey, sameValue, same])
        | .isFalse differ => .isFalse (fun same => differ (List.cons.inj same).2)
      | .isFalse differ => .isFalse (fun same => differ (Prod.mk.inj (List.cons.inj same).1).2)
    else .isFalse (fun same => sameKey (Prod.mk.inj (List.cons.inj same).1).1)

def decEqItems : (first second : List Node) → Decidable (first = second)
  | [], [] => .isTrue rfl
  | [], _ :: _ | _ :: _, [] => .isFalse nofun
  | item :: first, item' :: second =>
    match decEq item item' with
    | .isTrue sameItem =>
      match decEqItems first second with
      | .isTrue same => .isTrue (by rw [sameItem, same])
      | .isFalse differ => .isFalse (fun same => differ (List.cons.inj same).2)
    | .isFalse differ => .isFalse (fun same => differ (List.cons.inj same).1)
end

instance : DecidableEq Node := decEq

/-- The values under a key, in the order of the entries. -/
def valuesAt (key : String) (entries : List (String × Node)) : List Node :=
  entries.filterMap fun (name, value) => if name = key then some value else none

def text? : Node → Option String
  | .scalar leaf => some leaf.text
  | .mapping _ | .sequence _ => none

def isContainer : Node → Bool
  | .mapping _ | .sequence _ => true
  | .scalar _ => false

def kind : Node → String
  | .mapping _ => "mapping"
  | .sequence _ => "sequence"
  | .scalar _ => "scalar"

/-- A scalar is shown by its text and a container by a count of its entries. -/
def summary : Node → String
  | .scalar leaf => leaf.text
  | .mapping entries => "<mapping of " ++ toString entries.length ++ ">"
  | .sequence items => "<sequence of " ++ toString items.length ++ ">"

end Node
end PathQuery
