import PathQuery.Json.Token

/-! JSON values, and how a list of tokens is put together to one. Collections that are
still open are kept on a stack, whose height is limited. -/

namespace PathQuery.Json

inductive Value where
  | null
  | bool (value : Bool)
  | number (value : Number)
  | string (value : String)
  | array (items : List Value)
  | object (members : List (String × Value))

/-- Puts a member into an object. A key that is already there keeps its place and takes
the new value. -/
def putMember (key : String) (value : Value) : List (String × Value) → List (String × Value)
  | [] => [(key, value)]
  | (name, old) :: members =>
    if name = key then (name, value) :: members else (name, old) :: putMember key value members

/-- A collection that is still open. The items of an array are kept last item first; an
object knows the key whose value is being read. -/
inductive Frame where
  | array (items : List Value)
  | object (members : List (String × Value)) (key : String)

/-- What the next token may be. -/
inductive Expects where
  | value
  | valueOrClose
  | key
  | keyOrClose
  | colon
  | separator
  | nothing (result : Value)

structure Assembly where
  frames : List Frame
  expects : Expects

namespace Assembly

def start : Assembly := ⟨[], .value⟩

/-- One less than the number of collections that may not be open at once. -/
def maxDepth : Nat := 127

def finish (value : Value) : List Frame → Assembly
  | [] => ⟨[], .nothing value⟩
  | .array items :: frames => ⟨.array (value :: items) :: frames, .separator⟩
  | .object members key :: frames =>
    ⟨.object (putMember key value members) key :: frames, .separator⟩

def openFrame (frames : List Frame) (frame : Frame) (expects : Expects) : Option Assembly :=
  if frames.length < maxDepth then some ⟨frame :: frames, expects⟩ else none

/-- The token that begins a value. -/
def beginValue (frames : List Frame) : Token → Option Assembly
  | .null => some (finish .null frames)
  | .bool value => some (finish (.bool value) frames)
  | .number value => some (finish (.number value) frames)
  | .string value => some (finish (.string value) frames)
  | .arrayOpen => openFrame frames (.array []) .valueOrClose
  | .objectOpen => openFrame frames (.object [] "") .keyOrClose
  | .arrayClose | .objectClose | .comma | .colon => none

def step (assembly : Assembly) (token : Token) : Option Assembly :=
  match assembly.expects, assembly.frames, token with
  | .valueOrClose, .array items :: frames, .arrayClose => some (finish (.array items.reverse) frames)
  | .value, frames, token | .valueOrClose, frames, token => beginValue frames token
  | .keyOrClose, .object members _ :: frames, .objectClose => some (finish (.object members) frames)
  | .key, .object members _ :: frames, .string key
  | .keyOrClose, .object members _ :: frames, .string key =>
    some ⟨.object members key :: frames, .colon⟩
  | .colon, frames, .colon => some ⟨frames, .value⟩
  | .separator, .array items :: frames, .comma => some ⟨.array items :: frames, .value⟩
  | .separator, .array items :: frames, .arrayClose => some (finish (.array items.reverse) frames)
  | .separator, .object members key :: frames, .comma => some ⟨.object members key :: frames, .key⟩
  | .separator, .object members _ :: frames, .objectClose => some (finish (.object members) frames)
  | _, _, _ => none

def result? (assembly : Assembly) : Option Value :=
  match assembly.expects with
  | .nothing value => some value
  | _ => none

end Assembly

namespace Value

def ofTokens? (tokens : List Token) : Option Value := do
  (← tokens.foldlM Assembly.step .start).result?

def parse? (text : String) : Option Value := do
  ofTokens? (← Token.split? text.toList)

end Value
end PathQuery.Json
