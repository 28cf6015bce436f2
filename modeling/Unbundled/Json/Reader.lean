import Unbundled.Json.Token

/-! # JSON values

Reads a value from its tokens with a stack of open arrays and objects, one token at a time, so a
value may be nested to any depth.

* `Json`: a value. Strings and keys are kept as written, and members in their order.
* `Json.read?`: the value of a text that holds one value and nothing else.
-/

namespace Unbundled

/-- A JSON value. -/
inductive Json
  | null
  | bool (b : Bool)
  | number (digits : Text)
  | string (raw : Text)
  | array (items : List Json)
  | object (members : List (Text × Json))

namespace Json

/-- An array or object that is not closed yet, with what it holds so far, the latest first. -/
inductive Frame
  | array (items : List Json)
  /-- An object, with the key whose value comes next. -/
  | object (members : List (Text × Json)) (key : Text)

/-- What a reader waits for, inside the arrays and objects that are open. -/
inductive State
  /-- A value. -/
  | value (outer : List Frame)
  /-- The first item of an array, or its end. -/
  | firstItem (outer : List Frame)
  /-- The first key of an object, or its end. -/
  | firstKey (outer : List Frame)
  /-- A key, after the given members. -/
  | nextKey (members : List (Text × Json)) (outer : List Frame)
  /-- The colon after a key. -/
  | colon (members : List (Text × Json)) (key : Text) (outer : List Frame)
  /-- A comma or the end of the innermost array or object. -/
  | next (inner : Frame) (outer : List Frame)
  /-- Nothing more: the value is complete. -/
  | done (v : Json)

/-- The state after a value. -/
def State.after (v : Json) : List Frame → State
  | [] => done v
  | .array items :: outer => next (.array (v :: items)) outer
  | .object members key :: outer => next (.object ((key, v) :: members) []) outer

/-- The state after a token that starts a value. -/
def State.start (outer : List Frame) : Token → Option State
  | .null => some (after .null outer)
  | .true => some (after (.bool true) outer)
  | .false => some (after (.bool false) outer)
  | .number digits => some (after (.number digits) outer)
  | .string raw => some (after (.string raw) outer)
  | .bracketOpen => some (firstItem outer)
  | .braceOpen => some (firstKey outer)
  | _ => none

/-- The state after a token, if the token may stand here. -/
def State.step : State → Token → Option State
  | value outer, t => start outer t
  | firstItem outer, .bracketClose => some (after (.array []) outer)
  | firstItem outer, t => start (.array [] :: outer) t
  | firstKey outer, .braceClose => some (after (.object []) outer)
  | firstKey outer, .string raw => some (colon [] raw outer)
  | nextKey members outer, .string raw => some (colon members raw outer)
  | colon members raw outer, .colon => some (value (.object members raw :: outer))
  | next (.array items) outer, .comma => some (value (.array items :: outer))
  | next (.array items) outer, .bracketClose => some (after (.array items.reverse) outer)
  | next (.object members _) outer, .comma => some (nextKey members outer)
  | next (.object members _) outer, .braceClose => some (after (.object members.reverse) outer)
  | _, _ => none

/-- The state after tokens. -/
def State.run (s : State) : List Token → Option State
  | [] => some s
  | t :: ts => (s.step t).bind fun s => s.run ts

/-- **The value of a JSON text.** -/
def read? (t : Text) : Option Json :=
  (Token.lex? t).bind fun tokens =>
    match (State.value []).run tokens with
    | some (.done v) => some v
    | _ => none

/-! ### Typed readings -/

/-- The text that a string stands for. -/
def text? : Json → Option Text
  | string raw => Literal.decode? raw
  | _ => none

/-- The value of a truth value. -/
def bool? : Json → Option Bool
  | bool b => some b
  | _ => none

/-- A value that may be left out: nothing for `null`, else what `f` reads. -/
def optional {α : Type} (f : Json → Option α) : Json → Option (Option α)
  | null => some none
  | v => (f v).map some

/-- The members of an object with the texts of their keys, if every key stands for a text. -/
def fields? (members : List (Text × Json)) : Option (List (Text × Json)) :=
  members.mapM fun (raw, v) => (Literal.decode? raw).map (·, v)

/-- The value of the member with a given key: `null` if there is none, and no answer if there are
several. -/
def field? (key : Text) (fields : List (Text × Json)) : Option Json :=
  match fields.filter fun (k, _) => k == key with
  | [] => some null
  | [(_, v)] => some v
  | _ => none

end Json

end Unbundled
