import SharingRecovery.Json.Lexer

set_option autoImplicit false

/-!
JSON values from tokens. The containers that are open around the current place form a stack, so a
text of any depth is read without recursion.

Three kinds of value are unreadable: a list or an object inside too many others, a string without a
text, and an object with such a key. The text around them is read all the same.
-/

namespace SharingRecovery.Json

namespace Parser

/-- The fields of an object so far, last first. A key has a text unless it holds half of a pair. -/
abbrev Fields := List (Option String × Json)

/-- An open container that waits for the value being read. Items are kept last first. -/
inductive Frame where
  | list (items : List Json)
  | record (fields : Fields) (key : Option String)

/-- What may come next, with the open containers, innermost first. -/
inductive State where
  /-- A value. -/
  | value (stack : List Frame)
  /-- The first item of a list, or its end. -/
  | firstItem (stack : List Frame)
  /-- The first key of an object, or its end. -/
  | firstKey (stack : List Frame)
  /-- A further key. -/
  | key (fields : Fields) (stack : List Frame)
  /-- The colon behind a key. -/
  | colon (name : Option String) (fields : Fields) (stack : List Frame)
  /-- A comma, or the end of the list. -/
  | afterItem (items : List Json) (stack : List Frame)
  /-- A comma, or the end of the object. -/
  | afterField (fields : Fields) (stack : List Frame)
  /-- Nothing: the value is complete. -/
  | done (value : Json)

def ofText : Option String → Json
  | some s => .str s
  | none => .unreadable

def ofFields (fields : Fields) : Json :=
  match fields.reverse.mapM fun (key, value) => key.map fun key => (key, value) with
  | some fields => .obj fields
  | none => .unreadable

def supply (value : Json) : List Frame → State
  | [] => .done value
  | .list items :: stack => .afterItem (value :: items) stack
  | .record fields key :: stack => .afterField ((key, value) :: fields) stack

def isWithin (limit : Option Nat) (stack : List Frame) : Bool :=
  match limit with
  | some limit => stack.length < limit
  | none => true

def close (limit : Option Nat) (container : Json) (stack : List Frame) : State :=
  supply (if isWithin limit stack then container else .unreadable) stack

def start? (stack : List Frame) : Token → Option State
  | .literal value => some (supply value stack)
  | .text s => some (supply (ofText s) stack)
  | .openBracket => some (.firstItem stack)
  | .openBrace => some (.firstKey stack)
  | _ => none

def step (limit : Option Nat) : State → Token → Option State
  | .value stack, token => start? stack token
  | .firstItem stack, .closeBracket => some (close limit (.arr []) stack)
  | .firstItem stack, token => start? (.list [] :: stack) token
  | .firstKey stack, .closeBrace => some (close limit (.obj []) stack)
  | .firstKey stack, .text name => some (.colon name [] stack)
  | .key fields stack, .text name => some (.colon name fields stack)
  | .colon name fields stack, .colon => some (.value (.record fields name :: stack))
  | .afterItem items stack, .comma => some (.value (.list items :: stack))
  | .afterItem items stack, .closeBracket => some (close limit (.arr items.reverse) stack)
  | .afterField fields stack, .comma => some (.key fields stack)
  | .afterField fields stack, .closeBrace => some (close limit (ofFields fields) stack)
  | _, _ => none

def result? : State → Option Json
  | .done value => some value
  | _ => none

end Parser

/-- Reads a text that holds one value and blanks around it. If there is a limit, lists and objects
that are nested more deeply are unreadable. -/
def parse? (limit : Option Nat) (text : String) : Option Json := do
  let tokens ← tokens? text
  let state ← tokens.foldlM (Parser.step limit) (.value [])
  Parser.result? state

end SharingRecovery.Json
