import SharingRecovery.Json.Number

set_option autoImplicit false

/-!
JSON text without blanks. What has no text is written as null.
-/

namespace SharingRecovery.Json

namespace Printer

def hexDigit (n : Nat) : Char :=
  if n < 10 then Char.ofNat (n + '0'.toNat) else Char.ofNat (n - 10 + 'a'.toNat)

/-- A character inside a string. Quotes, backslashes and control characters are escaped. -/
def pushChar (out : String) (c : Char) : String :=
  if c = '"' then out ++ "\\\""
  else if c = '\\' then out ++ "\\\\"
  else if c = '\n' then out ++ "\\n"
  else if c = '\r' then out ++ "\\r"
  else if c = '\t' then out ++ "\\t"
  else if c = '\x08' then out ++ "\\b"
  else if c = '\x0c' then out ++ "\\f"
  else if c.toNat < 0x20 then
    ((out ++ "\\u00").push (hexDigit (c.toNat / 16))).push (hexDigit (c.toNat % 16))
  else out.push c

def pushString (out : String) (s : String) : String :=
  (s.toList.foldl pushChar (out.push '"')).push '"'

mutual

def pushValue (out : String) : Json → String
  | .null => out ++ "null"
  | .bool b => out ++ (if b then "true" else "false")
  | .num n => out ++ n.text
  | .str s => pushString out s
  | .arr [] => out ++ "[]"
  | .arr (item :: rest) => (pushItems (pushValue (out.push '[') item) rest).push ']'
  | .obj [] => out ++ "\x7b\x7d"
  | .obj ((key, value) :: rest) =>
    (pushFields (pushValue ((pushString (out.push '{') key).push ':') value) rest).push '}'
  | .unreadable => out ++ "null"

def pushItems (out : String) : List Json → String
  | [] => out
  | item :: rest => pushItems (pushValue (out.push ',') item) rest

def pushFields (out : String) : List (String × Json) → String
  | [] => out
  | (key, value) :: rest =>
    pushFields (pushValue ((pushString (out.push ',') key).push ':') value) rest

end

end Printer

def compress (value : Json) : String :=
  Printer.pushValue "" value

end SharingRecovery.Json
