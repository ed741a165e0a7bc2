import SharingRecovery.Json.Number
import SharingRecovery.Json.Quoted

set_option autoImplicit false

/-!
Tokens of JSON text. The text is read character by character; what has been begun and not yet
finished is the state.
-/

namespace SharingRecovery.Json

/-- A token. Numbers and the three words are values already; a string has a text unless it holds
half of a pair of escapes. -/
inductive Token where
  | openBrace
  | closeBrace
  | openBracket
  | closeBracket
  | colon
  | comma
  | text (s : Option String)
  | literal (value : Json)

namespace Lexer

/-- What is being read. Characters and pieces are kept last first. -/
inductive Mode where
  /-- Between tokens. -/
  | idle
  /-- In a number or a word. -/
  | bare (chars : List Char)
  /-- In a string. -/
  | quoted (pieces : List Quoted.Piece)
  /-- Behind a backslash in a string. -/
  | escape (pieces : List Quoted.Piece)
  /-- In the four digits of an escape, so many of them still to come. -/
  | code (pieces : List Quoted.Piece) (value : Nat) (missing : Nat)

structure State where
  mode : Mode
  tokens : List Token

def isBlank (c : Char) : Bool :=
  c = ' ' || c = '\t' || c = '\n' || c = '\r'

def punctuation? (c : Char) : Option Token :=
  if c = '{' then some .openBrace
  else if c = '}' then some .closeBrace
  else if c = '[' then some .openBracket
  else if c = ']' then some .closeBracket
  else if c = ':' then some .colon
  else if c = ',' then some .comma
  else none

def bareValue? (chars : List Char) : Option Json :=
  if chars = "null".toList then some .null
  else if chars = "true".toList then some (.bool true)
  else if chars = "false".toList then some (.bool false)
  else (Number.ofText? chars).map .num

def start (tokens : List Token) (c : Char) : State :=
  if isBlank c then ⟨.idle, tokens⟩
  else if c = '"' then ⟨.quoted [], tokens⟩
  else
    match punctuation? c with
    | some token => ⟨.idle, token :: tokens⟩
    | none => ⟨.bare [c], tokens⟩

def isDelimiter (c : Char) : Bool :=
  isBlank c || c = '"' || (punctuation? c).isSome

def step (state : State) (c : Char) : Option State :=
  let tokens := state.tokens
  match state.mode with
  | .idle => some (start tokens c)
  | .bare chars =>
    if isDelimiter c then
      (bareValue? chars.reverse).map fun value => start (.literal value :: tokens) c
    else some ⟨.bare (c :: chars), tokens⟩
  | .quoted pieces =>
    if c = '"' then some ⟨.idle, .text (Quoted.text? pieces) :: tokens⟩
    else if c = '\\' then some ⟨.escape pieces, tokens⟩
    else if c.toNat < 0x20 then none
    else some ⟨.quoted (.char c :: pieces), tokens⟩
  | .escape pieces =>
    if c = 'u' then some ⟨.code pieces 0 3, tokens⟩
    else (Quoted.escaped? c).map fun e => ⟨.quoted (.char e :: pieces), tokens⟩
  | .code pieces value missing => do
    let value := value * 16 + (← Quoted.hexDigit? c)
    match missing with
    | 0 => some ⟨.quoted (.code value :: pieces), tokens⟩
    | missing + 1 => some ⟨.code pieces value missing, tokens⟩

def finish? (state : State) : Option (List Token) :=
  match state.mode with
  | .idle => some state.tokens.reverse
  | .bare chars =>
    (bareValue? chars.reverse).map fun value => (.literal value :: state.tokens).reverse
  | _ => none

end Lexer

def tokens? (text : String) : Option (List Token) :=
  (text.toList.foldlM Lexer.step ⟨.idle, []⟩).bind Lexer.finish?

end SharingRecovery.Json
