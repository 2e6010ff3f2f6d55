import ScopeMachine.Json.Basic

set_option autoImplicit false

/-!
# Writing JSON

The compact spelling of a tree. Each writer puts its text in front of the text that follows.
-/

namespace ScopeMachine.Json

def hexDigit (n : Nat) : Char :=
  Nat.digitChar n

/-- One character of a JSON string. Quotes, backslashes and controls are escaped, with the short
escapes where there are any; all else stands for itself. -/
def escapeChar (c : Char) : List Char :=
  match c with
  | '"' => ['\\', '"']
  | '\\' => ['\\', '\\']
  | '\x08' => ['\\', 'b']
  | '\x0c' => ['\\', 'f']
  | '\n' => ['\\', 'n']
  | '\r' => ['\\', 'r']
  | '\t' => ['\\', 't']
  | c =>
    if c.toNat < 0x20 then
      ['\\', 'u', '0', '0', hexDigit (c.toNat / 16), hexDigit (c.toNat % 16)]
    else [c]

/-- Writes a string. One that denotes no text is written as a lone escape. -/
def writeString (text : Option String) (rest : List Char) : List Char :=
  match text with
  | some value => '"' :: (value.toList.foldr (fun c tail => escapeChar c ++ tail) ('"' :: rest))
  | none => '"' :: '\\' :: 'u' :: 'd' :: '8' :: '0' :: '0' :: '"' :: rest

mutual

/-- Writes a tree in front of the rest of a text. -/
def write : Json → List Char → List Char
  | .null, rest => 'n' :: 'u' :: 'l' :: 'l' :: rest
  | .boolean true, rest => 't' :: 'r' :: 'u' :: 'e' :: rest
  | .boolean false, rest => 'f' :: 'a' :: 'l' :: 's' :: 'e' :: rest
  | .number numeral, rest => numeral.write rest
  | .string text, rest => writeString text rest
  | .array [], rest => '[' :: ']' :: rest
  | .array (item :: items), rest => '[' :: write item (writeItems items rest)
  | .object [], rest => '\x7b' :: '\x7d' :: rest
  | .object ((key, value) :: members), rest =>
    '\x7b' :: writeString key (':' :: write value (writeMembers members rest))

/-- Writes the items after the first one, and the closing bracket. -/
def writeItems : List Json → List Char → List Char
  | [], rest => ']' :: rest
  | item :: items, rest => ',' :: write item (writeItems items rest)

/-- Writes the members after the first one, and the closing brace. -/
def writeMembers : List (Option String × Json) → List Char → List Char
  | [], rest => '\x7d' :: rest
  | (key, value) :: members, rest =>
    ',' :: writeString key (':' :: write value (writeMembers members rest))

end

def render (json : Json) : String :=
  String.ofList (json.write [])

end ScopeMachine.Json
