import ScopeMachine.Text.Hidden

set_option autoImplicit false

/-!
# Quoted text

How a listing shows a text constant: between double quotes, with the characters that would be
misread written as escapes.
-/

namespace ScopeMachine.Text

/-- The escape of a character by its number, in lower-case hexadecimal without leading zeros. -/
def numbered (c : Char) : List Char :=
  ['\\', 'u', '\x7b'] ++ Nat.toDigits 16 c.toNat ++ ['\x7d']

/-- One character of a quoted text. Quotes, backslashes and the four named controls have short
escapes, a hidden character is written by its number, and every other one stands for itself. -/
def quoteChar (c : Char) : List Char :=
  match c with
  | '"' => ['\\', '"']
  | '\\' => ['\\', '\\']
  | '\n' => ['\\', 'n']
  | '\r' => ['\\', 'r']
  | '\t' => ['\\', 't']
  | '\x00' => ['\\', '0']
  | c => if isHidden c then numbered c else [c]

/-- A text between double quotes, with its characters escaped where needed. -/
def quote (text : String) : String :=
  String.ofList ('"' :: (text.toList.flatMap quoteChar ++ ['"']))

end ScopeMachine.Text
