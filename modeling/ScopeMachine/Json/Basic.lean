import ScopeMachine.Json.Numeral

set_option autoImplicit false

/-!
# JSON trees

The tree of a JSON text. Members stay in order and may repeat. A string whose escapes name half of
a surrogate pair is a legal part of a text but denotes no text of its own: such a string is `none`
here, and only a reader that ignores it can accept it.
-/

namespace ScopeMachine

inductive Json where
  | null
  | boolean (value : Bool)
  | number (numeral : Json.Numeral)
  | string (text : Option String)
  | array (items : List Json)
  | object (members : List (Option String × Json))
deriving Inhabited

namespace Json

def text (value : String) : Json :=
  .string (some value)

def nat (value : Nat) : Json :=
  .number (.ofNat value)

def record (members : List (String × Json)) : Json :=
  .object (members.map fun (key, value) => (some key, value))

def member? (key : String) : Json → Option Json
  | .object members => (members.find? fun (name, _) => name == some key).map (·.2)
  | _ => none

end Json

end ScopeMachine
