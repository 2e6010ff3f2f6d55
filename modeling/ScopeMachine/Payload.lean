import ScopeMachine.Decimal.Layout

set_option autoImplicit false

/-!
# Payloads and type tags

What a binding holds, and the tag that says how it is used. Payloads are compared in two ways: as
keys, bit by bit, and as values, where decimals follow numeric equality.
-/

namespace ScopeMachine

inductive TypeTag where
  | null
  | object
  | something
  | integer
  | decimal
  | boolean
  | text
  | method
  | array
deriving DecidableEq, Repr, Inhabited

namespace TypeTag

def name : TypeTag → String
  | .null => "Nothing"
  | .object => "Object"
  | .something => "Something"
  | .integer => "Integer"
  | .decimal => "Decimal"
  | .boolean => "Boolean"
  | .text => "String"
  | .method => "Method"
  | .array => "Array"

def all : List TypeTag :=
  [.null, .object, .something, .integer, .decimal, .boolean, .text, .method, .array]

/-- The tag that an instruction's operand selects. -/
def ofOperand? (operand : Nat) : Option TypeTag :=
  all[operand]?

end TypeTag

inductive Payload where
  | absent
  | integer (value : Int64)
  | decimal (value : Decimal)
  | boolean (value : Bool)
  | text (value : String)
deriving DecidableEq, Hashable, Repr, Inhabited

namespace Payload

/-- The tag of a binding that holds just this payload. -/
def tag : Payload → TypeTag
  | .absent => .null
  | .integer _ => .integer
  | .decimal _ => .decimal
  | .boolean _ => .boolean
  | .text _ => .text

def display : Payload → String
  | .absent => "Nothing"
  | .integer value => toString value.toInt
  | .decimal value => value.toText
  | .boolean value => if value then "true" else "false"
  | .text value => value

/-- Equality of values. Decimals compare as numbers, so not-a-number differs from itself. -/
def same : Payload → Payload → Bool
  | .decimal a, .decimal b => a.equal b
  | a, b => a == b

def integer? : Payload → Option Int64
  | .integer value => some value
  | _ => none

def decimal? : Payload → Option Decimal
  | .decimal value => some value
  | _ => none

def boolean? : Payload → Option Bool
  | .boolean value => some value
  | _ => none

def text? : Payload → Option String
  | .text value => some value
  | _ => none

end Payload

end ScopeMachine
