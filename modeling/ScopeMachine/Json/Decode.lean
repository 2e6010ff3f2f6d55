import ScopeMachine.Json.Basic

set_option autoImplicit false

/-!
# Decoding records and variants

Rules shared by all decoded types. A record is an object, whose unknown members are ignored, or an
array of its fields in order. A variant is an object with exactly one member. Objects and arrays
that are decoded may nest to a fixed depth; ignored members do not count.
-/

namespace ScopeMachine.Json

/-- How deep decoded objects and arrays may nest. -/
def depthLimit : Nat := 127

/-- The value of one field of an object: missing, present once, or refused when repeated. -/
def field? (members : List (Option String × Json)) (name : String) : Option (Option Json) :=
  match members.filter fun (key, _) => key == some name with
  | [] => some none
  | [(_, value)] => some (some value)
  | _ => none

/-- The fields of a record in the order of `names`, each with its value if it has one. An array
gives the leading fields and may not be longer than the record; every key of an object must denote
a text. -/
def fields? (names : List String) : Json → Option (List (Option Json))
  | .array items =>
    if items.length ≤ names.length then
      some (items.map some ++ List.replicate (names.length - items.length) none)
    else none
  | .object members =>
    if members.all fun (key, _) => key.isSome then names.mapM (field? members) else none
  | _ => none

def variant? : Json → Option (String × Json)
  | .object [(some name, content)] => some (name, content)
  | _ => none

def text? : Json → Option String
  | .string text => text
  | _ => none

def boolean? : Json → Option Bool
  | .boolean value => some value
  | _ => none

def word? : Json → Option Nat
  | .number numeral => numeral.toNat?.filter (· < UInt64.size)
  | _ => none

def int64? : Json → Option Int64
  | .number numeral =>
    (numeral.toInt?.filter fun n => Int64.minValue.toInt ≤ n && n ≤ Int64.maxValue.toInt).map
      Int64.ofInt
  | _ => none

/-- An optional field: a missing one takes its default. -/
def optional {α : Type} (default : α) (decode : Json → Option α) : Option Json → Option α
  | none => some default
  | some json => decode json

def required {α : Type} (decode : Json → Option α) : Option Json → Option α
  | none => none
  | some json => decode json

end ScopeMachine.Json
