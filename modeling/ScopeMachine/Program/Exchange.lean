import ScopeMachine.Decimal.Reading
import ScopeMachine.Json.Decode
import ScopeMachine.Json.Reader
import ScopeMachine.Json.Writer
import ScopeMachine.Program.Basic

set_option autoImplicit false

/-!
# The exchange form of programs

Programs are stored and exchanged as JSON. Decoding is bounded by a depth that counts the objects
and arrays still allowed inside the current one.
-/

namespace ScopeMachine

/-! ## Decoding -/

namespace Kind

/-- A kind by its name, alone or as a variant without content. -/
def decode? (depth : Nat) (json : Json) : Option Kind :=
  match json with
  | .string (some name) => ofName? name
  | json =>
    match depth, json.variant? with
    | _ + 1, some (name, .null) => ofName? name
    | _, _ => none

end Kind

namespace Literal

/-- A literal as a variant named for its type. -/
def decode? (depth : Nat) (json : Json) : Option Literal :=
  match depth, json.variant? with
  | _ + 1, some (name, content) =>
    match name with
    | "Integer" => content.int64?.map .integer
    | "Decimal" => (Decimal.ofJson? content).map .decimal
    | "Boolean" => content.boolean?.map .boolean
    | "String" => content.text?.map .text
    | _ => none
  | _, _ => none

end Literal

namespace Reference

/-- A reference as a variant: a name or a literal. -/
def decode? (depth : Nat) (json : Json) : Option Reference :=
  match depth, json.variant? with
  | depth + 1, some (label, content) =>
    match label with
    | "Name" => content.text?.map .name
    | "Literal" => (Literal.decode? depth content).map .literal
    | _ => none
  | _, _ => none

/-- An optional reference; null stands for none. -/
def decodeOptional? (depth : Nat) : Json → Option (Option Reference)
  | .null => some none
  | json => (decode? depth json).map some

end Reference

namespace Operation

def fieldNames : List String := ["kind", "operands", "value", "line"]

mutual

/-- An operation. All fields but the kind may be missing. -/
def decode? : Nat → Json → Option Operation
  | 0, _ => none
  | depth + 1, json =>
    match json.fields? fieldNames with
    | some [kind, operands, value, line] => do
      let kind ← Json.required (Kind.decode? depth) kind
      let operands ← Json.optional [] (decodeAll? depth) operands
      let value ← Json.optional none (Reference.decodeOptional? depth) value
      let line ← Json.optional 0 Json.word? line
      some ⟨kind, operands, value, line⟩
    | _ => none

def decodeAll? : Nat → Json → Option (List Operation)
  | depth + 1, .array items => items.mapM (decode? depth)
  | _, _ => none

end

end Operation

namespace Entry

mutual

def decode? : Nat → Json → Option Entry
  | 0, _ => none
  | depth + 1, json =>
    match json.variant? with
    | some ("Operation", content) => (Operation.decode? depth content).map .statement
    | some ("Block", content) => (decodeBlock? depth content).map .block
    | _ => none

def decodeBlock? : Nat → Json → Option Block
  | 0, _ => none
  | depth + 1, json =>
    match json.fields? ["executables"] with
    | some [some entries] => decodeAll? depth entries
    | _ => none

def decodeAll? : Nat → Json → Option Block
  | depth + 1, .array items => items.mapM (decode? depth)
  | _, _ => none

end

end Entry

namespace Program

def decode? : Nat → Json → Option Program
  | 0, _ => none
  | depth + 1, json =>
    match json.fields? ["main"] with
    | some [some main] => (Entry.decodeBlock? depth main).map Program.mk
    | _ => none

def parse? (text : String) : Option Program :=
  Json.parse? text >>= decode? Json.depthLimit

end Program

/-! ## Encoding -/

def Literal.encode : Literal → Json
  | .integer value => .record [("Integer", .number (.ofInt value.toInt))]
  | .decimal value => .record [("Decimal", value.toJson)]
  | .boolean value => .record [("Boolean", .boolean value)]
  | .text value => .record [("String", .text value)]

def Reference.encode : Reference → Json
  | .name text => .record [("Name", .text text)]
  | .literal value => .record [("Literal", value.encode)]

def Reference.encodeOptional : Option Reference → Json
  | none => .null
  | some reference => reference.encode

namespace Operation

mutual

def encode : Operation → Json
  | ⟨kind, operands, value, line⟩ =>
    .record [("kind", .text kind.name), ("operands", .array (encodeAll operands)),
      ("value", Reference.encodeOptional value), ("line", .nat line)]

def encodeAll : List Operation → List Json
  | [] => []
  | operation :: rest => encode operation :: encodeAll rest

end

end Operation

namespace Entry

mutual

def encode : Entry → Json
  | .statement operation => .record [("Operation", operation.encode)]
  | .block body => .record [("Block", .record [("executables", .array (encodeAll body))])]

def encodeAll : Block → List Json
  | [] => []
  | entry :: rest => encode entry :: encodeAll rest

end

end Entry

namespace Program

def encode (program : Program) : Json :=
  .record [("main", .record [("executables", .array (Entry.encodeAll program.main))])]

def render (program : Program) : String :=
  program.encode.render

end Program

end ScopeMachine
