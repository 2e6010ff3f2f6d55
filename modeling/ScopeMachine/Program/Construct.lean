import ScopeMachine.Program.Basic

set_option autoImplicit false

/-!
# Building operations

Constructors for the shapes that the compiler understands.
-/

namespace ScopeMachine.Operation

/-! ## Leaves -/

def leaf (reference : Reference) : Operation :=
  { kind := .ref, value := some reference }

def name (text : String) : Operation :=
  leaf (.name text)

def integer (value : Int64) : Operation :=
  leaf (.literal (.integer value))

def decimal (value : Decimal) : Operation :=
  leaf (.literal (.decimal value))

def boolean (value : Bool) : Operation :=
  leaf (.literal (.boolean value))

def text (value : String) : Operation :=
  leaf (.literal (.text value))

/-- The leaf for no caller and for no arguments. -/
def nothing : Operation :=
  name nothingName

/-! ## Expressions -/

def resolve (text : String) : Operation :=
  { kind := .scopeResolution, operands := [name text] }

def member (target : Operation) (text : String) : Operation :=
  { kind := .scopeResolution, operands := [target, name text] }

def unary (kind : Kind) (operand : Operation) : Operation :=
  { kind, operands := [operand] }

def binary (kind : Kind) (left right : Operation) : Operation :=
  { kind, operands := [left, right] }

def assign (target value : Operation) : Operation :=
  binary .assign target value

def pack : List Operation → Option Operation
  | [] => none
  | [single] => some single
  | many => some { kind := .tuple, operands := many }

def call (caller : Option Operation) (method : String) (arguments : List Operation) : Operation :=
  { kind := .evaluate
    operands := [caller.getD nothing, name method, (pack arguments).getD nothing] }

def newObject (target : Operation) : Operation :=
  unary .new target

def element (target index : Operation) : Operation :=
  binary .index target index

/-! ## Statements -/

def print (value : Operation) : Operation :=
  unary .print value

/-- Input of a line, after an optional prompt. -/
def ask (prompt : Option Operation) : Operation :=
  { kind := .ask, operands := prompt.toList }

def giveBack (value : Option Operation) : Operation :=
  { kind := .return, operands := value.toList }

/-- The first clause of an if chain; its body follows it. -/
def ifClause (condition : Operation) : Operation :=
  unary .if condition

def elseIfClause (condition : Operation) : Operation :=
  unary .elseIf condition

def elseClause : Operation :=
  { kind := .else }

def whileLoop (condition : Operation) : Operation :=
  unary .while condition

/-- A method definition; its body follows it. -/
def define (target : Operation) (parameters : List String) : Operation :=
  { kind := .defineMethod, operands := target :: (pack (parameters.map name)).toList }

end ScopeMachine.Operation
