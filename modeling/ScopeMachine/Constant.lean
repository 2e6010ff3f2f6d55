import ScopeMachine.Payload
import ScopeMachine.Program.Basic
import ScopeMachine.Text.Quoted

set_option autoImplicit false

/-!
# Constants and names

A leaf of a program denotes either a constant, which is known when the program is compiled, or a
name, which is looked up when it runs. Three objects have well-known names and are constants.
-/

namespace ScopeMachine

inductive Constant where
  | root
  | something
  | nothing
  | primitive (payload : Payload)
deriving DecidableEq, Hashable, Repr, Inhabited

namespace Constant

def tag : Constant → TypeTag
  | .root => .object
  | .something => .something
  | .nothing => .null
  | .primitive payload => payload.tag

/-- The text of a constant in listings and as the name of its object. Text is quoted. -/
def display : Constant → String
  | .root => "Object"
  | .something => "Something"
  | .nothing => nothingName
  | .primitive (.text value) => Text.quote value
  | .primitive payload => payload.display

/-- The constant that stands for all those that share a pool entry: a primitive without content is
the null object. -/
def key : Constant → Constant
  | .primitive .absent => .nothing
  | constant => constant

end Constant

def Literal.payload : Literal → Payload
  | .integer value => .integer value
  | .decimal value => .decimal value
  | .boolean value => .boolean value
  | .text value => .text value

inductive Entity where
  | constant (constant : Constant)
  | name (name : String)
deriving DecidableEq, Repr

def wellKnown? (name : String) : Option Constant :=
  if name = "Object" then some .root
  else if name = "Something" then some .something
  else if name = nothingName then some .nothing
  else none

/-- What a reference denotes. Well-known names are constants, all others are names. -/
def Reference.entity : Reference → Entity
  | .literal value => .constant (.primitive value.payload)
  | .name text =>
    match wellKnown? text with
    | some constant => .constant constant
    | none => .name text

/-- The words that name a register of the running machine. -/
inductive Keyword where
  | caller
  | self
  | it
deriving DecidableEq, Repr

def Keyword.ofName? (name : String) : Option Keyword :=
  if name = "caller" then some .caller
  else if name = "self" then some .self
  else if name = "it" then some .it
  else none

def isKeyword (name : String) : Bool :=
  (Keyword.ofName? name).isSome

end ScopeMachine
