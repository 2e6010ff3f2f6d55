import ScopeMachine.Payload
import ScopeMachine.Store.Arena

set_option autoImplicit false

/-!
# Bindings and scopes

A binding is a slot that instructions work on: a tag, a payload, and optionally a scope for its
attributes and the offset of a body. A scope lists the bindings declared in it.
-/

namespace ScopeMachine

inductive BindingRegion

inductive ScopeRegion

abbrev BindingId := Handle BindingRegion

abbrev ScopeId := Handle ScopeRegion

/-- A named or anonymous place for a value. -/
structure Binding where
  name : Option String := none
  /-- The attributes, which the binding does not own. -/
  scope : Option ScopeId := none
  tag : TypeTag := .null
  /-- The offset of the body in the code; zero when there is none. -/
  body : Nat := 0
  payload : Payload := .absent
  /-- Shared bindings must not be assigned to. -/
  constant : Bool := false
deriving DecidableEq, Inhabited

namespace Binding

def ofPayload (payload : Payload) : Binding :=
  { tag := payload.tag, payload }

/-- A null-typed binding with a name, as a first mention declares it. -/
def unassigned (name : String) : Binding :=
  { name := some name }

def isNull (binding : Binding) : Bool :=
  binding.tag = .null

def isCallable (binding : Binding) : Bool :=
  binding.body ≠ 0

def label (binding : Binding) : String :=
  binding.name.getD "<anonymous>"

/-- The text that output shows. Without a payload it is the name of the type. -/
def display (binding : Binding) : String :=
  match binding.payload with
  | .absent => binding.tag.name
  | payload => payload.display

/-- Takes over the body, the scope and the payload of a source. The type follows too, but a null
source never erases a type once given. -/
def assign (target source : Binding) : Binding :=
  { target with
    body := source.body
    scope := source.scope
    payload := source.payload
    tag := if source.isNull && !target.isNull then target.tag else source.tag }

/-- Agreement of type, scope, body and payload; names do not matter. -/
def same (a b : Binding) : Bool :=
  a.tag = b.tag && a.scope = b.scope && a.body = b.body && a.payload.same b.payload

end Binding

structure Scope where
  /-- The bindings declared here, in order; the scope owns them. -/
  own : Array BindingId := #[]
  /-- The level searched after this one. -/
  parent : Option ScopeId := none
  parameters : List String := []
  /-- Durable scopes outlive the block that created them. -/
  durable : Bool := false
deriving DecidableEq, Inhabited

namespace Scope

def owns (scope : Scope) (id : BindingId) : Bool :=
  scope.own.contains id

end Scope

end ScopeMachine
