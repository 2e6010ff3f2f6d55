import ScopeMachine.Machine.Action

set_option autoImplicit false

/-!
# Name resolution

A bare name is looked for in the innermost scope, in the receiver's scope and its parents, in the
caller's scope and in the program's scope, in this order. A name found nowhere is declared in the
innermost scope, so a bare name always resolves. A member is looked for in the scope of its target
only, and declared there if it is missing.
-/

namespace ScopeMachine.Action

/-- The register that a keyword names. Before the first statement has finished there is no last
result, and nothing stands for it. -/
def keyword : Keyword → Action BindingId
  | .caller => return (← registers).caller
  | .self => return (← registers).receiver
  | .it => do
    let machine ← get
    return machine.registers.lastResult.getD machine.nothing

/-- Looks a name up in the scope of a binding; one without a scope has no names. -/
def findThrough (find : ScopeId → String → Action (Option BindingId)) (id : BindingId)
    (name : String) : Action (Option BindingId) := do
  match (← binding id).scope with
  | some scope => find scope name
  | none => return none

def resolveName (name : String) : Action BindingId := do
  let machine ← get
  let innermost := machine.registers.localScope
  match ← findImmediate innermost name with
  | some found => return found
  | none =>
    match ← findThrough findInherited machine.registers.receiver name with
    | some found => return found
    | none =>
      match ← findThrough findImmediate machine.registers.caller name with
      | some found => return found
      | none =>
        match ← findImmediate machine.programScope name with
        | some found => return found
        | none => declare innermost (.unassigned name)

def resolveDirect (name : String) : Action BindingId :=
  match Keyword.ofName? name with
  | some word => keyword word
  | none => resolveName name

def resolveScoped (target : BindingId) (name : String) : Action (Option BindingId) := do
  match (← binding target).scope with
  | none => return none
  | some scope =>
    match ← findImmediate scope name with
    | some found => return some found
    | none => return some (← declare scope (.unassigned name))

end ScopeMachine.Action
