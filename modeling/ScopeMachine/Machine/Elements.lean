import ScopeMachine.Machine.Action

set_option autoImplicit false

/-!
# Arrays

An array is an object whose attributes are named by the indices of its elements, with one more for
its size.
-/

namespace ScopeMachine.Action

def declareElements (scope : ScopeId) : Nat → Nat → Action Unit
  | 0, _ => return ()
  | count + 1, index => do
    let _ ← declare scope (.unassigned (toString index))
    declareElements scope count (index + 1)

def arraySize : List BindingId → Action (Option Int64)
  | [argument] => return (← binding argument).payload.integer?.filter (0 ≤ ·)
  | _ => return none

def elementScope (array : BindingId) : Action ScopeId := do
  match (← binding array).scope with
  | some scope => return scope
  | none =>
    let scope ← allocateScope { durable := true }
    updateBinding array fun binding => { binding with scope := some scope }
    return scope

def constructArray (array : BindingId) (arguments : List BindingId) : Action Unit := do
  match ← arraySize arguments with
  | none => recover .arraySize
  | some size =>
    let scope ← elementScope array
    declareElements scope size.toInt.toNat 0
    let _ ← declare scope
      { Binding.ofPayload (.integer size) with name := some Machine.sizeName }
    push array

def readSize (array : Binding) : Action (ScopeId × Int64) := do
  match array.scope with
  | none => throw (.notAnArray array.label)
  | some scope =>
    match ← findImmediate scope Machine.sizeName with
    | none => throw (.notAnArray array.label)
    | some id =>
      match (← binding id).payload with
      | .integer size => return (scope, size)
      | _ => throw (.notAnArray array.label)

def arrayIndex : Action Unit := do
  let position ← popBinding
  let target ← popBinding
  let position ← binding position
  match position.payload with
  | .integer index =>
    let array ← binding target
    let (scope, size) ← readSize array
    if index < 0 ∨ size ≤ index then
      throw (.indexOutOfBounds array.label index size)
    else
      match ← findImmediate scope (toString index.toInt) with
      | some element => push element
      | none => recover (.noElement array.label index)
  | _ => throw (.nonIntegerIndex position.tag)

end ScopeMachine.Action
