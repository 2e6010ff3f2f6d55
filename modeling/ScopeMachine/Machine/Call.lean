import ScopeMachine.Machine.Action

set_option autoImplicit false

/-!
# Calls and returns

A call runs a method on the copy made for it. Its arguments become bindings of the copy's scope. A
return frees what the frame owned; a value that would go with it is copied out first.
-/

namespace ScopeMachine

inductive Transfer where
  | next
  | goto (target : Nat)
  /-- Nowhere: the program has returned. -/
  | halt (result : Option BindingId)
deriving DecidableEq

namespace Action

/-! ## Entering -/

def parameterCount (target : Binding) : Action Nat := do
  match target.scope with
  | some id => return (← scope id).parameters.length
  | none => return 0

def checkCall (target : Binding) (supplied : Nat) : Action Unit := do
  if target.isCallable then
    let declared ← parameterCount target
    if declared ≠ supplied then
      throw (.argumentCount target.label declared supplied)
  else
    throw (.notCallable target.label)

def bindParameters (scope : ScopeId) : List (String × BindingId) → Action Unit
  | [] => return ()
  | (parameter, argument) :: rest => do
    let source ← binding argument
    let _ ← redeclare scope ((Binding.unassigned parameter).assign source)
    bindParameters scope rest

def bindArguments (target : Binding) (place : Option ScopeId) (arguments : List BindingId) :
    Action Unit := do
  match target.scope with
  | some id =>
    let declared ← scope id
    bindParameters (place.getD id) (declared.parameters.zip arguments)
  | none => return ()

def enterFrame (caller receiver : BindingId) (body : Nat) (methodScope : Option ScopeId) :
    Action Transfer := do
  let machine ← get
  if machine.frames.length < machine.config.maxCallDepth then
    let frame : Frame :=
      { returnAddress := machine.registers.ip + 1
        stackMark := machine.stack.length
        caller, receiver, methodScope
        savedResult := machine.registers.lastResult }
    modify fun machine => { machine with
      frames := frame :: machine.frames
      registers := { machine.registers with caller, receiver, lastResult := none } }
    let localScope ← currentLocalScope
    setRegisters fun registers => { registers with localScope }
    return .goto body
  else
    throw (.callDepthExceeded machine.config.maxCallDepth)

/-! ## Leaving -/

/-- Copies a binding, whose owner is about to be freed, into the current frame. -/
def escape (id : BindingId) : Action BindingId := do
  let escaped ← binding id
  adopt { escaped with name := none, constant := false }

def rescue (owner : ScopeId) : Option BindingId → Action (Option BindingId)
  | none => return none
  | some id => do
    if (← scope owner).owns id then
      return some (← escape id)
    else
      return some id

def releaseScopes : List ScopeId → Option BindingId → Action (Option BindingId)
  | [], keep => return keep
  | scope :: rest, keep => do
    let keep ← rescue scope keep
    releaseScope scope
    releaseScopes rest keep

/-- The kept binding is the method copy, or belongs to its scope's object. -/
def keepsMethod (frame : Frame) (scope : ScopeId) : Option BindingId → Action Bool
  | none => return false
  | some id => do
    if id = frame.receiver then
      return true
    else
      return (← binding id).scope = some scope

/-- Frees the method copy of a finished call with its scope, unless the result needs it. -/
def releaseMethod (frame : Frame) (keep : Option BindingId) : Action (Option BindingId) := do
  match frame.methodScope with
  | none => return keep
  | some scope =>
    if ← keepsMethod frame scope keep then
      return keep
    else
      let keep ← rescue scope keep
      freeScope scope
      freeBinding frame.receiver
      return keep

/-- What a frame yields. Without an explicit value a program yields its last result, and a call
yields its caller, or the method itself when there is no caller. -/
def yielded (frame : Frame) (outermost : Bool) : Option BindingId → Action (Option BindingId)
  | some id => return some id
  | none => do
    if outermost then
      return (← registers).lastResult
    else if (← binding frame.caller).isNull then
      return some frame.receiver
    else
      return some frame.caller

def popExplicit (hasValue : Bool) : Action (Option BindingId) := do
  if hasValue then
    return some (← popBinding)
  else
    return none

def returnFromFrame (hasValue : Bool) : Action Transfer := do
  let explicit ← popExplicit hasValue
  let frame ← popFrame
  truncate frame.stackMark
  let outermost := (← get).frames.isEmpty
  let keep ← yielded frame outermost explicit
  let keep ← releaseScopes frame.localScopes keep
  let keep ← releaseMethod frame keep
  if outermost then
    return .halt keep
  else
    push (keep.getD (← get).nothing)
    let top ← currentFrame
    setRegisters fun registers =>
      { registers with
        caller := top.caller, receiver := top.receiver, lastResult := frame.savedResult }
    let localScope ← currentLocalScope
    setRegisters fun registers => { registers with localScope }
    return .goto frame.returnAddress

end Action

end ScopeMachine
