import ScopeMachine.Machine.State

set_option autoImplicit false

/-!
# Actions

An action changes a machine and either yields a value or raises a fault. What it did before a fault
stays done.
-/

namespace ScopeMachine

abbrev Action := EStateM Fault Machine

namespace Machine

variable {α : Type}

/-- Hands the heap to a function and takes it back. -/
def withHeap (f : Heap → α × Heap) : Machine → α × Machine
  | ⟨config, heap, stack, frames, registers, constants, interned, programScope, nothing, console,
      reports, line⟩ =>
    let (result, heap) := f heap
    (result, ⟨config, heap, stack, frames, registers, constants, interned, programScope, nothing,
      console, reports, line⟩)

def withInterned
    (f : Heap × Std.HashMap Payload BindingId → α × Heap × Std.HashMap Payload BindingId) :
    Machine → α × Machine
  | ⟨config, heap, stack, frames, registers, constants, interned, programScope, nothing, console,
      reports, line⟩ =>
    let (result, heap, interned) := f (heap, interned)
    (result, ⟨config, heap, stack, frames, registers, constants, interned, programScope, nothing,
      console, reports, line⟩)

def storeConstant (constant : Constant) (machine : Machine) : Machine :=
  match machine.withInterned (constantIn machine.nothing constant) with
  | (id, machine) => { machine with constants := machine.constants.push id }

/-- Gets a machine ready to run code over the given pools, whatever it has run before and however that
ended. The heap starts anew, and everything else is put back; the configuration and the unread input
stay. -/
def reset (machine : Machine) (pools : Pools) : Machine :=
  let ⟨heap, programScope, programObject, nothing⟩ := bootstrap
  let machine := { machine with
    heap, programScope, nothing
    stack := []
    interned := ∅
    constants := #[]
    console := machine.console.clear
    reports := #[]
    line := 0 }
  let machine := pools.constants.entries.foldl (fun machine constant =>
    machine.storeConstant constant) machine
  { machine with
    registers := { caller := nothing, receiver := programObject, localScope := programScope }
    frames := [{ caller := nothing, receiver := programObject }] }

def withConsole (f : Console → α × Console) : Machine → α × Machine
  | ⟨config, heap, stack, frames, registers, constants, interned, programScope, nothing, console,
      reports, line⟩ =>
    let (result, console) := f console
    (result, ⟨config, heap, stack, frames, registers, constants, interned, programScope, nothing,
      console, reports, line⟩)

def addReport (severity : Severity) (message : String) : Machine → Machine
  | ⟨config, heap, stack, frames, registers, constants, interned, programScope, nothing, console,
      reports, line⟩ =>
    ⟨config, heap, stack, frames, registers, constants, interned, programScope, nothing, console,
      reports.push ⟨severity, line, message⟩, line⟩

end Machine

namespace Action

variable {α : Type}

/-! ## The heap -/

def inspect (f : Heap → Except Stale α) : Action α := fun machine =>
  match f machine.heap with
  | .ok value => .ok value machine
  | .error stale => .error (.staleHandle stale) machine

def change (f : Heap → α × Heap) : Action α := fun machine =>
  match machine.withHeap f with
  | (value, machine) => .ok value machine

/-- Changes the heap, where a stale handle may get in the way. -/
def attempt (f : Heap → Except Stale α × Heap) : Action α := fun machine =>
  match machine.withHeap f with
  | (.ok value, machine) => .ok value machine
  | (.error stale, machine) => .error (.staleHandle stale) machine

def binding (id : BindingId) : Action Binding :=
  inspect fun heap => heap.binding id

def scope (id : ScopeId) : Action Scope :=
  inspect fun heap => heap.scope id

def updateBinding (id : BindingId) (f : Binding → Binding) : Action Unit := do
  let _ ← binding id
  change fun heap => ((), heap.modifyBinding id f)

def findImmediate (id : ScopeId) (name : String) : Action (Option BindingId) :=
  inspect fun heap => heap.findImmediate id name

def findInherited (id : ScopeId) (name : String) : Action (Option BindingId) :=
  inspect fun heap => heap.findInherited id name

def allocate (binding : Binding) : Action BindingId :=
  change fun heap => heap.allocate binding

def allocateScope (scope : Scope) : Action ScopeId :=
  change fun heap => heap.allocateScope scope

def declare (scope : ScopeId) (binding : Binding) : Action BindingId :=
  attempt fun heap => heap.declare scope binding

def redeclare (scope : ScopeId) (binding : Binding) : Action BindingId :=
  attempt fun heap => heap.redeclare scope binding

def copyScope (id : ScopeId) : Action ScopeId :=
  attempt fun heap => heap.copyScope id

def releaseScope (id : ScopeId) : Action Unit := do
  let _ ← attempt fun heap => heap.releaseScope id

def freeScope (id : ScopeId) : Action Unit := do
  let _ ← attempt fun heap => heap.freeScope id

def freeBinding (id : BindingId) : Action Unit :=
  change fun heap => ((), (heap.freeBinding id).2)

/-! ## The stack -/

def pushItem (item : StackItem) : Action Unit :=
  modify fun machine => { machine with stack := item :: machine.stack }

def push (id : BindingId) : Action Unit :=
  pushItem (.binding id)

def pop : Action StackItem := fun machine =>
  match machine.stack with
  | [] => .error .stackUnderflow machine
  | item :: rest => .ok item { machine with stack := rest }

def popBinding : Action BindingId := do
  match ← pop with
  | .binding id => return id
  | .name _ => throw .expectedBinding

def popName : Action Nat := do
  match ← pop with
  | .name index => return index
  | .binding _ => throw .expectedName

def peek : Action StackItem := fun machine =>
  match machine.stack with
  | [] => .error .stackUnderflow machine
  | item :: _ => .ok item machine

def peekBinding : Action BindingId := do
  match ← peek with
  | .binding id => return id
  | .name _ => throw .expectedBinding

/-- Pops bindings; the result is in the order in which they were pushed, in front of those popped
before. -/
def popArguments : Nat → List BindingId → Action (List BindingId)
  | 0, arguments => return arguments
  | count + 1, arguments => do
    let argument ← popBinding
    popArguments count (argument :: arguments)

/-- Drops entries until the stack has the given height. -/
def truncate (height : Nat) : Action Unit :=
  modify fun machine =>
    { machine with stack := machine.stack.drop (machine.stack.length - height) }

/-! ## Registers and frames -/

def registers : Action Registers :=
  return (← get).registers

def setRegisters (f : Registers → Registers) : Action Unit :=
  modify fun machine => { machine with registers := f machine.registers }

def currentFrame : Action Frame := do
  match (← get).frames with
  | frame :: _ => return frame
  | [] => throw .missingFrame

def setLocalScopes (f : List ScopeId → List ScopeId) : Action Unit := fun machine =>
  match machine.frames with
  | frame :: rest =>
    .ok () { machine with frames := { frame with localScopes := f frame.localScopes } :: rest }
  | [] => .error .missingFrame machine

def popFrame : Action Frame := fun machine =>
  match machine.frames with
  | frame :: rest => .ok frame { machine with frames := rest }
  | [] => .error .missingFrame machine

/-- The scope of the receiver, or else the program's. -/
def receiverScope : Action ScopeId := do
  let machine ← get
  let receiver ← binding machine.registers.receiver
  return receiver.scope.getD machine.programScope

/-- The scope in which bare names are declared now: the innermost block, else that of the
receiver. -/
def currentLocalScope : Action ScopeId := do
  match (← get).frames with
  | { localScopes := innermost :: _, .. } :: _ => return innermost
  | _ => receiverScope

/-! ## Values -/

def intern (payload : Payload) : Action BindingId := fun machine =>
  match machine.withInterned (Machine.internIn machine.nothing payload) with
  | (id, machine) => .ok id machine

/-- The innermost scope that the current frame frees by itself: its open block, else the method copy
it runs on. -/
def disposableScope : Action (Option ScopeId) := do
  match (← get).frames with
  | [] => return none
  | frame :: _ => return frame.localScopes.head?.or frame.methodScope

/-- Stores a binding that lives as long as the disposable scope, or on its own at program level. -/
def adopt (value : Binding) : Action BindingId := do
  match ← disposableScope with
  | some scope => declare scope value
  | none => allocate value

/-- Stores a computed value. Booleans are shared, and at program level all values are. -/
def temporary (payload : Payload) : Action BindingId := do
  match payload with
  | .absent => intern payload
  | .boolean _ => intern payload
  | _ =>
    match ← disposableScope with
    | some scope => declare scope (.ofPayload payload)
    | none => intern payload

/-! ## Reports -/

def report (trouble : Trouble) : Action Unit :=
  modify (Machine.addReport .recoverable trouble.message)

/-- Reports a trouble and pushes nothing in place of the failed result. -/
def recover (trouble : Trouble) : Action Unit := do
  report trouble
  push (← get).nothing

end Action

end ScopeMachine
