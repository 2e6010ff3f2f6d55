import Std.Data.HashMap
import ScopeMachine.Config
import ScopeMachine.Console
import ScopeMachine.Fault
import ScopeMachine.Pool

set_option autoImplicit false

/-!
# The state of a machine

A stack machine with call frames over a heap of bindings and scopes.
-/

namespace ScopeMachine

/-- An entry of the operand stack: a binding, or the index of a name that waits to be resolved. -/
inductive StackItem where
  | binding (id : BindingId)
  | name (index : Nat)
deriving DecidableEq

structure Registers where
  ip : Nat := 0
  comparison : UInt8 := 0
  /-- The bytes collected for the next operand, above its low byte. -/
  extended : Nat := 0
  extensions : Nat := 0
  /-- The binding that the current method was called on. -/
  caller : BindingId
  /-- The method being run, or the program object. -/
  receiver : BindingId
  /-- The innermost scope, in which bare names are declared. -/
  localScope : ScopeId
  /-- The result of the last finished statement. -/
  lastResult : Option BindingId := none
deriving DecidableEq

structure Frame where
  returnAddress : Nat := 0
  /-- The height of the operand stack at the start of the call. -/
  stackMark : Nat := 0
  caller : BindingId
  receiver : BindingId
  /-- The open block scopes, innermost first. -/
  localScopes : List ScopeId := []
  /-- The scope of the method copy that the call runs on, freed with the frame. -/
  methodScope : Option ScopeId := none
  /-- The last result of the calling frame. -/
  savedResult : Option BindingId := none
deriving DecidableEq

/-- A machine. The stack and the frames have their latest entry first. -/
structure Machine where
  config : Config
  heap : Heap
  stack : List StackItem
  frames : List Frame
  registers : Registers
  constants : Array BindingId
  interned : Std.HashMap Payload BindingId
  programScope : ScopeId
  /-- The shared binding that stands for no value. -/
  nothing : BindingId
  console : Console
  reports : Array Report
  line : Nat

namespace Machine

def arrayName : String := "Array"

def sizeName : String := "size"

/-- How many extensions an operand of 64 bits can have. -/
def maxExtensions : Nat := 7

/-- A machine that has not run anything: one empty scope and one null binding. -/
def fresh (config : Config) (input : List UInt8) : Machine :=
  let (programScope, heap) := Heap.newScope {} none true
  let (nothing, heap) := heap.allocate {}
  { config, heap, programScope, nothing
    stack := []
    frames := []
    registers := { caller := nothing, receiver := nothing, localScope := programScope }
    constants := #[]
    interned := ∅
    console := { input }
    reports := #[]
    line := 0 }

/-- Stores the shared binding of a payload. Nothing is shared from the start. -/
def internIn (nothing : BindingId) (payload : Payload) :
    Heap × Std.HashMap Payload BindingId → BindingId × Heap × Std.HashMap Payload BindingId
  | (heap, interned) =>
    match payload with
    | .absent => (nothing, heap, interned)
    | payload =>
      match interned[payload]? with
      | some id => (id, heap, interned)
      | none =>
        let (id, heap) := heap.allocate { Binding.ofPayload payload with constant := true }
        (id, heap, interned.insert payload id)

/-- Stores the binding of a constant. The two well-known objects get a scope each. -/
def constantIn (nothing : BindingId) (constant : Constant) :
    Heap × Std.HashMap Payload BindingId → BindingId × Heap × Std.HashMap Payload BindingId
  | (heap, interned) =>
    match constant with
    | .nothing => (nothing, heap, interned)
    | .primitive payload => internIn nothing payload (heap, interned)
    | constant =>
      let (scope, heap) := heap.newScope none true
      let (id, heap) := heap.allocate
        { name := some constant.display, tag := constant.tag, scope := some scope, constant := true }
      (id, heap, interned)

/-- What every run starts from: the program object and its scope, nothing, and the array constructor,
which the program scope owns. -/
structure Bootstrap where
  heap : Heap
  programScope : ScopeId
  programObject : BindingId
  nothing : BindingId

def bootstrap : Bootstrap :=
  let (programScope, heap) := Heap.newScope {} none true
  let (programObject, heap) := heap.allocate
    { tag := .object, scope := some programScope, constant := true }
  let (nothing, heap) := heap.allocate { name := some nothingName, constant := true }
  let (arrayScope, heap) := heap.newScope none true
  let (array, heap) := heap.allocate
    { name := some arrayName, tag := .array, scope := some arrayScope }
  { heap := heap.adopt programScope array, programScope, programObject, nothing }

/-- A machine ready to run code over the given pools: what every run starts from, and the constants
in order. -/
def boot (config : Config) (input : List UInt8) (pools : Pools) : Machine :=
  let ⟨heap, programScope, programObject, nothing⟩ := bootstrap
  let (constants, heap, interned) := pools.constants.entries.foldl
    (fun (constants, heap, interned) constant =>
      let (id, heap, interned) := constantIn nothing constant (heap, interned)
      (constants.push id, heap, interned))
    ((#[] : Array BindingId), heap, (∅ : Std.HashMap Payload BindingId))
  { config, heap, programScope, nothing, constants, interned
    stack := []
    frames := [{ caller := nothing, receiver := programObject }]
    registers := { caller := nothing, receiver := programObject, localScope := programScope }
    console := { input }
    reports := #[]
    line := 0 }

def global? (machine : Machine) (name : String) : Option Binding :=
  match machine.heap.findImmediate machine.programScope name with
  | .ok (some id) => machine.heap.bindings.get? id
  | _ => none

end Machine

end ScopeMachine
