import ScopeMachine.Store.Binding

set_option autoImplicit false

/-!
# The heap

Bindings and scopes in two arenas. A scope owns the bindings declared in it and frees them when it
is freed; the scope that a binding refers to is not owned by it.
-/

namespace ScopeMachine

/-- A handle that refers to nothing any more. -/
inductive Stale where
  | binding (id : BindingId)
  | scope (id : ScopeId)
  /-- Parents that lead back to where they came from. A search along them finds neither the name nor an
  end. -/
  | endless
deriving DecidableEq

namespace Stale

def display : Stale → String
  | .binding id => "binding " ++ id.display
  | .scope id => "scope " ++ id.display
  | .endless => "parents without end"

end Stale

structure Heap where
  bindings : Arena BindingRegion Binding := {}
  scopes : Arena ScopeRegion Scope := {}
deriving Inhabited

namespace Heap

/-! ## Reading -/

def binding (heap : Heap) (id : BindingId) : Except Stale Binding :=
  match heap.bindings.get? id with
  | some binding => .ok binding
  | none => .error (.binding id)

def scope (heap : Heap) (id : ScopeId) : Except Stale Scope :=
  match heap.scopes.get? id with
  | some scope => .ok scope
  | none => .error (.scope id)

/-- The first binding of a list that has the name. A stale handle in front of it is an error. -/
def findAmong (heap : Heap) (name : String) : List BindingId → Except Stale (Option BindingId)
  | [] => .ok none
  | id :: rest =>
    match heap.binding id with
    | .error stale => .error stale
    | .ok binding => if binding.name = some name then .ok (some id) else heap.findAmong name rest

def findImmediate (heap : Heap) (id : ScopeId) (name : String) : Except Stale (Option BindingId) :=
  match heap.scope id with
  | .error stale => .error stale
  | .ok scope => heap.findAmong name scope.own.toList

/-- Looks a name up in a scope and the chain of its parents, as long as no more levels than `fuel` have
to be searched. -/
def findWithin (heap : Heap) (name : String) : Nat → ScopeId → Except Stale (Option BindingId)
  | 0, _ => .error .endless
  | fuel + 1, id =>
    match heap.findImmediate id name with
    | .error stale => .error stale
    | .ok (some found) => .ok (some found)
    | .ok none =>
      match heap.scope id with
      | .error stale => .error stale
      | .ok scope =>
        match scope.parent with
        | none => .ok none
        | some parent => heap.findWithin name fuel parent

/-- Looks a name up in a scope or any scope it inherits from. A chain without a cycle has no more levels
than there are slots, so one that has more never ends. -/
def findInherited (heap : Heap) (id : ScopeId) (name : String) : Except Stale (Option BindingId) :=
  heap.findWithin name (heap.scopes.slots.size + 1) id

/-! ## Allocation -/

def allocate : Heap → Binding → BindingId × Heap
  | ⟨bindings, scopes⟩, binding =>
    let (id, bindings) := bindings.allocate binding
    (id, ⟨bindings, scopes⟩)

def allocateScope : Heap → Scope → ScopeId × Heap
  | ⟨bindings, scopes⟩, scope =>
    let (id, scopes) := scopes.allocate scope
    (id, ⟨bindings, scopes⟩)

def newScope (heap : Heap) (parent : Option ScopeId) (durable : Bool) : ScopeId × Heap :=
  heap.allocateScope { parent, durable }

/-! ## Changes -/

/-- Changes the binding of a handle; a stale one changes nothing. -/
def modifyBinding (heap : Heap) (id : BindingId) (f : Binding → Binding) : Heap :=
  { heap with bindings := heap.bindings.modify id f }

def modifyScope (heap : Heap) (id : ScopeId) (f : Scope → Scope) : Heap :=
  { heap with scopes := heap.scopes.modify id f }

def adopt (heap : Heap) (scope : ScopeId) (id : BindingId) : Heap :=
  heap.modifyScope scope fun scope => { scope with own := scope.own.push id }

/-- Stores a binding and makes a scope its owner. A stale scope is refused before anything is
stored. -/
def declare (heap : Heap) (scope : ScopeId) (binding : Binding) : Except Stale BindingId × Heap :=
  if heap.scopes.contains scope then
    let (id, heap) := heap.allocate binding
    (.ok id, heap.adopt scope id)
  else (.error (.scope scope), heap)

def redeclare (heap : Heap) (scope : ScopeId) (binding : Binding) :
    Except Stale BindingId × Heap :=
  match binding.name with
  | none => heap.declare scope binding
  | some name =>
    match heap.findImmediate scope name with
    | .error stale => (.error stale, heap)
    | .ok (some id) => (.ok id, heap.modifyBinding id fun _ => binding)
    | .ok none => heap.declare scope binding

/-- Copies bindings into a scope, up to the first stale one. Copies are not constant. -/
def copyInto (scope : ScopeId) : List BindingId → Heap → Option Stale × Heap
  | [], heap => (none, heap)
  | id :: rest, heap =>
    match heap.binding id with
    | .error stale => (some stale, heap)
    | .ok binding =>
      let (duplicate, heap) := heap.allocate { binding with constant := false }
      copyInto scope rest (heap.adopt scope duplicate)

/-- A durable copy of a scope with copies of the bindings it owns. The scopes that those refer to
are shared. What was copied before a stale handle turned up stays in the heap. -/
def copyScope (heap : Heap) (source : ScopeId) : Except Stale ScopeId × Heap :=
  match heap.scope source with
  | .error stale => (.error stale, heap)
  | .ok scope =>
    let (copy, heap) :=
      heap.allocateScope { parent := scope.parent, parameters := scope.parameters, durable := true }
    match copyInto copy scope.own.toList heap with
    | (none, heap) => (.ok copy, heap)
    | (some stale, heap) => (.error stale, heap)

/-! ## Release -/

/-- Frees a binding. The truth value says whether it was there. -/
def freeBinding : Heap → BindingId → Bool × Heap
  | ⟨bindings, scopes⟩, id =>
    let (freed, bindings) := bindings.free id
    (freed.isSome, ⟨bindings, scopes⟩)

def freeBindings (heap : Heap) (ids : List BindingId) : Nat × Heap :=
  ids.foldl (fun (freed, heap) id =>
    let (found, heap) := heap.freeBinding id
    (if found then freed + 1 else freed, heap)) (0, heap)

def freeScope : Heap → ScopeId → Except Stale Nat × Heap
  | ⟨bindings, scopes⟩, id =>
    match scopes.free id with
    | (none, scopes) => (.error (.scope id), ⟨bindings, scopes⟩)
    | (some scope, scopes) =>
      let (freed, heap) := freeBindings ⟨bindings, scopes⟩ scope.own.toList
      (.ok freed, heap)

def releaseScope (heap : Heap) (id : ScopeId) : Except Stale Nat × Heap :=
  match heap.scope id with
  | .error stale => (.error stale, heap)
  | .ok scope => if scope.durable then (.ok 0, heap) else heap.freeScope id

def isLive (heap : Heap) (id : BindingId) : Bool :=
  heap.bindings.contains id

end Heap

end ScopeMachine
