import Std.Data.HashMap
import ScopeMachine.Constant

set_option autoImplicit false

/-!
# Pools

Code refers to constants and names by their index in a pool. A pool keeps the first entry of each
key, in the order of first sight, and an index from keys to positions.
-/

namespace ScopeMachine

/-- Entries in the order of first sight, and the position of each key. -/
structure Pool (α κ : Type) [BEq κ] [Hashable κ] where
  entries : Array α := #[]
  positions : Std.HashMap κ Nat := ∅

namespace Pool

variable {α κ : Type} [BEq κ] [Hashable κ]

def size (pool : Pool α κ) : Nat :=
  pool.entries.size

def get? (pool : Pool α κ) (index : Nat) : Option α :=
  pool.entries[index]?

def indexOf? (pool : Pool α κ) (key : κ) : Option Nat :=
  pool.positions[key]?

/-- Adds an entry unless its key was seen before. -/
def intern (pool : Pool α κ) (key : κ) (entry : α) : Pool α κ :=
  if (pool.indexOf? key).isSome then pool
  else
    let ⟨entries, positions⟩ := pool
    let index := entries.size
    ⟨entries.push entry, positions.insert key index⟩

end Pool

/-- Constants by type and value. -/
abbrev ConstantPool := Pool Constant Constant

abbrev NamePool := Pool String String

namespace ConstantPool

def add (pool : ConstantPool) (constant : Constant) : ConstantPool :=
  Pool.intern pool constant.key constant

def index? (pool : ConstantPool) (constant : Constant) : Option Nat :=
  Pool.indexOf? pool constant.key

/-- A pool that holds the three well-known objects. -/
def initial : ConstantPool :=
  ((add {} .root).add .something).add .nothing

end ConstantPool

namespace NamePool

def add (pool : NamePool) (name : String) : NamePool :=
  Pool.intern pool name name

def index? (pool : NamePool) (name : String) : Option Nat :=
  Pool.indexOf? pool name

end NamePool

def nothingIndex : Nat := 2

structure Pools where
  constants : ConstantPool := .initial
  names : NamePool := {}

namespace Pools

/-- Adds what a leaf denotes to the pool it belongs to. -/
def addEntity : Pools → Entity → Pools
  | ⟨constants, names⟩, .constant constant => ⟨constants.add constant, names⟩
  | ⟨constants, names⟩, .name name => ⟨constants, names.add name⟩

/-- Adds what a node itself denotes; only leaves with a content denote anything. -/
def addLeaf (pools : Pools) (kind : Kind) (value : Option Reference) : Pools :=
  match kind, value with
  | .ref, some reference => pools.addEntity reference.entity
  | _, _ => pools

mutual

def addOperation (pools : Pools) : Operation → Pools
  | ⟨kind, operands, value, _⟩ => addOperations (pools.addLeaf kind value) operands

def addOperations (pools : Pools) : List Operation → Pools
  | [] => pools
  | operation :: rest => addOperations (addOperation pools operation) rest

end

mutual

def addEntry (pools : Pools) : Entry → Pools
  | .statement operation => pools.addOperation operation
  | .block body => addBlock pools body
termination_by structural entry => entry

/-- Adds the leaves of a block, in source order. -/
def addBlock (pools : Pools) : List Entry → Pools
  | [] => pools
  | entry :: rest => addBlock (addEntry pools entry) rest
termination_by structural block => block

end

def ofProgram (program : Program) : Pools :=
  addBlock {} program.main

end Pools

end ScopeMachine
