set_option autoImplicit false

/-!
# Generational arenas

Storage addressed by handles. A freed slot is used again by the next allocation, but under a new
generation, so a handle that outlived its value no longer finds anything. Generations are 32-bit
words and wrap around.
-/

namespace ScopeMachine

/-- A reference to a value in an arena. The parameter keeps handles into different arenas apart. -/
@[ext]
structure Handle (region : Type) where
  /-- The number of the slot, without a bound. Where slots are numbered by words of 32 bits, this is the
  same as long as there are no more than 2 ^ 32 of them. -/
  index : Nat
  generation : UInt32

namespace Handle

/-- Handles are equal when their slots and generations are. -/
instance {region : Type} : DecidableEq (Handle region) := fun a b =>
  decidable_of_iff (a.index = b.index ∧ a.generation = b.generation) Handle.ext_iff.symm

def display {region : Type} (handle : Handle region) : String :=
  "#" ++ toString handle.index ++ "v" ++ toString handle.generation.toNat

end Handle

/-- One place of an arena. A vacant slot knows the generation of its next value and the vacant slot
that was freed before it. -/
inductive Slot (α : Type) where
  | occupied (generation : UInt32) (value : α)
  | vacant (generation : UInt32) (next : Option Nat)

structure Arena (region α : Type) where
  slots : Array (Slot α) := #[]
  freeHead : Option Nat := none
  size : Nat := 0
deriving Inhabited

namespace Arena

variable {region α : Type}

def push (arena : Arena region α) (value : α) : Handle region × Arena region α :=
  (⟨arena.slots.size, 0⟩,
    { arena with slots := arena.slots.push (.occupied 0 value), size := arena.size + 1 })

/-- Stores a value, in the slot freed last if there is one. -/
def allocate (arena : Arena region α) (value : α) : Handle region × Arena region α :=
  match arena.freeHead with
  | none => arena.push value
  | some index =>
    match arena.slots[index]? with
    | some (.vacant generation next) =>
      (⟨index, generation⟩,
        { slots := arena.slots.setIfInBounds index (.occupied generation value)
          freeHead := next
          size := arena.size + 1 })
    | _ => arena.push value

def get? (arena : Arena region α) (handle : Handle region) : Option α :=
  match arena.slots[handle.index]? with
  | some (.occupied generation value) =>
    if generation = handle.generation then some value else none
  | _ => none

def contains (arena : Arena region α) (handle : Handle region) : Bool :=
  (arena.get? handle).isSome

/-- Changes the value of a live handle; a stale one changes nothing. -/
def modify (arena : Arena region α) (handle : Handle region) (f : α → α) : Arena region α :=
  { arena with
    slots := arena.slots.modify handle.index fun slot =>
      match slot with
      | .occupied generation value =>
        if generation = handle.generation then .occupied generation (f value)
        else .occupied generation value
      | .vacant generation next => .vacant generation next }

/-- Removes the value of a live handle and yields it. Every copy of the handle becomes stale; a
handle that is stale already changes nothing. -/
def free (arena : Arena region α) (handle : Handle region) : Option α × Arena region α :=
  match arena.get? handle with
  | none => (none, arena)
  | some value =>
    (some value,
      { slots := arena.slots.setIfInBounds handle.index
          (.vacant (handle.generation + 1) arena.freeHead)
        freeHead := some handle.index
        size := arena.size - 1 })

/-- Forgets all values, and all generations with them: slots are handed out again as if for the
first time. -/
def reset (_ : Arena region α) : Arena region α :=
  {}

end Arena

end ScopeMachine
