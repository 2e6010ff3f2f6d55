import ScopeMachine.Proofs.BoundScopes
import ScopeMachine.Proofs.Store.Census
import ScopeMachine.Proofs.Store.Lookup

set_option autoImplicit false

/-!
# Name resolution

The levels that a bare name is looked for in form a list: the innermost scope, the receiver's scope with
all that it inherits from, the caller's scope and the program scope. The first level that has the name
tells the binding. Where no level has it, one new binding is declared in the innermost scope, and
nothing else changes. From then on the name is found there.
-/

namespace ScopeMachine

/-! ## What a scope inherits from -/

namespace Heap

/-- A scope, if there is one, and the scopes that it inherits from, nearest first. All are there. -/
inductive Ancestry (heap : Heap) : Option ScopeId → List ScopeId → Prop where
  | top : Ancestry heap none []
  | level {scope : ScopeId} {found : Scope} {above : List ScopeId} :
      heap.scopes.get? scope = some found → Ancestry heap found.parent above →
      Ancestry heap (some scope) (scope :: above)

section

variable {heap : Heap} {start : Option ScopeId} {levels : List ScopeId}

theorem Ancestry.unique (ancestry : heap.Ancestry start levels) {others : List ScopeId}
    (again : heap.Ancestry start others) : levels = others := by
  induction ancestry generalizing others with
  | top =>
    cases again
    rfl
  | level there _ ih =>
    cases again with
    | level same above =>
      cases there.symm.trans same
      rw [ih above]

theorem Ancestry.liveScope (ancestry : heap.Ancestry start levels) {scope : ScopeId}
    (member : scope ∈ levels) : heap.LiveScope scope := by
  induction ancestry with
  | top => cases member
  | level there _ ih =>
    cases member with
    | head => exact ⟨_, there⟩
    | tail _ later => exact ih later

private theorem Ancestry.from_mem (ancestry : heap.Ancestry start levels) {scope : ScopeId}
    (member : scope ∈ levels) :
    ∃ above, heap.Ancestry (some scope) (scope :: above) ∧ above.length < levels.length := by
  induction ancestry with
  | top => cases member
  | @level first found above there rest ih =>
    cases member with
    | head => exact ⟨above, .level there rest, by simp⟩
    | tail _ later =>
      obtain ⟨higher, ancestry, shorter⟩ := ih later
      exact ⟨higher, ancestry, Nat.lt_succ_of_lt shorter⟩

/-- A scope that ends its way up does not come by twice. -/
theorem Ancestry.nodup (ancestry : heap.Ancestry start levels) : levels.Nodup := by
  induction ancestry with
  | top => exact List.nodup_nil
  | @level first found above there rest ih =>
    refine List.nodup_cons.mpr ⟨fun member => ?_, ih⟩
    obtain ⟨higher, again, shorter⟩ := rest.from_mem member
    cases (Ancestry.level there rest).unique again
    exact Nat.lt_irrefl _ shorter

/-- There are at most as many levels as slots, since all are there. -/
theorem Ancestry.length_le (ancestry : heap.Ancestry start levels) :
    levels.length ≤ heap.scopes.slots.size := by
  have inside : levels ⊆ heap.scopes.handles := fun scope member =>
    Arena.mem_handles.mpr (ancestry.liveScope member)
  calc levels.length
    _ ≤ heap.scopes.handles.length := (ancestry.nodup.subperm inside).length_le
    _ = heap.scopes.occupied := heap.scopes.length_handles
    _ ≤ heap.scopes.slots.size := heap.scopes.occupied_le_size

variable (tidy : heap.Tidy)

include tidy

theorem Tidy.findWithin_eq (name : String) (ancestry : heap.Ancestry start levels) {fuel : Nat}
    (enough : levels.length ≤ fuel) :
    start.elim (.ok none) (heap.findWithin name fuel)
      = .ok (levels.findSome? fun level => heap.first level name) := by
  induction ancestry generalizing fuel with
  | top => rfl
  | @level scope found above there rest ih =>
    obtain ⟨fuel, rfl⟩ := Nat.exists_eq_add_one_of_ne_zero (Nat.ne_zero_of_lt enough)
    have finds := tidy.findImmediate_eq ⟨found, there⟩ name
    have reads : heap.scope scope = .ok found := by simp [Heap.scope, there]
    change heap.findWithin name (fuel + 1) scope = _
    rw [Heap.findWithin, finds, List.findSome?_cons]
    cases heap.first scope name with
    | some id => rfl
    | none =>
      have higher := ih (Nat.le_of_succ_le_succ enough)
      simp only [reads]
      cases up : found.parent <;> rw [up] at higher <;> exact higher

theorem Tidy.findInherited_eq (name : String) {scope : ScopeId} {levels : List ScopeId}
    (ancestry : heap.Ancestry (some scope) levels) :
    heap.findInherited scope name = .ok (levels.findSome? fun level => heap.first level name) := by
  exact tidy.findWithin_eq name ancestry (Nat.le_succ_of_le ancestry.length_le)

end

/-- Attributes are kept in a scope that inherits nothing, so they are on one level. -/
theorem Leveled.ancestry {heap : Heap} {rank : ScopeId → Nat} (leveled : heap.Leveled rank)
    {id : BindingId} (live : ∀ scope, heap.Refers id scope → heap.LiveScope scope) :
    heap.Ancestry (heap.scopeOf id) (heap.scopeOf id).toList := by
  cases has : heap.scopeOf id with
  | none => exact .top
  | some scope =>
    have refers := scopeOf_eq_some.mp has
    obtain ⟨found, there, -, top⟩ := leveled.grounded ⟨id, refers⟩ (live scope refers)
    exact .level there (top ▸ .top)

end Heap

/-! ## The levels around a machine -/

open Heap

namespace Machine

/-- The scopes that a bare name is looked for in, in order. -/
def searched (machine : Machine) (own : List ScopeId) : List ScopeId :=
  machine.registers.localScope ::
    (own ++ (machine.heap.scopeOf machine.registers.caller).toList ++ [machine.programScope])

def held (machine : Machine) (own : List ScopeId) (name : String) : Option BindingId :=
  (machine.searched own).findSome? fun level => machine.heap.first level name

end Machine

namespace Action

variable {machine : Machine}

theorem findImmediate_eq (tidy : machine.heap.Tidy) {owner : ScopeId}
    (live : machine.heap.LiveScope owner) (name : String) :
    findImmediate owner name machine = .ok (machine.heap.first owner name) machine := by
  rw [findImmediate, inspect, tidy.findImmediate_eq live]

end Action

/-! ## States of runs -/

theorem Machine.Intact.of_heap {machine : Machine} (intact : machine.Intact) {heap : Heap}
    (tidy : heap.Tidy) (live : ∀ {id}, machine.heap.Live id → heap.Live id)
    (scopes : ∀ {frame scope}, frame ∈ machine.frames → scope ∈ frame.estate →
      heap.LiveScope scope) : Machine.Intact { machine with heap } := by
  refine ⟨tidy, fun held => live (intact.held ?_), scopes⟩
  cases held with
  | root root => exact .root (root.same rfl rfl rfl)
  | item member => exact .item member
  | caller => exact .caller
  | receiver => exact .receiver
  | frame member held => exact .frame member held

end ScopeMachine
