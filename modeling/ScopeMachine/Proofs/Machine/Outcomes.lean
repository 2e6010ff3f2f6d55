import ScopeMachine.Proofs.Machine.Veil

set_option autoImplicit false

/-!
# Outcomes

What is known of an action that has succeeded: each of its parts has, and what was read or taken was
there.
-/

namespace ScopeMachine.Action

variable {α β : Type} {machine after : Machine}

/-- Where a sequence succeeds, both parts do. -/
theorem ok_of_bind {action : Action α} {next : α → Action β} {value : β}
    (result : (action >>= next) machine = .ok value after) :
    ∃ middle passed, action machine = .ok middle passed ∧ next middle passed = .ok value after := by
  cases first : action machine with
  | ok middle passed => exact ⟨middle, passed, rfl, (bind_of_ok first).symm.trans result⟩
  | error fault last =>
    rw [bind_of_error first] at result
    cases result

/-! ## The heap -/

theorem ok_of_inspect {f : Heap → Except Stale α} {value : α}
    (result : inspect f machine = .ok value after) : f machine.heap = .ok value ∧ after = machine := by
  unfold inspect at result
  split at result
  · cases result
    exact ⟨by assumption, rfl⟩
  · cases result

theorem ok_of_attempt {f : Heap → Except Stale α × Heap} {value : α}
    (result : attempt f machine = .ok value after) :
    ∃ heap, f machine.heap = (.ok value, heap) ∧ after = { machine with heap } := by
  cases changes : f machine.heap with
  | mk outcome heap =>
    cases outcome with
    | ok found =>
      rw [attempt_of_ok changes] at result
      cases result
      exact ⟨heap, rfl, rfl⟩
    | error stale =>
      rw [attempt_of_error changes] at result
      cases result

theorem ok_of_binding {id : BindingId} {value : Binding}
    (result : binding id machine = .ok value after) :
    machine.heap.bindings.get? id = some value ∧ after = machine := by
  obtain ⟨reads, rfl⟩ := ok_of_inspect result
  unfold Heap.binding at reads
  split at reads
  · cases reads
    exact ⟨by assumption, rfl⟩
  · cases reads

theorem ok_of_scope {id : ScopeId} {found : Scope} (result : scope id machine = .ok found after) :
    machine.heap.scopes.get? id = some found ∧ after = machine := by
  obtain ⟨reads, rfl⟩ := ok_of_inspect result
  unfold Heap.scope at reads
  split at reads
  · cases reads
    exact ⟨by assumption, rfl⟩
  · cases reads

/-! ## The stack -/

private theorem ok_of_pop {item : StackItem} (result : pop machine = .ok item after) :
    ∃ rest, machine.stack = item :: rest ∧ after = { machine with stack := rest } := by
  unfold pop at result
  split at result
  · cases result
  · cases result
    exact ⟨_, by assumption, rfl⟩

theorem ok_of_popBinding {id : BindingId} (result : popBinding machine = .ok id after) :
    ∃ rest, machine.stack = .binding id :: rest ∧ after = { machine with stack := rest } := by
  obtain ⟨item, passed, popped, result⟩ := ok_of_bind result
  obtain ⟨rest, stack, rfl⟩ := ok_of_pop popped
  cases item with
  | binding id =>
    cases result
    exact ⟨rest, stack, rfl⟩
  | name index => cases result

theorem ok_of_popName {index : Nat} (result : popName machine = .ok index after) :
    ∃ rest, machine.stack = .name index :: rest ∧ after = { machine with stack := rest } := by
  obtain ⟨item, passed, popped, result⟩ := ok_of_bind result
  obtain ⟨rest, stack, rfl⟩ := ok_of_pop popped
  cases item with
  | binding id => cases result
  | name index =>
    cases result
    exact ⟨rest, stack, rfl⟩

/-- Arguments lie on the stack with the last one on top. -/
theorem ok_of_popArguments {count : Nat} {arguments taken : List BindingId}
    (result : popArguments count arguments machine = .ok taken after) :
    ∃ popped rest, popped.length = count ∧ taken = popped ++ arguments
      ∧ machine.stack = popped.reverse.map .binding ++ rest
      ∧ after = { machine with stack := rest } := by
  induction count generalizing machine arguments with
  | zero =>
    cases result
    exact ⟨[], _, rfl, rfl, rfl, rfl⟩
  | succ count ih =>
    obtain ⟨id, passed, top, result⟩ := ok_of_bind result
    obtain ⟨below, stack, rfl⟩ := ok_of_popBinding top
    obtain ⟨popped, rest, length, rfl, lower, rfl⟩ := ih result
    have lower : below = _ := lower
    exact ⟨popped ++ [id], rest, by simp [length], by simp, by simp [stack, lower], rfl⟩

end ScopeMachine.Action
