import ScopeMachine.Proofs.Coherence
import ScopeMachine.Proofs.RunsInOrder
import ScopeMachine.Proofs.Machine.Focus
import ScopeMachine.Proofs.Machine.Origins

set_option autoImplicit false

/-!
# Attributes of integers

Numbers are made without attributes. A number is given some by `Copy`, and whatever else is made of it
later, by assigning, passing, returning or copying a scope around it, takes them along. So the scopes
that integers refer to are those that were made for copies of integers.
-/

namespace ScopeMachine

open Assembly

/-! ## Changes -/

/-- If a binding is an integer with attributes, they are in one of the given scopes. -/
def Binding.Within (binding : Binding) (made : ScopeId → Prop) : Prop :=
  ∀ number scope, binding.payload = .integer number → binding.scope = some scope → made scope

/-- All integers have their attributes in the given scopes, if any. -/
def Heap.Confines (heap : Heap) (made : ScopeId → Prop) : Prop :=
  ∀ binding, heap.Stored binding → binding.Within made

namespace Binding

variable {binding other : Binding} {made : ScopeId → Prop}

private theorem within_of_flat (flat : binding.scope = none) : binding.Within made := by
  intro number scope _ refers
  rw [flat] at refers
  cases refers

private theorem within_of_absent (empty : binding.payload = .absent) : binding.Within made := by
  intro number scope whole
  rw [empty] at whole
  cases whole

/-- The name, the type, the body and constancy do not count. -/
theorem Within.of_same (inside : binding.Within made) (payload : other.payload = binding.payload)
    (scope : other.scope = binding.scope) : other.Within made := by
  intro number found whole refers
  exact inside number found (payload ▸ whole) (scope ▸ refers)

theorem Initial.within (initial : binding.Initial) : binding.Within made := by
  obtain ⟨-, empty | shares⟩ := initial
  · exact within_of_absent empty
  · exact within_of_flat (congrArg Binding.scope shares)

end Binding

section

variable {made : ScopeId → Prop}

theorem Heap.Confines.imp {heap : Heap} {more : ScopeId → Prop} (confines : heap.Confines made)
    (imp : ∀ scope, made scope → more scope) : heap.Confines more :=
  fun binding stored number scope whole refers => imp _ (confines binding stored number scope whole refers)

/-- A value that comes from before is confined as before. What is an array is no integer, and what is a
method is none. -/
private theorem Binding.Origin.within {machine : Machine} {value : Binding}
    (origin : value.Origin machine.heap) (confines : machine.heap.Confines made)
    (coherent : machine.Coherent) : value.Within made := by
  cases origin with
  | stored there scope body payload => exact (confines _ there).of_same payload scope
  | plain scope => exact Binding.within_of_flat scope
  | method body payload => exact Binding.within_of_absent payload
  | @array target there tag bare body payload =>
    apply Binding.within_of_absent
    by_contra present
    have own := (coherent target there).payload (payload ▸ present)
    rw [tag] at own
    cases content : target.payload <;> rw [content] at own <;> cases own

end

/-! ## Runs -/

/-- The next dispatch copies an integer, and gives it attributes in the scope. -/
def Machine.CopiesInteger (machine : Machine) (compiled : Compiled) (scope : ScopeId) : Prop :=
  machine.nextOpcode? compiled = some .copy ∧ ∃ source copy rest value number after,
    machine.stack = .binding source :: rest ∧ machine.heap.bindings.get? source = some value
      ∧ value.payload = .integer number ∧ machine.advance compiled = .running after
      ∧ after.stack = .binding copy :: rest
      ∧ after.heap.bindings.get? copy = some { value with scope := some scope, constant := false }

section

variable {source : Program} (valid : (program source).valid)

include valid

/-- Every instruction of a program but a copy keeps integers confined. -/
theorem confines_step {offset : Nat} {cell : Cell} {machine : Machine} {made : ScopeId → Prop}
    (stands : Stands (image source) offset cell) (agreeing : Agreeing source offset cell machine)
    (other : cell.command.opcode ≠ .copy) (confines : machine.heap.Confines made) :
    (Action.final (Action.step (Pools.ofProgram source).names cell.command.opcode
      cell.command.operand machine)).heap.Confines made := by
  obtain ⟨-, defining, coherent⟩ := agreeing
  by_cases binds : cell.command.opcode = .bindSection
  · obtain ⟨id, scope, found, steps⟩ := (defining.method binds).binds
      (Pools.ofProgram source).names cell.command.operand
    rw [binds, steps]
    intro value stored
    obtain kept | ⟨method, there, rfl⟩ := Heap.Stored.of_modifyBinding stored
    · exact confines value kept
    · cases found.symm.trans there
      exact Binding.within_of_absent rfl
  have flat : False → source.wellShaped = true := False.elim
  have legal := ((Rigor.Suits.of flat).flows valid stands).legal
  have types : cell.command.opcode ≠ .bindType := by
    intro types
    simp [Legal, Command.Straight, types] at legal
  intro value stored
  exact (Action.originates_step _ _ other types binds value stored).within confines coherent

end

section

variable {program : Program} {compiled : Compiled} (accepted : program.compile = .ok compiled)
  (addressable : Addressable program compiled) {config : Config} {input : List UInt8}

include accepted addressable

/-- A running machine is at a cell of its program, with coherent bindings. -/
theorem agreeing_run {steps : Nat} {machine : Machine}
    (reached : (Machine.boot config input compiled.pools).run compiled steps = .running machine) :
    (Agreeing program).At (image program) machine := by
  obtain ⟨pools, -, -, valid⟩ := program.compile_ok accepted
  have kept := kept_coherent valid
  have start := agreeing_boot valid config input
  rw [← pools] at kept start
  have along := kept.run (encodes_image accepted addressable) start steps
  rwa [reached] at along

/-- A dispatch keeps integers confined, if the scopes that it makes for copies of integers count. -/
theorem confines_advance {made : ScopeId → Prop} {before after : Machine}
    (at_ : (Agreeing program).At (image program) before) (confines : before.heap.Confines made)
    (copies : ∀ scope, before.CopiesInteger compiled scope → made scope)
    (next : before.advance compiled = .running after) : after.heap.Confines made := by
  obtain ⟨-, -, -, valid⟩ := program.compile_ok accepted
  obtain ⟨opcode, here, -⟩ := Machine.advance_refocuses next
  by_cases extends_ : opcode = .extendArgument
  · rw [Machine.heap_of_extends (extends_ ▸ here) next]
    exact confines
  obtain ⟨operand, given⟩ := Machine.nextOperand?_of_nextOpcode? here
  obtain ⟨offset, cell, stands, command, agreeing, -, advances⟩ :=
    at_.dispatches accepted addressable (kept_coherent valid).moved here extends_ given
  have goes := next
  rw [advances] at goes
  obtain ⟨transfer, last, target, result, rfl, -⟩ := Progress.after_running goes
  by_cases copying : opcode = .copy
  · rw [copying] at result
    obtain ⟨id, rest, value, copy, scope, stack, there, pushed, copied, stored, -⟩ :=
      Action.step_copy_ok result
    intro binding known
    obtain rfl | origin := stored binding known
    · intro number found whole refers
      cases refers
      exact copies scope ⟨copying ▸ here, id, copy, rest, value, number, _, stack, there, whole,
        next, pushed, copied⟩
    · exact origin.within confines agreeing.2.2
  · have kept := confines_step valid stands agreeing (by rwa [command]) confines
    rw [command, result] at kept
    exact kept

/-- Along every run the integers have attributes only in scopes that were made for copies of integers
before. -/
theorem confines_run {steps : Nat} {machine : Machine}
    (reached : (Machine.boot config input compiled.pools).run compiled steps = .running machine) :
    machine.heap.Confines fun scope => ∃ earlier < steps, ∃ before,
      (Machine.boot config input compiled.pools).run compiled earlier = .running before
        ∧ before.CopiesInteger compiled scope := by
  induction steps generalizing machine with
  | zero =>
    cases reached
    rw [boot_eq]
    intro binding stored
    exact ((stocked_boot compiled.pools).initial stored).within
  | succ steps ih =>
    rw [Machine.run_succ] at reached
    cases past : (Machine.boot config input compiled.pools).run compiled steps with
    | finished | failed =>
      rw [past] at reached
      cases reached
    | running before =>
      rw [past] at reached
      refine confines_advance accepted addressable (agreeing_run accepted addressable past)
        ((ih past).imp ?_) (fun scope copies => ⟨steps, Nat.lt_succ_self steps, before, past, copies⟩)
        reached
      rintro scope ⟨earlier, less, found⟩
      exact ⟨earlier, Nat.lt_succ_of_lt less, found⟩

end

end ScopeMachine
