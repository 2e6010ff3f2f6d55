import ScopeMachine.Proofs.BoundScopes
import ScopeMachine.Proofs.RunsInOrder
import ScopeMachine.Proofs.Machine.Origins
import ScopeMachine.Proofs.Machine.Parameters

set_option autoImplicit false

/-!
# Parameters of methods

A binding with a body has attributes, and their scope has the parameters that a definition with this body
lists, in the order of the source. Assigning, copying, passing and returning a method take its body and
its attributes along together, and the copy of a scope has the same parameters. Only if a scope is freed
while a binding refers to it, and comes alive again for another method, may the two differ.
-/

namespace ScopeMachine

open Assembly Heap

/-! ## Bodies and their parameters -/

/-- A value with a body refers to a scope with suitable parameters, if this scope is still there. -/
def Binding.ParametersSuit (value : Binding) (heap : Heap) (defines : Nat → List String → Prop) : Prop :=
  value.body ≠ 0 → ∃ scope, value.scope = some scope
    ∧ ∀ declared, heap.scopes.get? scope = some declared → defines value.body declared.parameters

def Heap.ParametersSuit (heap : Heap) (defines : Nat → List String → Prop) : Prop :=
  ∀ value, heap.Stored value → value.ParametersSuit heap defines

/-- A scope with attributes that is still there has the parameters that it had. -/
def Heap.KeepsParameters (before after : Heap) : Prop :=
  ∀ ⦃scope declared⦄, before.Serves scope → after.scopes.get? scope = some declared →
    ∃ found, before.scopes.get? scope = some found ∧ declared.parameters = found.parameters

section

variable {before after : Heap} {defines : Nat → List String → Prop} {value other : Binding}
  (keeps : before.KeepsParameters after) (suits : before.ParametersSuit defines)

include keeps suits

private theorem parametersSuit_of_stored (there : before.Stored other) (scope : value.scope = other.scope)
    (body : value.body = other.body) : value.ParametersSuit after defines := by
  intro bodied
  rw [body] at bodied ⊢
  obtain ⟨attributes, refers, holds⟩ := suits other there bodied
  refine ⟨attributes, scope.trans refers, fun declared live => ?_⟩
  obtain ⟨found, known, same⟩ := keeps (there.serves refers) live
  rw [same]
  exact holds found known

private theorem parametersSuit_of_origin (origin : value.Origin before) :
    value.ParametersSuit after defines := by
  cases origin with
  | stored there scope body => exact parametersSuit_of_stored keeps suits there scope body
  | plain scope body | method body => exact fun bodied => absurd body bodied
  | @array target there tag bare body =>
    intro bodied
    obtain ⟨scope, refers, -⟩ := suits target there (body ▸ bodied)
    rw [bare] at refers
    cases refers

end

/-! ## Instructions -/

section

variable {lost : ScopeId → Prop} {copies : List BindingId} {machine : Machine}

private theorem Heap.Guarded.grounded {heap : Heap} (guarded : Guarded lost copies heap) : heap.Grounded := by
  rintro scope ⟨id, refers⟩ live
  rcases guarded.refers refers with lasting | gone
  · exact lasting
  · exact absurd live (guarded.dead gone)

/-- No instruction changes the parameters of a scope, and what was lost does not come alive. -/
private theorem keepsParameters_step (guarded : Guarded lost copies machine.heap) (names : NamePool)
    (opcode : Opcode) (operand : Nat)
    (dead : ∀ scope, lost scope →
      ¬ (Action.final (Action.step names opcode operand machine)).heap.LiveScope scope) :
    machine.heap.KeepsParameters (Action.final (Action.step names opcode operand machine)).heap := by
  intro scope declared serves there
  have live : machine.heap.LiveScope scope := by
    obtain ⟨id, refers⟩ := serves
    rcases guarded.refers refers with lasting | gone
    · exact lasting.liveScope
    · exact absurd ⟨declared, there⟩ (dead scope gone)
  obtain ⟨found, known⟩ := live
  refine ⟨found, known, ?_⟩
  rcases Action.levels_step names opcode operand guarded.grounded with widens | narrows | rfl
  · obtain ⟨larger, again, same⟩ := widens.kept known
    cases there.symm.trans again
    exact same.parameters
  · obtain ⟨earlier, again, same⟩ := narrows.kept there
    cases known.symm.trans again
    exact same.parameters
  · rw [(Action.enterLocal_opens names operand machine).1,
      get?_allocateScope_of_live ⟨found, known⟩, known] at there
    cases there
    rfl

variable {source : Program} {offset : Nat} {cell : Cell} {transfer : Transfer} {after : Machine}

/-- Every instruction of a program keeps the parameters of methods with their bodies. -/
private theorem parametersSuit_step (valid : (program source).valid) (stands : Stands (image source) offset cell)
    (loaded : ParametersLoaded source offset cell machine) (suits : machine.heap.ParametersSuit source.Defines)
    (result : Action.step (Pools.ofProgram source).names cell.command.opcode cell.command.operand
      machine = .ok transfer after)
    (keeps : machine.heap.KeepsParameters after.heap) : after.heap.ParametersSuit source.Defines := by
  intro value stored
  by_cases copying : cell.command.opcode = .copy
  · rw [copying] at result
    obtain ⟨id, rest, original, copy, scope, stack, there, -, -, origins, parameters⟩ :=
      Action.step_copy_ok result
    rcases origins value stored with rfl | origin
    · intro bodied
      obtain ⟨attributes, refers, holds⟩ := suits original ⟨id, there⟩ bodied
      obtain ⟨found, copied, known, made, same⟩ := parameters attributes refers
      refine ⟨scope, rfl, fun declared live => ?_⟩
      cases made.symm.trans live
      rw [same]
      exact holds found known
    · exact parametersSuit_of_origin keeps suits origin
  by_cases binds : cell.command.opcode = .bindSection
  · obtain ⟨id, rest, scope, made, stack, found, known, own⟩ := loaded.method binds
    have steps : Action.final (Action.step (Pools.ofProgram source).names .bindSection
        cell.command.operand machine) = _ := Action.step_bindSection stack found
    rw [← binds, result] at steps
    cases steps
    rcases Stored.of_modifyBinding stored with there | ⟨method, there, rfl⟩
    · exact parametersSuit_of_stored keeps suits there rfl rfl
    · cases found.symm.trans there
      refine fun _ => ⟨scope, rfl, fun declared live => ?_⟩
      cases known.symm.trans live
      exact own
  · have flat : False → source.wellShaped = true := False.elim
    have legal := ((Rigor.Suits.of flat).flows valid stands).legal
    have types : cell.command.opcode ≠ .bindType := by
      intro types
      simp [Legal, Command.Straight, types] at legal
    have origins : machine.heap.Originates (Action.final (Action.step (Pools.ofProgram source).names
        cell.command.opcode cell.command.operand machine)).heap :=
      Action.originates_step _ _ copying types binds
    rw [result] at origins
    exact parametersSuit_of_origin keeps suits (origins value stored)

end

/-! ## Runs -/

section

variable {program : Program} {compiled : Compiled} (accepted : program.compile = .ok compiled)
  (shape : program.wellShaped = true) (addressable : Addressable program compiled)
  {config : Config} {input : List UInt8} {steps : Nat} {machine : Machine}

include accepted shape addressable

private theorem loaded_run
    (reached : (Machine.boot config input compiled.pools).run compiled steps = .running machine) :
    (Loaded program).At (image program) machine := by
  obtain ⟨pools, -, -, valid⟩ := program.compile_ok accepted
  have kept := kept_loaded valid shape
  have start := loaded_boot valid shape config input
  rw [← pools] at kept start
  have along := kept.run (encodes_image accepted addressable) start steps
  rwa [reached] at along

/-- A dispatch keeps the parameters of methods with their bodies, if what was lost is gone behind it. -/
private theorem parametersSuit_advance {lost : ScopeId → Prop} {before after : Machine}
    (inOrder : (PlacedInOrder lost program).At (image program) before)
    (loaded : (Loaded program).At (image program) before)
    (suits : before.heap.ParametersSuit program.Defines)
    (next : before.advance compiled = .running after)
    (dead : ∀ scope, lost scope → ¬ after.heap.LiveScope scope) :
    after.heap.ParametersSuit program.Defines := by
  obtain ⟨-, -, -, valid⟩ := program.compile_ok accepted
  have kept := kept_loaded valid shape
  have same := (Assertion.At.and inOrder loaded).running accepted addressable
    (fun ip extended extensions line both =>
      have still := kept.moved ip extended extensions line both.2
      ⟨⟨still.1, both.1.2.moved ip extended extensions line⟩, still⟩) next
  rcases same with same | ⟨offset, cell, transfer, last, stands, both, result, same⟩
  · rw [same]
    exact suits
  · obtain ⟨⟨-, _, -, order⟩, -, -, loaded⟩ := both
    have keeps := keepsParameters_step order.order.guarded (Pools.ofProgram program).names
      cell.command.opcode cell.command.operand
    rw [result] at keeps
    rw [same] at dead ⊢
    exact parametersSuit_step valid stands loaded suits result (keeps dead)

/-- In a run in which no stranded scope comes alive again, whatever has the body of a method has its
parameters. -/
theorem parametersSuit_run
    (good : (Machine.boot config input compiled.pools).StrandsForGood compiled steps)
    (reached : (Machine.boot config input compiled.pools).run compiled steps = .running machine) :
    machine.heap.ParametersSuit program.Defines := by
  induction steps generalizing machine with
  | zero =>
    cases reached
    rw [boot_eq]
    intro value stored bodied
    exact absurd ((stocked_boot compiled.pools).initial stored).1 bodied
  | succ steps ih =>
    have after := placedInOrder_run_good accepted shape addressable config input good
    rw [reached] at after
    obtain ⟨_, _, _, -, -, -, _, -, inOrder⟩ := after
    rw [Machine.run_succ] at reached
    cases past : (Machine.boot config input compiled.pools).run compiled steps with
    | finished | failed =>
      rw [past] at reached
      cases reached
    | running before =>
      rw [past] at reached
      have earlier := good.mono (Nat.le_succ steps)
      have at_ := placedInOrder_run_good accepted shape addressable config input earlier
      rw [past] at at_
      exact parametersSuit_advance accepted shape addressable at_
        (loaded_run accepted shape addressable past) (ih earlier past) reached fun scope lost =>
        inOrder.order.guarded.dead (lost.mono (Nat.le_succ steps))

end

end ScopeMachine
