import ScopeMachine.Proofs.Assembly.Landing
import ScopeMachine.Proofs.Machine.Edits

set_option autoImplicit false

/-!
# Defining methods

A machine that is about to give a body to a binding has just made this binding, as a method without a
body. No jump, call or return leads to such a place.
-/

namespace ScopeMachine

open Assembly

/-- The binding on top of the stack is a method without a body, as a definition leaves it. -/
def Machine.Presents (machine : Machine) : Prop :=
  ∃ id rest scope, machine.stack = .binding id :: rest
    ∧ machine.heap.bindings.get? id = some { tag := .method, scope := some scope }

/-- What holds of a machine that comes to a cell: where a body is given, the method is on top, and all
frames return elsewhere. -/
structure Defining (source : Program) (offset : Nat) (cell : Cell) (machine : Machine) : Prop where
  method : cell.command.opcode = .bindSection → machine.Presents
  returns : ∀ frame ∈ machine.frames, Lands (image source) frame.returnAddress

private theorem Action.defineMethod_presents {names : NamePool} {count : Nat} {machine after : Machine}
    (defines : Action.defineMethod names count machine = .ok () after) : after.Presents := by
  unfold Action.defineMethod at defines
  cases pops : Action.popParameters names count [] machine with
  | error fault middle =>
    rw [Action.bind_of_error pops] at defines
    cases defines
  | ok parameters middle =>
    rw [Action.bind_of_ok pops] at defines
    cases defines
    exact ⟨_, _, _, rfl, (Heap.get?_allocate _ _ _).trans (if_pos rfl)⟩

/-- Giving a body to the binding on top changes nothing else. -/
theorem Action.step_bindSection {names : NamePool} {body : Nat} {machine : Machine} {id : BindingId}
    {rest : List StackItem} {value : Binding} (stack : machine.stack = .binding id :: rest)
    (found : machine.heap.bindings.get? id = some value) :
    Action.final (Action.step names .bindSection body machine)
      = { machine with heap := machine.heap.modifyBinding id fun binding => { binding with body } } := by
  have peeks : Action.peekBinding machine = .ok id machine := by
    obtain ⟨_, _, _, _, _⟩ := machine
    cases stack
    rfl
  have updates := Action.updateBinding_of_get? found fun binding => { binding with body }
  simp only [Action.step, Action.andNext, bind_assoc]
  rw [Action.bind_of_ok peeks, Action.bind_of_ok updates]
  rfl

theorem Machine.Presents.binds {machine : Machine} (presents : machine.Presents) (names : NamePool)
    (body : Nat) :
    ∃ id scope, machine.heap.bindings.get? id = some { tag := .method, scope := some scope }
      ∧ Action.final (Action.step names .bindSection body machine)
        = { machine with
            heap := machine.heap.modifyBinding id fun binding => { binding with body } } := by
  obtain ⟨id, rest, scope, stack, found⟩ := presents
  exact ⟨id, scope, found, Action.step_bindSection stack found⟩

/-! ## Arrivals -/

section

variable {cells : List Cell} {holds more : Assertion}
  {finishes ends : Option BindingId → Machine → Prop} {fails stops : Fault → Machine → Prop}
  {next : Nat} {result : EStateM.Result Fault Machine Transfer}

theorem Assertion.After.imp (after : holds.After cells finishes fails next result)
    (goes : ∀ {transfer machine target cell}, result = .ok transfer machine →
      (transfer = .next ∧ target = next ∨ transfer = .goto target) → Stands cells target cell →
      holds target cell machine → more target cell machine)
    (halts : ∀ {value machine}, result = .ok (.halt value) machine → finishes value machine →
      ends value machine)
    (faults : ∀ {fault machine}, result = .error fault machine → fails fault machine →
      stops fault machine) : more.After cells ends stops next result := by
  match result with
  | .ok .next machine =>
    obtain ⟨cell, stands, here⟩ := after
    exact ⟨cell, stands, goes rfl (.inl ⟨rfl, rfl⟩) stands here⟩
  | .ok (.goto target) machine =>
    obtain ⟨cell, stands, here⟩ := after
    exact ⟨cell, stands, goes rfl (.inr rfl) stands here⟩
  | .ok (.halt value) machine => exact halts rfl after
  | .error fault machine => exact faults rfl after

/-- Two properties that arrive at an offset arrive there together. -/
theorem Assertion.After.and (first : holds.After cells finishes fails next result)
    (second : more.After cells ends stops next result) :
    Assertion.After (fun offset cell machine => holds offset cell machine ∧ more offset cell machine)
      cells ends stops next result := by
  have both {offset : Nat} {machine : Machine} (first : holds.Arrives cells offset machine)
      (second : more.Arrives cells offset machine) :
      Assertion.Arrives (fun offset cell machine => holds offset cell machine
        ∧ more offset cell machine) cells offset machine := by
    obtain ⟨cell, stands, here⟩ := first
    obtain ⟨other, there, also⟩ := second
    have wide := cell.command.width_pos
    obtain ⟨-, rfl⟩ := stands.unique there (Nat.le_refl _) (by omega)
    exact ⟨_, stands, here, also⟩
  match result with
  | .ok .next machine | .ok (.goto _) machine => exact both first second
  | .ok (.halt _) machine | .error _ machine => exact second

/-- Two properties of a machine hold at one cell. -/
theorem Assertion.At.and {machine : Machine} (first : holds.At cells machine)
    (second : more.At cells machine) :
    Assertion.At (fun offset cell machine => holds offset cell machine ∧ more offset cell machine)
      cells machine := by
  obtain ⟨offset, cell, index, stands, reading, here⟩ := first
  obtain ⟨place, other, count, there, again, also⟩ := second
  have inside := reading.inside
  have within := again.inside
  have same : offset + index = place + count := reading.ip.symm.trans again.ip
  obtain ⟨rfl, rfl⟩ : place = offset ∧ other = cell := by
    rcases Nat.le_total offset place with behind | before
    · exact stands.unique there behind (by simp only [Command.width]; omega)
    · obtain ⟨ip, cells⟩ := there.unique stands before (by simp only [Command.width]; omega)
      exact ⟨ip.symm, cells.symm⟩
  exact ⟨place, other, index, stands, reading, here, also⟩

/-- A machine that is ready to run stands in front of the first cell. -/
theorem Assertion.at_boot {config : Config} {input : List UInt8} {pools : Pools} :
    holds.At cells (Machine.boot config input pools)
      ↔ holds.Arrives cells 0 (Machine.boot config input pools) := by
  constructor
  · rintro ⟨offset, cell, index, stands, reading, here⟩
    have ip : 0 = offset + index := reading.ip
    obtain rfl : offset = 0 := by omega
    exact ⟨cell, stands, here⟩
  · rintro ⟨cell, stands, here⟩
    exact ⟨0, cell, 0, stands, reading_start 0 cell rfl ⟨rfl, rfl⟩, here⟩

end

section

variable {source : Program} {shaped : Prop} (shape : shaped → source.wellShaped = true)
  (valid : (program source).valid)

include valid

theorem lands_behind {offset : Nat} {cell : Cell} (stands : Stands (image source) offset cell)
    (other : cell.command.opcode ≠ .defineMethod) :
    Lands (image source) (offset + cell.command.width) := by
  refine stands.lands_behind (fun {place found} there binds => ?_) other
  have flat : False → source.wellShaped = true := False.elim
  exact ((Rigor.Suits.of flat).flows valid there).defined binds

include shape

/-- Every instruction of a program keeps this. -/
theorem defining_step {offset target : Nat} {cell found : Cell} {machine after : Machine}
    {transfer : Transfer} (stands : Stands (image source) offset cell)
    (placed : Placed shaped source offset cell machine)
    (defining : Defining source offset cell machine)
    (here : machine.registers.ip = offset + extensionCount cell.command.operand)
    (result : Action.step (Pools.ofProgram source).names cell.command.opcode cell.command.operand
      machine = .ok transfer after)
    (goes : transfer = .next ∧ target = offset + cell.command.width ∨ transfer = .goto target)
    (there : Stands (image source) target found) : Defining source target found after := by
  have flows := (Rigor.Suits.of shape).flows valid stands
  have lands (lands : Lands (image source) target) (binds : found.command.opcode = .bindSection) :
      after.Presents := absurd binds (lands found there)
  have returns := defining.returns
  cases moves_step flows placed result with
  | stays passes frames still =>
    refine ⟨?_, ?_⟩
    · obtain ⟨rfl, -⟩ | ⟨rfl, jumps⟩ := passes
      · obtain ⟨-, rfl⟩ | wrong := goes
        · by_cases defines : cell.command.opcode = .defineMethod
          · intro _
            rw [defines] at result
            cases made : Action.defineMethod (Pools.ofProgram source).names cell.command.operand
                machine with
            | error fault middle =>
              rw [Action.step, Action.andNext, Action.bind_of_error made] at result
              cases result
            | ok value middle =>
              rw [Action.step, Action.andNext, Action.bind_of_ok made] at result
              cases result
              exact Action.defineMethod_presents made
          · exact lands (lands_behind valid stands defines)
        · cases wrong
      · obtain ⟨wrong, -⟩ | same := goes
        · cases wrong
        · cases same
          exact lands (lands_target valid stands jumps)
    · rw [still]
      rw [frames] at returns
      exact List.forall_mem_cons.mpr (List.forall_mem_cons.mp returns)
  | calls opcode room frames address =>
    have behind : Lands (image source) (machine.registers.ip + 1) := by
      rw [here, Nat.add_assoc]
      exact lands_behind valid stands (by simp [opcode])
    refine ⟨?_, ?_⟩
    · rw [opcode] at result
      obtain ⟨_, _, ended, -⟩ | ⟨_, ended, -⟩ | ⟨body, _, _, ended, -, member, bound, -⟩ :=
        Action.evaluate_spec (.head _) cell.command.operand placed.1
      · rw [Action.step, ended] at result
        cases result
      · rw [Action.step, ended] at result
        cases result
      · rw [Action.step, ended] at result
        cases result
        obtain ⟨wrong, -⟩ | same := goes
        · cases wrong
        · cases same
          exact lands (lands_section valid member bound)
    · rw [frames]
      exact List.forall_mem_cons.mpr ⟨address ▸ behind, returns⟩
  | returns opcode frames back =>
    rw [frames] at returns
    obtain ⟨own, others⟩ := List.forall_mem_cons.mp returns
    refine ⟨?_, back ▸ others⟩
    obtain ⟨wrong, -⟩ | same := goes
    · cases wrong
    · cases same
      exact lands own
  | halts opcode =>
    obtain ⟨wrong, -⟩ | wrong := goes <;> cases wrong

end

section

variable {source : Program} (valid : (program source).valid)

include valid

/-- It holds where a program starts. -/
theorem defining_boot (config : Config) (input : List UInt8) {cell : Cell}
    (stands : Stands (image source) 0 cell) :
    Defining source 0 cell (Machine.boot config input (Pools.ofProgram source)) := by
  refine ⟨fun binds => absurd binds (lands_start valid cell stands), ?_⟩
  rw [boot_eq]
  exact List.forall_mem_singleton.mpr (lands_start valid)

end

end ScopeMachine
