import ScopeMachine.Proofs.Machine.Running

set_option autoImplicit false

/-!
# Control transfer

Control never leaves the instructions of a program. At every moment of a run the machine is in front
of an instruction, or has read some of the extensions in front of it; as many block scopes are open
as the source has blocks around the instruction, and its operand is valid.
-/

namespace ScopeMachine

open Assembly

/-- A machine dispatches the instruction of a cell that starts at an offset. -/
structure InPlace (program : Program) (compiled : Compiled) (machine : Machine) (offset : Nat)
    (cell : Cell) : Prop where
  stands : Stands (image program) offset cell
  /-- Behind the first slot only extensions of the cell were read. -/
  ip : machine.registers.ip = offset + machine.registers.extensions
  extensions : machine.registers.extensions ≤ extensionCount cell.command.operand
  inside : machine.registers.ip < compiled.code.size
  /-- The instruction and the operand that a dispatch finds are those of the cell. -/
  decodes : ∀ instruction,
    compiled.code.instructions[machine.registers.ip]? = some instruction →
    instruction.opcode ≠ .extendArgument →
    instruction.opcode = cell.command.opcode
      ∧ machine.registers.extended ||| instruction.operand.toNat = cell.command.operand
  valid : ValidOperand program cell.command
  /-- The open block scopes are as many as the blocks around the cell in its method. -/
  nesting : ∃ frame rest, machine.frames = frame :: rest ∧ frame.localScopes.length = cell.depth

theorem inPlace_of_placed {program : Program} {compiled : Compiled} {machine : Machine}
    (accepted : program.compile = .ok compiled) (addressable : Addressable program compiled)
    {offset : Nat} {cell : Cell} {index : Nat} (stands : Stands (image program) offset cell)
    (reading : Reading offset cell index machine.registers) {rigor : Rigor}
    (placed : Placed rigor program offset cell machine) :
    InPlace program compiled machine offset cell := by
  have encodes := encodes_image accepted addressable
  obtain ⟨inside, ip, extensions, extended⟩ := reading
  subst extensions
  refine ⟨stands, ip, inside, ?_, ?_, validOperand_image accepted stands, ?_⟩
  · have bound := stands.lt_size
    rw [size_image accepted, ip]
    unfold Command.width at bound
    omega
  · intro instruction found whole
    obtain more | last := Nat.lt_or_eq_of_le inside
    · rw [ip, encodes.getElem?_extension stands more] at found
      cases found
      contradiction
    · rw [ip, last, encodes.getElem?_instruction stands] at found
      cases found
      exact ⟨rfl, by rw [extended, last, collected_all]⟩
  · have framed := placed.2
    cases frames : machine.frames with
    | nil =>
      rw [frames] at framed
      cases framed
    | cons frame rest =>
      rw [frames] at framed
      exact ⟨frame, rest, rfl, framed.1⟩

/-- The code of an accepted program is a sequence of whole instructions. Every run of it dispatches
them from their first slots on, at the block nesting of the source, with valid operands; it ends by
a return of the program, or by a fault that is not about an operand, a block or a frame. -/
theorem run_in_place {program : Program} {compiled : Compiled}
    (accepted : program.compile = .ok compiled) (addressable : Addressable program compiled) :
    compiled.code.instructions.toList = slots (image program)
      ∧ (∀ cell ∈ image program, cell.command.opcode ≠ .extendArgument)
      ∧ ∀ (config : Config) (input : List UInt8) (fuel : Nat),
        match (Machine.boot config input compiled.pools).run compiled fuel with
        | .running machine => ∃ offset cell, InPlace program compiled machine offset cell
        | .finished _ machine => machine.frames = []
        | .failed _ fault _ => fault.isMisplaced = false := by
  obtain ⟨-, instructions, -, -⟩ := program.compile_ok accepted
  refine ⟨instructions, fun cell member => ?_, fun config input fuel => ?_⟩
  · obtain ⟨offset, -, -, stands⟩ := (within_image program).stands_of_mem member
    exact whole_image accepted stands
  · have shape : False → program.wellShaped = true := False.elim
    have run := placed_run accepted shape addressable config input fuel
    split
    case h_1 machine result =>
      rw [result] at run
      obtain ⟨offset, cell, index, stands, reading, placed⟩ := run
      exact ⟨offset, cell, inPlace_of_placed accepted addressable stands reading placed⟩
    case h_2 value machine result =>
      rw [result] at run
      exact run.1
    case h_3 line fault machine result =>
      rw [result] at run
      obtain ⟨before, permitted, -⟩ := run
      exact permitted.1

theorem alternateLines_in_place :
    ∃ compiled, alternateLines.compile = .ok compiled
      ∧ Addressable alternateLines compiled
      ∧ ∀ (config : Config) (input : List UInt8) (fuel : Nat),
        match (Machine.boot config input compiled.pools).run compiled fuel with
        | .running machine => ∃ offset cell, InPlace alternateLines compiled machine offset cell
        | .finished _ machine => machine.frames = []
        | .failed _ fault _ => fault.isMisplaced = false := by
  obtain ⟨compiled, accepted⟩ := accepted_alternateLines
  have addressable := addressable_alternateLines accepted
  obtain ⟨-, -, runs⟩ := run_in_place accepted addressable
  exact ⟨compiled, accepted, addressable, runs⟩

end ScopeMachine
