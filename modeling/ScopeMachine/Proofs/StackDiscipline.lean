import ScopeMachine.Proofs.ControlTransfer

set_option autoImplicit false

/-!
# Stack discipline

What lies on the operand stack above the mark of the current frame is known from the place in the
code: nothing where a statement starts, and between the instructions of a statement what those
before left for those to come.
-/

namespace ScopeMachine

open Assembly

/-- A machine in front of a cell has on its stack what the cell expects. -/
structure Disciplined (program : Program) (compiled : Compiled) (machine : Machine) (offset : Nat)
    (cell : Cell) (frame : Frame) : Prop where
  place : InPlace program compiled machine offset cell
  current : machine.frames.head? = some frame
  /-- Above the mark lie entries of the kinds of the cell, the top ones as its instruction takes. -/
  entries : ∃ taken others below, machine.stack = taken ++ others ++ below
    ∧ below.length = frame.stackMark
    ∧ Fitting cell.shape (taken ++ others)
    ∧ Fitting cell.command.takes taken
  statement : ∀ mark ∈ compiled.code.marks, mark.offset = machine.registers.ip →
    machine.stack.length = frame.stackMark

/-- Where a statement starts, the cell expects an empty stack. -/
theorem shape_of_mark {program : Program} {compiled : Compiled} {offset index : Nat} {cell : Cell}
    (accepted : program.compile = .ok compiled) (shape : program.wellShaped = true)
    (stands : Stands (image program) offset cell) (inside : index < cell.command.width)
    {mark : LineMark} (member : mark ∈ compiled.code.marks) (here : mark.offset = offset + index) :
    cell.shape = [] := by
  obtain ⟨-, -, marks, valid⟩ := program.compile_ok accepted
  have counts : True → program.wellShaped = true := fun _ => shape
  obtain ⟨-, leads⟩ := flowing_image (.of counts) valid
  obtain ⟨depth, leads⟩ := leads mark (marks ▸ Array.mem_toList_iff.mpr member)
  obtain ⟨other, there, -, covers⟩ := leads.covers trivial
  obtain ⟨-, rfl⟩ := stands.unique there (by omega) (by omega)
  cases kinds : other.shape with
  | nil => rfl
  | cons kind rest =>
    rw [kinds] at covers
    cases covers

private theorem disciplined_of_placed {program : Program} {compiled : Compiled} {machine : Machine}
    (accepted : program.compile = .ok compiled) (shape : program.wellShaped = true)
    (addressable : Addressable program compiled) {offset : Nat} {cell : Cell} {index : Nat}
    (stands : Stands (image program) offset cell)
    (reading : Reading offset cell index machine.registers)
    (placed : Placed True program offset cell machine) :
    ∃ frame, Disciplined program compiled machine offset cell frame := by
  have place := inPlace_of_placed accepted addressable stands reading placed
  have suits := (flows_image accepted (fun _ => shape) stands).suits trivial
  have framed := placed.2
  cases frames : machine.frames with
  | nil =>
    rw [frames] at framed
    cases framed
  | cons frame rest =>
    rw [frames] at framed
    obtain ⟨-, below, own, -⟩ := framed
    obtain ⟨items, split, shaped, mark⟩ := own trivial
    have fits := shaped.fitting trivial
    obtain ⟨taken, others, rfl, fitting, -⟩ := fits.split suits
    refine ⟨frame, place, by rw [frames]; rfl, ⟨taken, others, below, split, mark.symm, fits,
      fitting⟩, fun mark member here => ?_⟩
    have inside : machine.registers.extensions < cell.command.width :=
      Nat.lt_succ_of_le place.extensions
    have empty := shape_of_mark accepted shape stands inside member (here.trans place.ip)
    have none := fits.length
    rw [empty] at none
    rw [split, List.length_append, none]
    simp [*]

/-- Along every run of a well-shaped program that is accepted, the operand stack above the mark of
the current frame holds what the place in the code expects, and nothing where a statement starts.
The stack is empty when the program ends, and no fault is about the stack. -/
theorem run_disciplined {program : Program} {compiled : Compiled}
    (accepted : program.compile = .ok compiled) (shape : program.wellShaped = true)
    (addressable : Addressable program compiled) (config : Config) (input : List UInt8)
    (fuel : Nat) :
    match (Machine.boot config input compiled.pools).run compiled fuel with
    | .running machine =>
      ∃ offset cell frame, Disciplined program compiled machine offset cell frame
    | .finished _ machine => machine.stack = []
    | .failed _ fault _ => fault.isStarved = false := by
  have counts : True → program.wellShaped = true := fun _ => shape
  have run := placed_run accepted counts addressable config input fuel
  split
  case h_1 machine result =>
    rw [result] at run
    obtain ⟨offset, cell, index, stands, reading, placed⟩ := run
    exact ⟨offset, cell, disciplined_of_placed accepted shape addressable stands reading placed⟩
  case h_2 value machine result =>
    rw [result] at run
    exact run.2 trivial
  case h_3 line fault machine result =>
    rw [result] at run
    obtain ⟨before, permitted, -⟩ := run
    exact permitted.2 trivial

theorem alternateLines_disciplined :
    ∃ compiled, alternateLines.compile = .ok compiled
      ∧ alternateLines.wellShaped = true
      ∧ Addressable alternateLines compiled
      ∧ ∀ (config : Config) (input : List UInt8) (fuel : Nat),
        match (Machine.boot config input compiled.pools).run compiled fuel with
        | .running machine =>
          ∃ offset cell frame, Disciplined alternateLines compiled machine offset cell frame
        | .finished _ machine => machine.stack = []
        | .failed _ fault _ => fault.isStarved = false := by
  obtain ⟨compiled, accepted⟩ := accepted_alternateLines
  have shape : alternateLines.wellShaped = true := by decide
  have addressable := addressable_alternateLines accepted
  exact ⟨compiled, accepted, shape, addressable, run_disciplined accepted shape addressable⟩

end ScopeMachine
