import ScopeMachine.Proofs.Machine.Naming
import ScopeMachine.Proofs.StaleHandles

set_option autoImplicit false

/-!
# Dispatches in order

As long as no stranded scope comes alive again, a run of a well-shaped program is in order at every
dispatch, and what the dispatch does is what the instruction of a cell does to a machine in order.
-/

namespace ScopeMachine

open Assembly Heap

section

variable {program : Program} {compiled : Compiled}

variable (accepted : program.compile = .ok compiled) (shape : program.wellShaped = true)
  (addressable : Addressable program compiled)

include accepted shape addressable

omit shape in
theorem nextOperand?_of_reading {machine : Machine} {offset index : Nat} {cell : Cell}
    (stands : Stands (image program) offset cell)
    (reading : Reading offset cell index machine.registers)
    (last : index = extensionCount cell.command.operand) :
    machine.nextOperand? compiled = some cell.command.operand := by
  subst last
  rw [Machine.nextOperand?, reading.ip,
    (encodes_image accepted addressable).getElem?_instruction stands, Option.map_some,
    reading.extended, collected_all]

omit shape in
/-- A dispatch that is not of an extension does what the instruction of a cell does with the whole
operand. -/
theorem Assertion.At.dispatches {holds : Assertion} {machine : Machine}
    (at_ : holds.At (image program) machine)
    (moved : ∀ {offset cell machine} (ip extended extensions line : Nat), holds offset cell machine →
      holds offset cell (machine.moved ip extended extensions line))
    {opcode : Opcode} {operand : Nat} (next : machine.nextOpcode? compiled = some opcode)
    (whole : opcode ≠ .extendArgument) (given : machine.nextOperand? compiled = some operand) :
    ∃ offset cell, Stands (image program) offset cell ∧ cell.command = ⟨opcode, operand⟩
      ∧ holds offset cell (machine.ready offset cell)
      ∧ (machine.ready offset cell).registers.ip + 1 = offset + cell.command.width
      ∧ machine.advance compiled = Progress.after (offset + cell.command.width)
        (Action.step (Pools.ofProgram program).names opcode operand (machine.ready offset cell)) := by
  obtain ⟨pools, -, -, -⟩ := program.compile_ok accepted
  have encodes := encodes_image accepted addressable
  obtain ⟨offset, cell, index, stands, reading, here⟩ := at_
  obtain more | last := Nat.lt_or_eq_of_le reading.inside
  · have found : machine.nextOpcode? compiled = some .extendArgument := by
      rw [Machine.nextOpcode?, reading.ip, encodes.getElem?_extension stands more]
      rfl
    exact absurd (Option.some.inj (next.symm.trans found)) whole
  · have ip : machine.registers.ip = offset + extensionCount cell.command.operand :=
      last ▸ reading.ip
    have command : cell.command = ⟨opcode, operand⟩ := by
      have code := nextOpcode?_of_stands accepted addressable stands ip
      rw [code] at next
      rw [nextOperand?_of_reading accepted addressable stands reading last] at given
      cases next
      cases given
      rfl
    refine ⟨offset, cell, stands, command, moved _ _ _ _ here, rfl, ?_⟩
    rw [reading.advance_instruction encodes stands last, pools, command]

omit shape in
/-- A dispatch that does not end a run leaves the heap alone, or it is that of the instruction of a
cell. -/
theorem Assertion.At.running {holds : Assertion} {machine after : Machine}
    (at_ : holds.At (image program) machine)
    (moved : ∀ {offset cell machine} (ip extended extensions line : Nat), holds offset cell machine →
      holds offset cell (machine.moved ip extended extensions line))
    (next : machine.advance compiled = .running after) :
    after.heap = machine.heap ∨ ∃ offset cell transfer last, Stands (image program) offset cell
      ∧ holds offset cell (machine.ready offset cell)
      ∧ Action.step (Pools.ofProgram program).names cell.command.opcode cell.command.operand
        (machine.ready offset cell) = .ok transfer last
      ∧ after.heap = last.heap := by
  obtain ⟨pools, -, -, -⟩ := program.compile_ok accepted
  have encodes := encodes_image accepted addressable
  obtain ⟨offset, cell, index, stands, reading, here⟩ := at_
  rcases Nat.lt_or_eq_of_le reading.inside with more | last
  · obtain ⟨ip, extended, extensions, advanced, -⟩ := reading.advance_extension encodes stands more
    rw [advanced] at next
    cases next
    exact .inl rfl
  · rw [reading.advance_instruction encodes stands last, pools] at next
    obtain ⟨transfer, last, target, result, rfl, -⟩ := Progress.after_running next
    exact .inr ⟨offset, cell, transfer, last, stands, moved _ _ _ _ here, result, rfl⟩

/-- At every dispatch of a run the machine is in order at a cell, and does what its instruction
does. -/
theorem placedInOrder_dispatch {config : Config} {input : List UInt8} {steps : Nat} {before : Machine}
    (good : (Machine.boot config input compiled.pools).StrandsForGood compiled steps)
    (reached : (Machine.boot config input compiled.pools).run compiled steps = .running before)
    {opcode : Opcode} {operand : Nat} (next : before.nextOpcode? compiled = some opcode)
    (whole : opcode ≠ .extendArgument) (given : before.nextOperand? compiled = some operand) :
    ∃ offset cell, Stands (image program) offset cell ∧ cell.command = ⟨opcode, operand⟩
      ∧ PlacedInOrder ((Machine.boot config input compiled.pools).HasStranded compiled steps) program offset
        cell (before.ready offset cell)
      ∧ (before.ready offset cell).registers.ip + 1 = offset + cell.command.width
      ∧ before.advance compiled = Progress.after (offset + cell.command.width)
        (Action.step (Pools.ofProgram program).names opcode operand (before.ready offset cell)) := by
  obtain ⟨-, -, -, valid⟩ := program.compile_ok accepted
  have counts : True → program.wellShaped = true := fun _ => shape
  have along := placedInOrder_run_good accepted shape addressable config input good
  rw [reached] at along
  exact along.dispatches accepted addressable (fun _ _ _ _ here =>
    ⟨(kept_placed (.of counts) valid).moved _ _ _ _ here.1, here.2.moved _ _ _ _⟩) next whole given

/-- At the dispatch of a call its operands are on the stack, and the method is a copy that has waited,
with a scope of its own. -/
theorem preparedCall_call {config : Config} {input : List UInt8} {steps : Nat} {before : Machine}
    (good : (Machine.boot config input compiled.pools).StrandsForGood compiled steps)
    (reached : (Machine.boot config input compiled.pools).run compiled steps = .running before)
    {count : Nat} (next : before.nextOpcode? compiled = some .evaluate)
    (given : before.nextOperand? compiled = some count) :
    ∃ offset cell copies rest arguments method caller target, arguments.length = count
      ∧ before.stack
        = arguments.reverse.map StackItem.binding ++ StackItem.binding method :: .binding caller :: rest
      ∧ before.heap.bindings.get? method = some target
      ∧ PreparedCall ((Machine.boot config input compiled.pools).HasStranded compiled steps) copies method
        caller target arguments { before.ready offset cell with stack := rest }
      ∧ (before.ready offset cell).registers.ip + 1 = offset + cell.command.width
      ∧ before.advance compiled = Progress.after (offset + cell.command.width)
        ((if target.tag = .array then
            Action.constructArray method arguments >>= fun _ => pure .next
          else
            (Action.checkCall target arguments.length >>= fun _ =>
              Action.bindArguments target none arguments) >>= fun _ =>
            Action.enterFrame caller method target.body target.scope)
          { before.ready offset cell with stack := rest }) := by
  have counts : True → program.wellShaped = true := fun _ => shape
  obtain ⟨offset, ⟨command, line, depth, kinds⟩, stands, rfl, ⟨-, atCell⟩, here, advances⟩ :=
    placedInOrder_dispatch accepted shape addressable good reached next (by simp) given
  have flows := flows_image accepted counts stands
  obtain ⟨under, items, rest, onTop, -⟩ := atCell.split (flows.suits trivial)
  obtain ⟨_, method, caller, target, arguments, -, -, reads, there, prepared⟩ := onTop.prepared
  obtain ⟨length, stack, -, -⟩ := Action.callOperands_ok reads
  simp only [Action.step] at advances
  rw [Action.evaluate_eq, Action.bind_of_ok reads] at advances
  exact ⟨_, _, _, rest, arguments, method, caller, target, length, stack, there, prepared, here, advances⟩

end

/-! ## Programs without input -/

/-- What a program without input has on its stack after some dispatches, as bindings. -/
def Program.operands? (program : Program) (steps : Nat) :
    Option (Option Opcode × Option Nat × List StackItem × List (Option Binding)) :=
  match program.compile with
  | .error _ => none
  | .ok compiled =>
    let machine := ((Machine.boot {} [] compiled.pools).run compiled steps).machine
    some (machine.nextOpcode? compiled, machine.nextOperand? compiled, machine.stack,
      machine.stack.map fun
        | .binding id => machine.heap.bindings.get? id
        | .name _ => none)

/-- A return is among the first dispatches of a program without input. -/
def Program.returnsWithin (program : Program) (steps : Nat) : Bool :=
  match program.compile with
  | .error _ => false
  | .ok compiled => (List.range steps).any fun earlier =>
    ((Machine.boot {} [] compiled.pools).run compiled earlier).machine.nextOpcode? compiled
      = some .return

/-- Before the first return nothing is stranded. -/
theorem Program.strandsForGood {program : Program} {compiled : Compiled} (steps : Nat)
    (accepted : program.compile = .ok compiled) (stays : program.returnsWithin steps = false) :
    (Machine.boot {} [] compiled.pools).StrandsForGood compiled steps := by
  refine Machine.strandsForGood_of_none ?_
  rintro scope ⟨earlier, before, less, reached, strands⟩
  simp only [returnsWithin, accepted, List.any_eq_false, List.mem_range] at stays
  exact stays earlier less (by simp [reached, Progress.machine, strands.returns])

end ScopeMachine
