import ScopeMachine.Compile.Block
import ScopeMachine.Machine.Step

set_option autoImplicit false

/-!
# Runs

A run dispatches instructions until the program returns, a fault stops it, or the code ends.
-/

namespace ScopeMachine

inductive Progress where
  | running (machine : Machine)
  /-- The program has ended, with a result if it had one. -/
  | finished (result : Option BindingId) (machine : Machine)
  /-- A fault has stopped the program on a line. -/
  | failed (line : Nat) (fault : Fault) (machine : Machine)

namespace Progress

def machine : Progress → Machine
  | .running machine => machine
  | .finished _ machine => machine
  | .failed _ _ machine => machine

end Progress

namespace Machine

def stop (machine : Machine) (fault : Fault) : Progress :=
  .failed machine.line fault (machine.addReport .fatal fault.message)

def goto (machine : Machine) (target : Nat) : Machine :=
  { machine with registers := { machine.registers with ip := target } }

def extend (machine : Machine) (byte : UInt8) : Progress :=
  if maxExtensions ≤ machine.registers.extensions then
    machine.stop (.operandOverflow maxExtensions)
  else
    let registers := machine.registers
    let extensions := registers.extensions + 1
    .running { machine with
      registers := { registers with
        ip := registers.ip + 1
        extensions
        extended := registers.extended ||| byte.toNat <<< (8 * extensions) } }

/-- Gets ready for the instruction at the current offset: the collected bytes are used up, and the
line is that of the statement the offset belongs to. -/
def fetch (machine : Machine) (code : Code) : Machine :=
  { machine with
    registers := { machine.registers with extended := 0, extensions := 0 }
    line := (code.lineAt? machine.registers.ip).getD machine.line }

def advance (compiled : Compiled) (machine : Machine) : Progress :=
  let ip := machine.registers.ip
  match compiled.code.instructions[ip]? with
  | none => .finished machine.registers.lastResult machine
  | some instruction =>
    if instruction.opcode = .extendArgument then machine.extend instruction.operand
    else
      let operand := machine.registers.extended ||| instruction.operand.toNat
      match Action.step compiled.pools.names instruction.opcode operand
          (machine.fetch compiled.code) with
      | .ok .next machine => .running (machine.goto (ip + 1))
      | .ok (.goto target) machine => .running (machine.goto target)
      | .ok (.halt result) machine => .finished result machine
      | .error fault machine => machine.stop fault

def run (compiled : Compiled) : Nat → Machine → Progress
  | 0, machine => .running machine
  | fuel + 1, machine =>
    match machine.advance compiled with
    | .running machine => run compiled fuel machine
    | ended => ended

/-- Runs code on a machine in any state, up to a number of instructions. -/
def execute (compiled : Compiled) (fuel : Nat) (machine : Machine) : Progress :=
  (machine.reset compiled.pools).run compiled fuel

end Machine

end ScopeMachine
