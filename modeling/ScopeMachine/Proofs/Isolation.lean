import ScopeMachine.Engine
import ScopeMachine.Proofs.Machine.Framing

set_option autoImplicit false

/-!
# Isolation

A machine is used again and again. Main result: what a run does depends on the code, the configuration
and the unread input only; nothing else that earlier runs left behind, finished or not, is ever seen.
-/

namespace ScopeMachine

/-! ## Resetting -/

/-- Storing constants over a machine is storing them over its heap and its tables. -/
theorem foldl_storeConstant (constants : List Constant) (machine : Machine) :
    constants.foldl (fun machine constant => machine.storeConstant constant) machine
      = { machine with
          constants := (constants.foldl (storing machine.nothing)
            (machine.constants, machine.heap, machine.interned)).1
          heap := (constants.foldl (storing machine.nothing)
            (machine.constants, machine.heap, machine.interned)).2.1
          interned := (constants.foldl (storing machine.nothing)
            (machine.constants, machine.heap, machine.interned)).2.2 } := by
  induction constants generalizing machine with
  | nil => rfl
  | cons constant rest ih =>
    rw [List.foldl_cons, ih]
    rfl

/-- Resetting overwrites whatever is in a machine: it is as good as a new one. -/
theorem reset_eq_boot (machine : Machine) (pools : Pools) :
    machine.reset pools = .boot machine.config machine.console.input pools := by
  let empty : Machine := { machine with
    heap := groundwork
    programScope := ⟨0, 0⟩
    nothing := nothingId
    stack := []
    interned := ∅
    constants := #[]
    console := machine.console.clear
    reports := #[]
    line := 0 }
  have stored := foldl_storeConstant pools.constants.entries.toList empty
  rw [Array.foldl_toList] at stored
  calc machine.reset pools
      = { pools.constants.entries.foldl (fun machine constant => machine.storeConstant constant)
            empty with
          registers := { caller := nothingId, receiver := ⟨0, 0⟩, localScope := ⟨0, 0⟩ }
          frames := [{ caller := nothingId, receiver := ⟨0, 0⟩ }] } := rfl
    _ = .boot machine.config machine.console.input pools := by
      rw [stored, boot_eq]
      rfl

/-! ## Runs -/

private theorem Machine.execute_eq (machine : Machine) (compiled : Compiled) (fuel : Nat) :
    machine.execute compiled fuel
      = (Machine.boot machine.config machine.console.input compiled.pools).run compiled fuel := by
  rw [Machine.execute, reset_eq_boot]

/-- A runner that has halted before runs all the same, since resetting puts it back. -/
theorem Runner.execute_eq (runner : Runner) (compiled : Compiled) (fuel : Nat) :
    runner.execute compiled fuel = (runner.machine.execute compiled fuel,
      .ofProgress (runner.machine.execute compiled fuel)) :=
  rfl

/-- Two runners in any states, with the same configuration and the same unread input, run the same code
to the same end: after any number of instructions both are running, or have finished with the same
result, or have failed by the same fault on the same line, and they leave equal machines, with all that
is in their heaps and under which handles, all that was written and reported, and the input that is left.
Whether they have halted, and with which result, is the same as well. So do the machines by themselves,
and engines over such runners give the same answers. -/
theorem execute_isolated (first second : Runner)
    (config : first.machine.config = second.machine.config)
    (input : first.machine.console.input = second.machine.console.input) (compiled : Compiled)
    (fuel : Nat) :
    first.execute compiled fuel = second.execute compiled fuel
      ∧ first.machine.execute compiled fuel = second.machine.execute compiled fuel
      ∧ (⟨first, fuel⟩ : Engine).runCompiled compiled
        = (⟨second, fuel⟩ : Engine).runCompiled compiled := by
  have machines : first.machine.execute compiled fuel = second.machine.execute compiled fuel := by
    rw [Machine.execute_eq, Machine.execute_eq, config, input]
  have same : first.execute compiled fuel = second.execute compiled fuel := by
    rw [Runner.execute_eq, Runner.execute_eq, machines]
  exact ⟨same, machines, by simp only [Engine.runCompiled, same]⟩

/-! ## A machine that was stopped -/

/-- Reads a line and writes it. -/
def echo : Compiled where
  code :=
    { instructions :=
        #[⟨.syscall, 1⟩, ⟨.syscall, 0⟩, ⟨.endStatement, 0⟩, ⟨.return, 0⟩] }
  pools := {}

/-- A machine that a fault has stopped two calls deep, in an open block, with one line left to read. -/
def stopped : Machine :=
  let start := Machine.boot {} [104, 105, 10] {}
  let frame : Frame := { caller := ⟨1, 0⟩, receiver := ⟨3, 0⟩, methodScope := some ⟨4, 0⟩ }
  { start with
    heap := (start.heap.newScope (some ⟨0, 0⟩) false).2
    stack := [.binding ⟨2, 0⟩, .name 7, .binding ⟨9, 4⟩]
    frames := { frame with localScopes := [⟨4, 0⟩], stackMark := 1 } :: frame :: start.frames
    registers := { start.registers with ip := 61, comparison := 3, extended := 512, extensions := 1 }
    console := { start.console with output := "hello\n" }
    reports := #[⟨.fatal, 4, Fault.stackUnderflow.message⟩]
    line := 4 }

/-- A runner that has halted, on a machine that was stopped later. -/
def leftOver : Runner :=
  { machine := stopped, result := some ⟨9, 4⟩, halted := true }

/-- What was left over and a new runner run the same code to the same end. -/
theorem leftOver_isolated :
    leftOver.machine.config = (Machine.fresh {} [104, 105, 10]).config
      ∧ leftOver.machine.console.input = (Machine.fresh {} [104, 105, 10]).console.input
      ∧ leftOver.execute echo 4 = Runner.execute echo 4 { machine := .fresh {} [104, 105, 10] } :=
  ⟨rfl, rfl, (execute_isolated leftOver { machine := .fresh {} [104, 105, 10] } rfl rfl echo 4).1⟩

end ScopeMachine
