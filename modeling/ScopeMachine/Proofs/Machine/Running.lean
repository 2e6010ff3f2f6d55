import ScopeMachine.Proofs.Assembly.Blocks
import ScopeMachine.Proofs.Assembly.Lines
import ScopeMachine.Proofs.Machine.Framing

set_option autoImplicit false

/-!
# Running compiled programs

The code of an accepted program is that of its cells, so what every cell keeps holds along every run
of the program.
-/

namespace ScopeMachine

open Assembly

/-- The nodes of a program, its instructions and its pools can be counted in a 64-bit word, as all
that fits into memory can. -/
structure Addressable (program : Program) (compiled : Compiled) : Prop where
  nodes : program.nodes ≤ UInt64.size
  code : compiled.code.size ≤ UInt64.size
  names : compiled.pools.names.size ≤ UInt64.size
  constants : compiled.pools.constants.size ≤ UInt64.size

/-- The operand of an instruction means something to its opcode: an index into a pool, a known
selector, a count, or the first slot of an instruction to go to. Opcodes that no program uses have
no valid operand. -/
def ValidOperand (program : Program) (command : Command) : Prop :=
  match command.opcode with
  | .loadName => command.operand < (Pools.ofProgram program).names.size
  | .loadLiteral => command.operand < (Pools.ofProgram program).constants.size
  | .syscall => (Syscall.ofOperand? command.operand).isSome
  | .loadComparisonBit => (ComparisonBit.ofOperand? command.operand).isSome
  | .jump | .jumpIfFalse => ∃ cell, Stands (image program) command.operand cell
  | .bindSection =>
    command.operand ∈ bodies program
      ∧ ∃ cell, Stands (image program) command.operand cell ∧ cell.depth = 0
  | .defineMethod | .evaluate => command.operand < program.nodes
  | .return => command.operand ≤ 1
  | .bindType | .jumpIfNull | .evaluateInPlace | .equal | .swap | .dropTop | .extendArgument => False
  | _ => command.operand = 0

section

variable {program : Program} {compiled : Compiled} (accepted : program.compile = .ok compiled)

include accepted

theorem size_image : compiled.code.size = size (image program) := by
  obtain ⟨-, instructions, -, -⟩ := program.compile_ok accepted
  rw [Code.size, ← Array.length_toList, instructions, length_slots]

/-- Whether a program is addressable shows before it is compiled. -/
theorem addressable_of_image (nodes : program.nodes ≤ UInt64.size)
    (code : size (image program) ≤ UInt64.size)
    (names : (Pools.ofProgram program).names.size ≤ UInt64.size)
    (constants : (Pools.ofProgram program).constants.size ≤ UInt64.size) :
    Addressable program compiled := by
  obtain ⟨pools, -, -, -⟩ := program.compile_ok accepted
  exact ⟨nodes, size_image accepted ▸ code, pools ▸ names, pools ▸ constants⟩

/-- The cells of an accepted program can be passed. -/
theorem flows_image {shaped : Prop} (shape : shaped → program.wellShaped = true) {offset : Nat}
    {cell : Cell} (stands : Stands (image program) offset cell) :
    Flows (Pools.ofProgram program) program.nodes (bodies program) shaped (image program) offset
      cell := by
  obtain ⟨-, -, -, valid⟩ := program.compile_ok accepted
  exact (Rigor.Suits.of shape).flows valid stands

theorem validOperand_image {offset : Nat} {cell : Cell}
    (stands : Stands (image program) offset cell) : ValidOperand program cell.command := by
  obtain ⟨-, -, -, valid⟩ := program.compile_ok accepted
  have shape : False → program.wellShaped = true := False.elim
  have flows := flows_image accepted shape stands
  have legal := flows.legal
  have target := flows.target
  obtain ⟨⟨opcode, operand⟩, line, depth, kinds⟩ := cell
  cases opcode with
  | jump =>
    obtain ⟨cell, there, -⟩ := target (.inl rfl)
    exact ⟨cell, there⟩
  | jumpIfFalse =>
    obtain ⟨cell, there, -⟩ := target (.inr rfl)
    exact ⟨cell, there⟩
  | bindSection =>
    obtain ⟨method, listed, rfl⟩ := List.mem_map.mp legal
    obtain ⟨cell, there, deep, -⟩ :=
      (methods_image (.of shape) valid method listed).leads (Pools.sound_ofProgram program)
    exact ⟨legal, cell, there, deep⟩
  | _ => exact legal

/-- Operands of an addressable program fit into a 64-bit word. -/
theorem narrow_image (addressable : Addressable program compiled) {offset : Nat} {cell : Cell}
    (stands : Stands (image program) offset cell) : cell.command.operand < UInt64.size := by
  obtain ⟨pools, -, -, -⟩ := program.compile_ok accepted
  have code := size_image accepted ▸ addressable.code
  have names := pools ▸ addressable.names
  have constants := pools ▸ addressable.constants
  have nodes := addressable.nodes
  have inside {offset : Nat} {cell : Cell} (stands : Stands (image program) offset cell) :
      offset < UInt64.size := by
    have inside := stands.lt_size
    have wide := cell.command.width_pos
    omega
  have valid := validOperand_image accepted stands
  have large : 1 < UInt64.size := by decide
  obtain ⟨⟨opcode, operand⟩, line, depth, kinds⟩ := cell
  unfold ValidOperand at valid
  dsimp only at valid ⊢
  split at valid
  case h_1 => omega
  case h_2 => omega
  case h_3 =>
    match operand with
    | 0 | 1 => decide
    | _ + 2 => simp [Syscall.ofOperand?] at valid
  case h_4 =>
    have known : operand < ComparisonBit.all.length := by
      simpa [ComparisonBit.ofOperand?] using valid
    exact Nat.lt_trans known (by decide)
  case h_5 | h_6 =>
    obtain ⟨cell, there⟩ := valid
    exact inside there
  case h_7 =>
    obtain ⟨-, cell, there, -⟩ := valid
    exact inside there
  all_goals first | omega | contradiction

theorem whole_image {offset : Nat} {cell : Cell} (stands : Stands (image program) offset cell) :
    cell.command.opcode ≠ .extendArgument := by
  intro extension
  have valid := validOperand_image accepted stands
  simp [ValidOperand, extension] at valid

/-- The code of an addressable program is that of its cells. -/
theorem encodes_image (addressable : Addressable program compiled) :
    Encodes compiled (image program) := by
  obtain ⟨-, instructions, marks, valid⟩ := program.compile_ok accepted
  exact
    { instructions
      line := lineAt?_image valid marks
      narrow := narrow_image accepted addressable
      whole := whole_image accepted }

theorem Assembly.Rigor.Suits.placed_run {rigor : Rigor} (suits : rigor.Suits program)
    (addressable : Addressable program compiled) (config : Config) (input : List UInt8)
    (fuel : Nat) :
    (Placed rigor program).Along (image program)
      (fun _ machine => machine.frames = [] ∧ (rigor.counts → machine.stack = []))
      (fun fault _ => Permitted rigor fault)
      ((Machine.boot config input compiled.pools).run compiled fuel) := by
  obtain ⟨pools, -, -, valid⟩ := program.compile_ok accepted
  have kept := kept_placed suits valid
  rw [← pools] at kept
  have start := suits.placed_boot valid config input
  rw [← pools] at start
  exact kept.run (encodes_image accepted addressable) start fuel

theorem placed_run {shaped : Prop} (shape : shaped → program.wellShaped = true)
    (addressable : Addressable program compiled) (config : Config) (input : List UInt8)
    (fuel : Nat) :
    (Placed shaped program).Along (image program)
      (fun _ machine => machine.frames = [] ∧ (shaped → machine.stack = []))
      (fun fault _ => Permitted shaped fault)
      ((Machine.boot config input compiled.pools).run compiled fuel) :=
  Rigor.Suits.placed_run accepted (.of shape) addressable config input fuel

end

/-- A run of one dispatch more ends with that dispatch, unless it has ended before. -/
theorem Machine.run_succ {compiled : Compiled} (machine : Machine) (fuel : Nat) :
    machine.run compiled (fuel + 1)
      = match machine.run compiled fuel with
        | .running last => last.advance compiled
        | ended => ended := by
  induction fuel generalizing machine with
  | zero =>
    simp only [Machine.run]
    cases machine.advance compiled <;> rfl
  | succ fuel ih =>
    unfold Machine.run
    cases machine.advance compiled with
    | running next => exact ih next
    | finished | failed => rfl

/-! ## Single dispatches -/

def Machine.nextOpcode? (machine : Machine) (compiled : Compiled) : Option Opcode :=
  compiled.code.instructions[machine.registers.ip]?.map (·.opcode)

/-- The operand that a machine is about to dispatch, with the bytes that are collected for it. -/
def Machine.nextOperand? (machine : Machine) (compiled : Compiled) : Option Nat :=
  compiled.code.instructions[machine.registers.ip]?.map fun instruction =>
    machine.registers.extended ||| instruction.operand.toNat

theorem Machine.nextOperand?_of_nextOpcode? {machine : Machine} {compiled : Compiled}
    {opcode : Opcode} (next : machine.nextOpcode? compiled = some opcode) :
    ∃ operand, machine.nextOperand? compiled = some operand := by
  obtain ⟨instruction, there, -⟩ := Option.map_eq_some_iff.mp next
  exact ⟨_, congrArg (Option.map _) there⟩

/-- A dispatch that does not read an extension is what the instruction makes of the machine. -/
theorem Machine.advance_of_instruction {compiled : Compiled} {machine : Machine}
    {instruction : Instruction}
    (found : compiled.code.instructions[machine.registers.ip]? = some instruction)
    (whole : instruction.opcode ≠ .extendArgument) :
    machine.advance compiled = Progress.after (machine.registers.ip + 1)
      (Action.step compiled.pools.names instruction.opcode
        (machine.registers.extended ||| instruction.operand.toNat)
        (machine.fetch compiled.code)) := by
  simp only [Machine.advance, found, if_neg whole]
  rfl

/-- The fault that the instruction in front of a machine raises, if it does. -/
def Machine.nextFault? (machine : Machine) (compiled : Compiled) : Option Fault :=
  match compiled.code.instructions[machine.registers.ip]? with
  | none => none
  | some instruction =>
    if instruction.opcode = .extendArgument then none
    else
      match Action.step compiled.pools.names instruction.opcode
          (machine.registers.extended ||| instruction.operand.toNat) (machine.fetch compiled.code) with
      | .ok _ _ => none
      | .error fault _ => some fault

private theorem Machine.advance_of_nextFault {machine : Machine} {compiled : Compiled} {fault : Fault}
    (raised : machine.nextFault? compiled = some fault) :
    ∃ line after, machine.advance compiled = .failed line fault after := by
  unfold Machine.nextFault? at raised
  unfold Machine.advance
  split at raised
  · cases raised
  · next instruction found =>
    split at raised
    · cases raised
    · next whole =>
      split at raised
      · cases raised
      · next other after failed =>
        cases raised
        simp only [found, if_neg whole, failed]
        exact ⟨_, _, rfl⟩

/-! ## Tests along a run -/

/-- A machine comes to another one with a number of dispatches, and each of them passes a test. -/
def Machine.Follows (machine : Machine) (compiled : Compiled) (test : Machine → Machine → Bool)
    (count : Nat) (last : Machine) : Prop :=
  machine.run compiled count = .running last ∧ ∀ steps < count, ∃ inner next,
    machine.run compiled steps = .running inner ∧ inner.advance compiled = .running next
      ∧ test inner next = true

/-- Where a number of dispatches leads, if each of them passes a test. -/
def Machine.follow? (compiled : Compiled) (test : Machine → Machine → Bool) :
    Nat → Machine → Option Machine
  | 0, machine => some machine
  | count + 1, machine =>
    match machine.advance compiled with
    | .running next => if test machine next then next.follow? compiled test count else none
    | _ => none

section

variable {compiled : Compiled} {test : Machine → Machine → Bool} {count more : Nat}
  {machine middle last : Machine}

theorem Machine.follows_of_follow (leads : machine.follow? compiled test count = some last) :
    machine.Follows compiled test count last := by
  induction count generalizing machine with
  | zero =>
    cases leads
    exact ⟨rfl, nofun⟩
  | succ count ih =>
    rw [follow?] at leads
    split at leads
    case h_2 => cases leads
    case h_1 next advances =>
      split at leads
      case isFalse => cases leads
      case isTrue passes =>
        obtain ⟨reached, each⟩ := ih leads
        refine ⟨by rw [Machine.run, advances]; exact reached, fun steps less => ?_⟩
        cases steps with
        | zero => exact ⟨machine, next, rfl, advances, passes⟩
        | succ steps =>
          rw [Machine.run, advances]
          exact each steps (Nat.lt_of_succ_lt_succ less)

theorem Machine.Follows.append (first : machine.Follows compiled test count middle)
    (second : middle.Follows compiled test more last) :
    machine.Follows compiled test (count + more) last := by
  obtain ⟨reached, each⟩ := first
  obtain ⟨ends, later⟩ := second
  refine ⟨by rw [Machine.run_add, reached]; exact ends, fun steps less => ?_⟩
  obtain before | behind := Nat.lt_or_ge steps count
  · exact each steps before
  · obtain ⟨further, rfl⟩ := Nat.exists_eq_add_of_le behind
    rw [Machine.run_add, reached]
    exact later further (Nat.lt_of_add_lt_add_left less)

/-- A loop each turn of which passes the test. -/
theorem Machine.Follows.turns {state : Nat → Machine}
    (turn : ∀ index < more, (state index).Follows compiled test count (state (index + 1))) :
    (state 0).Follows compiled test (more * count) (state more) := by
  induction more with
  | zero => exact ⟨by rw [Nat.zero_mul]; rfl, fun steps less => by omega⟩
  | succ more ih =>
    rw [Nat.succ_mul]
    exact (ih fun index less => turn index (Nat.lt_succ_of_lt less)).append
      (turn more (Nat.lt_succ_self more))

end

/-! ## Code without indices -/

/-- A pool of the same entries without an index. -/
def Pool.unindexed {α κ : Type} [BEq κ] [Hashable κ] (pool : Pool α κ) : Pool α κ :=
  ⟨pool.entries, ∅⟩

def Pools.unindexed (pools : Pools) : Pools :=
  ⟨pools.constants.unindexed, pools.names.unindexed⟩

/-- Code that is run as before, but without what is only there to find entries. -/
def Compiled.unindexed (compiled : Compiled) : Compiled :=
  { compiled with pools := compiled.pools.unindexed }

private theorem Action.popParameters_unindexed (names : NamePool) (count : Nat) (parameters : List String) :
    popParameters names.unindexed count parameters = popParameters names count parameters := by
  induction count generalizing parameters with
  | zero => rfl
  | succ count ih =>
    simp only [popParameters, ih]
    rfl

private theorem Action.step_unindexed (names : NamePool) (opcode : Opcode) (operand : Nat) :
    step names.unindexed opcode operand = step names opcode operand := by
  cases opcode with
  | defineMethod =>
    show andNext (defineMethod _ _) = andNext (defineMethod _ _)
    rw [defineMethod, popParameters_unindexed]
    rfl
  | _ => rfl

theorem Machine.advance_unindexed (compiled : Compiled) (machine : Machine) :
    machine.advance compiled.unindexed = machine.advance compiled := by
  have steps (opcode : Opcode) (operand : Nat) :
      Action.step compiled.unindexed.pools.names opcode operand
        = Action.step compiled.pools.names opcode operand :=
    Action.step_unindexed compiled.pools.names opcode operand
  unfold Machine.advance
  simp only [steps]
  rfl

theorem Machine.run_unindexed (compiled : Compiled) (fuel : Nat) (machine : Machine) :
    machine.run compiled.unindexed fuel = machine.run compiled fuel := by
  induction fuel generalizing machine with
  | zero => rfl
  | succ fuel ih =>
    unfold Machine.run
    rw [machine.advance_unindexed]
    cases machine.advance compiled with
    | running next => exact ih next
    | finished | failed => rfl

/-- Code that was compiled runs as the same code without indices. -/
theorem Machine.run_of_unindexed {compiled code : Compiled} (bare : compiled.unindexed = code)
    (config : Config) (input : List UInt8) (fuel : Nat) :
    (boot config input compiled.pools).run compiled fuel
      = (boot config input code.pools).run code fuel := by
  subst bare
  rw [Machine.run_unindexed]
  rfl

theorem Program.compile_of_unindexed {program : Program} {code : Compiled}
    (compiles : program.compile.map Compiled.unindexed = .ok code) :
    ∃ compiled, program.compile = .ok compiled ∧ compiled.unindexed = code := by
  cases accepted : program.compile with
  | error fault => simp [accepted, Except.map] at compiles
  | ok compiled =>
    rw [accepted] at compiles
    exact ⟨compiled, rfl, Except.ok.inj compiles⟩

/-! ## Programs without input -/

/-- What can be seen of a program without input after a number of dispatches. -/
def Program.inspect? {α : Type} (program : Program) (steps : Nat) (look : Machine → α) : Option α :=
  match program.compile with
  | .error _ => none
  | .ok compiled => some (look ((Machine.boot {} [] compiled.pools).run compiled steps).machine)

theorem Program.inspect?_spec {α : Type} {program : Program} {steps : Nat} {look : Machine → α}
    {value : α} (seen : program.inspect? steps look = some value) :
    ∃ compiled, program.compile = .ok compiled
      ∧ look ((Machine.boot {} [] compiled.pools).run compiled steps).machine = value := by
  unfold inspect? at seen
  cases accepted : program.compile with
  | error => simp [accepted] at seen
  | ok compiled =>
    rw [accepted] at seen
    exact ⟨compiled, rfl, Option.some.inj seen⟩

/-- The binding of a handle when a program without input has run for a number of dispatches. -/
def Program.bindingAfter? (program : Program) (steps : Nat) (id : BindingId) : Option Binding :=
  match program.compile with
  | .error _ => none
  | .ok compiled =>
    ((Machine.boot {} [] compiled.pools).run compiled steps).machine.heap.bindings.get? id

/-- The fault that a program without input runs into after a number of dispatches. -/
def Program.faultAfter? (program : Program) (steps : Nat) : Option Fault :=
  match program.compile with
  | .error _ => none
  | .ok compiled =>
    match (Machine.boot {} [] compiled.pools).run compiled steps with
    | .running before => before.nextFault? compiled
    | _ => none

theorem Program.fails_of_faultAfter {program : Program} {steps : Nat} {fault : Fault}
    (raised : program.faultAfter? steps = some fault) :
    ∃ compiled line machine, program.compile = .ok compiled
      ∧ (Machine.boot {} [] compiled.pools).run compiled (steps + 1) = .failed line fault machine := by
  unfold Program.faultAfter? at raised
  split at raised
  case h_1 => cases raised
  case h_2 compiled accepted =>
    split at raised
    case h_1 before reached =>
      obtain ⟨line, machine, failed⟩ := Machine.advance_of_nextFault raised
      exact ⟨compiled, line, machine, accepted, by rw [Machine.run_succ, reached]; exact failed⟩
    case h_2 => cases raised

/-- Reads two lines at a time and prints the second of them, until the first is empty. -/
def alternateLines : Program where
  main := [.statement ⟨.while, [⟨.ask, [], none, 1⟩], none, 1⟩,
    .block [.statement ⟨.print, [⟨.ask, [], none, 2⟩], none, 2⟩]]

theorem accepted_alternateLines : ∃ compiled, alternateLines.compile = .ok compiled :=
  ⟨_, by cbv⟩

theorem addressable_alternateLines {compiled : Compiled}
    (accepted : alternateLines.compile = .ok compiled) : Addressable alternateLines compiled := by
  obtain ⟨pools, -, -, -⟩ := alternateLines.compile_ok accepted
  have initial : Pools.ofProgram alternateLines = {} := rfl
  have code : size (image alternateLines) = 10 := by cbv
  have constants : ConstantPool.initial.size = 3 := by
    simp [ConstantPool.initial, ConstantPool.add, Pool.intern, Pool.indexOf?, Pool.size,
      Constant.key]
  refine ⟨by decide, ?_, ?_, ?_⟩
  · rw [size_image accepted, code]
    decide
  · rw [pools, initial]
    decide
  · rw [pools, initial, constants]
    decide

end ScopeMachine
