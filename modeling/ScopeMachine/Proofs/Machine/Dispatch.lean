import ScopeMachine.Machine.Run
import ScopeMachine.Proofs.Assembly.Layout
import ScopeMachine.Proofs.Machine.Veil

set_option autoImplicit false

/-!
# Dispatch

A machine reads the slots of a cell one after the other and then does what its instruction does with
the whole operand. What holds at every cell that a run comes to is therefore proved cell by cell.
-/

namespace ScopeMachine

/-! ## Operands -/

/-- The number of values that a number of bytes can take. -/
def byteRange (count : Nat) : Nat :=
  1 <<< (8 * count)

theorem byteRange_succ (count : Nat) : byteRange (count + 1) = byteRange count * 256 := by
  rw [byteRange, byteRange, Nat.mul_succ, Nat.shiftLeft_add, Nat.shiftLeft_eq _ 8]

private theorem byteRange_pos (count : Nat) : 0 < byteRange count := by
  rw [byteRange, Nat.one_shiftLeft]
  exact Nat.two_pow_pos _

theorem extensionBytes_getElem? (operand index : Nat) (inside : index < extensionCount operand) :
    (extensionBytes operand)[index]? = some (UInt8.ofNat (operand / byteRange (index + 1))) := by
  induction index generalizing operand with
  | zero =>
    rw [extensionCount_eq] at inside
    rw [extensionBytes_eq]
    split at inside
    case isTrue => simp at inside
    case isFalse more =>
      rw [if_neg more]
      rfl
  | succ index ih =>
    rw [extensionCount_eq] at inside
    rw [extensionBytes_eq]
    split at inside
    case isTrue => simp at inside
    case isFalse more =>
      rw [if_neg more, List.getElem?_cons_succ, ih _ (Nat.lt_of_succ_lt_succ inside),
        Nat.div_div_eq_div_mul, Nat.mul_comm 256, ← byteRange_succ]

theorem extensionCount_le {operand count : Nat} (small : operand < byteRange (count + 1)) :
    extensionCount operand ≤ count := by
  induction count generalizing operand with
  | zero =>
    have byte : operand < 256 := small
    exact Nat.le_of_eq (by rw [extensionCount_eq, if_pos (by omega)])
  | succ count ih =>
    rw [extensionCount_eq]
    split
    · exact Nat.zero_le _
    · refine Nat.succ_le_succ (ih ?_)
      rw [byteRange_succ] at small
      exact Nat.div_lt_of_lt_mul (by rwa [Nat.mul_comm])

/-- The extensions of an operand hold all of it above the low byte. -/
theorem div_lt_extensionCount (operand : Nat) : operand / 256 < byteRange (extensionCount operand) := by
  induction operand using extensionBytes.induct with
  | case1 operand rest zero =>
    simp only [rest] at zero
    rw [zero]
    exact byteRange_pos _
  | case2 operand rest more ih =>
    have count : extensionCount operand = extensionCount (operand / 256) + 1 := by
      rw [extensionCount_eq operand, if_neg more]
    simp only [rest] at ih
    rw [count, byteRange_succ]
    exact (Nat.div_lt_iff_lt_mul (by omega)).mp ih

/-- What is collected of an operand after some of its extensions. -/
def collected (operand count : Nat) : Nat :=
  operand / 256 % byteRange count * 256

theorem collected_zero (operand : Nat) : collected operand 0 = 0 := by
  simp [collected, byteRange, Nat.mod_one]

theorem collected_succ (operand count : Nat) :
    collected operand count
        ||| (UInt8.ofNat (operand / byteRange (count + 1))).toNat <<< (8 * (count + 1))
      = collected operand (count + 1) := by
  have below : collected operand count < byteRange (count + 1) := by
    have small : operand / 256 % byteRange count < byteRange count :=
      Nat.mod_lt _ (byteRange_pos count)
    rw [byteRange_succ]
    exact Nat.mul_lt_mul_of_pos_right small (by omega)
  have shift (high : Nat) : high <<< (8 * (count + 1)) = high * byteRange (count + 1) := by
    rw [byteRange, Nat.one_shiftLeft, Nat.shiftLeft_eq]
  rw [Nat.or_comm, ← Nat.shiftLeft_add_eq_or_of_lt (by rwa [byteRange, Nat.one_shiftLeft] at below),
    shift]
  have byte : (UInt8.ofNat (operand / byteRange (count + 1))).toNat
      = operand / 256 / byteRange count % 256 := by
    rw [UInt8.toNat_ofNat', Nat.div_div_eq_div_mul, Nat.mul_comm 256, ← byteRange_succ]
  rw [byte, collected, collected, byteRange_succ, Nat.mod_mul]
  generalize operand / 256 % byteRange count = low
  generalize operand / 256 / byteRange count % 256 = high
  rw [Nat.add_mul, Nat.add_comm, ← Nat.mul_assoc, Nat.mul_comm high]

theorem collected_all (operand : Nat) :
    collected operand (extensionCount operand) ||| (lowByte operand).toNat = operand := by
  have low : (lowByte operand).toNat = operand % 256 := UInt8.toNat_ofNat'
  have small : operand % 256 < 256 := Nat.mod_lt _ (by omega)
  have shift : collected operand (extensionCount operand) = (operand / 256) <<< 8 := by
    rw [collected, Nat.mod_eq_of_lt (div_lt_extensionCount operand), Nat.shiftLeft_eq]
  rw [low, shift, ← Nat.shiftLeft_add_eq_or_of_lt (i := 8) small, Nat.shiftLeft_eq]
  omega

open Assembly

/-! ## Cells -/

/-- The code of a program is that of some cells, whose lines the table knows and whose operands the
machine can read. -/
structure Encodes (compiled : Compiled) (cells : List Cell) : Prop where
  instructions : compiled.code.instructions.toList = slots cells
  line : ∀ {offset cell}, Stands cells offset cell →
    compiled.code.lineAt? (offset + extensionCount cell.command.operand) = cell.line
  narrow : ∀ {offset cell}, Stands cells offset cell → cell.command.operand < UInt64.size
  whole : ∀ {offset cell}, Stands cells offset cell → cell.command.opcode ≠ .extendArgument

/-- A machine has read some of the extensions of a cell at an offset. -/
structure Reading (offset : Nat) (cell : Cell) (index : Nat) (registers : Registers) : Prop where
  inside : index ≤ extensionCount cell.command.operand
  ip : registers.ip = offset + index
  extensions : registers.extensions = index
  extended : registers.extended = collected cell.command.operand index

/-- A machine with nothing collected for the next operand. -/
def Clear (registers : Registers) : Prop :=
  registers.extended = 0 ∧ registers.extensions = 0

theorem reading_start (offset : Nat) (cell : Cell) {registers : Registers}
    (ip : registers.ip = offset) (clear : Clear registers) : Reading offset cell 0 registers :=
  ⟨Nat.zero_le _, ip, clear.2, by rw [clear.1, collected_zero]⟩

def Machine.moved (machine : Machine) (ip extended extensions line : Nat) : Machine :=
  { machine with registers := { machine.registers with ip, extended, extensions }, line }

/-- A machine in front of the instruction of a cell, with its operand read. -/
def Machine.ready (machine : Machine) (offset : Nat) (cell : Cell) : Machine :=
  machine.moved (offset + extensionCount cell.command.operand) 0 0 (cell.line.getD machine.line)

/-- Where a run goes on after an instruction, with the offset behind it. -/
def Progress.after (next : Nat) : EStateM.Result Fault Machine Transfer → Progress
  | .ok .next machine => .running (machine.goto next)
  | .ok (.goto target) machine => .running (machine.goto target)
  | .ok (.halt result) machine => .finished result machine
  | .error fault machine => machine.stop fault

/-- A run goes on after an instruction that does not end it. -/
theorem Progress.after_running {next : Nat} {result : EStateM.Result Fault Machine Transfer}
    {after : Machine} (goes : Progress.after next result = .running after) :
    ∃ transfer machine target, result = .ok transfer machine ∧ after = machine.goto target
      ∧ ∀ value, transfer ≠ .halt value := by
  match result with
  | .ok .next machine | .ok (.goto _) machine =>
    cases goes
    exact ⟨_, machine, _, rfl, rfl, nofun⟩
  | .ok (.halt _) _ | .error _ _ => cases goes

/-- The slots of a cell stand in code from an offset on, under its line, with an operand that the
machine can read. -/
structure Carries (code : Code) (offset : Nat) (cell : Cell) : Prop where
  slots : ∀ {index}, index < cell.command.width →
    code.instructions[offset + index]? = cell.command.slots[index]?
  line : code.lineAt? (offset + extensionCount cell.command.operand) = cell.line
  narrow : cell.command.operand < UInt64.size
  whole : cell.command.opcode ≠ .extendArgument

namespace Carries

variable {compiled : Compiled} {offset : Nat} {cell : Cell} {index : Nat} {machine : Machine}
  (carries : Carries compiled.code offset cell)

include carries

theorem few : extensionCount cell.command.operand ≤ 7 :=
  extensionCount_le (Nat.lt_of_lt_of_le carries.narrow (by decide))

theorem extension (inside : index < extensionCount cell.command.operand) :
    compiled.code.instructions[offset + index]?
      = some ⟨.extendArgument, UInt8.ofNat (cell.command.operand / byteRange (index + 1))⟩ := by
  rw [carries.slots (by simp only [Command.width]; omega), Command.slots, encode,
    List.getElem?_append_left (by simpa using inside), List.getElem?_map,
    extensionBytes_getElem? _ _ inside]
  rfl

theorem instruction :
    compiled.code.instructions[offset + extensionCount cell.command.operand]?
      = some ⟨cell.command.opcode, lowByte cell.command.operand⟩ := by
  rw [carries.slots (by simp only [Command.width]; omega), Command.slots, encode,
    List.getElem?_append_right (by simp)]
  simp

variable (reading : Reading offset cell index machine.registers)

include reading

theorem advance_extension (more : index < extensionCount cell.command.operand) :
    machine.advance compiled = .running (machine.moved (offset + (index + 1))
      (collected cell.command.operand (index + 1)) (index + 1) machine.line) := by
  have room : ¬ Machine.maxExtensions ≤ index := by
    have few := carries.few
    rw [Machine.maxExtensions]
    omega
  unfold Machine.advance
  simp only [reading.ip, carries.extension more, if_true, Machine.extend,
    reading.extensions, if_neg room, reading.extended, collected_succ, Nat.add_assoc]
  rfl

theorem advance_instruction (last : index = extensionCount cell.command.operand) :
    machine.advance compiled
      = Progress.after (offset + cell.command.width)
        (Action.step compiled.pools.names cell.command.opcode cell.command.operand
          (machine.ready offset cell)) := by
  subst last
  have operand : machine.registers.extended ||| (lowByte cell.command.operand).toNat
      = cell.command.operand := by
    rw [reading.extended, collected_all]
  have ready : machine.fetch compiled.code = machine.ready offset cell := by
    simp only [Machine.fetch, Machine.ready, Machine.moved, reading.ip, carries.line]
  have next : offset + extensionCount cell.command.operand + 1 = offset + cell.command.width :=
    Nat.add_assoc _ _ _
  unfold Machine.advance
  simp only [reading.ip, carries.instruction, if_neg carries.whole, operand, ready, next]
  rfl

end Carries

section

variable {compiled : Compiled} {cells : List Cell} (encodes : Encodes compiled cells)
  {offset : Nat} {cell : Cell} {index : Nat} {machine : Machine}
  (stands : Stands cells offset cell)

include encodes stands

theorem Encodes.carries : Carries compiled.code offset cell where
  slots inside := by
    rw [← Array.getElem?_toList, encodes.instructions, stands.getElem? inside]
  line := encodes.line stands
  narrow := encodes.narrow stands
  whole := encodes.whole stands

theorem Encodes.getElem?_extension (inside : index < extensionCount cell.command.operand) :
    compiled.code.instructions[offset + index]?
      = some ⟨.extendArgument, UInt8.ofNat (cell.command.operand / byteRange (index + 1))⟩ :=
  (encodes.carries stands).extension inside

theorem Encodes.getElem?_instruction :
    compiled.code.instructions[offset + extensionCount cell.command.operand]?
      = some ⟨cell.command.opcode, lowByte cell.command.operand⟩ :=
  (encodes.carries stands).instruction

variable (reading : Reading offset cell index machine.registers)

include reading

theorem Reading.advance_extension (more : index < extensionCount cell.command.operand) :
    ∃ ip extended extensions, machine.advance compiled
        = .running (machine.moved ip extended extensions machine.line)
      ∧ Reading offset cell (index + 1)
        (machine.moved ip extended extensions machine.line).registers :=
  ⟨_, _, _, (encodes.carries stands).advance_extension reading more, more, rfl, rfl, rfl⟩

theorem Reading.advance_instruction (last : index = extensionCount cell.command.operand) :
    machine.advance compiled
      = Progress.after (offset + cell.command.width)
        (Action.step compiled.pools.names cell.command.opcode cell.command.operand
          (machine.ready offset cell)) :=
  (encodes.carries stands).advance_instruction reading last

end

/-! ## Runs -/

/-- The state of a run some steps later. -/
def Progress.run (compiled : Compiled) (steps : Nat) : Progress → Progress
  | .running machine => machine.run compiled steps
  | ended => ended

theorem Machine.run_add (compiled : Compiled) (machine : Machine) (first second : Nat) :
    machine.run compiled (first + second) = (machine.run compiled first).run compiled second := by
  induction first generalizing machine with
  | zero => rw [Nat.zero_add]; rfl
  | succ first ih =>
    rw [Nat.succ_add]
    unfold Machine.run
    cases machine.advance compiled with
    | running machine => exact ih machine
    | finished result machine => rfl
    | failed line fault machine => rfl

/-- A loop that brings each state to the next one with as many dispatches runs through all of them. -/
theorem Machine.run_turns {compiled : Compiled} {state : Nat → Machine} {dispatches turns : Nat}
    (turn : ∀ index < turns, (state index).run compiled dispatches = .running (state (index + 1))) :
    (state 0).run compiled (turns * dispatches) = .running (state turns) := by
  induction turns with
  | zero => simp [Machine.run]
  | succ turns ih =>
    rw [Nat.succ_mul, Machine.run_add, ih fun index less => turn index (Nat.lt_succ_of_lt less)]
    exact turn turns (Nat.lt_succ_self turns)

/-- A property of the machines that come to the cells of a program. -/
abbrev Assertion := Nat → Cell → Machine → Prop

/-- A machine is in front of a cell, or has read some of its extensions, and the property holds. -/
def Assertion.At (holds : Assertion) (cells : List Cell) (machine : Machine) : Prop :=
  ∃ offset cell index, Stands cells offset cell ∧ Reading offset cell index machine.registers
    ∧ holds offset cell machine

/-- The property holds at the cell of an offset. -/
def Assertion.Arrives (holds : Assertion) (cells : List Cell) (offset : Nat) (machine : Machine) :
    Prop :=
  ∃ cell, Stands cells offset cell ∧ holds offset cell machine

/-- What has to hold after an instruction, with the offset behind it. -/
def Assertion.After (holds : Assertion) (cells : List Cell)
    (finishes : Option BindingId → Machine → Prop) (fails : Fault → Machine → Prop) (next : Nat) :
    EStateM.Result Fault Machine Transfer → Prop
  | .ok .next machine => holds.Arrives cells next machine
  | .ok (.goto target) machine => holds.Arrives cells target machine
  | .ok (.halt result) machine => finishes result machine
  | .error fault machine => fails fault machine

/-- A property that every instruction of a program keeps, and that does not depend on the position
of the machine. -/
structure Kept (names : NamePool) (cells : List Cell) (holds : Assertion)
    (finishes : Option BindingId → Machine → Prop) (fails : Fault → Machine → Prop) : Prop where
  moved : ∀ {offset cell machine} (ip extended extensions line : Nat), holds offset cell machine →
    holds offset cell (machine.moved ip extended extensions line)
  step : ∀ {offset cell machine}, Stands cells offset cell → holds offset cell machine →
    machine.registers.ip = offset + extensionCount cell.command.operand →
    holds.After cells finishes fails (offset + cell.command.width)
      (Action.step names cell.command.opcode cell.command.operand machine)

/-- What is known of the state of a run. -/
def Assertion.Along (holds : Assertion) (cells : List Cell)
    (finishes : Option BindingId → Machine → Prop) (fails : Fault → Machine → Prop) :
    Progress → Prop
  | .running machine => holds.At cells machine
  | .finished result machine => finishes result machine
  | .failed line fault machine => ∃ before : Machine, fails fault before ∧ line = before.line
    ∧ machine = before.addReport .fatal fault.message

section

variable {compiled : Compiled} {cells : List Cell} {holds : Assertion}
  {finishes : Option BindingId → Machine → Prop} {fails : Fault → Machine → Prop}
  (encodes : Encodes compiled cells)
  (kept : Kept compiled.pools.names cells holds finishes fails)

theorem Assertion.Arrives.at (moved : ∀ {offset cell machine} (ip extended extensions line : Nat),
      holds offset cell machine → holds offset cell (machine.moved ip extended extensions line))
    {target : Nat} {machine before : Machine} (arrives : holds.Arrives cells target machine)
    (position : SamePosition machine.registers before.registers) (clear : Clear before.registers) :
    holds.At cells (machine.goto target) := by
  obtain ⟨cell, stands, holds⟩ := arrives
  refine ⟨target, cell, 0, stands, reading_start target cell rfl ?_, ?_⟩
  · exact ⟨position.2.1.trans clear.1, position.2.2.trans clear.2⟩
  · exact moved target machine.registers.extended machine.registers.extensions machine.line holds

/-- What holds after an instruction holds where the run goes on. -/
theorem Assertion.After.along (moved : ∀ {offset cell machine} (ip extended extensions line : Nat),
      holds offset cell machine → holds offset cell (machine.moved ip extended extensions line))
    {machine : Machine} {names : NamePool} {offset next : Nat} {cell : Cell}
    (after : holds.After cells finishes fails next
      (Action.step names cell.command.opcode cell.command.operand (machine.ready offset cell))) :
    holds.Along cells finishes fails (Progress.after next
      (Action.step names cell.command.opcode cell.command.operand (machine.ready offset cell))) := by
  have position := Action.keepsPosition_step names cell.command.opcode cell.command.operand
    (machine.ready offset cell)
  have clear : Clear (machine.ready offset cell).registers := ⟨rfl, rfl⟩
  cases result : Action.step names cell.command.opcode cell.command.operand
      (machine.ready offset cell) with
  | error fault machine =>
    rw [result] at after
    exact ⟨machine, after, rfl, rfl⟩
  | ok transfer machine =>
    rw [result] at after position
    cases transfer with
    | next => exact Assertion.Arrives.at moved after position clear
    | goto target => exact Assertion.Arrives.at moved after position clear
    | halt result => exact after

include encodes

/-- A dispatch leads from one property to another, if reading an extension and the instruction of
the cell do. -/
theorem Assertion.At.advance {before : Assertion} {machine : Machine} (at_ : before.At cells machine)
    (moved : ∀ {offset cell machine} (ip extended extensions line : Nat),
      holds offset cell machine → holds offset cell (machine.moved ip extended extensions line))
    (reads : ∀ {offset cell} (ip extended extensions : Nat), before offset cell machine →
      machine.advance compiled = .running (machine.moved ip extended extensions machine.line) →
      holds offset cell (machine.moved ip extended extensions machine.line))
    (step : ∀ {offset cell}, Stands cells offset cell → before offset cell machine →
      machine.registers.ip = offset + extensionCount cell.command.operand →
      machine.advance compiled = Progress.after (offset + cell.command.width)
        (Action.step compiled.pools.names cell.command.opcode cell.command.operand
          (machine.ready offset cell)) →
      holds.After cells finishes fails (offset + cell.command.width)
        (Action.step compiled.pools.names cell.command.opcode cell.command.operand
          (machine.ready offset cell))) :
    holds.Along cells finishes fails (machine.advance compiled) := by
  obtain ⟨offset, cell, index, stands, reading, here⟩ := at_
  obtain more | last := Nat.lt_or_eq_of_le reading.inside
  · obtain ⟨ip, extended, extensions, advanced, reading⟩ :=
      reading.advance_extension encodes stands more
    have next := reads ip extended extensions here advanced
    rw [advanced]
    exact ⟨offset, cell, index + 1, stands, reading, next⟩
  · have advanced := reading.advance_instruction encodes stands last
    have after := step stands here (last ▸ reading.ip) advanced
    rw [advanced]
    exact after.along moved

include kept

/-- What every instruction keeps is kept by every dispatch. -/
theorem Kept.advance {machine : Machine} (at_ : holds.At cells machine) :
    holds.Along cells finishes fails (machine.advance compiled) :=
  at_.advance encodes kept.moved (fun _ _ _ here _ => kept.moved _ _ _ _ here)
    fun stands here _ _ => kept.step stands (kept.moved _ _ _ _ here) rfl

theorem Kept.run {machine : Machine} (at_ : holds.At cells machine) (fuel : Nat) :
    holds.Along cells finishes fails (machine.run compiled fuel) := by
  induction fuel generalizing machine with
  | zero => exact at_
  | succ fuel ih =>
    have one := kept.advance encodes at_
    unfold Machine.run
    cases result : machine.advance compiled with
    | running machine =>
      rw [result] at one
      exact ih one
    | finished value machine =>
      rw [result] at one
      exact one
    | failed line fault machine =>
      rw [result] at one
      exact one

end

end ScopeMachine
