set_option autoImplicit false

/-!
# Operation codes

What an instruction does, and the meaning of the operands that select a system call or a bit of
the comparison register.
-/

namespace ScopeMachine

inductive Opcode where
  | loadName
  | loadLiteral
  /-- Pop a value and a target, assign, and push the target. -/
  | assign
  | add
  | subtract
  | multiply
  | divide
  | syscall
  | and
  | or
  | not
  | notEqual
  | equal
  | compare
  | loadComparisonBit
  /-- Pop a condition and jump if it does not hold. -/
  | jumpIfFalse
  | jump
  /-- Replace the top binding by an independent copy. -/
  | copy
  | bindType
  | resolveDirect
  /-- Resolve a name inside the binding below it. -/
  | resolveScoped
  /-- Pop parameter names and push a new method. -/
  | defineMethod
  | bindSection
  /-- Call a method on the current receiver. -/
  | evaluateInPlace
  /-- Call a method with arguments. -/
  | evaluate
  /-- Leave the current frame; a nonzero operand means that a value is on the stack. -/
  | return
  /-- Replace an array and an index by an element. -/
  | arrayIndex
  | enterLocal
  | leaveLocal
  /-- Carry the next-higher byte of the following operand. -/
  | extendArgument
  | nop
  | duplicate
  /-- Pop the result of a statement. -/
  | endStatement
  | swap
  /-- Pop a binding and jump if it is null-typed. -/
  | jumpIfNull
  | dropTop
  /-- Check that the top of the stack is a live binding. -/
  | dereference
deriving DecidableEq, Repr, Inhabited

namespace Opcode

def all : List Opcode :=
  [.loadName, .loadLiteral, .assign, .add, .subtract, .multiply, .divide, .syscall, .and, .or, .not,
    .notEqual, .equal, .compare, .loadComparisonBit, .jumpIfFalse, .jump, .copy, .bindType,
    .resolveDirect, .resolveScoped, .defineMethod, .bindSection, .evaluateInPlace, .evaluate,
    .return, .arrayIndex, .enterLocal, .leaveLocal, .extendArgument, .nop, .duplicate,
    .endStatement, .swap, .jumpIfNull, .dropTop, .dereference]

def name : Opcode → String
  | .loadName => "LoadName"
  | .loadLiteral => "LoadLiteral"
  | .assign => "Assign"
  | .add => "Add"
  | .subtract => "Subtract"
  | .multiply => "Multiply"
  | .divide => "Divide"
  | .syscall => "Syscall"
  | .and => "And"
  | .or => "Or"
  | .not => "Not"
  | .notEqual => "NotEqual"
  | .equal => "Equal"
  | .compare => "Compare"
  | .loadComparisonBit => "LoadComparisonBit"
  | .jumpIfFalse => "JumpIfFalse"
  | .jump => "Jump"
  | .copy => "Copy"
  | .bindType => "BindType"
  | .resolveDirect => "ResolveDirect"
  | .resolveScoped => "ResolveScoped"
  | .defineMethod => "DefineMethod"
  | .bindSection => "BindSection"
  | .evaluateInPlace => "EvaluateInPlace"
  | .evaluate => "Evaluate"
  | .return => "Return"
  | .arrayIndex => "ArrayIndex"
  | .enterLocal => "EnterLocal"
  | .leaveLocal => "LeaveLocal"
  | .extendArgument => "ExtendArgument"
  | .nop => "Nop"
  | .duplicate => "Duplicate"
  | .endStatement => "EndStatement"
  | .swap => "Swap"
  | .jumpIfNull => "JumpIfNull"
  | .dropTop => "DropTop"
  | .dereference => "Dereference"

def ofName? (text : String) : Option Opcode :=
  all.find? fun opcode => opcode.name == text

end Opcode

inductive Syscall where
  | print
  | readLine
deriving DecidableEq, Repr

namespace Syscall

/-- The operand that selects a system call. -/
def operand : Syscall → Nat
  | .print => 0
  | .readLine => 1

/-- The system call that an operand selects. -/
def ofOperand? : Nat → Option Syscall
  | 0 => some .print
  | 1 => some .readLine
  | _ => none

end Syscall

inductive ComparisonBit where
  /-- Always clear. -/
  | false
  /-- Always set. -/
  | true
  | equal
  | less
  | greater
  | lessOrEqual
  | greaterOrEqual
deriving DecidableEq, Repr

namespace ComparisonBit

def all : List ComparisonBit :=
  [.false, .true, .equal, .less, .greater, .lessOrEqual, .greaterOrEqual]

/-- The position of a bit in the register, which is also its operand. -/
def operand : ComparisonBit → Nat
  | .false => 0
  | .true => 1
  | .equal => 2
  | .less => 3
  | .greater => 4
  | .lessOrEqual => 5
  | .greaterOrEqual => 6

def ofOperand? (operand : Nat) : Option ComparisonBit :=
  all[operand]?

/-- The register with just this bit set. -/
def mask (bit : ComparisonBit) : UInt8 :=
  1 <<< UInt8.ofNat bit.operand

end ComparisonBit

end ScopeMachine
