import ScopeMachine.Code.Operand

set_option autoImplicit false

/-!
# Code

Instructions and the table of the statements they came from. Offsets into the code are positions of
instructions; the table lists where each statement starts.
-/

namespace ScopeMachine

structure LineMark where
  offset : Nat
  line : Nat
deriving DecidableEq, Repr, Inhabited

structure Code where
  instructions : Array Instruction := #[]
  marks : Array LineMark := #[]
deriving DecidableEq, Repr, Inhabited

namespace Code

def size (code : Code) : Nat :=
  code.instructions.size

def push (code : Code) (instruction : Instruction) : Code :=
  { code with instructions := code.instructions.push instruction }

def append (code : Code) (instructions : List Instruction) : Code :=
  instructions.foldl push code

def emit (code : Code) (opcode : Opcode) (operand : Nat) : Code :=
  code.append (encode opcode operand)

/-- Records that a statement of `line` starts at `offset`. -/
def mark (code : Code) (offset line : Nat) : Code :=
  { code with marks := code.marks.push ⟨offset, line⟩ }

def startsBy (code : Code) (offset index : Nat) : Bool :=
  match code.marks[index]? with
  | some mark => mark.offset ≤ offset
  | none => false

/-- Halves a section of the table, of `size` marks from `base`, until one is left. The upper part
is kept when its first statement starts at or before the offset. -/
def locate (code : Code) (offset size base : Nat) : Nat :=
  if size ≤ 1 then base
  else
    let half := size / 2
    locate code offset (size - half) (if code.startsBy offset (base + half) then base + half else base)
termination_by size
decreasing_by omega

/-- The source line of the statement that contains an offset: the last one that starts at or before
it. The search expects statements in the order of their starts. -/
def lineAt? (code : Code) (offset : Nat) : Option Nat :=
  let base := code.locate offset code.marks.size 0
  if code.startsBy offset base then code.marks[base]?.map (·.line)
  else if base = 0 then none
  else code.marks[base - 1]?.map (·.line)

end Code

end ScopeMachine
