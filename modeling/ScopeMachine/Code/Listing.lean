import ScopeMachine.Code.Basic
import ScopeMachine.Pool

set_option autoImplicit false

/-!
# Listings

Code as text, one row for each instruction: the line of a statement that starts there, the offset,
the operation and its operand, and for loads what is loaded.
-/

namespace ScopeMachine

def column (width n : Nat) : String :=
  let digits := toString n
  String.ofList (List.replicate (width - digits.length) ' ') ++ digits

namespace Code

/-- The first cell of a row: the line of the first statement marked at the offset, or a bar. -/
def lineCell (code : Code) (offset : Nat) : String :=
  match code.marks.find? fun mark => mark.offset == offset with
  | some mark => column 4 mark.line
  | none => "   |"

/-- What a load refers to, when the pools hold it. -/
def note? (pools : Pools) (opcode : Opcode) (operand : Nat) : Option String :=
  match opcode with
  | .loadLiteral => (pools.constants.get? operand).map Constant.display
  | .loadName => pools.names.get? operand
  | _ => none

def row (cell : String) (offset : Nat) (opcode : Opcode) (operand : Nat) (note : Option String) :
    String :=
  let head := cell ++ " " ++ column 5 offset ++ "  " ++ opcode.name ++ " " ++ toString operand
  match note with
  | some text => head ++ " ; " ++ text
  | none => head

/-- The listing so far, with the operand bytes collected from extensions and their number. -/
structure ListingState where
  text : String := ""
  offset : Nat := 0
  extended : Nat := 0
  extensions : Nat := 0

/-- Adds the row of one instruction. An extension shows its own byte; the instruction after it shows
the whole operand. Bytes beyond the eighth are dropped. -/
def listInstruction (code : Code) (pools : Pools) (state : ListingState)
    (instruction : Instruction) : ListingState :=
  let cell := code.lineCell state.offset
  let byte := instruction.operand.toNat
  if instruction.opcode = .extendArgument then
    let extensions := state.extensions + 1
    { text := state.text ++ row cell state.offset instruction.opcode byte none ++ "\n"
      offset := state.offset + 1
      extended := if extensions < 8 then state.extended ||| byte <<< (8 * extensions)
        else state.extended
      extensions }
  else
    let operand := state.extended ||| byte
    let note := note? pools instruction.opcode operand
    { text := state.text ++ row cell state.offset instruction.opcode operand note ++ "\n"
      offset := state.offset + 1 }

def listing (code : Code) (pools : Pools) : String :=
  (code.instructions.foldl (code.listInstruction pools) {}).text

end Code

end ScopeMachine
