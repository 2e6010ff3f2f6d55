import ScopeMachine.Code.Opcode

set_option autoImplicit false

/-!
# Operands

An instruction carries one byte of its operand. Higher bytes stand in extension instructions before
it, the next-higher byte first.
-/

namespace ScopeMachine

structure Instruction where
  opcode : Opcode
  operand : UInt8 := 0
deriving DecidableEq, Repr, Inhabited

/-- The bytes of an operand above its low byte, next-higher byte first. -/
def extensionBytes (operand : Nat) : List UInt8 :=
  let rest := operand / 256
  if rest = 0 then [] else UInt8.ofNat rest :: extensionBytes rest
termination_by operand
decreasing_by omega

def lowByte (operand : Nat) : UInt8 :=
  UInt8.ofNat operand

/-- Adds the number of bytes that a number has to a count. -/
def countBytes (count rest : Nat) : Nat :=
  if rest = 0 then count else countBytes (count + 1) (rest / 256)
termination_by rest
decreasing_by omega

/-- The number of extension instructions that an operand needs. -/
def extensionCount (operand : Nat) : Nat :=
  countBytes 0 (operand / 256)

theorem extensionBytes_eq (operand : Nat) :
    extensionBytes operand
      = if operand / 256 = 0 then []
        else UInt8.ofNat (operand / 256) :: extensionBytes (operand / 256) := by
  rw [extensionBytes]

private theorem countBytes_eq (count operand : Nat) :
    countBytes count (operand / 256) = count + (extensionBytes operand).length := by
  induction operand using extensionBytes.induct generalizing count with
  | case1 operand rest zero =>
    simp only [rest] at zero
    rw [countBytes, if_pos zero, extensionBytes_eq, if_pos zero]
    rfl
  | case2 operand rest more ih =>
    simp only [rest] at more ih
    rw [countBytes, if_neg more, ih, extensionBytes_eq operand, if_neg more, List.length_cons,
      Nat.add_assoc, Nat.add_comm 1]

@[simp] theorem length_extensionBytes (operand : Nat) :
    (extensionBytes operand).length = extensionCount operand := by
  rw [extensionCount, countBytes_eq, Nat.zero_add]

theorem extensionCount_eq (operand : Nat) :
    extensionCount operand
      = if operand / 256 = 0 then 0 else extensionCount (operand / 256) + 1 := by
  rw [← length_extensionBytes, extensionBytes_eq, ← length_extensionBytes]
  split <;> rfl

def encode (opcode : Opcode) (operand : Nat) : List Instruction :=
  (extensionBytes operand).map (fun byte => { opcode := .extendArgument, operand := byte })
    ++ [{ opcode, operand := lowByte operand }]

end ScopeMachine
