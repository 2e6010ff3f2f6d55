import ScopeMachine.Code.Opcode
import ScopeMachine.Store.Binding

set_option autoImplicit false

/-!
# Operators

Arithmetic, logic and comparison of bindings. Operands must agree in type: integers with integers,
decimals with decimals, and texts with texts for addition only.
-/

namespace ScopeMachine

inductive OperatorError where
  | notArithmetic (opcode : Opcode)
  | divisionByZero
  | overflow (left : Int64) (verb : String) (right : Int64)
  /-- Operands whose types do not fit. -/
  | mismatch (verb : String) (left right : TypeTag)
  | negation (operand : TypeTag)
deriving DecidableEq, Repr

namespace OperatorError

def message : OperatorError → String
  | .notArithmetic opcode => opcode.name ++ " is not an arithmetic operation"
  | .divisionByZero => "division by zero"
  | .overflow left verb right =>
    "integer overflow in " ++ toString left.toInt ++ " " ++ verb ++ " " ++ toString right.toInt
  | .mismatch verb left right => "cannot " ++ verb ++ " " ++ left.name ++ " and " ++ right.name
  | .negation operand => "cannot negate " ++ operand.name

end OperatorError

inductive Arithmetic where
  | add
  | subtract
  | multiply
  | divide
deriving DecidableEq, Repr

namespace Arithmetic

def ofOpcode? : Opcode → Option Arithmetic
  | .add => some .add
  | .subtract => some .subtract
  | .multiply => some .multiply
  | .divide => some .divide
  | _ => none

/-- The operation as messages put it. -/
def verb : Arithmetic → String
  | .add => "add"
  | .subtract => "subtract"
  | .multiply => "multiply"
  | .divide => "divide"

/-- The exact result on integers; division drops the fraction. -/
def exact : Arithmetic → Int → Int → Int
  | .add, a, b => a + b
  | .subtract, a, b => a - b
  | .multiply, a, b => a * b
  | .divide, a, b => a.tdiv b

def rounded : Arithmetic → Decimal → Decimal → Decimal
  | .add => Decimal.add
  | .subtract => Decimal.sub
  | .multiply => Decimal.mul
  | .divide => Decimal.div

/-- The result on 64-bit integers. -/
def onIntegers (operation : Arithmetic) (a b : Int64) : Except OperatorError Int64 :=
  if operation = .divide ∧ b = 0 then .error .divisionByZero
  else
    let result := operation.exact a.toInt b.toInt
    if Int64.minValue.toInt ≤ result ∧ result ≤ Int64.maxValue.toInt then .ok (Int64.ofInt result)
    else .error (.overflow a operation.verb b)

end Arithmetic

namespace Operator

/-- The report of operands that do not fit. -/
def mismatch (verb : String) (left right : Binding) : OperatorError :=
  .mismatch verb left.tag right.tag

def arithmetic (opcode : Opcode) (left right : Binding) : Except OperatorError Payload :=
  match Arithmetic.ofOpcode? opcode with
  | none => .error (.notArithmetic opcode)
  | some operation =>
    match left.payload, right.payload with
    | .integer a, .integer b => (operation.onIntegers a b).map .integer
    | .decimal a, .decimal b => .ok (.decimal (operation.rounded a b))
    | .text a, .text b =>
      if operation = .add then .ok (.text (a ++ b))
      else .error (mismatch operation.verb left right)
    | _, _ => .error (mismatch operation.verb left right)

def logical (opcode : Opcode) (left right : Binding) : Except OperatorError Payload :=
  match opcode, left.payload, right.payload with
  | .and, .boolean a, .boolean b => .ok (.boolean (a && b))
  | .or, .boolean a, .boolean b => .ok (.boolean (a || b))
  | .and, _, _ => .error (mismatch "and" left right)
  | _, _, _ => .error (mismatch "or" left right)

def not (operand : Binding) : Except OperatorError Payload :=
  match operand.payload with
  | .boolean value => .ok (.boolean !value)
  | _ => .error (.negation operand.tag)

/-- The order of two numbers of one type; `none` when one of them is not a number. -/
def compare (left right : Binding) : Except OperatorError (Option Ordering) :=
  match left.payload, right.payload with
  | .integer a, .integer b => .ok (some (Ord.compare a.toInt b.toInt))
  | .decimal a, .decimal b => .ok (a.compare? b)
  | _, _ => .error (mismatch "compare" left right)

/-- The bits that an order sets. The weak relations hold along with the strict one or equality. -/
def comparisonMask : Ordering → UInt8
  | .lt => ComparisonBit.less.mask ||| ComparisonBit.lessOrEqual.mask
  | .gt => ComparisonBit.greater.mask ||| ComparisonBit.greaterOrEqual.mask
  | .eq => ComparisonBit.equal.mask ||| ComparisonBit.lessOrEqual.mask
      ||| ComparisonBit.greaterOrEqual.mask

end Operator

end ScopeMachine
