import ScopeMachine.Operator
import ScopeMachine.Store.Heap

set_option autoImplicit false

/-!
# Faults, troubles and reports

A fault stops a run. A trouble is reported, and the run goes on with nothing in place of the failed
result. A report says where either of them occurred.
-/

namespace ScopeMachine

inductive Fault where
  | argumentCount (name : String) (expected got : Nat)
  | notCallable (name : String)
  | nonIntegerIndex (found : TypeTag)
  /-- An indexed binding without a size. -/
  | notAnArray (name : String)
  | indexOutOfBounds (name : String) (index size : Int64)
  | callDepthExceeded (limit : Nat)
  | stackUnderflow
  /-- A name on the stack where a binding is required. -/
  | expectedBinding
  | expectedName
  | staleHandle (handle : Stale)
  | missingFrame
  /-- The end of a block scope that was not opened. -/
  | noLocalScope
  | unknownConstant (index : Nat)
  | unknownName (index : Nat)
  | unknownSyscall (operand : Nat)
  | unknownComparisonBit (operand : Nat)
  | unknownType (operand : Nat)
  | operandOverflow (limit : Nat)
  | input (reason : String)
deriving DecidableEq

namespace Fault

def message : Fault → String
  | .argumentCount name expected got =>
    name ++ " expected " ++ toString expected ++ " arguments but got " ++ toString got
  | .notCallable name => name ++ " cannot be called"
  | .nonIntegerIndex found => "array index must be an Integer, found " ++ found.name
  | .notAnArray name => name ++ " is not an array"
  | .indexOutOfBounds name index size =>
    "index " ++ toString index.toInt ++ " is out of bounds for " ++ name ++ " of size "
      ++ toString size.toInt
  | .callDepthExceeded limit => "call depth exceeded the limit of " ++ toString limit
  | .stackUnderflow => "operand stack underflow"
  | .expectedBinding => "expected a binding on the operand stack, found a name"
  | .expectedName => "expected a name on the operand stack, found a binding"
  | .staleHandle handle => "stale handle " ++ handle.display
  | .missingFrame => "no active call frame"
  | .noLocalScope => "no block scope to leave"
  | .unknownConstant index => "unknown constant index " ++ toString index
  | .unknownName index => "unknown name index " ++ toString index
  | .unknownSyscall operand => "unknown syscall " ++ toString operand
  | .unknownComparisonBit operand => "unknown comparison bit " ++ toString operand
  | .unknownType operand => "unknown type tag " ++ toString operand
  | .operandOverflow limit => "operand extension exceeds " ++ toString limit ++ " bytes"
  | .input reason => "console input failed: " ++ reason

end Fault

def invalidInput : String := "stream did not contain valid UTF-8"

inductive Trouble where
  | unassignable (label : String)
  | operator (error : OperatorError)
  /-- A member of a binding without attributes. -/
  | noAttributes (name label : String)
  | arraySize
  /-- An index within the size of an array that has lost the element. -/
  | noElement (label : String) (index : Int64)
  /-- A condition that is neither a Boolean nor null. -/
  | condition (found : TypeTag)
deriving DecidableEq, Repr

namespace Trouble

def message : Trouble → String
  | .unassignable label => "cannot assign to " ++ label
  | .operator error => error.message
  | .noAttributes name label =>
    "cannot access '" ++ name ++ "' on " ++ label ++ ", which has no attributes"
  | .arraySize => "Array expects a single non-negative Integer size"
  | .noElement label index => label ++ " has no element " ++ toString index.toInt
  | .condition found => "condition must be a Boolean, found " ++ found.name

end Trouble

inductive Severity where
  | recoverable
  | fatal
deriving DecidableEq, Repr

/-- A problem of the running program and the line it occurred on. -/
structure Report where
  severity : Severity
  line : Nat
  message : String
deriving DecidableEq, Repr

namespace Report

def display (report : Report) : String :=
  "line " ++ toString report.line ++ ": " ++ report.message

def isFatal (report : Report) : Bool :=
  report.severity = .fatal

end Report

end ScopeMachine
