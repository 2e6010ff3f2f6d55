import ScopeMachine.Code.Opcode
import ScopeMachine.Machine.Call
import ScopeMachine.Machine.Elements
import ScopeMachine.Machine.Resolve

set_option autoImplicit false

/-!
# Instructions

What each instruction does to a machine.
-/

namespace ScopeMachine.Action

def poolName (names : NamePool) (index : Nat) : Action String :=
  match names.get? index with
  | some name => return name
  | none => throw (.unknownName index)

def pushResult : Except OperatorError Payload → Action Unit
  | .ok payload => do push (← temporary payload)
  | .error error => recover (.operator error)

def binary (operator : Binding → Binding → Except OperatorError Payload) : Action Unit := do
  let right ← popBinding
  let left ← popBinding
  let left ← binding left
  let right ← binding right
  pushResult (operator left right)

def negate : Action Unit := do
  let operand ← popBinding
  pushResult (Operator.not (← binding operand))

/-- Assigns the top binding to the one below it, which stays. -/
def assign : Action Unit := do
  let value ← popBinding
  let target ← popBinding
  let current ← binding target
  if current.constant then
    recover (.unassignable current.label)
  else
    let source ← binding value
    updateBinding target fun target => target.assign source
    push target

def equality (wanted : Bool) : Action Unit := do
  let right ← popBinding
  let left ← popBinding
  let left ← binding left
  let right ← binding right
  push (← intern (.boolean (left.same right == wanted)))

def compare : Action Unit := do
  let right ← popBinding
  let left ← popBinding
  let left ← binding left
  let right ← binding right
  let set (bits : UInt8) : Action Unit :=
    setRegisters fun registers => { registers with comparison := bits }
  match Operator.compare left right with
  | .ok (some order) => set (ComparisonBit.true.mask ||| Operator.comparisonMask order)
  | .ok none => set ComparisonBit.true.mask
  | .error error =>
    set ComparisonBit.true.mask
    report (.operator error)

def loadComparisonBit (operand : Nat) : Action Unit :=
  match ComparisonBit.ofOperand? operand with
  | none => throw (.unknownComparisonBit operand)
  | some bit => do
    push (← intern (.boolean ((← registers).comparison &&& bit.mask ≠ 0)))

/-- Whether a condition holds. Null does not, and neither does what is not a Boolean, which is
reported. -/
def truthy (condition : BindingId) : Action Bool := do
  let binding ← binding condition
  match binding.payload with
  | .boolean value => return value
  | _ =>
    if binding.isNull then
      return false
    else
      report (.condition binding.tag)
      return false

def copyAttributes (binding : Binding) : Action ScopeId :=
  match binding.scope with
  | some scope => copyScope scope
  | none => allocateScope { durable := true }

def copyBinding (source : BindingId) : Action BindingId := do
  let binding ← binding source
  let scope ← copyAttributes binding
  allocate { binding with scope := some scope, constant := false }

/-- Pops the names of parameters; the result is in the order in which they were pushed, in front of
those popped before. -/
def popParameters (names : NamePool) : Nat → List String → Action (List String)
  | 0, parameters => return parameters
  | count + 1, parameters => do
    let name ← poolName names (← popName)
    popParameters names count (name :: parameters)

def defineMethod (names : NamePool) (count : Nat) : Action Unit := do
  let parameters ← popParameters names count []
  let scope ← allocateScope { parameters, durable := true }
  push (← allocate { tag := .method, scope := some scope })

def resolveTop (names : NamePool) : Action Unit := do
  let name ← poolName names (← popName)
  push (← resolveDirect name)

def resolveMember (names : NamePool) : Action Unit := do
  let name ← poolName names (← popName)
  let target ← popBinding
  match ← resolveScoped target name with
  | some id => push id
  | none => recover (.noAttributes name (← binding target).label)

def enterLocal : Action Unit := do
  let scope ← allocateScope { parent := some (← registers).localScope }
  setLocalScopes (scope :: ·)
  setRegisters fun registers => { registers with localScope := scope, lastResult := none }

def leaveLocal : Action Unit := do
  match (← currentFrame).localScopes with
  | [] => throw .noLocalScope
  | scope :: rest =>
    setLocalScopes fun _ => rest
    releaseScope scope
    let localScope ← currentLocalScope
    setRegisters fun registers => { registers with localScope, lastResult := none }

def print : Action Unit := do
  let value ← binding (← peekBinding)
  fun machine =>
    match machine.withConsole fun console => ((), console.writeLine value.display) with
    | (_, machine) => .ok () machine

def readLine : Action Unit := do
  let line ← fun machine =>
    match machine.withConsole Console.readLine with
    | (some line, machine) => .ok line machine
    | (none, machine) => .error (.input invalidInput) machine
  push (← adopt (.ofPayload (.text line)))

def syscall (operand : Nat) : Action Unit :=
  match Syscall.ofOperand? operand with
  | some .print => print
  | some .readLine => readLine
  | none => throw (.unknownSyscall operand)

/-- Calls the method below the arguments, on the caller below the method. An array makes a new array
instead. -/
def evaluate (count : Nat) : Action Transfer := do
  let arguments ← popArguments count []
  let method ← popBinding
  let caller ← popBinding
  let target ← binding method
  if target.tag = .array then
    constructArray method arguments
    return .next
  else
    checkCall target arguments.length
    bindArguments target none arguments
    enterFrame caller method target.body target.scope

/-- Calls the method below the arguments on the current receiver, whose scope takes the arguments. -/
def evaluateInPlace (count : Nat) : Action Transfer := do
  let arguments ← popArguments count []
  let method ← popBinding
  let target ← binding method
  checkCall target arguments.length
  bindArguments target (some (← receiverScope)) arguments
  let registers ← registers
  enterFrame registers.caller registers.receiver target.body none

def andNext (action : Action Unit) : Action Transfer := do
  action
  return .next

def step (names : NamePool) (opcode : Opcode) (operand : Nat) : Action Transfer :=
  match opcode with
  | .loadName => andNext do
    if operand < names.size then
      pushItem (.name operand)
    else
      throw (.unknownName operand)
  | .loadLiteral => andNext do
    match (← get).constants[operand]? with
    | some id => push id
    | none => throw (.unknownConstant operand)
  | .assign => andNext assign
  | .add | .subtract | .multiply | .divide => andNext (binary (Operator.arithmetic opcode))
  | .and | .or => andNext (binary (Operator.logical opcode))
  | .not => andNext negate
  | .equal => andNext (equality true)
  | .notEqual => andNext (equality false)
  | .compare => andNext compare
  | .loadComparisonBit => andNext (loadComparisonBit operand)
  | .jumpIfFalse => do
    let condition ← popBinding
    return if ← truthy condition then .next else .goto operand
  | .jump => return .goto operand
  | .jumpIfNull => do
    let value ← popBinding
    return if (← binding value).isNull then .goto operand else .next
  | .copy => andNext do
    let source ← popBinding
    push (← copyBinding source)
  | .bindType => andNext do
    match TypeTag.ofOperand? operand with
    | some tag => updateBinding (← peekBinding) fun binding => { binding with tag }
    | none => throw (.unknownType operand)
  | .resolveDirect => andNext (resolveTop names)
  | .resolveScoped => andNext (resolveMember names)
  | .defineMethod => andNext (defineMethod names operand)
  | .bindSection => andNext do
    updateBinding (← peekBinding) fun binding => { binding with body := operand }
  | .evaluate => evaluate operand
  | .evaluateInPlace => evaluateInPlace operand
  | .return => returnFromFrame (operand ≠ 0)
  | .arrayIndex => andNext arrayIndex
  | .enterLocal => andNext enterLocal
  | .leaveLocal => andNext leaveLocal
  | .syscall => andNext (syscall operand)
  | .duplicate => andNext do pushItem (← peek)
  | .endStatement => andNext do
    let result ← popBinding
    setRegisters fun registers => { registers with lastResult := some result }
  | .swap => andNext fun machine =>
    match machine.stack with
    | first :: second :: rest => .ok () { machine with stack := second :: first :: rest }
    | _ => .error .stackUnderflow machine
  | .dropTop => andNext do
    let _ ← pop
  | .dereference => andNext do
    let _ ← binding (← peekBinding)
  | .extendArgument | .nop => return .next

end ScopeMachine.Action
