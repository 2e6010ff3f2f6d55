import ScopeMachine.Compile.Block

set_option autoImplicit false

/-!
# Commands

A command is an instruction with its whole operand. The code of an expression is a straight list of
commands, read off its tree. Commands also have a static effect on the operand stack: the kinds of
entries they take from it and the kinds they leave.
-/

namespace ScopeMachine

/-- An instruction with its whole operand. -/
structure Command where
  opcode : Opcode
  operand : Nat := 0
deriving DecidableEq, Repr

namespace Command

/-- The slots of a command in code: the extensions of its operand, then the instruction. -/
def slots (command : Command) : List Instruction :=
  encode command.opcode command.operand

/-- The number of slots. -/
def width (command : Command) : Nat :=
  extensionCount command.operand + 1

@[simp] theorem length_slots (command : Command) : command.slots.length = command.width := by
  simp [slots, width, encode]

@[simp] theorem width_zero (opcode : Opcode) : (Command.mk opcode 0).width = 1 := by
  simp [width, extensionCount_eq]

theorem width_pos (command : Command) : 0 < command.width :=
  Nat.succ_pos _

end Command

/-! ## Effects on the operand stack -/

/-- What an entry of the operand stack is known to be before the program runs. -/
inductive SlotKind where
  /-- A name that waits to be resolved. -/
  | name
  | value
  /-- A copy that was just made and that nothing else refers to. -/
  | copy
deriving DecidableEq, Repr

/-- The kinds of stack entries, the top first. -/
abbrev Shape := List SlotKind

namespace SlotKind

/-- An entry of the second kind may stand where one of the first kind is taken. -/
def accepts : SlotKind → SlotKind → Bool
  | .name, .name => true
  | .value, .value => true
  | .value, .copy => true
  | .copy, .copy => true
  | _, _ => false

/-- A stack of the second shape offers on top what the first shape asks for. -/
def offered : Shape → Shape → Bool
  | [], _ => true
  | _ :: _, [] => false
  | wanted :: wants, found :: rest => wanted.accepts found && offered wants rest

end SlotKind

namespace Command

/-- The entries that a command takes from the stack, the top first. -/
def takes : Command → Shape
  | ⟨.assign, _⟩ | ⟨.add, _⟩ | ⟨.subtract, _⟩ | ⟨.multiply, _⟩ | ⟨.divide, _⟩ | ⟨.and, _⟩
  | ⟨.or, _⟩ | ⟨.notEqual, _⟩ | ⟨.compare, _⟩ | ⟨.arrayIndex, _⟩ => [.value, .value]
  | ⟨.not, _⟩ | ⟨.jumpIfFalse, _⟩ | ⟨.copy, _⟩ | ⟨.bindSection, _⟩ | ⟨.duplicate, _⟩
  | ⟨.endStatement, _⟩ | ⟨.dereference, _⟩ => [.value]
  | ⟨.syscall, operand⟩ => if operand = Syscall.print.operand then [.value] else []
  | ⟨.resolveDirect, _⟩ => [.name]
  | ⟨.resolveScoped, _⟩ => [.name, .value]
  | ⟨.defineMethod, count⟩ => List.replicate count .name
  | ⟨.evaluate, count⟩ => List.replicate count SlotKind.value ++ [SlotKind.copy, .value]
  | ⟨.return, operand⟩ => if operand = 0 then [] else [.value]
  | _ => []

/-- The entries that a command leaves on the stack, the top first. What an abandoned return leaves
is what the code after it would expect. -/
def gives : Command → Shape
  | ⟨.loadName, _⟩ => [.name]
  | ⟨.compare, _⟩ | ⟨.jumpIfFalse, _⟩ | ⟨.jump, _⟩ | ⟨.enterLocal, _⟩ | ⟨.leaveLocal, _⟩
  | ⟨.endStatement, _⟩ | ⟨.nop, _⟩ => []
  | ⟨.copy, _⟩ => [.copy]
  | ⟨.duplicate, _⟩ => [.value, .value]
  | _ => [.value]

/-- The shape of the stack after a command. -/
def shapeAfter (command : Command) (shape : Shape) : Shape :=
  command.gives ++ shape.drop command.takes.length

/-- A stack of the given shape offers what a command takes. -/
def suits (command : Command) (shape : Shape) : Bool :=
  SlotKind.offered command.takes shape

end Command

/-! ## The commands of an expression -/

namespace Assembly

/-- The check after a resolution; keywords name registers and need none. -/
def check (name : String) : List Command :=
  if isKeyword name then [] else [⟨.dereference, 0⟩]

/-- The commands of a leaf. -/
def leaf? (pools : Pools) (usage : Usage) : Option Reference → Option (List Command)
  | none => none
  | some reference =>
    match reference.entity with
    | .constant constant => do
      let index ← pools.constants.index? constant
      some [⟨.loadLiteral, index⟩]
    | .name name => do
      let index ← pools.names.index? name
      some ([⟨.loadName, index⟩, ⟨.resolveDirect, 0⟩]
        ++ match usage with
          | .value => check name
          | .target => [])

/-- The index of a plain name. -/
def member? (pools : Pools) (operation : Operation) : Option Nat := do
  let name ← operation.leafName?
  pools.names.index? name

/-- The commands that resolve a member of the binding on the stack. -/
def member (usage : Usage) (index : Nat) : List Command :=
  [⟨.loadName, index⟩, ⟨.resolveScoped, 0⟩]
    ++ match usage with
      | .value => [⟨.dereference, 0⟩]
      | .target => []

/-- Compares the top two bindings and pushes the wanted bit. -/
def comparison (bit : ComparisonBit) : List Command :=
  [⟨.compare, 0⟩, ⟨.loadComparisonBit, bit.operand⟩]

/-- What follows the operands of a kind that is just its operands and an ending. -/
def ending? : Kind → Nat → Option (List Command)
  | .isEqual, 2 => some (comparison .equal)
  | .isLessThan, 2 => some (comparison .less)
  | .isGreaterThan, 2 => some (comparison .greater)
  | .isLessThanOrEqual, 2 => some (comparison .lessOrEqual)
  | .isGreaterThanOrEqual, 2 => some (comparison .greaterOrEqual)
  | .isNotEqual, 2 => some [⟨.notEqual, 0⟩]
  | .add, 2 => some [⟨.add, 0⟩]
  | .subtract, 2 => some [⟨.subtract, 0⟩]
  | .multiply, 2 => some [⟨.multiply, 0⟩]
  | .divide, 2 => some [⟨.divide, 0⟩]
  | .and, 2 => some [⟨.and, 0⟩]
  | .or, 2 => some [⟨.or, 0⟩]
  | .index, 2 => some [⟨.arrayIndex, 0⟩]
  | .not, 1 => some [⟨.not, 0⟩]
  | .print, 1 => some [⟨.syscall, Syscall.print.operand⟩]
  | .new, 1 => some [⟨.copy, 0⟩]
  | .ask, 0 => some [⟨.syscall, Syscall.readLine.operand⟩]
  | .ask, 1 =>
    some [⟨.syscall, Syscall.print.operand⟩, ⟨.endStatement, 0⟩,
      ⟨.syscall, Syscall.readLine.operand⟩]
  | .return, 0 => some [⟨.return, 0⟩]
  | .return, 1 => some [⟨.return, 1⟩]
  | .if, 1 | .elseIf, 1 | .while, 1 => some []
  | _, _ => none

/-- The commands that find a method by its bare name, with nothing below it. -/
def bareMethod (index : Nat) : List Command :=
  [⟨.loadLiteral, nothingIndex⟩, ⟨.loadName, index⟩, ⟨.resolveDirect, 0⟩]

/-- The commands that find a method in the caller on the stack, which stays below it. -/
def callerMethod (index : Nat) : List Command :=
  [⟨.duplicate, 0⟩, ⟨.loadName, index⟩, ⟨.resolveScoped, 0⟩]

/-- The commands that check and copy the method found. -/
def copyMethod (name : String) : List Command :=
  check name ++ [⟨.copy, 0⟩]

mutual

/-- The commands of an operation that is no method definition, if it is well formed. -/
def operation? (pools : Pools) (usage : Usage) : Operation → Option (List Command)
  | ⟨.ref, _, value, _⟩ => leaf? pools usage value
  | ⟨.scopeResolution, [single], _, _⟩ => operation? pools usage single
  | ⟨.scopeResolution, [target, name], _, _⟩ => do
    let first ← operation? pools .value target
    let index ← member? pools name
    some (first ++ member usage index)
  | ⟨.assign, [target, value], _, _⟩ => do
    let first ← operation? pools .target target
    let second ← operation? pools .value value
    some (first ++ second ++ [⟨.assign, 0⟩])
  | ⟨.evaluate, [caller, method], _, _⟩ => do
    let name ← method.leafName?
    let index ← pools.names.index? name
    let found ← (if caller.isNothing then some (bareMethod index)
      else (operation? pools .value caller).map (· ++ callerMethod index))
    some (found ++ copyMethod name ++ [⟨.evaluate, 0⟩])
  | ⟨.evaluate, [caller, method, list], _, _⟩ => do
    let name ← method.leafName?
    let index ← pools.names.index? name
    let found ← (if caller.isNothing then some (bareMethod index)
      else (operation? pools .value caller).map (· ++ callerMethod index))
    if list.isNothing then some (found ++ copyMethod name ++ [⟨.evaluate, 0⟩])
    else
      match list with
      | ⟨.tuple, items, _, _⟩ => do
        let arguments ← operations? pools items
        some (found ++ copyMethod name ++ arguments ++ [⟨.evaluate, items.length⟩])
      | single => do
        let argument ← operation? pools .value single
        some (found ++ copyMethod name ++ argument ++ [⟨.evaluate, 1⟩])
  | ⟨.else, _, _, _⟩ => some []
  | ⟨kind, operands, _, _⟩ => do
    let ending ← ending? kind operands.length
    let first ← operations? pools operands
    some (first ++ ending)
termination_by structural operation => operation

/-- The commands of operations in order, each for its value. -/
def operations? (pools : Pools) : List Operation → Option (List Command)
  | [] => some []
  | first :: rest => do
    let first ← operation? pools .value first
    let rest ← operations? pools rest
    some (first ++ rest)
termination_by structural operations => operations

end

/-- The commands that load the names of parameters in order. -/
def parameters? (pools : Pools) : List Operation → Option (List Command)
  | [] => some []
  | parameter :: rest => do
    let index ← member? pools parameter
    let rest ← parameters? pools rest
    some (⟨.loadName, index⟩ :: rest)

/-- The commands of a method definition up to the place of its body. -/
def definition? (pools : Pools) : Operation → Option (List Command)
  | ⟨_, [target], _, _⟩ => do
    let first ← operation? pools .target target
    some (first ++ [⟨.defineMethod, 0⟩])
  | ⟨_, [target, list], _, _⟩ => do
    let first ← operation? pools .target target
    let names ← parameters? pools list.parameterList
    some (first ++ names ++ [⟨.defineMethod, list.parameterList.length⟩])
  | _ => none

/-! ## Inversion -/

theorem definition?_ends {pools : Pools} {operation : Operation} {commands : List Command}
    (known : definition? pools operation = some commands) :
    ∃ front count, commands = front ++ [⟨.defineMethod, count⟩] := by
  unfold definition? at known
  split at known
  · obtain ⟨first, -, known⟩ := Option.bind_eq_some_iff.mp known
    cases known
    exact ⟨first, 0, rfl⟩
  · obtain ⟨first, -, known⟩ := Option.bind_eq_some_iff.mp known
    obtain ⟨names, -, known⟩ := Option.bind_eq_some_iff.mp known
    cases known
    exact ⟨first ++ names, _, rfl⟩
  · cases known

/-- The arguments that the operands of a call list. -/
def callArguments : List Operation → List Operation
  | [_, _, list] =>
    if list.isNothing then []
    else
      match list with
      | ⟨.tuple, items, _, _⟩ => items
      | single => [single]
  | _ => []

theorem mem_callArguments {operands : List Operation} {argument : Operation}
    (member : argument ∈ callArguments operands) :
    argument ∈ operands ∨ ∃ operand ∈ operands, argument ∈ operand.operands := by
  unfold callArguments at member
  split at member
  case h_1 list =>
    split at member
    · cases member
    · split at member
      case h_1 => exact .inr ⟨_, .tail _ (.tail _ (.head _)), member⟩
      case h_2 =>
        cases member with
        | head => exact .inl (by simp)
        | tail _ member => cases member
  case h_2 => cases member

/-- The commands that find the method of a call. -/
def found? (pools : Pools) (caller : Operation) (index : Nat) : Option (List Command) :=
  if caller.isNothing then some (bareMethod index)
  else (operation? pools .value caller).map (· ++ callerMethod index)

/-- How the commands of an operation are made from those of its operands. -/
inductive Emitted (pools : Pools) (usage : Usage) : Operation → List Command → Prop
  | leaf {operands : List Operation} {value : Option Reference} {line : Nat}
    {commands : List Command} (known : leaf? pools usage value = some commands) :
    Emitted pools usage ⟨.ref, operands, value, line⟩ commands
  | single {inner : Operation} {value : Option Reference} {line : Nat} {commands : List Command}
    (known : operation? pools usage inner = some commands) :
    Emitted pools usage ⟨.scopeResolution, [inner], value, line⟩ commands
  | member {target name : Operation} {value : Option Reference} {line index : Nat}
    {first : List Command} (known : operation? pools .value target = some first)
    (named : member? pools name = some index) :
    Emitted pools usage ⟨.scopeResolution, [target, name], value, line⟩ (first ++ member usage index)
  | assign {target source : Operation} {value : Option Reference} {line : Nat}
    {first second : List Command} (known : operation? pools .target target = some first)
    (given : operation? pools .value source = some second) :
    Emitted pools usage ⟨.assign, [target, source], value, line⟩ (first ++ second ++ [⟨.assign, 0⟩])
  | call {caller method : Operation} {rest : List Operation} {value : Option Reference}
    {line index : Nat} {name : String} {found arguments : List Command}
    (short : rest.length ≤ 1) (named : method.leafName? = some name)
    (known : pools.names.index? name = some index) (finds : found? pools caller index = some found)
    (given : operations? pools (callArguments (caller :: method :: rest)) = some arguments) :
    Emitted pools usage ⟨.evaluate, caller :: method :: rest, value, line⟩
      (found ++ copyMethod name ++ arguments
        ++ [⟨.evaluate, (callArguments (caller :: method :: rest)).length⟩])
  | otherwise {operands : List Operation} {value : Option Reference} {line : Nat} :
    Emitted pools usage ⟨.else, operands, value, line⟩ []
  | node {kind : Kind} {operands : List Operation} {value : Option Reference} {line : Nat}
    {first ending : List Command} (known : operations? pools operands = some first)
    (ends : ending? kind operands.length = some ending) :
    Emitted pools usage ⟨kind, operands, value, line⟩ (first ++ ending)

private theorem operations?_singleton {pools : Pools} {operation : Operation} {commands : List Command}
    (known : operation? pools .value operation = some commands) :
    operations? pools [operation] = some commands := by
  simp [operations?, known]

theorem emitted {pools : Pools} {usage : Usage} {operation : Operation} {commands : List Command}
    (known : operation? pools usage operation = some commands) :
    Emitted pools usage operation commands := by
  unfold operation? at known
  split at known
  case h_1 => exact .leaf known
  case h_2 => exact .single known
  case h_3 =>
    obtain ⟨first, target, known⟩ := Option.bind_eq_some_iff.mp known
    obtain ⟨index, named, known⟩ := Option.bind_eq_some_iff.mp known
    cases known
    exact .member target named
  case h_4 =>
    obtain ⟨first, target, known⟩ := Option.bind_eq_some_iff.mp known
    obtain ⟨second, source, known⟩ := Option.bind_eq_some_iff.mp known
    cases known
    exact .assign target source
  case h_5 caller method value line =>
    obtain ⟨name, named, known⟩ := Option.bind_eq_some_iff.mp known
    obtain ⟨index, indexed, known⟩ := Option.bind_eq_some_iff.mp known
    obtain ⟨found, finds, known⟩ := Option.bind_eq_some_iff.mp known
    cases known
    have call : Emitted pools usage ⟨.evaluate, [caller, method], value, line⟩
        (found ++ copyMethod name ++ [] ++ [⟨.evaluate, 0⟩]) :=
      .call (Nat.zero_le _) named indexed finds rfl
    simpa using call
  case h_6 caller method list value line =>
    obtain ⟨name, named, known⟩ := Option.bind_eq_some_iff.mp known
    obtain ⟨index, indexed, known⟩ := Option.bind_eq_some_iff.mp known
    obtain ⟨found, finds, known⟩ := Option.bind_eq_some_iff.mp known
    have call {arguments : List Command}
        (given : operations? pools (callArguments [caller, method, list]) = some arguments) :
        Emitted pools usage ⟨.evaluate, [caller, method, list], value, line⟩
          (found ++ copyMethod name ++ arguments
            ++ [⟨.evaluate, (callArguments [caller, method, list]).length⟩]) :=
      .call (Nat.le_refl _) named indexed finds given
    split at known
    case isTrue nothing =>
      cases known
      have none : callArguments [caller, method, list] = [] := by simp [callArguments, nothing]
      rw [none] at call
      simpa using call rfl
    case isFalse something =>
      split at known
      case h_1 items _ _ _ _ =>
        obtain ⟨arguments, given, known⟩ := Option.bind_eq_some_iff.mp known
        cases known
        simp only [callArguments, something] at call
        exact call given
      case h_2 single =>
        obtain ⟨argument, given, known⟩ := Option.bind_eq_some_iff.mp known
        cases known
        have one : callArguments [caller, method, list] = [list] := by
          simp [callArguments, something]
        rw [one] at call
        exact call (operations?_singleton given)
  case h_7 => cases known; exact .otherwise
  case h_8 =>
    obtain ⟨ending, ends, known⟩ := Option.bind_eq_some_iff.mp known
    obtain ⟨first, operands, known⟩ := Option.bind_eq_some_iff.mp known
    cases known
    exact .node operands ends

end Assembly

end ScopeMachine
