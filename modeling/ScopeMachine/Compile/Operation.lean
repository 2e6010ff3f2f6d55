import ScopeMachine.Code.Jump
import ScopeMachine.Pool

set_option autoImplicit false

/-!
# Code of operations

Every expression leaves exactly one binding on the operand stack, and operands are emitted before
the instruction that consumes them. Most kinds are operands followed by a fixed suffix; names,
assignments, calls and method definitions have code of their own.
-/

namespace ScopeMachine

/-- Code in the making, and the method definition whose body is still to come: the place of its
body's offset, and its line. -/
structure Draft where
  code : Code := {}
  openMethod : Option (Placeholder × Nat) := none
deriving Inhabited

namespace Draft

def size (draft : Draft) : Nat :=
  draft.code.size

def append (draft : Draft) (instructions : List Instruction) : Draft :=
  { draft with code := draft.code.append instructions }

def simple (draft : Draft) (opcode : Opcode) : Draft :=
  { draft with code := draft.code.push { opcode } }

def emit (draft : Draft) (opcode : Opcode) (operand : Nat) : Draft :=
  { draft with code := draft.code.emit opcode operand }

def reserve : Draft → Placeholder × Draft
  | ⟨code, openMethod⟩ =>
    let (placeholder, code) := code.reserve
    (placeholder, ⟨code, openMethod⟩)

def patch : Draft → Placeholder → Opcode → Nat → Except CompileError Draft
  | ⟨code, openMethod⟩, placeholder, opcode, target =>
    match code.patch placeholder opcode target with
    | .ok code => .ok ⟨code, openMethod⟩
    | .error error => .error error

end Draft

/-- How a name is used: for its value, or as the target of an assignment. -/
inductive Usage where
  | value
  | target
deriving DecidableEq, Repr

namespace Kind

def arity : Kind → Nat
  | .ref | .else | .tuple => 0
  | .not | .print | .ask | .return | .if | .elseIf | .while | .new => 1
  | .evaluate => 3
  | _ => 2

/-- What follows the operands of a kind with the given number of them, for the kinds that are just
their operands and a suffix. -/
def suffix? : Kind → Nat → Option (List Instruction)
  | .isEqual, 2 => some (comparison .equal)
  | .isLessThan, 2 => some (comparison .less)
  | .isGreaterThan, 2 => some (comparison .greater)
  | .isLessThanOrEqual, 2 => some (comparison .lessOrEqual)
  | .isGreaterThanOrEqual, 2 => some (comparison .greaterOrEqual)
  | .isNotEqual, 2 => some [{ opcode := .notEqual }]
  | .add, 2 => some [{ opcode := .add }]
  | .subtract, 2 => some [{ opcode := .subtract }]
  | .multiply, 2 => some [{ opcode := .multiply }]
  | .divide, 2 => some [{ opcode := .divide }]
  | .and, 2 => some [{ opcode := .and }]
  | .or, 2 => some [{ opcode := .or }]
  | .index, 2 => some [{ opcode := .arrayIndex }]
  | .not, 1 => some [{ opcode := .not }]
  | .print, 1 => some (encode .syscall Syscall.print.operand)
  | .new, 1 => some [{ opcode := .copy }]
  | .ask, 0 => some (encode .syscall Syscall.readLine.operand)
  | .ask, 1 =>
    some (encode .syscall Syscall.print.operand ++ [{ opcode := .endStatement }]
      ++ encode .syscall Syscall.readLine.operand)
  | .return, 0 => some (encode .return 0)
  | .return, 1 => some (encode .return 1)
  -- The condition is left for the jump that follows it.
  | .if, 1 | .elseIf, 1 | .while, 1 => some []
  | _, _ => none
where
  comparison (bit : ComparisonBit) : List Instruction :=
    { opcode := .compare } :: encode .loadComparisonBit bit.operand

end Kind

def Operation.operandCountError (operation : Operation) : CompileError :=
  .operandCount operation.kind operation.line operation.kind.arity operation.operands.length

namespace Pools

def nameIndex (pools : Pools) (name : String) : Except CompileError Nat :=
  match pools.names.index? name with
  | some index => .ok index
  | none => .error (.notInterned name)

def constantIndex (pools : Pools) (constant : Constant) : Except CompileError Nat :=
  match pools.constants.index? constant with
  | some index => .ok index
  | none => .error (.notInterned constant.display)

/-- The index of the name in a position where only plain names may stand. Well-known names are
constants and do not count. -/
def memberIndex (pools : Pools) (operation : Operation) : Except CompileError Nat :=
  match operation.leafName? with
  | none => .error (.expectedName operation.line)
  | some name =>
    match pools.names.index? name with
    | some index => .ok index
    | none => .error (.expectedName operation.line)

/-- The name of a called method and its index. A well-known name is reported as unknown to the
pools. -/
def methodIndex (pools : Pools) (method : Operation) : Except CompileError (String × Nat) :=
  match method.leafName? with
  | none => .error (.expectedName method.line)
  | some name => do
    let index ← pools.nameIndex name
    .ok (name, index)

end Pools

namespace Draft

/-- Checks what the code before it resolved. Keywords name registers and are never unresolved. -/
def checkResolved (draft : Draft) (name : String) : Draft :=
  if isKeyword name then draft else draft.simple .dereference

def leaf (draft : Draft) (pools : Pools) (usage : Usage) (value : Option Reference) (line : Nat) :
    Except CompileError Draft :=
  match value with
  | none => .error (.missingReference line)
  | some reference =>
    match reference.entity with
    | .constant constant => do
      let index ← pools.constantIndex constant
      .ok (draft.emit .loadLiteral index)
    | .name name => do
      let index ← pools.nameIndex name
      let draft := (draft.emit .loadName index).simple .resolveDirect
      .ok (match usage with
        | .value => draft.checkResolved name
        | .target => draft)

/-- Code that resolves a member inside the binding on the stack. -/
def member (draft : Draft) (usage : Usage) (index : Nat) : Draft :=
  let draft := (draft.emit .loadName index).simple .resolveScoped
  match usage with
  | .value => draft.simple .dereference
  | .target => draft

/-- Code that finds a method called without a caller: nothing stands below its bare name. -/
def bareMethod (draft : Draft) (index : Nat) : Draft :=
  ((draft.emit .loadLiteral nothingIndex).emit .loadName index).simple .resolveDirect

/-- Code that finds a method in the caller on the stack, which stays below it. -/
def callerMethod (draft : Draft) (index : Nat) : Draft :=
  ((draft.simple .duplicate).emit .loadName index).simple .resolveScoped

/-- Code that checks and copies the method found. Methods run on a copy of the binding they were
found through. -/
def copyMethod (draft : Draft) (name : String) : Draft :=
  (draft.checkResolved name).simple .copy

def parameters (pools : Pools) : List Operation → Draft → Except CompileError Draft
  | [], draft => .ok draft
  | parameter :: rest, draft => do
    let index ← pools.memberIndex parameter
    parameters pools rest (draft.emit .loadName index)

/-- Builds a method on the target that is on the stack, and leaves the place of its body open. Only
one definition at a time may wait for its body. -/
def method : Draft → Nat → Nat → Except CompileError Draft
  | ⟨code, openMethod⟩, count, line =>
    let code := code.emit .defineMethod count
    match openMethod with
    | some (_, line) => .error (.missingMethodBody line)
    | none =>
      let (placeholder, code) := code.reserve
      .ok ⟨code.push { opcode := .assign }, some (placeholder, line)⟩

end Draft

def Operation.parameterList (operation : Operation) : List Operation :=
  if operation.isNothing then []
  else if operation.kind = .tuple then operation.operands
  else [operation]

namespace Compile

mutual

/-- Adds the code of one operation. The usage matters for names only. -/
def operation (pools : Pools) (usage : Usage) : Operation → Draft → Except CompileError Draft
  | ⟨.ref, _, value, line⟩, draft => draft.leaf pools usage value line
  | ⟨.scopeResolution, [single], _, _⟩, draft => operation pools usage single draft
  | ⟨.scopeResolution, [target, member], _, _⟩, draft => do
    let draft ← operation pools .value target draft
    let index ← pools.memberIndex member
    .ok (draft.member usage index)
  | ⟨.assign, [target, value], _, _⟩, draft => do
    let draft ← operation pools .target target draft
    let draft ← operation pools .value value draft
    .ok (draft.simple .assign)
  | ⟨.defineMethod, [target], _, line⟩, draft => do
    let draft ← operation pools .target target draft
    draft.method 0 line
  | ⟨.defineMethod, [target, list], _, line⟩, draft => do
    let draft ← operation pools .target target draft
    let draft ← Draft.parameters pools list.parameterList draft
    draft.method list.parameterList.length line
  | ⟨.evaluate, [caller, method], _, _⟩, draft => do
    let (name, index) ← pools.methodIndex method
    let draft ← (if caller.isNothing then .ok (draft.bareMethod index)
      else (operation pools .value caller draft).map (·.callerMethod index))
    .ok ((draft.copyMethod name).emit .evaluate 0)
  | ⟨.evaluate, [caller, method, list], _, _⟩, draft => do
    let (name, index) ← pools.methodIndex method
    let draft ← (if caller.isNothing then .ok (draft.bareMethod index)
      else (operation pools .value caller draft).map (·.callerMethod index))
    let draft := draft.copyMethod name
    if list.isNothing then .ok (draft.emit .evaluate 0)
    else
      match list with
      | ⟨.tuple, items, _, _⟩ => do
        let draft ← operations pools items draft
        .ok (draft.emit .evaluate items.length)
      | single => do
        let draft ← operation pools .value single draft
        .ok (draft.emit .evaluate 1)
  | ⟨.else, _, _, _⟩, draft => .ok draft
  | ⟨.tuple, _, _, line⟩, _ => .error (.misplacedTuple line)
  | ⟨kind, operands, value, line⟩, draft =>
    match kind.suffix? operands.length with
    | some suffix => do
      let draft ← operations pools operands draft
      .ok (draft.append suffix)
    | none => .error (Operation.operandCountError ⟨kind, operands, value, line⟩)
termination_by structural operation => operation

def operations (pools : Pools) : List Operation → Draft → Except CompileError Draft
  | [], draft => .ok draft
  | first :: rest, draft => do
    let draft ← operation pools .value first draft
    operations pools rest draft
termination_by structural operations => operations

end

end Compile

end ScopeMachine
