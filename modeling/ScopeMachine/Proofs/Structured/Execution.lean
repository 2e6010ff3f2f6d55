import ScopeMachine.Compile.Operation
import ScopeMachine.Machine.Run

set_option autoImplicit false

/-!
# Structured execution

Programs run directly on their trees, without code: operands in front of their operator, clauses and
loops around their bodies, and the body of a method when the method is called. The effects are the
actions of the machine. The label of a method stands for the place of its body.
-/

namespace ScopeMachine

/-- How the execution of a part of a program ends. -/
inductive Outcome where
  /-- The part is done, and what follows it comes next. -/
  | done (machine : Machine)
  /-- A return has left the current method. -/
  | returned (machine : Machine)
  /-- The program has ended, with a result if it had one. -/
  | finished (result : Option BindingId) (machine : Machine)
  /-- A fault has stopped the program on a line. -/
  | failed (line : Nat) (fault : Fault) (machine : Machine)
  /-- There was no fuel left. -/
  | exhausted

/-- A part of a program in execution. -/
abbrev Activity := Machine → Outcome

/-- Goes to a line, if one is known. -/
def Machine.onLine (machine : Machine) (line : Option Nat) : Machine :=
  { machine with line := line.getD machine.line }

namespace Activity

variable {α : Type}

/-- Does nothing. -/
def skip : Activity :=
  .done

/-- Does two things in order. A return, the end of the program and a fault abandon the second. -/
def andThen (first second : Activity) : Activity := fun machine =>
  match first machine with
  | .done machine => second machine
  | ended => ended

/-- Runs an action on a line and goes on with its value. -/
def act (line : Option Nat) (action : Action α) (next : α → Activity) : Activity :=
  fun machine =>
    match action (machine.onLine line) with
    | .ok value machine => next value machine
    | .error fault machine =>
      .failed machine.line fault (machine.addReport .fatal fault.message)

/-- Runs an action on a line. -/
def perform (line : Option Nat) (action : Action α) : Activity :=
  act line action fun _ => skip

/-- Leaves the current method or the program. -/
def leave (line : Option Nat) (hasValue : Bool) : Activity :=
  act line (Action.returnFromFrame hasValue) fun
    | .halt result => .finished result
    | _ => .returned

/-- What a call comes back to. -/
def resume (body : Activity) : Activity := fun machine =>
  match body machine with
  | .returned machine => .done machine
  | ended => ended

/-- Calls the method on the stack. An array is made in place. -/
def call (methods : Nat → Activity) (line : Option Nat) (count : Nat) : Activity :=
  act line (Action.evaluate count) fun
    | .goto label => resume (methods label)
    | _ => skip

/-- Goes on by whether the binding on the stack is true. -/
def branch (line : Option Nat) (yes no : Activity) : Activity :=
  act line (Action.popBinding >>= Action.truthy) fun
    | true => yes
    | false => no

/-- Runs a body in a scope of its own. -/
def inScope (opening closing : Option Nat) (body : Activity) : Activity :=
  (perform opening Action.enterLocal).andThen (body.andThen (perform closing Action.leaveLocal))

/-- Repeats a body as long as a test holds, up to a number of tests. -/
def loop (test : Activity → Activity → Activity) (body : Activity) : Nat → Activity
  | 0 => fun _ => .exhausted
  | count + 1 => test (body.andThen (loop test body count)) skip

end Activity

/-! ## Actions of leaves -/

namespace Action

/-- Pushes a constant. -/
def pushConstant (index : Nat) : Action Unit := do
  match (← get).constants[index]? with
  | some id => push id
  | none => throw (.unknownConstant index)

/-- Pushes what a bare name stands for. -/
def pushName (name : String) : Action Unit := do
  push (← resolveDirect name)

/-- Replaces the binding on top by one of its members. -/
def pushMember (name : String) : Action Unit := do
  let target ← popBinding
  match ← resolveScoped target name with
  | some id => push id
  | none => recover (.noAttributes name (← binding target).label)

/-- Checks that the binding on top is live. -/
def checkTop : Action Unit := do
  let _ ← binding (← peekBinding)

/-- Replaces the binding on top by a copy. -/
def copyTop : Action Unit := do
  let source ← popBinding
  push (← copyBinding source)

/-- Pushes a new method. -/
def pushMethod (parameters : List String) : Action Unit := do
  let scope ← allocateScope { parameters, durable := true }
  push (← allocate { tag := .method, scope := some scope })

/-- Gives a body to the method on top. -/
def bindBody (label : Nat) : Action Unit := do
  updateBinding (← peekBinding) fun binding => { binding with body := label }

/-- Takes the result of a statement. -/
def endStatement : Action Unit := do
  let result ← popBinding
  setRegisters fun registers => { registers with lastResult := some result }

end Action

/-! ## Expressions -/

/-- What the execution of a program depends on: its constants, the labels of its methods by the
number of statements up to their definitions, the fuel of its loops, and what its calls do. -/
structure Context where
  pools : Pools
  label : Nat → Nat
  fuel : Nat
  methods : Nat → Activity

namespace Context

open Activity ScopeMachine.Action

variable (context : Context) (line : Option Nat)

/-- A name that is used for its value has to be live. Keywords name registers. -/
def check (name : String) : Activity :=
  if isKeyword name then skip else perform line checkTop

/-- A leaf. -/
def leaf (usage : Usage) : Option Reference → Activity
  | none => skip
  | some reference =>
    match reference.entity with
    | .constant constant => perform line (pushConstant ((context.pools.constants.index? constant).getD 0))
    | .name name =>
      (perform line (pushName name)).andThen
        (match usage with
        | .value => check line name
        | .target => skip)

/-- A member of the binding on the stack. -/
def member (usage : Usage) (name : String) : Activity :=
  (perform line (pushMember name)).andThen
    (match usage with
    | .value => perform line checkTop
    | .target => skip)

/-- Finds the method of a call without a caller. -/
def bareMethod (name : String) : Activity :=
  (perform line (pushConstant nothingIndex)).andThen (perform line (pushName name))

/-- Finds the method of a call in its caller, which stays below it. -/
def callerMethod (name : String) : Activity :=
  (perform line (peek >>= pushItem)).andThen (perform line (pushMember name))

/-- A call runs on a copy of the method. -/
def copyMethod (name : String) : Activity :=
  (check line name).andThen (perform line copyTop)

/-- Compares two operands. -/
def comparison (bit : ComparisonBit) : Activity :=
  (perform line compare).andThen (perform line (loadComparisonBit bit.operand))

/-- What a kind does with its operands on the stack. -/
def operator : Kind → Nat → Activity
  | .isEqual, _ => comparison line .equal
  | .isLessThan, _ => comparison line .less
  | .isGreaterThan, _ => comparison line .greater
  | .isLessThanOrEqual, _ => comparison line .lessOrEqual
  | .isGreaterThanOrEqual, _ => comparison line .greaterOrEqual
  | .isNotEqual, _ => perform line (equality false)
  | .add, _ => perform line (binary (Operator.arithmetic .add))
  | .subtract, _ => perform line (binary (Operator.arithmetic .subtract))
  | .multiply, _ => perform line (binary (Operator.arithmetic .multiply))
  | .divide, _ => perform line (binary (Operator.arithmetic .divide))
  | .and, _ => perform line (binary (Operator.logical .and))
  | .or, _ => perform line (binary (Operator.logical .or))
  | .not, _ => perform line negate
  | .index, _ => perform line arrayIndex
  | .print, _ => perform line print
  | .new, _ => perform line copyTop
  | .ask, 0 => perform line readLine
  | .ask, _ => (perform line print).andThen ((perform line endStatement).andThen (perform line readLine))
  | .return, count => leave line (count ≠ 0)
  | _, _ => skip

mutual

/-- Executes an operation: its operands from left to right, then what it does with them. -/
def operation (usage : Usage) : Operation → Activity
  | ⟨.ref, _, value, _⟩ => context.leaf line usage value
  | ⟨.scopeResolution, [single], _, _⟩ => operation usage single
  | ⟨.scopeResolution, [target, name], _, _⟩ =>
    (operation .value target).andThen (member line usage (name.leafName?.getD ""))
  | ⟨.assign, [target, source], _, _⟩ =>
    (operation .target target).andThen
      ((operation .value source).andThen (perform line assign))
  | ⟨.evaluate, [caller, method], _, _⟩ =>
    let name := method.leafName?.getD ""
    (if caller.isNothing then bareMethod line name
      else (operation .value caller).andThen (callerMethod line name)).andThen
    ((copyMethod line name).andThen (call context.methods line 0))
  | ⟨.evaluate, [caller, method, list], _, _⟩ =>
    let name := method.leafName?.getD ""
    (if caller.isNothing then bareMethod line name
      else (operation .value caller).andThen (callerMethod line name)).andThen
    ((copyMethod line name).andThen
    (if list.isNothing then call context.methods line 0
    else
      match list with
      | ⟨.tuple, items, _, _⟩ => (operations items).andThen (call context.methods line items.length)
      | single => (operation .value single).andThen (call context.methods line 1)))
  | ⟨.else, _, _, _⟩ => skip
  | ⟨kind, operands, _, _⟩ => (operations operands).andThen (operator line kind operands.length)
termination_by structural operation => operation

/-- Executes operations in order, each for its value. -/
def operations : List Operation → Activity
  | [] => skip
  | first :: rest => (operation .value first).andThen (operations rest)
termination_by structural operations => operations

end

/-- Executes a method definition, whose method gets a label. -/
def definition (label : Nat) : Operation → Activity
  | ⟨_, operands, _, _⟩ =>
    let parameters := match operands with
      | [_, list] => list.parameterList.map fun parameter => parameter.leafName?.getD ""
      | _ => []
    (context.operation line .target (operands.headD ⟨.else, [], none, 0⟩)).andThen
      ((perform line (pushMethod parameters)).andThen
      ((perform line (bindBody label)).andThen
      ((perform line assign).andThen (perform line endStatement))))

end Context

/-! ## Blocks -/

/-- A place in the source: the line of the statement in front of it, and the number of statements up
to it. -/
structure Place where
  line : Option Nat := none
  position : Nat := 0

/-- The place behind the head of a statement. -/
def Place.after (place : Place) (operation : Operation) : Place :=
  ⟨some operation.line, place.position + 1⟩

mutual

/-- The place behind an entry. -/
def Entry.leave (place : Place) : Entry → Place
  | .statement operation => place.after operation
  | .block body => Block.leave place body
termination_by structural entry => entry

/-- The place behind the entries of a block. -/
def Block.leave (place : Place) : List Entry → Place
  | [] => place
  | entry :: rest => Block.leave (Entry.leave place entry) rest
termination_by structural entries => entries

end

namespace Context

open Activity

variable (context : Context)

mutual

/-- Executes the entries of a block from a place on. In front of a clause it matters whether an
earlier clause of its chain was taken. -/
def entries : List Entry → Place → Bool → Activity
  | [], _, _ => skip
  | .statement operation :: .block body :: rest, place, taken =>
    let inside := place.after operation
    let behind := Block.leave inside body
    let block := inScope inside.line behind.line (interior (.block body) inside)
    let condition := context.operations inside.line operation.operands
    let clause := condition.andThen
      (branch inside.line (block.andThen (entries rest behind true)) (entries rest behind false))
    match operation.kind with
    | .if => clause
    | .elseIf => if taken then entries rest behind true else clause
    | .else => if taken then entries rest behind true else block.andThen (entries rest behind false)
    | .while =>
      (loop (fun yes no => condition.andThen (branch inside.line yes no)) block context.fuel).andThen
        (entries rest behind false)
    | .defineMethod =>
      (context.definition inside.line (context.label inside.position) operation).andThen
        (entries rest behind false)
    | _ =>
      (context.operation inside.line .value operation).andThen
        ((perform inside.line Action.endStatement).andThen
        (block.andThen (entries rest behind false)))
  | .statement operation :: rest, place, _ =>
    let behind := place.after operation
    (context.operation behind.line .value operation).andThen
      ((perform behind.line Action.endStatement).andThen (entries rest behind false))
  | .block body :: rest, place, _ =>
    let behind := Block.leave place body
    (inScope place.line behind.line (interior (.block body) place)).andThen (entries rest behind false)
termination_by structural entries => entries

/-- Executes what is inside a block. -/
def interior : Entry → Place → Activity
  | .block body, place => entries body place false
  | .statement _, _ => skip
termination_by structural entry => entry

end

end Context

/-! ## Programs -/

/-- A body and the place in front of it. -/
structure Definition where
  place : Place
  body : Block

mutual

/-- The definitions of methods among the entries of a block, each in front of those in its body. -/
def Block.definitions : List Entry → Place → List Definition
  | [], _ => []
  | .statement operation :: .block body :: rest, place =>
    let inside := place.after operation
    (if operation.kind = .defineMethod then [⟨inside, body⟩] else [])
      ++ (Entry.definitions (.block body) inside
      ++ Block.definitions rest (Block.leave inside body))
  | .statement operation :: rest, place => Block.definitions rest (place.after operation)
  | .block body :: rest, place =>
    Entry.definitions (.block body) place ++ Block.definitions rest (Block.leave place body)
termination_by structural entries => entries

/-- The definitions of methods inside a block. -/
def Entry.definitions : Entry → Place → List Definition
  | .block body, place => Block.definitions body place
  | .statement _, _ => []
termination_by structural entry => entry

end

/-- Executes a body up to its return. -/
def Context.body (context : Context) (definition : Definition) : Activity :=
  (context.entries definition.body definition.place false).andThen
    (.leave (Block.leave definition.place definition.body).line false)

namespace Program

/-- The definitions of all methods. -/
def definitions (program : Program) : List Definition :=
  Block.definitions program.main {}

/-- What the methods of a program do when they are called, by their labels. A label without a method
cannot be called. -/
def methods (program : Program) (label : Nat → Nat) : Nat → Nat → Activity
  | 0, _ => fun _ => .exhausted
  | fuel + 1, target =>
    match program.definitions.find? fun definition => label definition.place.position == target with
    | some definition =>
      Context.body ⟨.ofProgram program, label, fuel, methods program label fuel⟩ definition
    | none => .perform none (throw (.notCallable "") : Action Unit)

/-- The context of a program. -/
def context (program : Program) (label : Nat → Nat) (fuel : Nat) : Context :=
  ⟨.ofProgram program, label, fuel, program.methods label fuel⟩

/-- Executes a program. The fuel bounds the rounds of each loop and the depth of calls. -/
def execute (program : Program) (label : Nat → Nat) (fuel : Nat) : Activity :=
  (program.context label fuel).body ⟨{}, program.main⟩

end Program

end ScopeMachine
