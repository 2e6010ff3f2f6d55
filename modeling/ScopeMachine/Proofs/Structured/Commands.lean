import ScopeMachine.Proofs.Assembly.Segment
import ScopeMachine.Proofs.Machine.Veil
import ScopeMachine.Proofs.PoolIndex
import ScopeMachine.Proofs.Structured.Execution

set_option autoImplicit false

/-!
# Executing commands

The commands of an expression, executed one after the other, do what the structured execution of the
expression does.
-/

namespace ScopeMachine

open Assembly

def Machine.over (machine : Machine) (items : List StackItem) : Machine :=
  { machine with stack := items ++ machine.stack }

namespace Activity

variable {α β : Type}

@[simp] theorem andThen_skip (first : Activity) : first.andThen skip = first := by
  funext machine
  unfold andThen
  cases first machine <;> rfl

theorem andThen_of_done {first : Activity} {machine after : Machine}
    (done : first machine = .done after) (second : Activity) :
    first.andThen second machine = second after := by
  simp only [andThen, done]

theorem andThen_of_returned {first : Activity} {machine after : Machine}
    (returned : first machine = .returned after) (second : Activity) :
    first.andThen second machine = .returned after := by
  simp only [andThen, returned]

theorem andThen_of_failed {first : Activity} {machine after : Machine} {line : Nat} {fault : Fault}
    (failed : first machine = .failed line fault after) (second : Activity) :
    first.andThen second machine = .failed line fault after := by
  simp only [andThen, failed]

theorem resume_of_returned {body : Activity} {machine after : Machine}
    (returned : body machine = .returned after) : resume body machine = .done after := by
  simp only [resume, returned]

theorem resume_of_failed {body : Activity} {machine after : Machine} {line : Nat} {fault : Fault}
    (failed : body machine = .failed line fault after) :
    resume body machine = .failed line fault after := by
  simp only [resume, failed]

theorem skip_andThen (next : Activity) : skip.andThen next = next :=
  rfl

theorem andThen_assoc (first second third : Activity) :
    (first.andThen second).andThen third = first.andThen (second.andThen third) := by
  funext machine
  unfold andThen
  cases first machine <;> rfl

theorem perform_andNext (line : Option Nat) (action : Action Unit) :
    perform line (Action.andNext action) = perform line action := by
  funext machine
  unfold perform act
  cases result : action (machine.onLine line) with
  | ok value after => rw [Action.andNext, Action.bind_of_ok result]; rfl
  | error fault after => rw [Action.andNext, Action.bind_of_error result]

private theorem act_andThen (line : Option Nat) (action : Action α) (next : α → Activity)
    (last : Activity) :
    (act line action next).andThen last = act line action fun value => (next value).andThen last := by
  funext machine
  simp only [act, andThen]
  cases action (machine.onLine line) <;> rfl

private theorem perform_push (line : Option Nat) (items : List StackItem) {first : Action β}
    (pushes : ∀ machine, ∃ value,
      first machine = .ok value (machine.over items))
    (action : Action α) :
    (perform line first).andThen (perform line action)
      = perform line fun machine => action (machine.over items) := by
  funext machine
  obtain ⟨value, pushed⟩ := pushes (machine.onLine line)
  simp only [perform, act_andThen]
  unfold act
  simp only [pushed]
  cases line <;> rfl

end Activity

open Activity

/-! ## Names -/

namespace Action

private theorem step_loadName {names : NamePool} {index : Nat} (inside : index < names.size)
    (machine : Machine) :
    step names .loadName index machine
      = .ok .next (machine.over [.name index]) := by
  simp only [step, if_pos inside]
  rfl

private theorem popName_cons (index : Nat) (machine : Machine) :
    popName (machine.over [.name index]) = .ok index machine :=
  rfl

private theorem poolName_of_get? {names : NamePool} {index : Nat} {name : String}
    (known : names.get? index = some name) (machine : Machine) :
    poolName names index machine = .ok name machine := by
  simp only [poolName, known]
  rfl

private theorem resolveTop_loaded {names : NamePool} {index : Nat} {name : String}
    (known : names.get? index = some name) (machine : Machine) :
    resolveTop names (machine.over [.name index])
      = pushName name machine := by
  rw [resolveTop, bind_of_ok (popName_cons index machine), bind_of_ok (poolName_of_get? known machine)]
  rfl

private theorem resolveMember_loaded {names : NamePool} {index : Nat} {name : String}
    (known : names.get? index = some name) (machine : Machine) :
    resolveMember names (machine.over [.name index])
      = pushMember name machine := by
  rw [resolveMember, bind_of_ok (popName_cons index machine),
    bind_of_ok (poolName_of_get? known machine)]
  rfl

/-- Names on the stack are popped in the opposite order. -/
theorem popParameters_loaded {names : NamePool} (pairs : List (Nat × String))
    (known : ∀ pair ∈ pairs, names.get? pair.1 = some pair.2) (parameters : List String)
    (machine : Machine) :
    popParameters names pairs.length parameters
        (machine.over (pairs.map fun pair => .name pair.1))
      = .ok ((pairs.map (·.2)).reverse ++ parameters) machine := by
  induction pairs generalizing parameters with
  | nil => rfl
  | cons pair rest ih =>
    have later := ih (fun other member => known other (.tail _ member)) (pair.2 :: parameters)
    have first := known pair (.head _)
    have popped : popName (machine.over ((pair :: rest).map fun pair => .name pair.1))
        = .ok pair.1 (machine.over (rest.map fun pair => .name pair.1)) := rfl
    rw [List.length_cons, popParameters, bind_of_ok popped, bind_of_ok (poolName_of_get? first _),
      later]
    simp

end Action

namespace Context

variable (context : Context) (line : Option Nat)

def command : Command → Activity
  | ⟨.evaluate, count⟩ => call context.methods line count
  | ⟨.return, operand⟩ => leave line (operand ≠ 0)
  | ⟨opcode, operand⟩ => perform line (Action.step context.pools.names opcode operand)

theorem command_of_ne {opcode : Opcode} (operand : Nat) (evaluate : opcode ≠ .evaluate)
    (returns : opcode ≠ .return) :
    context.command line ⟨opcode, operand⟩
      = perform line (Action.step context.pools.names opcode operand) := by
  cases opcode <;> first | rfl | contradiction

/-- Executes commands in order. -/
def commands : List Command → Activity
  | [] => skip
  | first :: rest => (context.command line first).andThen (commands rest)

@[simp] theorem commands_nil : context.commands line [] = skip :=
  rfl

@[simp] theorem commands_cons (first : Command) (rest : List Command) :
    context.commands line (first :: rest)
      = (context.command line first).andThen (context.commands line rest) :=
  rfl

@[simp] theorem commands_append (first second : List Command) :
    context.commands line (first ++ second)
      = (context.commands line first).andThen (context.commands line second) := by
  induction first with
  | nil => rfl
  | cons command rest ih => simp [ih, andThen_assoc]

section

variable {context line}

private theorem commands_check (name : String) :
    context.commands line (Assembly.check name) = check line name := by
  unfold Assembly.check check
  split
  · rfl
  · rw [commands_cons, commands_nil, andThen_skip]
    exact perform_andNext line Action.checkTop

private theorem get?_of_index? {pools : Pools} (sound : pools.Sound) {name : String} {index : Nat}
    (known : pools.names.index? name = some index) : pools.names.get? index = some name := by
  obtain ⟨entry, held, rfl⟩ := sound.names name index known
  exact held

private theorem lt_of_get? {names : NamePool} {index : Nat} {name : String}
    (held : names.get? index = some name) : index < names.size := by
  obtain ⟨inside, -⟩ := Array.getElem?_eq_some_iff.mp held
  exact inside

/-- A name that is loaded is used at once. -/
theorem commands_loaded {index : Nat} {name : String} {opcode : Opcode} {action pushed : Action Unit}
    (held : context.pools.names.get? index = some name)
    (steps : context.command line ⟨opcode, 0⟩ = perform line action)
    (loaded : ∀ machine, action (machine.over [.name index])
      = pushed machine) :
    context.commands line [⟨.loadName, index⟩, ⟨opcode, 0⟩] = perform line pushed := by
  simp only [commands_cons, commands_nil, andThen_skip, steps]
  have pushes := perform_push line [.name index]
    (fun machine => ⟨_, Action.step_loadName (lt_of_get? held) machine⟩) action
  simp only [loaded] at pushes
  exact pushes

private theorem commands_name {index : Nat} {name : String}
    (held : context.pools.names.get? index = some name) :
    context.commands line [⟨.loadName, index⟩, ⟨.resolveDirect, 0⟩]
      = perform line (Action.pushName name) :=
  commands_loaded held (perform_andNext line _) (Action.resolveTop_loaded held)

private theorem commands_member {index : Nat} {name : String}
    (held : context.pools.names.get? index = some name) :
    context.commands line [⟨.loadName, index⟩, ⟨.resolveScoped, 0⟩]
      = perform line (Action.pushMember name) :=
  commands_loaded held (perform_andNext line _) (Action.resolveMember_loaded held)

private theorem commands_memberOf (sound : context.pools.Sound) {name : String} {index : Nat}
    (known : context.pools.names.index? name = some index) (usage : Usage) :
    context.commands line (Assembly.member usage index) = member line usage name := by
  have held := get?_of_index? sound known
  cases usage with
  | value =>
    simp only [Assembly.member, commands_append, commands_member held, commands_cons, commands_nil,
      andThen_skip, command, Action.step, perform_andNext]
    rfl
  | target =>
    simp only [Assembly.member, commands_append, commands_member held]
    rfl

private theorem commands_leaf (sound : context.pools.Sound) {usage : Usage} {value : Option Reference}
    {own : List Command} (known : leaf? context.pools usage value = some own) :
    context.commands line own = context.leaf line usage value := by
  unfold leaf? at known
  unfold leaf
  cases value with
  | none => cases known
  | some reference =>
    dsimp only at known ⊢
    cases entity : reference.entity with
    | constant constant =>
      rw [entity] at known
      obtain ⟨index, found, known⟩ := Option.bind_eq_some_iff.mp known
      cases known
      simp only [found, Option.getD_some, commands_cons, commands_nil, andThen_skip]
      exact perform_andNext line _
    | name name =>
      rw [entity] at known
      obtain ⟨index, found, known⟩ := Option.bind_eq_some_iff.mp known
      cases known
      simp only [commands_append, commands_name (get?_of_index? sound found)]
      cases usage with
      | value => rw [commands_check]
      | target => rfl

private theorem commands_ending {kind : Kind} {count : Nat} {own : List Command}
    (known : ending? kind count = some own) :
    context.commands line own = operator line kind count := by
  unfold ending? at known
  split at known
  all_goals cases known
  all_goals simp only [Assembly.comparison, commands_cons, commands_nil, andThen_skip, command,
    operator, Context.comparison, Action.step, perform_andNext]
  all_goals rfl

private theorem commands_found (sound : context.pools.Sound) {caller : Operation} {name : String}
    {index : Nat} {found : List Command} (known : context.pools.names.index? name = some index)
    (finds : found? context.pools caller index = some found)
    (ih : ∀ {own : List Command}, operation? context.pools .value caller = some own →
      context.commands line own = context.operation line .value caller) :
    context.commands line found
      = if caller.isNothing then bareMethod line name
        else (context.operation line .value caller).andThen (callerMethod line name) := by
  have held := get?_of_index? sound known
  unfold found? at finds
  split at finds
  case isTrue nothing =>
    cases finds
    rw [if_pos nothing, Assembly.bareMethod, commands_cons, commands_name held]
    simp only [command, Action.step, perform_andNext]
    rfl
  case isFalse something =>
    obtain ⟨first, own, rfl⟩ := Option.map_eq_some_iff.mp finds
    rw [if_neg something, commands_append, ih own, Assembly.callerMethod, commands_cons,
      commands_member held]
    simp only [command, Action.step, perform_andNext]
    rfl

private theorem commands_copyMethod (name : String) :
    context.commands line (Assembly.copyMethod name) = copyMethod line name := by
  rw [Assembly.copyMethod, commands_append, commands_check, commands_cons, commands_nil,
    andThen_skip]
  simp only [command, Action.step, perform_andNext]
  rfl

private theorem commands_operations {operands : List Operation} {own : List Command}
    (each : ∀ operand ∈ operands, ∀ {own : List Command},
      operation? context.pools .value operand = some own →
      context.commands line own = context.operation line .value operand)
    (known : operations? context.pools operands = some own) :
    context.commands line own = context.operations line operands := by
  induction operands generalizing own with
  | nil =>
    cases known
    rfl
  | cons operand rest ih =>
    rw [operations?] at known
    obtain ⟨first, head, known⟩ := Option.bind_eq_some_iff.mp known
    obtain ⟨second, tail, known⟩ := Option.bind_eq_some_iff.mp known
    cases known
    rw [commands_append, each operand (.head _) head,
      ih (fun other member => each other (.tail _ member)) tail]
    rfl

/-- A call is executed by finding its method, copying it, and executing its arguments. -/
theorem operation_call (usage : Usage) {caller method : Operation} {rest : List Operation}
    (short : rest.length ≤ 1) (value : Option Reference) (own : Nat) :
    context.operation line usage ⟨.evaluate, caller :: method :: rest, value, own⟩
      = (if caller.isNothing then bareMethod line (method.leafName?.getD "")
          else (context.operation line .value caller).andThen
            (callerMethod line (method.leafName?.getD ""))).andThen
        ((copyMethod line (method.leafName?.getD "")).andThen
        ((context.operations line (callArguments (caller :: method :: rest))).andThen
        (call context.methods line (callArguments (caller :: method :: rest)).length))) := by
  match rest, short with
  | [], _ =>
    rw [operation]
    rfl
  | [list], _ =>
    conv => lhs; unfold operation
    unfold callArguments
    dsimp only
    congr 2
    split
    · rfl
    · split
      · rfl
      · simp only [operations, andThen_skip, List.length_singleton]

/-- Kinds that are just their operands and an ending execute them in this order. -/
theorem operation_node (usage : Usage) {kind : Kind} {operands : List Operation}
    {ending : List Command} (ends : ending? kind operands.length = some ending)
    (value : Option Reference) (own : Nat) :
    context.operation line usage ⟨kind, operands, value, own⟩
      = (context.operations line operands).andThen (operator line kind operands.length) := by
  cases kind
  all_goals first | rfl | simp [ending?] at ends

/-- The commands of an operation do what its structured execution does. -/
theorem commands_operation (sound : context.pools.Sound) (source : Operation) {usage : Usage}
    {own : List Command} (known : operation? context.pools usage source = some own) :
    context.commands line own = context.operation line usage source := by
  induction source using Operation.induction generalizing usage own with
  | node source ih deep =>
    have made := emitted known
    clear known
    cases made with
    | leaf known => rw [commands_leaf sound known, operation]
    | single known =>
      rw [ih _ (.head _) known, operation]
    | @member target name value own index first known named =>
      obtain ⟨text, leaf, indexed⟩ := Option.bind_eq_some_iff.mp named
      rw [commands_append, ih _ (.head _) known, operation, leaf, commands_memberOf sound indexed]
      rfl
    | assign known given =>
      rw [commands_append, commands_append, ih _ (.head _) known, ih _ (.tail _ (.head _)) given,
        operation, andThen_assoc]
      simp only [commands_cons, commands_nil, andThen_skip, command, Action.step, perform_andNext]
    | @call caller method rest value own index name found arguments short named known finds given =>
      have each : ∀ operand ∈ callArguments (caller :: method :: rest), ∀ {own : List Command},
          operation? context.pools .value operand = some own →
          context.commands line own = context.operation line .value operand := by
        intro operand member own known
        obtain direct | ⟨list, listed, inner⟩ := mem_callArguments member
        · exact ih operand direct known
        · exact deep list listed operand inner known
      rw [operation_call usage short, named, commands_append, commands_append, commands_append,
        commands_found sound known finds (fun known => ih caller (.head _) known),
        commands_copyMethod, commands_operations each given, commands_cons, commands_nil,
        andThen_skip, andThen_assoc, andThen_assoc]
      rfl
    | otherwise => rw [operation]; rfl
    | node known ends =>
      rw [commands_append, commands_operations (fun operand member => ih operand member) known,
        commands_ending ends, operation_node usage ends]

/-! ## Definitions -/

private theorem parameters_spec (sound : context.pools.Sound) {list : List Operation} {own : List Command}
    (known : parameters? context.pools list = some own) :
    ∃ pairs : List (Nat × String), own = pairs.map (fun pair => ⟨.loadName, pair.1⟩)
      ∧ pairs.map (·.2) = list.map (fun parameter => parameter.leafName?.getD "")
      ∧ ∀ pair ∈ pairs, context.pools.names.get? pair.1 = some pair.2 := by
  induction list generalizing own with
  | nil =>
    cases known
    exact ⟨[], rfl, rfl, fun _ member => by cases member⟩
  | cons parameter rest ih =>
    rw [parameters?] at known
    obtain ⟨index, named, known⟩ := Option.bind_eq_some_iff.mp known
    obtain ⟨later, follows, known⟩ := Option.bind_eq_some_iff.mp known
    obtain ⟨name, leaf, indexed⟩ := Option.bind_eq_some_iff.mp named
    cases known
    obtain ⟨pairs, rfl, names, held⟩ := ih follows
    refine ⟨(index, name) :: pairs, rfl, by simp [names, leaf], fun pair member => ?_⟩
    cases member with
    | head => exact get?_of_index? sound indexed
    | tail _ member => exact held pair member

/-- Names that are loaded are on the stack, the last one on top. -/
theorem commands_parameters (pairs : List (Nat × String))
    (held : ∀ pair ∈ pairs, context.pools.names.get? pair.1 = some pair.2) (action : Action Unit) :
    (context.commands line (pairs.map fun pair => ⟨.loadName, pair.1⟩)).andThen (perform line action)
      = perform line fun machine =>
        action (machine.over (pairs.reverse.map fun pair => .name pair.1)) := by
  induction pairs with
  | nil => rfl
  | cons pair rest ih =>
    have inside := lt_of_get? (held pair (.head _))
    rw [List.map_cons, commands_cons, andThen_assoc,
      ih fun other member => held other (.tail _ member)]
    have pushes := perform_push line [.name pair.1]
      (fun machine => ⟨_, Action.step_loadName inside machine⟩)
      (fun machine => action (machine.over (rest.reverse.map fun pair => .name pair.1)))
    refine Eq.trans pushes ?_
    simp [Machine.over]

private theorem commands_method (pairs : List (Nat × String))
    (held : ∀ pair ∈ pairs, context.pools.names.get? pair.1 = some pair.2) :
    context.commands line
        (pairs.map (fun pair => ⟨.loadName, pair.1⟩) ++ [⟨.defineMethod, pairs.length⟩])
      = perform line (Action.pushMethod (pairs.map (·.2))) := by
  rw [commands_append, commands_cons, commands_nil, andThen_skip]
  simp only [command, Action.step, perform_andNext]
  rw [commands_parameters pairs held]
  congr 1
  funext machine
  have popped := Action.popParameters_loaded pairs.reverse
    (fun pair member => held pair (List.mem_reverse.mp member)) [] machine
  rw [List.length_reverse] at popped
  rw [Action.defineMethod, Action.bind_of_ok popped]
  simp only [List.map_reverse, List.reverse_reverse, List.append_nil]
  rfl

/-- The rest of a placeholder does nothing. -/
theorem commands_padding (target offset : Nat) (action : Action Unit) :
    (context.commands line (padding target offset)).andThen (perform line action)
      = perform line action := by
  unfold padding
  generalize placeholderWidth offset - (extensionCount target + 1) = count
  induction count with
  | zero => rfl
  | succ count ih =>
    rw [List.replicate_succ, commands_cons, andThen_assoc, ih]
    exact perform_push line [] (fun machine => ⟨_, rfl⟩) action

/-- The commands that bind a body to the method on the stack and assign the method. -/
theorem commands_bound (label place : Nat) :
    context.commands line (hole .bindSection label place ++ [⟨.assign, 0⟩, ⟨.endStatement, 0⟩])
      = (perform line (Action.bindBody label)).andThen
        ((perform line Action.assign).andThen (perform line Action.endStatement)) := by
  simp only [hole, List.cons_append, commands_cons, commands_append, commands_nil, andThen_skip,
    command, Action.step, perform_andNext]
  rw [← andThen_assoc (context.commands line (padding label place)), commands_padding]
  rfl

theorem commands_definition (sound : context.pools.Sound) {source : Operation} {own : List Command}
    (known : definition? context.pools source = some own) (label place : Nat) :
    context.commands line (own ++ (hole .bindSection label place
        ++ [⟨.assign, 0⟩, ⟨.endStatement, 0⟩]))
      = context.definition line label source := by
  rw [commands_append, commands_bound]
  unfold definition? at known
  split at known
  case h_1 kind target value own =>
    obtain ⟨first, head, known⟩ := Option.bind_eq_some_iff.mp known
    cases known
    have method : context.commands line [⟨.defineMethod, 0⟩] = perform line (Action.pushMethod []) :=
      commands_method [] (by simp)
    rw [commands_append, commands_operation sound target head, method, andThen_assoc]
    rfl
  case h_2 kind target list value own =>
    obtain ⟨first, head, known⟩ := Option.bind_eq_some_iff.mp known
    obtain ⟨names, given, known⟩ := Option.bind_eq_some_iff.mp known
    cases known
    obtain ⟨pairs, rfl, texts, held⟩ := parameters_spec sound given
    have count : list.parameterList.length = pairs.length := by
      simpa using (congrArg List.length texts).symm
    rw [List.append_assoc, commands_append, commands_operation sound target head, count,
      commands_method pairs held, texts, andThen_assoc]
    rfl
  case h_3 => cases known

end

end Context

end ScopeMachine
