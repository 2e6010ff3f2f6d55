import ScopeMachine.Proofs.Machine.Running
import ScopeMachine.Proofs.Machine.Steady

set_option autoImplicit false

/-!
# Moves

All that an instruction of a program can do to the frames, to the registers that belong to a frame,
and to the part of the stack that does not belong to the current frame: it stays in the frame, calls
a method, returns to the calling frame, or ends the program.
-/

namespace ScopeMachine

open Assembly

/-! ## Blocks, calls and returns -/

namespace Action

theorem enterLocal_eq {machine : Machine} {frame : Frame} {rest : List Frame}
    (frames : machine.frames = frame :: rest) :
    enterLocal machine
      = .ok () { machine with
          heap := (machine.heap.allocateScope { parent := some machine.registers.localScope }).2
          frames := { frame with
            localScopes := (machine.heap.allocateScope
              { parent := some machine.registers.localScope }).1 :: frame.localScopes } :: rest
          registers := { machine.registers with
            localScope := (machine.heap.allocateScope
              { parent := some machine.registers.localScope }).1
            lastResult := none } } := by
  obtain ⟨_, _, _, _, _⟩ := machine
  cases frames
  rfl

/-- The machine after the current frame has closed its innermost block. -/
def closing (frame : Frame) (scopes : List ScopeId) (rest : List Frame) (machine : Machine) :
    Machine :=
  { machine with frames := { frame with localScopes := scopes } :: rest }

theorem leaveLocal_eq {machine : Machine} {frame : Frame} {scope : ScopeId} {scopes : List ScopeId}
    {rest : List Frame} (frames : machine.frames = frame :: rest)
    (blocks : frame.localScopes = scope :: scopes) :
    leaveLocal machine
      = (releaseScope scope >>= fun _ => currentLocalScope >>= fun localScope =>
          setRegisters fun registers => { registers with localScope, lastResult := none })
        (closing frame scopes rest machine) := by
  have current : currentFrame machine = .ok frame machine := by
    obtain ⟨_, _, _, _, _⟩ := machine
    cases frames
    rfl
  have closed : setLocalScopes (fun _ => scopes) machine
      = .ok () (closing frame scopes rest machine) := by
    simp only [setLocalScopes, frames, closing]
  rw [leaveLocal, bind_of_ok current]
  simp only [blocks]
  rw [bind_of_ok closed]

def callOperands (count : Nat) : Action (BindingId × BindingId × Binding × List BindingId) := do
  let arguments ← popArguments count []
  let method ← popBinding
  let caller ← popBinding
  let target ← binding method
  return (caller, method, target, arguments)

theorem evaluate_eq (count : Nat) :
    evaluate count = callOperands count >>= fun (caller, method, target, arguments) =>
      if target.tag = .array then constructArray method arguments >>= fun _ => pure .next
      else (checkCall target arguments.length >>= fun _ => bindArguments target none arguments)
        >>= fun _ => enterFrame caller method target.body target.scope := by
  simp only [callOperands, bind_assoc, pure_bind]
  rfl

variable {relates : Heap → Heap → Prop}

theorem steady_callOperands (change : Change relates) (count : Nat) :
    Steady relates (callOperands count) :=
  (steady_popArguments change count []).bind change fun _ => (steady_popBinding change).bind change
    fun _ => (steady_popBinding change).bind change fun _ => (steady_binding change _).bind change
    fun _ => .pure change _

private theorem receiverScope_reads (machine : Machine) :
    (∃ fault, receiverScope machine = .error fault machine)
      ∨ ∃ scope, receiverScope machine = .ok scope machine := by
  have unfolds : receiverScope machine = (binding machine.registers.receiver >>= fun receiver =>
    pure (receiver.scope.getD machine.programScope)) machine := rfl
  rw [unfolds]
  cases found : machine.heap.binding machine.registers.receiver with
  | error stale =>
    have reads : binding machine.registers.receiver machine = .error (.staleHandle stale) machine := by
      simp [binding, inspect, found]
    exact .inl ⟨_, bind_of_error reads⟩
  | ok receiver =>
    have reads : binding machine.registers.receiver machine = .ok receiver machine := by
      simp [binding, inspect, found]
    exact .inr ⟨receiver.scope.getD machine.programScope, bind_of_ok reads⟩

/-- The innermost scope is looked up without a change of the machine. -/
theorem currentLocalScope_reads (machine : Machine) :
    (∃ fault, currentLocalScope machine = .error fault machine)
      ∨ ∃ scope, currentLocalScope machine = .ok scope machine := by
  have receiver := receiverScope_reads machine
  obtain ⟨_, _, _, frames, _⟩ := machine
  match frames with
  | { localScopes := innermost :: _, .. } :: _ => exact .inr ⟨innermost, rfl⟩
  | [] | { localScopes := [], .. } :: _ => exact receiver

/-- Focusing on the current frame changes the innermost scope at most. -/
theorem refocus_cases (machine : Machine) :
    (∃ fault, refocus machine = .error fault machine)
      ∨ ∃ localScope, refocus machine
        = .ok () { machine with registers := { machine.registers with localScope } } := by
  obtain ⟨fault, result⟩ | ⟨scope, result⟩ := currentLocalScope_reads machine
  · exact .inl ⟨fault, bind_of_error result⟩
  · exact .inr ⟨scope, bind_of_ok result⟩

theorem evaluate_opens {count body : Nat} {machine taken after : Machine} {caller method : BindingId}
    {target : Binding} {arguments : List BindingId}
    (operands : callOperands count machine = .ok (caller, method, target, arguments) taken)
    (result : evaluate count machine = .ok (.goto body) after) :
    machine.frames.length < machine.config.maxCallDepth ∧ after.config = machine.config
      ∧ after.frames = { newFrame caller method target.scope machine with
          stackMark := after.stack.length } :: machine.frames
      ∧ after.registers.caller = caller ∧ after.registers.receiver = method := by
  have change := growth_anyChange.toChange
  have takes := steady_callOperands change count machine
  rw [operands] at takes
  rw [evaluate_eq, bind_of_ok operands] at result
  dsimp only at result
  split at result
  · cases built : constructArray method arguments taken with
    | error fault last =>
      rw [bind_of_error built] at result
      cases result
    | ok value last =>
      rw [bind_of_ok built] at result
      cases result
  · have checks := ((steady_checkCall change target arguments.length).bind change fun _ =>
      steady_bindArguments change target none arguments) taken
    cases checked : (checkCall target arguments.length >>= fun _ =>
        bindArguments target none arguments) taken with
    | error fault last =>
      rw [bind_of_error checked] at result
      cases result
    | ok value ready =>
      rw [checked] at checks
      obtain ⟨_, _, _, _, _, -, rfl⟩ := change.turns_trans takes checks
      rw [bind_of_ok checked, enterFrame_eq] at result
      split at result
      case isFalse => cases result
      case isTrue room =>
        obtain ⟨fault, focused⟩ | ⟨localScope, focused⟩ :=
          refocus_cases (opened caller method target.scope _)
        · rw [bind_of_error focused] at result
          cases result
        · rw [bind_of_ok focused] at result
          cases result
          exact ⟨room, rfl, rfl, rfl, rfl⟩

private theorem evaluate_goto {count body : Nat} {machine after : Machine}
    (result : evaluate count machine = .ok (.goto body) after) :
    ∃ caller receiver methodScope, machine.frames.length < machine.config.maxCallDepth
      ∧ after.config = machine.config
      ∧ after.frames = { newFrame caller receiver methodScope machine with
          stackMark := after.stack.length } :: machine.frames
      ∧ after.registers.caller = caller ∧ after.registers.receiver = receiver := by
  cases operands : callOperands count machine with
  | error fault middle =>
    rw [evaluate_eq, bind_of_error operands] at result
    cases result
  | ok operand middle =>
    exact ⟨_, _, _, evaluate_opens operands result⟩

/-- A call that goes on with the next instruction has made an array. -/
theorem evaluate_next (growth : Growth relates) {count : Nat} {machine after : Machine}
    (result : evaluate count machine = .ok .next after) : Turns relates machine after := by
  have change := growth.toChange
  rw [evaluate_eq] at result
  have operands := steady_callOperands change count machine
  cases taken : callOperands count machine with
  | error fault middle =>
    rw [bind_of_error taken] at result
    cases result
  | ok operand middle =>
    rw [taken] at operands
    rw [bind_of_ok taken] at result
    obtain ⟨caller, method, target, arguments⟩ := operand
    dsimp only at result
    split at result
    · have builds := (steady_constructArray growth method arguments).bind change
        (fun _ => .pure change Transfer.next) middle
      rw [result] at builds
      exact change.turns_trans operands builds
    · cases checked : (checkCall target arguments.length >>= fun _ =>
          bindArguments target none arguments) middle with
      | error fault last =>
        rw [bind_of_error checked] at result
        cases result
      | ok value ready =>
        rw [bind_of_ok checked, enterFrame_eq] at result
        split at result
        case isFalse => cases result
        case isTrue =>
          obtain ⟨fault, focused⟩ | ⟨localScope, focused⟩ :=
            refocus_cases (opened caller method target.scope ready)
          · rw [bind_of_error focused] at result
            cases result
          · rw [bind_of_ok focused] at result
            cases result

/-- A return to a calling frame sets the registers that belong to it. -/
theorem returnFromFrame_goto {hasValue : Bool} {target : Nat} {machine after : Machine}
    {frame caller : Frame} {others : List Frame}
    (frames : machine.frames = frame :: caller :: others)
    (result : returnFromFrame hasValue machine = .ok (.goto target) after) :
    after.config = machine.config ∧ after.registers.caller = caller.caller
      ∧ after.registers.receiver = caller.receiver
      ∧ after.registers.lastResult = frame.savedResult := by
  have decay := decay_anyChange
  have pops := steady_popExplicit decay.toChange hasValue machine
  cases explicit : popExplicit hasValue machine with
  | error fault middle =>
    rw [returnFromFrame, bind_of_error explicit] at result
    cases result
  | ok value middle =>
    rw [explicit] at pops
    change Turns anyChange machine middle at pops
    have current : middle.frames = frame :: caller :: others := pops.frames.trans frames
    rw [returnFromFrame_eq current explicit] at result
    have frees := steady_settled decay frame (caller :: others).isEmpty value
      (popped frame (caller :: others) middle)
    cases freed : settled frame (caller :: others).isEmpty value
        (popped frame (caller :: others) middle) with
    | error fault last =>
      rw [bind_of_error freed] at result
      cases result
    | ok keep last =>
      rw [freed] at frees
      obtain ⟨_, _, _, _, _, -, rfl⟩ := frees
      rw [bind_of_ok freed, if_neg (by simp), resumed_eq rfl] at result
      obtain ⟨fault, focused⟩ | ⟨localScope, focused⟩ := refocus_cases (handed frame caller keep _)
      · rw [bind_of_error focused] at result
        cases result
      · rw [bind_of_ok focused] at result
        cases result
        exact ⟨pops.config, rfl, rfl, rfl⟩

/-- Leaving a block changes no register that belongs to the frame. -/
theorem leaveLocal_continues {machine after : Machine} {frame : Frame} {rest : List Frame}
    (frames : machine.frames = frame :: rest) (result : leaveLocal machine = .ok () after) :
    after.config = machine.config ∧ after.registers.caller = machine.registers.caller
      ∧ after.registers.receiver = machine.registers.receiver := by
  cases blocks : frame.localScopes with
  | nil =>
    rw [leaveLocal_nil frames blocks] at result
    cases result
  | cons scope scopes =>
    have releases := steady_releaseScope decay_anyChange scope (closing frame scopes rest machine)
    rw [leaveLocal_eq frames blocks] at result
    cases released : releaseScope scope (closing frame scopes rest machine) with
    | error fault middle =>
      rw [bind_of_error released] at result
      cases result
    | ok value middle =>
      rw [released] at releases
      obtain ⟨_, _, _, _, _, -, rfl⟩ := releases
      rw [bind_of_ok released] at result
      obtain ⟨fault, found⟩ | ⟨localScope, found⟩ := currentLocalScope_reads _
      · rw [bind_of_error found] at result
        cases result
      · rw [bind_of_ok found] at result
        cases result
        exact ⟨rfl, rfl, rfl⟩

end Action

/-! ## Moves of a machine -/

/-- Where control goes inside a frame: to the next command, or to the target of a jump. -/
def Command.Passes (command : Command) (transfer : Transfer) : Prop :=
  transfer = .next ∧ command.opcode ≠ .jump
    ∨ transfer = .goto command.operand
      ∧ (command.opcode = .jump ∨ command.opcode = .jumpIfFalse)

/-- All that a command can do, as far as frames are concerned. When shapes count, the stack below
the mark of the current frame stays what it is. -/
inductive Moves (shaped : Prop) (command : Command) (before : Machine) :
    Transfer → Machine → Prop where
  /-- The command stays in the current frame, and may open or close a block of it. -/
  | stays {transfer : Transfer} {after : Machine} {frame : Frame} {rest : List Frame}
      {scopes : List ScopeId} (passes : command.Passes transfer)
      (frames : before.frames = frame :: rest)
      (still : after.frames = { frame with localScopes := scopes } :: rest)
      (config : after.config = before.config)
      (caller : after.registers.caller = before.registers.caller)
      (receiver : after.registers.receiver = before.registers.receiver)
      (stack : shaped → ∃ items made below, before.stack = items ++ below
        ∧ below.length = frame.stackMark ∧ after.stack = made ++ below) :
      Moves shaped command before transfer after
  /-- The command calls a method, in a frame of its own. -/
  | calls {body : Nat} {after : Machine} {frame : Frame} (opcode : command.opcode = .evaluate)
      (room : before.frames.length < before.config.maxCallDepth)
      (frames : after.frames = frame :: before.frames)
      (address : frame.returnAddress = before.registers.ip + 1)
      (mark : frame.stackMark = after.stack.length)
      (saved : frame.savedResult = before.registers.lastResult)
      (config : after.config = before.config)
      (caller : after.registers.caller = frame.caller)
      (receiver : after.registers.receiver = frame.receiver)
      (stack : shaped → ∃ operands, before.stack = operands ++ after.stack
        ∧ operands.length = command.operand + 2
        ∧ ∀ current ∈ before.frames.head?, current.stackMark ≤ after.stack.length) :
      Moves shaped command before (.goto body) after
  /-- The command returns to the calling frame, with a result on its stack. -/
  | returns {after : Machine} {frame caller : Frame} {others : List Frame}
      (opcode : command.opcode = .return)
      (frames : before.frames = frame :: caller :: others)
      (back : after.frames = caller :: others)
      (config : after.config = before.config)
      (registers : after.registers.caller = caller.caller
        ∧ after.registers.receiver = caller.receiver
        ∧ after.registers.lastResult = frame.savedResult)
      (stack : shaped → ∃ items below result, before.stack = items ++ below
        ∧ below.length = frame.stackMark ∧ after.stack = .binding result :: below) :
      Moves shaped command before (.goto frame.returnAddress) after
  /-- The command ends the program. -/
  | halts {result : Option BindingId} {after : Machine} (opcode : command.opcode = .return) :
      Moves shaped command before (.halt result) after

section

variable {shaped : Prop} {source : Program} {cell : Cell} {machine : Machine} {offset limit : Nat}

theorem Framed.above {code : List Cell} {depth : Nat} {shape wants gives : Shape} {frame : Frame}
    {rest : List Frame} {stack after : List StackItem}
    (framed : Framed shaped code depth shape (frame :: rest) stack)
    (offered : shaped → SlotKind.offered wants shape = true)
    (replaces : Replaces wants gives stack after) (holds : shaped) :
    ∃ items made below, stack = items ++ below ∧ below.length = frame.stackMark
      ∧ after = made ++ below := by
  obtain ⟨-, below, own, -⟩ := framed
  obtain ⟨items, rfl, fits, mark⟩ := own holds
  obtain ⟨taken, others, rfl, fitting, -⟩ := fits.split (offered holds)
  obtain ⟨made, rfl, -⟩ := replaces taken (others ++ below) (by simp) fitting
  exact ⟨_, made ++ others, below, rfl, mark.symm, by simp⟩

theorem Replaces.refl (stack : List StackItem) : Replaces [] [] stack stack :=
  fun items _ split fits => ⟨items, split, fits⟩

variable
  (flows : Flows (Pools.ofProgram source) limit (bodies source) shaped (image source) offset cell)
  (placed : Placed shaped source offset cell machine)

include flows placed

/-- A command inside a frame passes control on, and replaces on the stack what it takes by what it
gives. -/
theorem straight_step (call : cell.command.opcode ≠ .evaluate)
    (returns : cell.command.opcode ≠ .return) (enter : cell.command.opcode ≠ .enterLocal)
    (leave : cell.command.opcode ≠ .leaveLocal) {transfer : Transfer} {after : Machine}
    (result : Action.step (Pools.ofProgram source).names cell.command.opcode cell.command.operand
      machine = .ok transfer after) :
    cell.command.Passes transfer
      ∧ Replaces cell.command.takes cell.command.gives machine.stack after.stack := by
  obtain ⟨sound, -⟩ := placed
  obtain ⟨⟨opcode, operand⟩, line, depth, shape⟩ := cell
  dsimp only at call returns enter leave result
  by_cases jump : opcode = .jump
  · subst jump
    cases result
    exact ⟨.inr ⟨rfl, .inl rfl⟩, .refl machine.stack⟩
  by_cases branch : opcode = .jumpIfFalse
  · subst branch
    have effect : Effect (limits source) [.value] []
        (fun transfer => transfer = .next ∨ transfer = .goto operand)
        (Action.step (Pools.ofProgram source).names .jumpIfFalse operand) :=
      (Action.effect_popBinding (by simp) _).bind fun _ _ =>
        (Action.calm_truthy _ _).bind fun truth _ => .pure _ (by cases truth <;> simp)
    obtain ⟨fault, _, ended, -⟩ | ⟨_, _, ended, goes, -, -, -, replaces⟩ := effect.split sound
    · rw [ended] at result
      cases result
    · rw [ended] at result
      cases result
      exact ⟨goes.imp (fun next => ⟨next, by simp⟩) fun goto => ⟨goto, .inr rfl⟩, replaces⟩
  · obtain ⟨fault, _, ended, -⟩ | ⟨_, _, ended, rfl, -, -, -, replaces⟩ :=
      (flows.effect call returns jump branch enter leave).split sound
    · rw [ended] at result
      cases result
    · rw [ended] at result
      cases result
      exact ⟨.inl ⟨rfl, jump⟩, replaces⟩

theorem moves_step {transfer : Transfer} {after : Machine}
    (result : Action.step (Pools.ofProgram source).names cell.command.opcode cell.command.operand
      machine = .ok transfer after) :
    Moves shaped cell.command machine transfer after := by
  have suits := flows.suits
  have legal := flows.legal
  have sound := placed.1
  have framed := placed.2
  obtain ⟨⟨opcode, operand⟩, line, depth, shape⟩ := cell
  dsimp only at result suits legal framed
  cases frames : machine.frames with
  | nil => rw [frames] at framed; cases framed
  | cons frame rest =>
    rw [frames] at framed
    by_cases call : opcode = .evaluate
    · subst call
      simp only [Action.step] at result
      obtain ⟨fault, _, ended, -⟩ | ⟨_, ended, -, -, replaces⟩ |
        ⟨body, _, _, ended, -, -, -, -, -, -, -, replaces⟩ :=
        Action.evaluate_spec (.head _) operand sound
      · rw [ended] at result
        cases result
      · rw [ended] at result
        cases result
        have turns := Action.evaluate_next growth_anyChange ended
        exact .stays (.inl ⟨rfl, by simp⟩) frames (turns.frames.trans frames) turns.config
          (congrArg _ turns.registers) (congrArg _ turns.registers) (framed.above suits replaces)
      · rw [ended] at result
        cases result
        obtain ⟨caller, receiver, methodScope, room, config, opened, calling, receiving⟩ :=
          Action.evaluate_goto ended
        refine .calls rfl room opened rfl rfl rfl config calling receiving fun holds => ?_
        obtain ⟨-, below, own, -⟩ := framed
        obtain ⟨items, split, fits, mark⟩ := own holds
        obtain ⟨taken, others, rfl, fitting, -⟩ := fits.split (suits holds)
        obtain ⟨made, left, none⟩ := replaces taken (others ++ below) (by simp [split]) fitting
        cases made with
        | cons => cases none
        | nil =>
          refine ⟨taken, by simp [split, left], ?_, fun current head => ?_⟩
          · rw [fitting.length]
            simp [Command.takes]
          · rw [frames] at head
            cases head
            rw [left, mark]
            simp
    by_cases returns : opcode = .return
    · subst returns
      have takes : Command.takes ⟨.return, operand⟩ = Action.returnTakes (operand ≠ 0) := by
        by_cases zero : operand = 0 <;> simp [Command.takes, Action.returnTakes, zero]
      simp only [Command.suits, takes] at suits
      simp only [Action.step] at result
      cases rest with
      | nil =>
        obtain ⟨fault, _, ended, -⟩ | ⟨left, _, -, ⟨-, value, ended, -⟩ | ⟨call, -⟩⟩ :=
          Action.returnFromFrame_spec (operand ≠ 0) sound frames
        · rw [ended] at result
          cases result
        · rw [ended] at result
          cases result
          exact .halts rfl
        · contradiction
      | cons caller others =>
        obtain ⟨fault, _, ended, -⟩ | ⟨left, _, replaces, ⟨none, -⟩ |
          ⟨-, id, ended, -, back, stack⟩⟩ := Action.returnFromFrame_spec (operand ≠ 0) sound frames
        · rw [ended] at result
          cases result
        · cases none
        · rw [ended] at result
          cases result
          obtain ⟨config, registers⟩ := Action.returnFromFrame_goto frames ended
          refine .returns rfl frames back config registers fun holds => ?_
          have whole := framed
          obtain ⟨-, below, own, -⟩ := framed
          obtain ⟨items, split, -, mark⟩ := own holds
          exact ⟨items, below, id, split, mark.symm, by
            rw [stack, whole.truncate suits replaces own holds]⟩
    by_cases enter : opcode = .enterLocal
    · subst enter
      rw [Action.step, Action.andNext, Action.bind_of_ok (Action.enterLocal_eq frames)] at result
      cases result
      exact .stays (.inl ⟨rfl, by simp⟩) frames rfl rfl rfl rfl
        (framed.above (fun _ => rfl) (.refl machine.stack))
    by_cases leave : opcode = .leaveLocal
    · subst leave
      simp only [Action.step, Action.andNext] at result
      cases blocks : frame.localScopes with
      | nil =>
        rw [Action.bind_of_error (Action.leaveLocal_nil frames blocks)] at result
        cases result
      | cons scope scopes =>
        obtain ⟨fault, _, ended, -⟩ | ⟨_, ended, -, closed, stack⟩ :=
          Action.leaveLocal_spec sound frames blocks
        · rw [Action.bind_of_error ended] at result
          cases result
        · rw [Action.bind_of_ok ended] at result
          cases result
          obtain ⟨config, calling, receiving⟩ := Action.leaveLocal_continues frames ended
          refine .stays (.inl ⟨rfl, by simp⟩) frames closed config calling receiving ?_
          rw [stack]
          exact framed.above (fun _ => rfl) (.refl machine.stack)
    have continues := Action.continuing_step growth_anyChange (Pools.ofProgram source).names operand
      enter leave call (by rintro rfl; cases legal) returns machine
    rw [result] at continues
    obtain ⟨passes, replaces⟩ := straight_step flows placed call returns enter leave result
    have still : after.frames = { frame with localScopes := frame.localScopes } :: rest :=
      continues.frames.trans frames
    exact .stays passes frames still continues.config continues.caller continues.receiver
      (framed.above suits replaces)

end

/-! ## Dispatches -/

section

variable (machine : Machine) (target : Nat)

@[simp] theorem Machine.frames_goto : (machine.goto target).frames = machine.frames :=
  rfl

@[simp] theorem Machine.stack_goto : (machine.goto target).stack = machine.stack :=
  rfl

@[simp] theorem Machine.ip_goto : (machine.goto target).registers.ip = target :=
  rfl

end

/-- What a dispatch does to a machine that keeps running: it reads one more extension of an operand,
or makes a move. -/
inductive Dispatches (shaped : Prop) (source : Program) (before : Machine) : Machine → Prop where
  | reads (extended extensions : Nat) :
      Dispatches shaped source before
        (before.moved (before.registers.ip + 1) extended extensions before.line)
  | moves {offset next : Nat} {cell : Cell} {transfer : Transfer} {after : Machine}
      (stands : Stands (image source) offset cell)
      (here : before.registers.ip = offset + extensionCount cell.command.operand)
      (operand : before.registers.extended ||| (lowByte cell.command.operand).toNat
        = cell.command.operand)
      (moves : Moves shaped cell.command before transfer after)
      (goes : transfer = .next ∧ next = before.registers.ip + 1 ∨ transfer = .goto next) :
      Dispatches shaped source before (after.goto next)

/-- Reading an operand is no part of a move. -/
theorem Moves.of_ready {shaped : Prop} {before after : Machine} {offset : Nat} {cell : Cell}
    {transfer : Transfer} (here : before.registers.ip = offset + extensionCount cell.command.operand)
    (moves : Moves shaped cell.command (before.ready offset cell) transfer after) :
    Moves shaped cell.command before transfer after := by
  cases moves with
  | stays passes frames still config caller receiver stack =>
    exact .stays passes frames still config caller receiver stack
  | calls opcode room frames address mark saved config caller receiver stack =>
    have address := address.trans (congrArg (· + 1) here.symm)
    exact .calls opcode room frames address mark saved config caller receiver stack
  | returns opcode frames back config registers stack =>
    exact .returns opcode frames back config registers stack
  | halts opcode => exact .halts opcode

/-- The registers for the caller and the receiver are those of the current frame. -/
def Attached (machine : Machine) : Prop :=
  ∃ frame rest, machine.frames = frame :: rest ∧ machine.registers.caller = frame.caller
    ∧ machine.registers.receiver = frame.receiver

theorem Attached.dispatches {shaped : Prop} {program : Program} {before after : Machine} (attached : Attached before)
    (dispatches : Dispatches shaped program before after) : Attached after := by
  obtain ⟨frame, rest, current, calling, receiving⟩ := attached
  cases dispatches with
  | reads extended extensions => exact ⟨frame, rest, current, calling, receiving⟩
  | moves stands here operand moves goes =>
    cases moves with
    | stays passes frames still config caller receiver stack =>
      rw [frames] at current
      cases current
      exact ⟨_, _, still, caller.trans calling, receiver.trans receiving⟩
    | calls opcode room frames address mark saved config caller receiver stack =>
      exact ⟨_, _, frames, caller, receiver⟩
    | returns opcode frames back config registers stack =>
      exact ⟨_, _, back, registers.1, registers.2.1⟩
    | halts =>
      obtain ⟨none, -⟩ | goto := goes
      · cases none
      · cases goto

theorem attached_boot (config : Config) (input : List UInt8) (pools : Pools) :
    Attached (Machine.boot config input pools) := by
  rw [boot_eq]
  exact ⟨_, _, rfl, rfl, rfl⟩

section

variable {program : Program} {compiled : Compiled} {shaped : Prop}
  (accepted : program.compile = .ok compiled) (shape : shaped → program.wellShaped = true)
  (addressable : Addressable program compiled)

include accepted shape addressable

theorem dispatches_of_advance {machine after : Machine}
    (at_ : (Placed shaped program).At (image program) machine)
    (advanced : machine.advance compiled = .running after) :
    Dispatches shaped program machine after := by
  have encodes := encodes_image accepted addressable
  obtain ⟨pools, -, -, -⟩ := program.compile_ok accepted
  obtain ⟨offset, cell, index, stands, reading, placed⟩ := at_
  obtain more | last := Nat.lt_or_eq_of_le reading.inside
  · obtain ⟨ip, extended, extensions, extends_, reads⟩ :=
      reading.advance_extension encodes stands more
    have next : ip = machine.registers.ip + 1 := by
      rw [reading.ip, Nat.add_assoc]
      exact reads.ip
    rw [extends_] at advanced
    cases advanced
    rw [next]
    exact .reads extended extensions
  · have here : machine.registers.ip = offset + extensionCount cell.command.operand := by
      rw [reading.ip, last]
    have next : offset + cell.command.width = machine.registers.ip + 1 := by
      rw [here, Nat.add_assoc, Command.width]
    have operand : machine.registers.extended ||| (lowByte cell.command.operand).toNat
        = cell.command.operand := by
      rw [reading.extended, last, collected_all]
    have ready : Placed shaped program offset cell (machine.ready offset cell) :=
      ⟨⟨placed.1.bodies, placed.1.names, placed.1.constants⟩, placed.2⟩
    rw [reading.advance_instruction encodes stands last, pools] at advanced
    cases result : Action.step (Pools.ofProgram program).names cell.command.opcode
        cell.command.operand (machine.ready offset cell) with
    | error fault final =>
      rw [result] at advanced
      cases advanced
    | ok transfer final =>
      rw [result] at advanced
      have moves := Moves.of_ready here
        (moves_step (flows_image accepted shape stands) ready result)
      cases transfer with
      | next =>
        cases advanced
        exact .moves stands here operand moves (.inl ⟨rfl, next⟩)
      | goto target =>
        cases advanced
        exact .moves stands here operand moves (.inr rfl)
      | halt value => cases advanced

theorem at_advance {machine after : Machine}
    (at_ : (Placed shaped program).At (image program) machine)
    (advanced : machine.advance compiled = .running after) :
    (Placed shaped program).At (image program) after := by
  obtain ⟨pools, -, -, valid⟩ := program.compile_ok accepted
  have kept := kept_placed (.of shape) valid
  rw [← pools] at kept
  have one := kept.advance (encodes_image accepted addressable) at_
  rw [advanced] at one
  exact one

theorem holds_run {holds : Machine → Prop}
    (keeps : ∀ {before after}, holds before → Dispatches shaped program before after → holds after)
    {machine final : Machine} (at_ : (Placed shaped program).At (image program) machine)
    (start : holds machine) (fuel : Nat) (running : machine.run compiled fuel = .running final) :
    (Placed shaped program).At (image program) final ∧ holds final := by
  induction fuel generalizing machine with
  | zero =>
    cases running
    exact ⟨at_, start⟩
  | succ fuel ih =>
    unfold Machine.run at running
    cases advanced : machine.advance compiled with
    | running next =>
      rw [advanced] at running
      exact ih (at_advance accepted shape addressable at_ advanced)
        (keeps start (dispatches_of_advance accepted shape addressable at_ advanced)) running
    | finished value ended =>
      rw [advanced] at running
      cases running
    | failed line fault ended =>
      rw [advanced] at running
      cases running

end

end ScopeMachine
