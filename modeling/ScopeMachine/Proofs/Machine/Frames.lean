import ScopeMachine.Proofs.Machine.Balance

set_option autoImplicit false

/-!
# Frames

What the instructions that open and close blocks and frames do to the frames and to the stack.
-/

namespace ScopeMachine

variable {α β : Type} {limits : Limits}

/-- The faults of an action on a stack that may lack what the action takes. -/
def Fails (takes : Shape) (stack : List StackItem) (fault : Fault) : Prop :=
  fault.IsOrdinary ∨ fault.isStarved = true ∧ fault.isMisplaced = false ∧ ¬ Offers takes stack

theorem Fails.ordinary {stack : List StackItem} {fault : Fault} (fails : Fails [] stack fault) :
    fault.IsOrdinary :=
  fails.resolve_right fun starved => starved.2.2 ⟨[], stack, rfl, trivial⟩

theorem Replaces.trans {takes middle gives : Shape} {first second third : List StackItem}
    (before : Replaces takes middle first second) (after : Replaces middle gives second third) :
    Replaces takes gives first third := by
  intro items rest split fits
  obtain ⟨made, again, fitting⟩ := before items rest split fits
  exact after made rest again fitting

/-- An action either raises a fault or goes on from a sound machine. -/
theorem Effect.split {takes gives : Shape} {yields : α → Prop} {action : Action α}
    {machine : Machine} (effect : Effect limits takes gives yields action)
    (sound : Sound limits machine) :
    (∃ fault after, action machine = .error fault after ∧ Fails takes machine.stack fault)
      ∨ ∃ value after, action machine = .ok value after ∧ yields value ∧ Sound limits after
        ∧ after.frames = machine.frames ∧ after.registers.ip = machine.registers.ip
        ∧ Replaces takes gives machine.stack after.stack := by
  have ends := effect machine sound
  cases result : action machine with
  | error fault after =>
    rw [result] at ends
    exact .inl ⟨fault, after, rfl, ends⟩
  | ok value after =>
    rw [result] at ends
    obtain ⟨yielded, kept, ⟨frames, ip⟩, replaces⟩ := ends
    exact .inr ⟨value, after, rfl, yielded, kept, frames, ip, replaces⟩

/-- An action without an effect on the stack raises an ordinary fault or keeps the stack. -/
theorem Calm.split {yields : α → Prop} {action : Action α} {machine : Machine}
    (calm : Calm limits yields action) (sound : Sound limits machine) :
    (∃ fault after, action machine = .error fault after ∧ fault.IsOrdinary)
      ∨ ∃ value after, action machine = .ok value after ∧ yields value ∧ Sound limits after
        ∧ after.frames = machine.frames ∧ after.registers.ip = machine.registers.ip
        ∧ after.stack = machine.stack := by
  obtain ⟨fault, after, result, fails⟩ | ⟨value, after, result, yielded, kept, frames, ip, replaces⟩ :=
    (calm []).split sound
  · exact .inl ⟨fault, after, result, fails.ordinary⟩
  · obtain ⟨made, same, fits⟩ := replaces [] machine.stack rfl trivial
    cases made with
    | nil => exact .inr ⟨value, after, result, yielded, kept, frames, ip, same⟩
    | cons => cases fits

namespace Action

/-! ## Blocks -/

/-- Entering a block opens one more scope in the current frame. -/
theorem enterLocal_spec {machine : Machine} {frame : Frame} {rest : List Frame}
    (sound : Sound limits machine) (frames : machine.frames = frame :: rest) :
    ∃ scope after, enterLocal machine = .ok () after ∧ Sound limits after
      ∧ after.frames = { frame with localScopes := scope :: frame.localScopes } :: rest
      ∧ after.stack = machine.stack := by
  obtain ⟨_, _, _, _, _⟩ := machine
  cases frames
  exact ⟨_, _, rfl, ⟨sound.bodies, sound.names, sound.constants⟩, rfl, rfl⟩

theorem leaveLocal_nil {machine : Machine} {frame : Frame} {rest : List Frame}
    (frames : machine.frames = frame :: rest) (closed : frame.localScopes = []) :
    leaveLocal machine = .error .noLocalScope machine := by
  obtain ⟨_, _, _, _, _⟩ := machine
  obtain ⟨_, _, _, _, _⟩ := frame
  cases frames
  cases closed
  rfl

/-- Leaving a block closes the innermost scope of the current frame. -/
theorem leaveLocal_spec {machine : Machine} {frame : Frame} {scope : ScopeId}
    {scopes : List ScopeId} {rest : List Frame} (sound : Sound limits machine)
    (frames : machine.frames = frame :: rest) (opened : frame.localScopes = scope :: scopes) :
    (∃ fault after, leaveLocal machine = .error fault after ∧ fault.IsOrdinary)
      ∨ ∃ after, leaveLocal machine = .ok () after ∧ Sound limits after
        ∧ after.frames = { frame with localScopes := scopes } :: rest
        ∧ after.stack = machine.stack := by
  have current : currentFrame machine = .ok frame machine := by
    obtain ⟨_, _, _, _, _⟩ := machine
    cases frames
    rfl
  have closed : setLocalScopes (fun _ => scopes) machine
      = .ok () { machine with frames := { frame with localScopes := scopes } :: rest } := by
    simp only [setLocalScopes, frames]
  have calm : Calm limits (fun _ => True) (releaseScope scope >>= fun _ =>
      currentLocalScope >>= fun localScope => setRegisters fun registers =>
        { registers with localScope, lastResult := none }) :=
    (calm_releaseScope scope).bind fun _ _ => calm_currentLocalScope.bind fun _ _ =>
      calm_setRegisters (by intro; rfl)
  have kept : Sound limits
      { machine with frames := { frame with localScopes := scopes } :: rest } :=
    ⟨sound.bodies, sound.names, sound.constants⟩
  rw [leaveLocal, bind_of_ok current]
  simp only [opened]
  rw [bind_of_ok closed]
  obtain ⟨fault, after, result, ordinary⟩ | ⟨_, after, result, -, safe, same, -, stack⟩ :=
    calm.split kept
  · exact .inl ⟨fault, after, result, ordinary⟩
  · exact .inr ⟨after, result, safe, same, stack⟩

/-! ## Calls -/

/-- The entries that a call takes from the stack: the arguments, the method and the caller. -/
def callTakes (count : Nat) : Shape :=
  List.replicate count SlotKind.value ++ [SlotKind.copy, .value]

/-- A call makes an array in place, or opens a frame and goes to the body of the method. -/
theorem evaluate_spec (none : 0 ∈ limits.sections) (count : Nat) {machine : Machine}
    (sound : Sound limits machine) :
    (∃ fault after, evaluate count machine = .error fault after
        ∧ Fails (callTakes count) machine.stack fault)
      ∨ (∃ after, evaluate count machine = .ok .next after ∧ Sound limits after
        ∧ after.frames = machine.frames
        ∧ Replaces (callTakes count) [.value] machine.stack after.stack)
      ∨ ∃ body after frame, evaluate count machine = .ok (.goto body) after ∧ Sound limits after
        ∧ body ∈ limits.sections ∧ body ≠ 0 ∧ after.frames = frame :: machine.frames
        ∧ frame.localScopes = [] ∧ frame.returnAddress = machine.registers.ip + 1
        ∧ frame.stackMark = after.stack.length
        ∧ Replaces (callTakes count) [] machine.stack after.stack := by
  have operands : Effect limits (callTakes count) []
      (fun (_, _, target, _) => target.body ∈ limits.sections)
      (popArguments count [] >>= fun arguments => popBinding >>= fun method =>
        popBinding >>= fun caller => binding method >>= fun target =>
        pure (caller, method, target, arguments)) :=
    (effect_popArguments count [] _).bind fun _ _ => (effect_popBinding (by simp) _).bind fun _ _ =>
      (effect_popBinding (by simp) _).bind fun _ _ => (calm_binding _ _).bind fun _ body =>
      .pure _ body
  have unfolds : evaluate count = (popArguments count [] >>= fun arguments =>
        popBinding >>= fun method => popBinding >>= fun caller => binding method >>= fun target =>
        pure (caller, method, target, arguments)) >>= fun (caller, method, target, arguments) =>
      if target.tag = .array then constructArray method arguments >>= fun _ => pure .next
      else checkCall target arguments.length >>= fun _ => bindArguments target Option.none arguments
        >>= fun _ => enterFrame caller method target.body target.scope := by
    simp only [bind_assoc, pure_bind]
    rfl
  rw [unfolds]
  obtain ⟨fault, after, result, fails⟩ |
    ⟨⟨caller, method, target, arguments⟩, after, result, body, kept, frames, ip, replaces⟩ :=
    operands.split sound
  · exact .inl ⟨fault, after, bind_of_error result, fails⟩
  rw [bind_of_ok result]
  dsimp only
  split
  · obtain ⟨fault, last, built, fails⟩ | ⟨_, last, built, -, safe, same, -, pushed⟩ :=
      (effect_constructArray none method arguments).split kept
    · exact .inl ⟨fault, last, bind_of_error built, .inl fails.ordinary⟩
    · exact .inr (.inl ⟨last, bind_of_ok built, safe, same.trans frames, replaces.trans pushed⟩)
  · have checks : Calm limits (fun _ => target.body ≠ 0) (checkCall target arguments.length
        >>= fun _ => bindArguments target Option.none arguments) :=
      (calm_checkCall target _).bind fun _ bound =>
        (calm_bindArguments target _ arguments).weaken fun _ _ => bound
    rw [← bind_assoc]
    obtain ⟨fault, last, checked, ordinary⟩ | ⟨_, ready, checked, bound, safe, same, here, stack⟩ :=
      checks.split kept
    · exact .inl ⟨fault, last, bind_of_error checked, .inl ordinary⟩
    rw [bind_of_ok checked, enterFrame_eq]
    split
    · have begun : Sound limits (opened caller method target.scope ready) :=
        ⟨safe.bodies, safe.names, safe.constants⟩
      obtain ⟨fault, last, focused, ordinary⟩ | ⟨_, last, focused, -, final, top, -, height⟩ :=
        calm_refocus.split begun
      · exact .inl ⟨fault, last, bind_of_error focused, .inl ordinary⟩
      · refine .inr (.inr ⟨target.body, last, newFrame caller method target.scope ready,
          bind_of_ok focused, final, body, bound, ?_, rfl, ?_, ?_, ?_⟩)
        · rw [top, ← frames, ← same]
          rfl
        · show ready.registers.ip + 1 = machine.registers.ip + 1
          rw [here, ip]
        · show ready.stack.length = last.stack.length
          rw [height]
          rfl
        · rw [height]
          show Replaces _ _ _ ready.stack
          rw [stack]
          exact replaces
    · exact .inl ⟨_, _, rfl, .inl ⟨rfl, rfl⟩⟩

/-! ## Returns -/

def returnTakes (hasValue : Bool) : Shape :=
  if hasValue then [.value] else []

private theorem effect_popExplicit (hasValue : Bool) :
    Effect limits (returnTakes hasValue) [] (fun _ => True) (popExplicit hasValue) := by
  unfold popExplicit returnTakes
  split
  · exact (effect_popBinding (by simp) _).bind fun _ _ => .pure _ trivial
  · exact .pure _ trivial

/-- Frees what a frame owned, and keeps what it yields. -/
def settled (frame : Frame) (outermost : Bool) (explicit : Option BindingId) :
    Action (Option BindingId) := do
  let keep ← yielded frame outermost explicit
  let keep ← releaseScopes frame.localScopes keep
  releaseMethod frame keep

private theorem calm_settled (frame : Frame) (outermost : Bool) (explicit : Option BindingId) :
    Calm limits (fun _ => True) (settled frame outermost explicit) :=
  (calm_yielded frame outermost explicit).bind fun keep _ =>
    (calm_releaseScopes frame.localScopes keep).bind fun keep _ => calm_releaseMethod frame keep

/-- Hands a result to the calling frame and goes back to it. -/
def resumed (frame : Frame) (keep : Option BindingId) : Action Transfer := do
  push (keep.getD (← get).nothing)
  let top ← currentFrame
  setRegisters fun registers =>
    { registers with
      caller := top.caller, receiver := top.receiver, lastResult := frame.savedResult }
  refocus
  return .goto frame.returnAddress

/-- The machine after the current frame is gone. -/
def popped (frame : Frame) (rest : List Frame) (machine : Machine) : Machine :=
  { machine with
    frames := rest
    stack := machine.stack.drop (machine.stack.length - frame.stackMark) }

theorem returnFromFrame_eq {hasValue : Bool} {explicit : Option BindingId} {machine ready : Machine}
    {frame : Frame} {rest : List Frame} (frames : ready.frames = frame :: rest)
    (result : popExplicit hasValue machine = .ok explicit ready) :
    returnFromFrame hasValue machine
      = (settled frame rest.isEmpty explicit >>= fun keep =>
          if rest.isEmpty then pure (.halt keep) else resumed frame keep)
        (popped frame rest ready) := by
  have pops : popFrame ready = .ok frame { ready with frames := rest } := by
    simp only [popFrame, frames]
  rw [returnFromFrame, bind_of_ok result, bind_of_ok pops]
  simp only [settled, resumed, refocus, bind_assoc]
  rfl

def handed (frame caller : Frame) (keep : Option BindingId) (machine : Machine) : Machine :=
  { machine with
    stack := .binding (keep.getD machine.nothing) :: machine.stack
    registers := { machine.registers with
      caller := caller.caller, receiver := caller.receiver, lastResult := frame.savedResult } }

theorem resumed_eq {frame caller : Frame} {others : List Frame} {keep : Option BindingId}
    {machine : Machine} (frames : machine.frames = caller :: others) :
    resumed frame keep machine = (refocus >>= fun _ => pure (.goto frame.returnAddress))
      (handed frame caller keep machine) := by
  obtain ⟨_, _, _, _, _⟩ := machine
  cases frames
  rfl

/-- A return ends the program, or hands a value to the calling frame and goes back to it. -/
theorem returnFromFrame_spec (hasValue : Bool) {machine : Machine} {frame : Frame}
    {rest : List Frame} (sound : Sound limits machine) (frames : machine.frames = frame :: rest) :
    (∃ fault after, returnFromFrame hasValue machine = .error fault after
        ∧ Fails (returnTakes hasValue) machine.stack fault)
      ∨ ∃ left after, Replaces (returnTakes hasValue) [] machine.stack left
        ∧ ((rest = [] ∧ ∃ result, returnFromFrame hasValue machine = .ok (.halt result) after
            ∧ after.frames = [] ∧ after.stack = left.drop (left.length - frame.stackMark))
          ∨ rest ≠ [] ∧ ∃ id, returnFromFrame hasValue machine = .ok (.goto frame.returnAddress) after
            ∧ Sound limits after ∧ after.frames = rest
            ∧ after.stack = .binding id :: left.drop (left.length - frame.stackMark)) := by
  obtain ⟨fault, after, result, fails⟩ | ⟨explicit, ready, result, -, kept, same, -, replaces⟩ :=
    (effect_popExplicit hasValue).split sound
  · refine .inl ⟨fault, after, ?_, fails⟩
    rw [returnFromFrame, bind_of_error result]
  rw [returnFromFrame_eq (same.trans frames) result]
  have safe : Sound limits (popped frame rest ready) :=
    ⟨kept.bodies, fun index member => kept.names index (List.mem_of_mem_drop member), kept.constants⟩
  obtain ⟨fault, after, freed, ordinary⟩ | ⟨keep, after, freed, -, still, top, -, stack⟩ :=
    (calm_settled frame rest.isEmpty explicit).split safe
  · exact .inl ⟨fault, after, bind_of_error freed, .inl ordinary⟩
  rw [bind_of_ok freed]
  cases rest with
  | nil =>
    exact .inr ⟨ready.stack, after, replaces, .inl ⟨rfl, keep, rfl, top, stack⟩⟩
  | cons caller others =>
    have resumes : resumed frame keep after = (refocus >>= fun _ => pure (.goto frame.returnAddress))
        (handed frame caller keep after) := resumed_eq top
    have again : Sound limits (handed frame caller keep after) := by
      refine ⟨still.bodies, fun index member => ?_, still.constants⟩
      cases member with
      | tail _ member => exact still.names index member
    rw [if_neg (by simp), resumes]
    obtain ⟨fault, last, focused, ordinary⟩ | ⟨_, last, focused, -, final, left, -, height⟩ :=
      calm_refocus.split again
    · exact .inl ⟨fault, last, bind_of_error focused, .inl ordinary⟩
    · refine .inr ⟨ready.stack, last, replaces, .inr ⟨by simp, keep.getD after.nothing,
        bind_of_ok focused, final, left.trans top, ?_⟩⟩
      rw [height]
      exact congrArg _ stack

end Action

end ScopeMachine
