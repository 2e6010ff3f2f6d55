import ScopeMachine.Proofs.CallBracket
import ScopeMachine.Proofs.Machine.Inside

set_option autoImplicit false

/-!
# Focus

The register for the innermost scope is a copy of what the frames and the receiver say. It is set
whenever a block or a frame is opened or left. In between, the receiver may get other attributes, which
the register does not follow.
-/

namespace ScopeMachine

open Heap

/-! ## What the register is a copy of -/

/-- The scope in which bare names are declared by what the current frame has: its innermost block, or
else the attributes of the receiver, or the scope of the program. -/
def Machine.focus (machine : Machine) : ScopeId :=
  match machine.frames with
  | { localScopes := innermost :: _, .. } :: _ => innermost
  | _ => (machine.heap.scopeOf machine.registers.receiver).getD machine.programScope

/-- The register for the innermost scope agrees with the current frame. -/
def Machine.InFocus (machine : Machine) : Prop :=
  machine.registers.localScope = machine.focus

section

variable {machine after : Machine} {frame : Frame} {callers : List Frame}

private theorem Machine.focus_of_block {innermost : ScopeId} {scopes : List ScopeId}
    (current : machine.frames = frame :: callers) (blocks : frame.localScopes = innermost :: scopes) :
    machine.focus = innermost := by
  obtain ⟨_, _, _, _, _⟩ := frame
  cases blocks
  simp only [Machine.focus, current]

theorem Machine.focus_of_flat (flat : machine.openBlocks = 0) :
    machine.focus = (machine.heap.scopeOf machine.registers.receiver).getD machine.programScope := by
  unfold Machine.openBlocks at flat
  unfold Machine.focus
  split
  · next current =>
    rw [current] at flat
    cases flat
  · rfl

theorem Machine.focus_congr (frames : after.frames = machine.frames)
    (opened : machine.openBlocks ≠ 0) : after.focus = machine.focus := by
  unfold Machine.openBlocks at opened
  cases current : machine.frames with
  | nil =>
    rw [current] at opened
    exact absurd rfl opened
  | cons frame callers =>
    rw [current] at opened
    obtain ⟨innermost, scopes, blocks⟩ := List.exists_cons_of_length_pos (Nat.pos_of_ne_zero opened)
    rw [focus_of_block current blocks, focus_of_block (frames.trans current) blocks]

end

/-! ## Actions that set the register -/

/-- An action that sets the register by the current frame, and leaves the frames alone. -/
def Settling {α : Type} (action : Action α) : Prop :=
  ∀ machine value after, action machine = .ok value after →
    after.InFocus ∧ after.frames = machine.frames

theorem Settling.map {α β : Type} {action : Action α} (settling : Settling action) (f : α → β) :
    Settling (action >>= fun value => pure (f value)) := by
  intro machine value after result
  cases first : action machine with
  | error fault middle =>
    rw [Action.bind_of_error first] at result
    cases result
  | ok found middle =>
    rw [Action.bind_of_ok first] at result
    cases result
    exact settling _ _ _ first

namespace Action

private theorem receiverScope_focus {machine after : Machine} {scope : ScopeId}
    (reads : receiverScope machine = .ok scope after) :
    scope = (machine.heap.scopeOf machine.registers.receiver).getD machine.programScope := by
  have unfolds : receiverScope machine = (binding machine.registers.receiver >>= fun receiver =>
    pure (receiver.scope.getD machine.programScope)) machine := rfl
  rw [unfolds] at reads
  cases found : machine.heap.bindings.get? machine.registers.receiver with
  | none =>
    rw [bind_of_error (binding_of_none found)] at reads
    cases reads
  | some value =>
    rw [bind_of_ok (binding_of_get? found)] at reads
    cases reads
    rw [scopeOf, found]
    rfl

private theorem currentLocalScope_focus {machine after : Machine} {scope : ScopeId}
    (reads : currentLocalScope machine = .ok scope after) : scope = machine.focus := by
  have receiver (reads : receiverScope machine = .ok scope after) := receiverScope_focus reads
  obtain ⟨_, _, _, frames, _⟩ := machine
  match frames with
  | { localScopes := innermost :: _, .. } :: _ =>
    cases reads
    rfl
  | [] | { localScopes := [], .. } :: _ => exact receiver reads

/-- The other registers have no part in it. -/
theorem settling_focused {f : Registers → Registers}
    (localScope : ∀ registers, (f registers).localScope = registers.localScope)
    (receiver : ∀ registers, (f registers).receiver = registers.receiver) :
    Settling (currentLocalScope >>= fun localScope =>
      setRegisters fun registers => f { registers with localScope }) := by
  intro machine value after result
  obtain ⟨fault, reads⟩ | ⟨scope, reads⟩ := currentLocalScope_reads machine
  · rw [bind_of_error reads] at result
    cases result
  · rw [bind_of_ok reads] at result
    cases result
    have same : scope = machine.focus := currentLocalScope_focus reads
    refine ⟨?_, rfl⟩
    unfold Machine.InFocus Machine.focus
    dsimp only
    rw [localScope, receiver]
    exact same

private theorem settling_refocus : Settling refocus :=
  settling_focused (f := id) (fun _ => rfl) fun _ => rfl

end Action

/-! ## Instructions -/

/-- How an instruction changes the frames that opens or leaves a block or a frame. -/
inductive Shifts : Opcode → List Frame → List Frame → Prop where
  | opens {frame : Frame} {callers : List Frame} (scope : ScopeId) :
      Shifts .enterLocal (frame :: callers)
        ({ frame with localScopes := scope :: frame.localScopes } :: callers)
  | closes {frame : Frame} {callers : List Frame} {scope : ScopeId} {scopes : List ScopeId}
      (blocks : frame.localScopes = scope :: scopes) :
      Shifts .leaveLocal (frame :: callers) ({ frame with localScopes := scopes } :: callers)
  | calls {opcode : Opcode} (call : opcode = .evaluate ∨ opcode = .evaluateInPlace) (frame : Frame)
      {callers : List Frame} : Shifts opcode callers (frame :: callers)
  | returns {frame : Frame} {callers : List Frame} (inner : callers ≠ []) :
      Shifts .return (frame :: callers) callers

/-- Neither the frames have changed, nor the registers that have to do with scopes, nor the scope of
the program. -/
structure Machine.Abides (before after : Machine) : Prop where
  frames : after.frames = before.frames
  localScope : after.registers.localScope = before.registers.localScope
  receiver : after.registers.receiver = before.registers.receiver
  programScope : after.programScope = before.programScope

theorem Machine.Abides.trans {before middle after : Machine} (first : before.Abides middle)
    (second : middle.Abides after) : before.Abides after :=
  ⟨second.frames.trans first.frames, second.localScope.trans first.localScope,
    second.receiver.trans first.receiver, second.programScope.trans first.programScope⟩

/-- What an instruction does: the frames and the registers are as they were, or the frames have changed
and the register is set by them. -/
def Machine.Refocuses (opcode : Opcode) (before after : Machine) : Prop :=
  opcode ≠ .return ∧ before.Abides after
    ∨ Shifts opcode before.frames after.frames ∧ after.InFocus

/-- An action that does this for an instruction, unless it ends the program. -/
def Refocusing (opcode : Opcode) (action : Action Transfer) : Prop :=
  ∀ machine transfer after, action machine = .ok transfer after →
    (∀ value, transfer ≠ .halt value) → machine.Refocuses opcode after

theorem Continuing.abides {α : Type} {relates : Heap → Heap → Prop} {action : Action α}
    (continuing : Continuing relates action) {machine after : Machine} {value : α}
    (result : action machine = .ok value after) : machine.Abides after := by
  have same := continuing machine
  rw [result] at same
  obtain ⟨_, _, _, _, _, _, _, -, rfl⟩ := same
  exact ⟨rfl, rfl, rfl, rfl⟩

private theorem Continuing.refocusing {relates : Heap → Heap → Prop} {opcode : Opcode}
    {action : Action Transfer} (continuing : Continuing relates action) (stays : opcode ≠ .return) :
    Refocusing opcode action :=
  fun _ _ _ result _ => .inl ⟨stays, continuing.abides result⟩

theorem Steady.refocuses {α : Type} {relates : Heap → Heap → Prop} {opcode : Opcode}
    {action : Action α} {next : α → Action Transfer} (steady : Steady relates action)
    (then_ : ∀ value, Refocusing opcode (next value)) : Refocusing opcode (action >>= next) := by
  intro machine transfer after result goes
  cases first : action machine with
  | error fault middle =>
    rw [Action.bind_of_error first] at result
    cases result
  | ok value middle =>
    have abides := steady.continuing.abides first
    rw [Action.bind_of_ok first] at result
    obtain ⟨stays, onward⟩ | ⟨shifts, focus⟩ := then_ value _ _ _ result goes
    · exact .inl ⟨stays, abides.trans onward⟩
    · exact .inr ⟨abides.frames ▸ shifts, focus⟩

namespace Action

private theorem refocusing_enterLocal : Refocusing .enterLocal (andNext enterLocal) := by
  intro machine transfer after result _
  cases current : machine.frames with
  | nil =>
    obtain ⟨_, _, _, _, _⟩ := machine
    cases current
    cases result
  | cons frame callers =>
    rw [andNext, bind_of_ok (enterLocal_eq current)] at result
    cases result
    exact .inr ⟨current ▸ .opens _, rfl⟩

private theorem refocusing_leaveLocal : Refocusing .leaveLocal (andNext leaveLocal) := by
  intro machine transfer after result _
  cases current : machine.frames with
  | nil =>
    obtain ⟨_, _, _, _, _⟩ := machine
    cases current
    cases result
  | cons frame callers =>
    cases blocks : frame.localScopes with
    | nil =>
      rw [andNext, bind_of_error (leaveLocal_nil current blocks)] at result
      cases result
    | cons scope scopes =>
      cases left : leaveLocal machine with
      | error fault last =>
        rw [andNext, bind_of_error left] at result
        cases result
      | ok value last =>
        rw [andNext, bind_of_ok left] at result
        cases result
        rw [leaveLocal_eq current blocks] at left
        have releases := steady_releaseScope decay_anyChange scope
          (closing frame scopes callers machine)
        cases released : releaseScope scope (closing frame scopes callers machine) with
        | error fault middle =>
          rw [bind_of_error released] at left
          cases left
        | ok value middle =>
          rw [released] at releases
          rw [bind_of_ok released] at left
          obtain ⟨focus, same⟩ := settling_focused
            (f := fun registers => { registers with lastResult := none }) (fun _ => rfl)
            (fun _ => rfl) _ _ _ left
          have frames : after.frames = _ := same.trans releases.frames
          exact .inr ⟨by rw [frames, current]; exact .closes blocks, focus⟩

/-- A method is entered with the register set. -/
theorem refocusing_enterFrame {opcode : Opcode} (call : opcode = .evaluate ∨ opcode = .evaluateInPlace)
    (caller receiver : BindingId) (body : Nat) (methodScope : Option ScopeId) :
    Refocusing opcode (enterFrame caller receiver body methodScope) := by
  intro machine transfer after result _
  rw [enterFrame_eq] at result
  split at result
  · obtain ⟨focus, frames⟩ := settling_refocus.map (fun _ => Transfer.goto body) _ _ _ result
    exact .inr ⟨frames ▸ .calls call _, focus⟩
  · cases result

private theorem refocusing_evaluate (count : Nat) : Refocusing .evaluate (evaluate count) := by
  have change := growth_anyChange.toChange
  rw [evaluate_eq]
  refine (steady_callOperands change count).refocuses fun ⟨caller, method, target, arguments⟩ => ?_
  dsimp only
  split
  · exact (steady_constructArray growth_anyChange method arguments).refocuses
      fun _ => (Steady.pure change _).continuing.refocusing nofun
  · exact ((steady_checkCall change target _).bind change fun _ =>
      steady_bindArguments change target _ _).refocuses fun _ => refocusing_enterFrame (.inl rfl) _ _ _ _

private theorem refocusing_evaluateInPlace (count : Nat) :
    Refocusing .evaluateInPlace (evaluateInPlace count) := by
  have change := growth_anyChange.toChange
  exact (steady_popArguments change count []).refocuses fun arguments =>
    (steady_popBinding change).refocuses fun method =>
    (steady_binding change method).refocuses fun target =>
    (steady_checkCall change target _).refocuses fun _ =>
    (steady_receiverScope change).refocuses fun place =>
    (steady_bindArguments change target _ _).refocuses fun _ =>
    (steady_registers change).refocuses fun registers => refocusing_enterFrame (.inr rfl) _ _ _ _

/-- A return goes back to the calling frame with the register set. -/
theorem returnFromFrame_shifts {hasValue : Bool} {machine after : Machine} {transfer : Transfer}
    (result : returnFromFrame hasValue machine = .ok transfer after)
    (goes : ∀ value, transfer ≠ .halt value) :
    ∃ frame, machine.frames = frame :: after.frames ∧ after.frames ≠ [] ∧ after.InFocus := by
  have pops := steady_popExplicit decay_anyChange.toChange hasValue machine
  cases explicit : popExplicit hasValue machine with
  | error fault middle =>
    rw [returnFromFrame, bind_of_error explicit] at result
    cases result
  | ok value ready =>
    rw [explicit] at pops
    have same : ready.frames = machine.frames := pops.frames
    cases current : machine.frames with
    | nil =>
      have fails : popFrame ready = .error .missingFrame ready := by
        simp only [popFrame, same, current]
      rw [returnFromFrame, bind_of_ok explicit, bind_of_error fails] at result
      cases result
    | cons frame callers =>
      rw [returnFromFrame_eq (same.trans current) explicit] at result
      have frees := steady_settled decay_anyChange frame callers.isEmpty value
        (popped frame callers ready)
      cases freed : settled frame callers.isEmpty value (popped frame callers ready) with
      | error fault last =>
        rw [bind_of_error freed] at result
        cases result
      | ok keep last =>
        rw [freed] at frees
        have left : last.frames = callers := frees.frames
        rw [bind_of_ok freed] at result
        cases callers with
        | nil =>
          cases result
          exact absurd rfl (goes keep)
        | cons calling others =>
          rw [if_neg (by simp), resumed_eq left] at result
          obtain ⟨focus, frames⟩ :=
            settling_refocus.map (fun _ => Transfer.goto frame.returnAddress) _ _ _ result
          have back : after.frames = calling :: others := frames.trans left
          exact ⟨frame, by rw [back], by simp [back], focus⟩

private theorem refocusing_returnFromFrame (hasValue : Bool) : Refocusing .return (returnFromFrame hasValue) := by
  intro machine transfer after result goes
  obtain ⟨frame, current, inner, focus⟩ := returnFromFrame_shifts result goes
  exact .inr ⟨current ▸ .returns inner, focus⟩

/-- Every instruction that does not end the program leaves the register in focus where it changes the
frames. -/
theorem refocusing_step (names : NamePool) (opcode : Opcode) (operand : Nat) :
    Refocusing opcode (step names opcode operand) := by
  by_cases enter : opcode = .enterLocal
  · subst enter
    exact refocusing_enterLocal
  by_cases leave : opcode = .leaveLocal
  · subst leave
    exact refocusing_leaveLocal
  by_cases call : opcode = .evaluate
  · subst call
    exact refocusing_evaluate operand
  by_cases inPlace : opcode = .evaluateInPlace
  · subst inPlace
    exact refocusing_evaluateInPlace operand
  by_cases returns : opcode = .return
  · subst returns
    exact refocusing_returnFromFrame _
  · exact (continuing_step growth_anyChange names operand enter leave call inPlace returns).refocusing
      returns

end Action

/-! ## Runs -/

theorem Machine.advance_refocuses {compiled : Compiled} {machine after : Machine}
    (next : machine.advance compiled = .running after) :
    ∃ opcode, machine.nextOpcode? compiled = some opcode ∧ machine.Refocuses opcode after := by
  have goes {instruction : Instruction} {transfer : Transfer} {final : Machine} (target : Nat)
      (result : Action.step compiled.pools.names instruction.opcode
        (machine.registers.extended ||| instruction.operand.toNat)
        (machine.fetch compiled.code) = .ok transfer final)
      (goes : ∀ value, transfer ≠ .halt value) : machine.Refocuses instruction.opcode (final.goto target) :=
    (Action.refocusing_step _ _ _ _ _ _ result goes).imp_left fun
      ⟨stays, frames, localScope, receiver, programScope⟩ =>
        ⟨stays, frames, localScope, receiver, programScope⟩
  unfold Machine.advance at next
  dsimp only at next
  split at next
  · cases next
  · next instruction there =>
    refine ⟨instruction.opcode, by rw [Machine.nextOpcode?, there, Option.map_some], ?_⟩
    split at next
    · next extends_ =>
      unfold Machine.extend at next
      split at next
      · cases next
      · cases next
        exact .inl ⟨by simp [extends_], rfl, rfl, rfl, rfl⟩
    · split at next <;> cases next
      · next result => exact goes _ result (by simp)
      · next result => exact goes _ result (by simp)

/-- Collecting a byte of an operand leaves the heap alone. -/
theorem Machine.heap_of_extends {compiled : Compiled} {machine after : Machine}
    (here : machine.nextOpcode? compiled = some .extendArgument)
    (next : machine.advance compiled = .running after) : after.heap = machine.heap := by
  obtain ⟨instruction, there, extends_⟩ := Option.map_eq_some_iff.mp here
  simp only [Machine.advance, there, extends_, if_true, Machine.extend] at next
  split at next
  · cases next
  · cases next
    rfl

/-- The next dispatch gives a binding other attributes. -/
def Machine.Redirects (machine : Machine) (compiled : Compiled) (id : BindingId) : Prop :=
  ∃ next, machine.advance compiled = .running next ∧ next.heap.scopeOf id ≠ machine.heap.scopeOf id

/-- Since an earlier dispatch gave a binding other attributes, a run has had the frames that it has
now. -/
structure Machine.RedirectedSince (start : Machine) (compiled : Compiled) (id : BindingId)
    (earlier steps : Nat) (machine : Machine) : Prop where
  before : earlier < steps
  redirects : ∃ before, start.run compiled earlier = .running before ∧ before.Redirects compiled id
  since : ∀ between, earlier ≤ between → between ≤ steps →
    ∃ passed, start.run compiled between = .running passed ∧ passed.frames = machine.frames

/-- A running machine has its register in focus, unless its receiver got other attributes since the
register was set, and no block is open. -/
theorem focus_run {compiled : Compiled} {start machine : Machine} (focused : start.InFocus)
    (steps : Nat) (reached : start.run compiled steps = .running machine) :
    machine.InFocus ∨ machine.openBlocks = 0 ∧ ∃ earlier,
      start.RedirectedSince compiled machine.registers.receiver earlier steps machine := by
  induction steps generalizing machine with
  | zero =>
    cases reached
    exact .inl focused
  | succ steps ih =>
    have ran := reached
    rw [Machine.run_succ] at ran
    cases past : start.run compiled steps with
    | finished | failed =>
      rw [past] at ran
      cases ran
    | running before =>
      rw [past] at ran
      have next : before.advance compiled = .running machine := ran
      obtain ⟨opcode, -, ⟨-, frames, localScope, receiver, programScope⟩ | ⟨-, focus⟩⟩ :=
        Machine.advance_refocuses next
      case inr => exact .inl focus
      have here {between : Nat} (late : between = steps ∨ between = steps + 1) :
          ∃ passed, start.run compiled between = .running passed
            ∧ passed.frames = machine.frames := by
        obtain rfl | rfl := late
        · exact ⟨before, past, frames.symm⟩
        · exact ⟨machine, reached, rfl⟩
      have blocks : machine.openBlocks = before.openBlocks := by
        rw [Machine.openBlocks, Machine.openBlocks, frames]
      by_cases opened : before.openBlocks = 0
      · obtain focus | ⟨-, earlier, less, redirects, since⟩ := ih past
        · by_cases same : machine.heap.scopeOf before.registers.receiver
              = before.heap.scopeOf before.registers.receiver
          · left
            rw [Machine.InFocus, localScope, focus, Machine.focus_of_flat opened,
              Machine.focus_of_flat (blocks.trans opened), receiver, same, programScope]
          · refine .inr ⟨blocks.trans opened, steps, Nat.lt_succ_self steps,
              ⟨before, past, machine, next, receiver ▸ same⟩, fun between low high => here ?_⟩
            omega
        · refine .inr ⟨blocks.trans opened, earlier, Nat.lt_succ_of_lt less, receiver ▸ redirects,
            fun between low high => ?_⟩
          obtain inside | last := Nat.lt_or_eq_of_le high
          · obtain ⟨passed, there, same⟩ := since between low (Nat.le_of_lt_succ inside)
            exact ⟨passed, there, same.trans frames.symm⟩
          · exact here (.inr last)
      · obtain focus | ⟨flat, -⟩ := ih past
        · left
          rw [Machine.InFocus, localScope, focus, Machine.focus_congr frames opened]
        · exact absurd flat opened

/-- Between two times at which a binding has different attributes, a dispatch gives it others. -/
theorem redirects_between {compiled : Compiled} {start : Machine} {id : BindingId} {first last : Nat}
    {machine after : Machine} (order : first ≤ last)
    (begins : start.run compiled first = .running machine)
    (ends : start.run compiled last = .running after)
    (differ : after.heap.scopeOf id ≠ machine.heap.scopeOf id) :
    ∃ steps before, first ≤ steps ∧ steps < last ∧ start.run compiled steps = .running before
      ∧ before.Redirects compiled id := by
  induction last generalizing after with
  | zero =>
    cases Nat.le_zero.mp order
    cases begins.symm.trans ends
    exact absurd rfl differ
  | succ last ih =>
    obtain less | same := Nat.lt_or_eq_of_le order
    · rw [Machine.run_succ] at ends
      cases past : start.run compiled last with
      | finished | failed =>
        rw [past] at ends
        cases ends
      | running before =>
        rw [past] at ends
        by_cases same : before.heap.scopeOf id = machine.heap.scopeOf id
        · exact ⟨last, before, Nat.le_of_lt_succ less, Nat.lt_succ_self last, past, after, ends,
            same ▸ differ⟩
        · obtain ⟨steps, earlier, low, high, reached, redirects⟩ :=
            ih (Nat.le_of_lt_succ less) past same
          exact ⟨steps, earlier, low, Nat.lt_succ_of_lt high, reached, redirects⟩
    · subst same
      cases begins.symm.trans ends
      exact absurd rfl differ

end ScopeMachine
