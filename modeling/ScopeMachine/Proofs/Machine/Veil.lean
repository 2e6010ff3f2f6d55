import ScopeMachine.Proofs.Machine.Building

set_option autoImplicit false

/-!
# Positions are invisible

What an instruction does to a machine does not depend on where the machine stands in the code, on
the bytes collected for an operand, or on where the calls return to. A veil replaces all of these,
and every action commutes with it.
-/

namespace ScopeMachine

namespace Veil

variable (veil : Veil)

def transfer : Transfer → Transfer
  | .next => .next
  | .goto target => .goto (veil.address target)
  | .halt result => .halt result

end Veil

variable {α β : Type}

namespace Action

theorem bind_of_ok {action : Action α} {next : α → Action β} {machine after : Machine} {value : α}
    (result : action machine = .ok value after) : (action >>= next) machine = next value after := by
  show EStateM.bind action next machine = next value after
  simp only [EStateM.bind, result]

theorem bind_of_error {action : Action α} {next : α → Action β} {machine after : Machine}
    {fault : Fault} (result : action machine = .error fault after) :
    (action >>= next) machine = .error fault after := by
  show EStateM.bind action next machine = .error fault after
  simp only [EStateM.bind, result]

theorem attempt_of_ok {change : Heap → Except Stale α × Heap} {machine : Machine}
    {value : α} {heap : Heap} (made : change machine.heap = (.ok value, heap)) :
    attempt change machine = .ok value { machine with heap } := by
  simp [attempt, Machine.withHeap, made]

theorem attempt_of_error {change : Heap → Except Stale α × Heap} {machine : Machine}
    {stale : Stale} {heap : Heap} (fails : change machine.heap = (.error stale, heap)) :
    attempt change machine = .error (.staleHandle stale) { machine with heap } := by
  simp [attempt, Machine.withHeap, fails]

end Action

def Veil.result (veil : Veil) (f : α → β) :
    EStateM.Result Fault Machine α → EStateM.Result Fault Machine β
  | .ok value machine => .ok (f value) (veil.hide machine)
  | .error fault machine => .error fault (veil.hide machine)

/-- The second action does behind a veil what the first one does, up to the value. -/
def Shows (veil : Veil) (f : α → β) (plain : Action α) (veiled : Action β) : Prop :=
  ∀ machine, veiled (veil.hide machine) = veil.result f (plain machine)

/-- An action that does the same behind a veil. -/
def Blind (veil : Veil) (action : Action α) : Prop :=
  Shows veil id action action

theorem Shows.bind {γ δ : Type} {veil : Veil} {f : α → β} {g : γ → δ} {plain : Action α}
    {veiled : Action β} {next : α → Action γ} {then_ : β → Action δ}
    (first : Shows veil f plain veiled) (second : ∀ value, Shows veil g (next value) (then_ (f value))) :
    Shows veil g (plain >>= next) (veiled >>= then_) := by
  intro machine
  show EStateM.bind veiled then_ (veil.hide machine) = veil.result g (EStateM.bind plain next machine)
  simp only [EStateM.bind, first machine]
  cases plain machine with
  | ok value machine => exact second value machine
  | error fault machine => rfl

namespace Blind

variable {veil : Veil} {action : Action α} {next : α → Action β}

theorem pure (value : α) : Blind veil (Pure.pure value) :=
  fun _ => rfl

theorem throw (fault : Fault) : Blind veil (MonadExcept.throw fault : Action α) :=
  fun _ => rfl

theorem bind (first : Blind veil action) (second : ∀ value, Blind veil (next value)) :
    Blind veil (action >>= next) :=
  Shows.bind first second

/-- A continuation may read all of a machine that a veil does not replace. -/
theorem get {next : Machine → Action β} (same : ∀ machine, next (veil.hide machine) = next machine)
    (second : ∀ machine, Blind veil (next machine)) : Blind veil (MonadState.get >>= next) := by
  intro machine
  show next (veil.hide machine) (veil.hide machine) = veil.result id (next machine machine)
  rw [same, second]

end Blind

/-! ## Primitive actions -/

namespace Action

variable (veil : Veil)

private theorem blind_inspect (f : Heap → Except Stale α) : Blind veil (inspect f) := by
  intro machine
  simp only [inspect, Veil.hide]
  cases f machine.heap <;> rfl

private theorem blind_change (f : Heap → α × Heap) : Blind veil (change f) :=
  fun _ => rfl

private theorem blind_attempt (f : Heap → Except Stale α × Heap) : Blind veil (attempt f) := by
  intro machine
  simp only [attempt, Machine.withHeap, Veil.hide]
  obtain ⟨found, heap⟩ := f machine.heap
  cases found <;> rfl

private theorem blind_setRegisters {f : Registers → Registers}
    (same : ∀ registers, f (veil.registers registers) = veil.registers (f registers)) :
    Blind veil (setRegisters f) := by
  intro machine
  exact congrArg (fun registers => EStateM.Result.ok () { veil.hide machine with registers })
    (same machine.registers)

private theorem shows_popFrame : Shows veil veil.frame popFrame popFrame := by
  intro machine
  obtain ⟨_, _, _, frames, _⟩ := machine
  cases frames <;> rfl

private theorem shows_currentFrame : Shows veil veil.frame currentFrame currentFrame := by
  intro machine
  obtain ⟨_, _, _, frames, _⟩ := machine
  cases frames <;> rfl

private theorem shows_get : Shows veil veil.hide get get :=
  fun _ => rfl

end Action

/-- What neither calls nor returns does the same behind a veil. -/
theorem Built.blind {may : Footprint} {action : Action α} (built : Built may action)
    (calls : ¬ may.calls) (veil : Veil) : Blind veil action := by
  induction built with
  | pure value => exact .pure value
  | throw => exact .throw _
  | bind _ _ first second => exact first.bind second
  | get same _ second => exact .get (same veil) second
  | inspect | findInherited => exact Action.blind_inspect veil _
  | allocate | modifyBinding | allocateScope | freeBinding => exact Action.blind_change veil _
  | declare | redeclare | copyScope => exact Action.blind_attempt veil _
  | releaseScope | freeScope => exact (Action.blind_attempt veil _).bind fun _ => .pure _
  | intern | pushItem | truncate | writeLine | report => exact fun _ => rfl
  | pop | peek =>
    intro machine
    obtain ⟨_, _, stack, _⟩ := machine
    cases stack <;> rfl
  | swap =>
    intro machine
    obtain ⟨_, _, stack, _⟩ := machine
    match stack with
    | [] | [_] | _ :: _ :: _ => rfl
  | readLine =>
    intro machine
    simp only [Machine.withConsole, Veil.hide]
    obtain ⟨line, console⟩ := machine.console.readLine
    cases line <;> rfl
  | compared | finished => exact Action.blind_setRegisters veil fun _ => rfl
  | setRegisters _ same => exact Action.blind_setRegisters veil (same veil)
  | setLocalScopes =>
    intro machine
    obtain ⟨_, _, _, frames, _⟩ := machine
    cases frames <;> rfl
  | view allowed | pushFrame allowed | popFrame allowed => exact absurd allowed calls

theorem Blind.of_built {action : Action α} (built : Built .inFrame action) (veil : Veil) :
    Blind veil action :=
  built.blind id veil

/-! ## Positions are kept -/

/-- Two machines stand at the same position. -/
def SamePosition (first second : Registers) : Prop :=
  first.ip = second.ip ∧ first.extended = second.extended ∧ first.extensions = second.extensions

/-- The veil that replaces a position by itself. -/
def Registers.ownVeil (registers : Registers) : Veil :=
  ⟨registers.ip, registers.extended, registers.extensions, id⟩

private theorem hide_ownVeil (machine : Machine) : machine.registers.ownVeil.hide machine = machine := by
  obtain ⟨_, _, _, frames, _⟩ := machine
  have frame : ∀ registers : Registers, registers.ownVeil.frame = id := fun _ => rfl
  simp only [Veil.hide, frame, List.map_id]
  rfl

private theorem samePosition_hide (registers : Registers) (machine : Machine) :
    SamePosition (registers.ownVeil.hide machine).registers registers :=
  ⟨rfl, rfl, rfl⟩

/-- The position of the machine of a result. -/
def KeepsPosition (registers : Registers) : EStateM.Result Fault Machine α → Prop
  | .ok _ machine => SamePosition machine.registers registers
  | .error _ machine => SamePosition machine.registers registers

/-- What replaces a position by itself leaves it. -/
theorem keepsPosition_of_hide {action : Action α} {machine : Machine} {f : α → α}
    (blind : action (machine.registers.ownVeil.hide machine)
      = machine.registers.ownVeil.result f (action machine)) :
    KeepsPosition machine.registers (action machine) := by
  rw [hide_ownVeil] at blind
  rw [blind]
  cases action machine with
  | ok value after => exact samePosition_hide _ after
  | error fault after => exact samePosition_hide _ after

private theorem Blind.keepsPosition {action : Action α} (blind : ∀ veil, Blind veil action)
    (machine : Machine) : KeepsPosition machine.registers (action machine) :=
  keepsPosition_of_hide (blind _ machine)

/-- An action that does the same behind a veil at an offset of the code. -/
def BlindAt (veil : Veil) (ip : Nat) (action : Action α) : Prop :=
  ∀ machine, machine.registers.ip = ip →
    action (veil.hide machine) = veil.result id (action machine)

private theorem Blind.bindAt {veil : Veil} {ip : Nat} {action : Action α} {next : α → Action β}
    (first : ∀ veil, Blind veil action) (second : ∀ value, BlindAt veil ip (next value)) :
    BlindAt veil ip (action >>= next) := by
  intro machine here
  have kept := Blind.keepsPosition first machine
  show EStateM.bind action next (veil.hide machine) = veil.result id (EStateM.bind action next machine)
  simp only [EStateM.bind, first veil machine]
  cases result : action machine with
  | ok value after =>
    rw [result] at kept
    exact second value after (kept.1.trans here)
  | error fault after => rfl

namespace Action

variable {veil : Veil}

def newFrame (caller receiver : BindingId) (methodScope : Option ScopeId) (machine : Machine) :
    Frame :=
  { returnAddress := machine.registers.ip + 1, stackMark := machine.stack.length, caller, receiver,
    methodScope, savedResult := machine.registers.lastResult }

/-- The machine after a call has put its frame. -/
def opened (caller receiver : BindingId) (methodScope : Option ScopeId) (machine : Machine) :
    Machine :=
  { machine with
    frames := newFrame caller receiver methodScope machine :: machine.frames
    registers := { machine.registers with caller, receiver, lastResult := none } }

/-- Sets the innermost scope by the current frame. -/
def refocus : Action Unit := do
  let localScope ← currentLocalScope
  setRegisters fun registers => { registers with localScope }

private theorem blind_refocus : Blind veil refocus :=
  (Blind.of_built built_currentLocalScope veil).bind fun _ => blind_setRegisters veil fun _ => rfl

theorem enterFrame_eq (caller receiver : BindingId) (body : Nat) (methodScope : Option ScopeId)
    (machine : Machine) :
    enterFrame caller receiver body methodScope machine
      = if machine.frames.length < machine.config.maxCallDepth then
          (refocus >>= fun _ => pure (.goto body)) (opened caller receiver methodScope machine)
        else .error (.callDepthExceeded machine.config.maxCallDepth) machine := by
  have reads : (get : Action Machine) machine = .ok machine machine := rfl
  rw [refocus, bind_assoc, enterFrame, bind_of_ok reads]
  split <;> rfl

/-- A call keeps the offset behind it, so the veil has to agree on that one. -/
theorem blindAt_enterFrame {ip : Nat} (same : veil.address (ip + 1) = veil.ip + 1)
    (caller receiver : BindingId) (body : Nat) (methodScope : Option ScopeId) :
    BlindAt veil ip (enterFrame caller receiver body methodScope) := by
  intro machine here
  have opens : opened caller receiver methodScope (veil.hide machine)
      = veil.hide (opened caller receiver methodScope machine) := by
    subst here
    simp [opened, newFrame, Veil.hide, Veil.frame, Veil.registers, same]
  have frames : (veil.hide machine).frames.length = machine.frames.length := List.length_map _
  have config : (veil.hide machine).config = machine.config := rfl
  rw [enterFrame_eq, enterFrame_eq, opens, frames, config]
  split
  · exact blind_refocus.bind (fun _ => .pure _) _
  · rfl

theorem blindAt_evaluate {ip : Nat} (same : veil.address (ip + 1) = veil.ip + 1) (count : Nat) :
    BlindAt veil ip (evaluate count) := by
  refine Blind.bindAt (.of_built (built_popArguments count [])) fun arguments => ?_
  refine Blind.bindAt (.of_built built_popBinding) fun method => ?_
  refine Blind.bindAt (.of_built built_popBinding) fun caller => ?_
  refine Blind.bindAt (.of_built (built_binding method)) fun target => ?_
  split
  · exact fun machine _ =>
      (Blind.of_built (built_constructArray trivial trivial method arguments) veil).bind (fun _ => .pure _) machine
  · refine Blind.bindAt (.of_built (built_checkCall _ _)) fun _ => ?_
    refine Blind.bindAt (.of_built (built_bindArguments _ _ _)) fun _ => ?_
    exact blindAt_enterFrame same _ _ _ _

private theorem blindAt_evaluateInPlace {ip : Nat} (same : veil.address (ip + 1) = veil.ip + 1)
    (count : Nat) : BlindAt veil ip (evaluateInPlace count) := by
  refine Blind.bindAt (.of_built (built_popArguments count [])) fun arguments => ?_
  refine Blind.bindAt (.of_built built_popBinding) fun method => ?_
  refine Blind.bindAt (.of_built (built_binding method)) fun target => ?_
  refine Blind.bindAt (.of_built (built_checkCall _ _)) fun _ => ?_
  refine Blind.bindAt (.of_built built_receiverScope) fun scope => ?_
  refine Blind.bindAt (.of_built (built_bindArguments _ _ _)) fun _ => ?_
  exact fun machine here => blindAt_enterFrame same _ _ _ _ machine here

/-- A return goes where the veil puts the return address. -/
theorem shows_returnFromFrame (hasValue : Bool) :
    Shows veil veil.transfer (returnFromFrame hasValue) (returnFromFrame hasValue) := by
  refine Shows.bind (Blind.of_built (built_popExplicit hasValue) veil) fun explicit => ?_
  refine Shows.bind (shows_popFrame veil) fun frame => ?_
  refine Shows.bind (Blind.of_built (.truncate frame.stackMark) veil) fun _ => ?_
  refine Shows.bind (shows_get veil) fun machine => ?_
  have frames : (veil.hide machine).frames.isEmpty = machine.frames.isEmpty := by
    simp [Veil.hide]
  rw [frames]
  refine Shows.bind (Blind.of_built (built_yielded frame _ explicit) veil) fun keep => ?_
  refine Shows.bind (Blind.of_built (built_releaseScopes trivial frame.localScopes keep) veil) fun keep => ?_
  refine Shows.bind (Blind.of_built (built_releaseMethod trivial frame keep) veil) fun keep => ?_
  split
  · exact fun _ => rfl
  · refine Shows.bind (shows_get veil) fun machine => ?_
    refine Shows.bind (Blind.of_built (built_push _) veil) fun _ => ?_
    refine Shows.bind (shows_currentFrame veil) fun top => ?_
    refine Shows.bind (blind_setRegisters veil ?_) fun _ => ?_
    · exact fun _ => rfl
    · refine Shows.bind (Blind.of_built built_currentLocalScope veil) fun localScope => ?_
      refine Shows.bind (blind_setRegisters veil ?_) fun _ => ?_
      · exact fun _ => rfl
      · exact fun _ => rfl

/-! ## Instructions -/

/-- An instruction that neither calls nor returns does the same behind a veil. -/
theorem blind_step (veil : Veil) (names : NamePool) {opcode : Opcode} (operand : Nat)
    (evaluate : opcode ≠ .evaluate) (inPlace : opcode ≠ .evaluateInPlace)
    (returns : opcode ≠ .return) : Blind veil (step names opcode operand) :=
  (built_step names opcode operand).blind (by simp [evaluate, inPlace, returns]) veil

/-- No instruction changes the position of the machine. -/
theorem keepsPosition_step (names : NamePool) (opcode : Opcode) (operand : Nat) (machine : Machine) :
    KeepsPosition machine.registers (step names opcode operand machine) := by
  by_cases call : opcode = .evaluate
  · subst call
    exact keepsPosition_of_hide (blindAt_evaluate rfl operand machine rfl)
  · by_cases inPlace : opcode = .evaluateInPlace
    · subst inPlace
      exact keepsPosition_of_hide (blindAt_evaluateInPlace rfl operand machine rfl)
    · by_cases returns : opcode = .return
      · subst returns
        exact keepsPosition_of_hide (shows_returnFromFrame (operand ≠ 0) machine)
      · exact keepsPosition_of_hide (blind_step _ names operand call inPlace returns machine)

end Action

end ScopeMachine
