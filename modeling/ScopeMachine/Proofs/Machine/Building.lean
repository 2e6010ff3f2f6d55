import ScopeMachine.Machine.Step
import ScopeMachine.Proofs.Store.Chains

set_option autoImplicit false

/-!
# How instructions are put together

Every instruction is a sequence of few primitive actions. A footprint says which of the less common ones
it may use. What holds of the primitive actions and of sequences of actions holds of instructions.
-/

namespace ScopeMachine

/-! ## Positions -/

/-- What replaces the position of a machine: an offset, collected bytes and their number, and a map
of the return addresses. -/
structure Veil where
  ip : Nat
  extended : Nat
  extensions : Nat
  address : Nat → Nat

namespace Veil

variable (veil : Veil)

/-- Replaces the return address of a frame. -/
def frame (frame : Frame) : Frame :=
  { frame with returnAddress := veil.address frame.returnAddress }

/-- Replaces the position in the registers. -/
def registers (registers : Registers) : Registers :=
  { registers with ip := veil.ip, extended := veil.extended, extensions := veil.extensions }

/-- Replaces the position of a machine. -/
def hide (machine : Machine) : Machine :=
  { machine with
    registers := veil.registers machine.registers
    frames := machine.frames.map veil.frame }

end Veil

/-! ## Faults -/

/-- The fault of an operand with too many extensions, or of parents without end. -/
def Fault.isUnbounded : Fault → Bool
  | .operandOverflow _ | .staleHandle .endless => true
  | _ => false

/-! ## Primitive actions -/

/-- What an action may do besides reading, storing values and working on the stack. -/
structure Footprint where
  /-- To report a trouble. -/
  reports : Prop
  /-- To search along the parents of a scope. -/
  climbs : Prop
  /-- To make scopes. -/
  grows : Prop
  /-- To free bindings and scopes. -/
  frees : Prop
  /-- To change the comparison or the last result. -/
  notes : Prop
  /-- To change the other registers, or the blocks of the current frame. -/
  shifts : Prop
  /-- To open and close frames, and to look at the position. -/
  calls : Prop

namespace Footprint

/-- To leave the frames, the registers and the number of scopes alone. -/
def plain : Footprint :=
  ⟨True, True, False, False, False, False, False⟩

def growing : Footprint :=
  { plain with grows := True }

def freeing : Footprint :=
  { plain with frees := True }

/-- Anything but calls and returns. -/
def inFrame : Footprint :=
  ⟨True, True, True, True, True, True, False⟩

/-- Anything but reports. -/
def silent : Footprint :=
  ⟨False, True, True, True, True, True, True⟩

/-- Anything but a search along parents. -/
def shallow : Footprint :=
  ⟨True, False, True, True, True, True, True⟩

end Footprint

variable {α β : Type}

/-- An action that is a sequence of primitive actions. What is read of the machine without a permission
does not depend on its position. -/
inductive Built (may : Footprint) : {α : Type} → Action α → Prop where
  | pure {α : Type} (value : α) : Built may (Pure.pure value)
  | throw {α : Type} {fault : Fault} (bounded : fault.isUnbounded = false) :
      Built may (MonadExcept.throw fault : Action α)
  | bind {α β : Type} {action : Action α} {next : α → Action β} (first : Built may action)
      (second : ∀ value, Built may (next value)) : Built may (action >>= next)
  | get {β : Type} {next : Machine → Action β}
      (same : ∀ (veil : Veil) (machine : Machine), next (veil.hide machine) = next machine)
      (second : ∀ machine, Built may (next machine)) : Built may (MonadState.get >>= next)
  | inspect {α : Type} {f : Heap → Except Stale α} (ends : ∀ heap, f heap ≠ .error .endless) :
      Built may (Action.inspect f)
  | findInherited (allowed : may.climbs) (scope : ScopeId) (name : String) :
      Built may (Action.findInherited scope name)
  | allocate (value : Binding) : Built may (Action.allocate value)
  | modifyBinding (id : BindingId) (f : Binding → Binding) :
      Built may (Action.change fun heap => ((), heap.modifyBinding id f))
  | declare (scope : ScopeId) (value : Binding) : Built may (Action.declare scope value)
  | redeclare (scope : ScopeId) (value : Binding) : Built may (Action.redeclare scope value)
  | intern (payload : Payload) : Built may (Action.intern payload)
  | allocateScope (allowed : may.grows) (scope : Scope) : Built may (Action.allocateScope scope)
  | copyScope (allowed : may.grows) (source : ScopeId) : Built may (Action.copyScope source)
  | releaseScope (allowed : may.frees) (owner : ScopeId) : Built may (Action.releaseScope owner)
  | freeScope (allowed : may.frees) (owner : ScopeId) : Built may (Action.freeScope owner)
  | freeBinding (allowed : may.frees) (id : BindingId) : Built may (Action.freeBinding id)
  | pushItem (item : StackItem) : Built may (Action.pushItem item)
  | pop : Built may Action.pop
  | peek : Built may Action.peek
  | truncate (height : Nat) : Built may (Action.truncate height)
  | swap : Built may fun machine : Machine =>
      match machine.stack with
      | first :: second :: rest => .ok () { machine with stack := second :: first :: rest }
      | _ => .error .stackUnderflow machine
  | writeLine (text : String) : Built may fun machine : Machine =>
      match machine.withConsole fun console => ((), console.writeLine text) with
      | (_, machine) => .ok () machine
  | readLine : Built may fun machine : Machine =>
      match machine.withConsole Console.readLine with
      | (some line, machine) => .ok line machine
      | (none, machine) => .error (.input invalidInput) machine
  | report (allowed : may.reports) (trouble : Trouble) : Built may (Action.report trouble)
  | compared (allowed : may.notes) (comparison : UInt8) :
      Built may (Action.setRegisters fun registers => { registers with comparison })
  | finished (allowed : may.notes) (result : BindingId) :
      Built may (Action.setRegisters fun registers => { registers with lastResult := some result })
  | setRegisters (allowed : may.shifts) {f : Registers → Registers}
      (same : ∀ (veil : Veil) (registers : Registers),
        f (veil.registers registers) = veil.registers (f registers)) :
      Built may (Action.setRegisters f)
  | setLocalScopes (allowed : may.shifts) (f : List ScopeId → List ScopeId) :
      Built may (Action.setLocalScopes f)
  | view (allowed : may.calls) : Built may (MonadState.get : Action Machine)
  | pushFrame (allowed : may.calls) (frame : Frame) (caller receiver : BindingId) :
      Built may (modify fun machine : Machine => { machine with
        frames := frame :: machine.frames
        registers := { machine.registers with caller, receiver, lastResult := none } })
  | popFrame (allowed : may.calls) : Built may Action.popFrame

namespace Built

variable {may : Footprint}

theorem registers {next : Registers → Action β}
    (same : ∀ (veil : Veil) (registers : Registers), next (veil.registers registers) = next registers)
    (second : ∀ registers, Built may (next registers)) : Built may (Action.registers >>= next) := by
  show Built may (MonadState.get >>= fun machine => next machine.registers)
  exact .get (fun veil machine => same veil machine.registers) fun machine => second _

theorem currentFrame {next : Frame → Action β}
    (same : ∀ (veil : Veil) (frame : Frame), next (veil.frame frame) = next frame)
    (second : ∀ frame, Built may (next frame)) : Built may (Action.currentFrame >>= next) := by
  rw [Action.currentFrame, bind_assoc]
  refine .get (fun veil machine => ?_) fun machine => ?_
  · obtain ⟨_, _, _, frames, _⟩ := machine
    cases frames with
    | nil => rfl
    | cons frame rest => exact same veil frame
  · split
    · exact second _
    · exact .throw rfl

end Built

namespace Action

variable {may : Footprint}

/-! ## The heap and the stack -/

theorem built_binding (id : BindingId) : Built may (binding id) :=
  .inspect fun _ => Heap.binding_ne_endless id

private theorem built_scope (id : ScopeId) : Built may (scope id) :=
  .inspect fun _ => Heap.scope_ne_endless id

theorem built_findImmediate (id : ScopeId) (name : String) : Built may (findImmediate id name) :=
  .inspect fun _ => Heap.findImmediate_ne_endless

theorem built_updateBinding (id : BindingId) (f : Binding → Binding) :
    Built may (updateBinding id f) :=
  (built_binding id).bind fun _ => .modifyBinding id f

theorem built_push (id : BindingId) : Built may (push id) :=
  .pushItem _

theorem built_popBinding : Built may popBinding :=
  Built.pop.bind fun item =>
    match item with
    | .binding _ => .pure _
    | .name _ => .throw rfl

theorem built_popName : Built may popName :=
  Built.pop.bind fun item =>
    match item with
    | .name _ => .pure _
    | .binding _ => .throw rfl

private theorem built_peekBinding : Built may peekBinding :=
  Built.peek.bind fun item =>
    match item with
    | .binding _ => .pure _
    | .name _ => .throw rfl

theorem built_popArguments (count : Nat) (arguments : List BindingId) :
    Built may (popArguments count arguments) := by
  induction count generalizing arguments with
  | zero => exact .pure _
  | succ count ih => exact built_popBinding.bind fun argument => ih (argument :: arguments)

theorem built_receiverScope : Built may receiverScope :=
  .get (fun _ _ => rfl) fun _ => (built_binding _).bind fun _ => .pure _

theorem built_currentLocalScope : Built may currentLocalScope := by
  refine .get (fun veil machine => ?_) fun machine => ?_
  · obtain ⟨_, _, _, frames, _⟩ := machine
    match frames with
    | [] => rfl
    | { localScopes := [], .. } :: _ => rfl
    | { localScopes := _ :: _, .. } :: _ => rfl
  · split
    · exact .pure _
    · exact built_receiverScope

/-! ## Values -/

private theorem built_disposableScope : Built may disposableScope := by
  refine .get (fun veil machine => ?_) fun machine => ?_
  · obtain ⟨_, _, _, frames, _⟩ := machine
    cases frames <;> rfl
  · split <;> exact .pure _

private theorem built_adopt (value : Binding) : Built may (adopt value) :=
  built_disposableScope.bind fun scope =>
    match scope with
    | some _ => .declare _ value
    | none => .allocate value

theorem built_temporary (payload : Payload) : Built may (temporary payload) := by
  unfold temporary
  split
  · exact .intern _
  · exact .intern _
  · refine built_disposableScope.bind fun scope => ?_
    cases scope with
    | some scope => exact .declare _ _
    | none => exact .intern _

private theorem built_recover (reports : may.reports) (trouble : Trouble) : Built may (recover trouble) :=
  (Built.report reports trouble).bind fun _ => .get (fun _ _ => rfl) fun _ => built_push _

/-! ## Names and elements -/

theorem built_keyword (word : Keyword) : Built may (keyword word) := by
  cases word with
  | caller => exact .registers (fun _ _ => rfl) fun _ => .pure _
  | self => exact .registers (fun _ _ => rfl) fun _ => .pure _
  | it => exact .get (fun _ _ => rfl) fun _ => .pure _

private theorem built_findThrough {find : ScopeId → String → Action (Option BindingId)}
    (finds : ∀ scope name, Built may (find scope name)) (id : BindingId) (name : String) :
    Built may (findThrough find id name) := by
  refine (built_binding id).bind fun binding => ?_
  split
  · exact finds _ name
  · exact .pure _

/-- What is left of the search for a name that the receiver does not have. -/
theorem built_resolveFurther (name : String) (machine : Machine) :
    Built may (findThrough findImmediate machine.registers.caller name >>= fun found =>
      match found with
      | some found => Pure.pure found
      | none => do
        match ← findImmediate machine.programScope name with
        | some found => Pure.pure found
        | none => declare machine.registers.localScope (.unassigned name)) := by
  refine (built_findThrough built_findImmediate _ name).bind fun found => ?_
  split
  · exact .pure _
  · refine (built_findImmediate _ _).bind fun found => ?_
    split
    · exact .pure _
    · exact .declare _ _

private theorem built_resolveName (climbs : may.climbs) (name : String) : Built may (resolveName name) := by
  refine .get (fun _ _ => rfl) fun machine => (built_findImmediate _ _).bind fun found => ?_
  split
  · exact .pure _
  · refine (built_findThrough (.findInherited climbs) _ name).bind fun found => ?_
    split
    · exact .pure _
    · exact built_resolveFurther name machine

private theorem built_resolveDirect (climbs : may.climbs) (name : String) :
    Built may (resolveDirect name) := by
  unfold resolveDirect
  split
  · exact built_keyword _
  · exact built_resolveName climbs name

theorem built_resolveScoped (target : BindingId) (name : String) :
    Built may (resolveScoped target name) := by
  refine (built_binding target).bind fun binding => ?_
  split
  · exact .pure _
  · refine (built_findImmediate _ _).bind fun found => ?_
    split
    · exact .pure _
    · exact (Built.declare _ _).bind fun _ => .pure _

theorem built_declareElements (scope : ScopeId) (count index : Nat) :
    Built may (declareElements scope count index) := by
  induction count generalizing index with
  | zero => exact .pure _
  | succ count ih => exact (Built.declare _ _).bind fun _ => ih (index + 1)

private theorem built_arraySize (arguments : List BindingId) : Built may (arraySize arguments) := by
  unfold arraySize
  split
  · exact (built_binding _).bind fun _ => .pure _
  · exact .pure _

theorem built_elementScope (grows : may.grows) (array : BindingId) :
    Built may (elementScope array) := by
  refine (built_binding array).bind fun binding => ?_
  split
  · exact .pure _
  · exact (Built.allocateScope grows _).bind fun _ =>
      (built_updateBinding _ _).bind fun _ => .pure _

theorem built_constructArray (reports : may.reports) (grows : may.grows) (array : BindingId)
    (arguments : List BindingId) : Built may (constructArray array arguments) := by
  refine (built_arraySize arguments).bind fun size => ?_
  split
  · exact built_recover reports _
  · exact (built_elementScope grows array).bind fun _ => (built_declareElements _ _ _).bind fun _ =>
      (Built.declare _ _).bind fun _ => built_push _

private theorem built_readSize (array : Binding) : Built may (readSize array) := by
  unfold readSize
  split
  · exact .throw rfl
  · refine (built_findImmediate _ _).bind fun found => ?_
    split
    · exact .throw rfl
    · refine (built_binding _).bind fun _ => ?_
      split
      · exact .pure _
      · exact .throw rfl

private theorem built_arrayIndex (reports : may.reports) : Built may arrayIndex := by
  refine built_popBinding.bind fun _ => built_popBinding.bind fun _ =>
    (built_binding _).bind fun position => ?_
  split
  · refine (built_binding _).bind fun _ => (built_readSize _).bind fun found => ?_
    obtain ⟨scope, size⟩ := found
    dsimp only
    split
    · exact .throw rfl
    · refine (built_findImmediate _ _).bind fun element => ?_
      split
      · exact built_push _
      · exact built_recover reports _
  · exact .throw rfl

/-! ## Operators -/

theorem built_poolName (names : NamePool) (index : Nat) : Built may (poolName names index) := by
  unfold poolName
  split
  · exact .pure _
  · exact .throw rfl

private theorem built_pushResult (reports : may.reports) (result : Except OperatorError Payload) :
    Built may (pushResult result) := by
  cases result with
  | ok payload => exact (built_temporary payload).bind fun _ => built_push _
  | error error => exact built_recover reports _

private theorem built_binary (reports : may.reports)
    (operator : Binding → Binding → Except OperatorError Payload) : Built may (binary operator) :=
  built_popBinding.bind fun _ => built_popBinding.bind fun _ => (built_binding _).bind fun _ =>
    (built_binding _).bind fun _ => built_pushResult reports _

private theorem built_negate (reports : may.reports) : Built may negate :=
  built_popBinding.bind fun _ => (built_binding _).bind fun _ => built_pushResult reports _

private theorem built_assign (reports : may.reports) : Built may assign := by
  refine built_popBinding.bind fun _ => built_popBinding.bind fun _ =>
    (built_binding _).bind fun current => ?_
  split
  · exact built_recover reports _
  · exact (built_binding _).bind fun _ => (built_updateBinding _ _).bind fun _ => built_push _

private theorem built_equality (wanted : Bool) : Built may (equality wanted) :=
  built_popBinding.bind fun _ => built_popBinding.bind fun _ => (built_binding _).bind fun _ =>
    (built_binding _).bind fun _ => (Built.intern _).bind fun _ => built_push _

private theorem built_compare (reports : may.reports) (notes : may.notes) : Built may compare := by
  refine built_popBinding.bind fun _ => built_popBinding.bind fun _ =>
    (built_binding _).bind fun left => (built_binding _).bind fun right => ?_
  dsimp only
  split
  · exact .compared notes _
  · exact .compared notes _
  · exact (Built.compared notes _).bind fun _ => .report reports _

private theorem built_loadComparisonBit (operand : Nat) : Built may (loadComparisonBit operand) := by
  unfold loadComparisonBit
  split
  · exact .throw rfl
  · exact .registers (fun _ _ => rfl) fun _ => (Built.intern _).bind fun _ => built_push _

theorem built_truthy (reports : may.reports) (condition : BindingId) :
    Built may (truthy condition) := by
  refine (built_binding condition).bind fun binding => ?_
  split
  · exact .pure _
  · split
    · exact .pure _
    · exact (Built.report reports _).bind fun _ => .pure _

theorem built_copyBinding (grows : may.grows) (source : BindingId) :
    Built may (copyBinding source) := by
  refine (built_binding source).bind fun binding => .bind ?_ fun _ => .allocate _
  unfold copyAttributes
  split
  · exact .copyScope grows _
  · exact .allocateScope grows _

private theorem built_popParameters (names : NamePool) (count : Nat) (parameters : List String) :
    Built may (popParameters names count parameters) := by
  induction count generalizing parameters with
  | zero => exact .pure _
  | succ count ih =>
    exact built_popName.bind fun _ => (built_poolName names _).bind fun name =>
      ih (name :: parameters)

private theorem built_defineMethod (grows : may.grows) (names : NamePool) (count : Nat) :
    Built may (defineMethod names count) :=
  (built_popParameters names count []).bind fun _ => (Built.allocateScope grows _).bind fun _ =>
    (Built.allocate _).bind fun _ => built_push _

private theorem built_resolveTop (climbs : may.climbs) (names : NamePool) : Built may (resolveTop names) :=
  built_popName.bind fun _ => (built_poolName names _).bind fun name =>
    (built_resolveDirect climbs name).bind fun _ => built_push _

private theorem built_resolveMember (reports : may.reports) (names : NamePool) :
    Built may (resolveMember names) := by
  refine built_popName.bind fun _ => (built_poolName names _).bind fun name =>
    built_popBinding.bind fun target => (built_resolveScoped target name).bind fun found => ?_
  split
  · exact built_push _
  · exact (built_binding _).bind fun _ => built_recover reports _

private theorem built_print : Built may print :=
  built_peekBinding.bind fun _ => (built_binding _).bind fun _ => .writeLine _

private theorem built_readLine : Built may readLine :=
  Built.readLine.bind fun _ => (built_adopt _).bind fun _ => built_push _

private theorem built_syscall (operand : Nat) : Built may (syscall operand) := by
  unfold syscall
  split
  · exact built_print
  · exact built_readLine
  · exact .throw rfl

/-! ## Blocks and calls -/

theorem built_enterLocal (grows : may.grows) (shifts : may.shifts) : Built may enterLocal :=
  .registers (fun _ _ => rfl) fun _ => (Built.allocateScope grows _).bind fun _ =>
    (Built.setLocalScopes shifts _).bind fun _ => .setRegisters shifts fun _ _ => rfl

theorem built_leaveLocal (frees : may.frees) (shifts : may.shifts) : Built may leaveLocal := by
  refine .currentFrame (fun _ _ => rfl) fun frame => ?_
  split
  · exact .throw rfl
  · exact (Built.setLocalScopes shifts _).bind fun _ => (Built.releaseScope frees _).bind fun _ =>
      built_currentLocalScope.bind fun _ => .setRegisters shifts fun _ _ => rfl

theorem built_checkCall (target : Binding) (supplied : Nat) :
    Built may (checkCall target supplied) := by
  unfold checkCall
  split
  · refine .bind ?_ fun declared => ?_
    · unfold parameterCount
      split
      · exact (built_scope _).bind fun _ => .pure _
      · exact .pure _
    · split
      · exact .throw rfl
      · exact .pure _
  · exact .throw rfl

private theorem built_bindParameters (scope : ScopeId) (pairs : List (String × BindingId)) :
    Built may (bindParameters scope pairs) := by
  induction pairs with
  | nil => exact .pure _
  | cons pair rest ih =>
    exact (built_binding _).bind fun _ => (Built.redeclare _ _).bind fun _ => ih

theorem built_bindArguments (target : Binding) (place : Option ScopeId)
    (arguments : List BindingId) : Built may (bindArguments target place arguments) := by
  unfold bindArguments
  split
  · exact (built_scope _).bind fun _ => built_bindParameters _ _
  · exact .pure _

theorem built_enterFrame (shifts : may.shifts) (calls : may.calls) (caller receiver : BindingId)
    (body : Nat) (methodScope : Option ScopeId) :
    Built may (enterFrame caller receiver body methodScope) := by
  refine (Built.view calls).bind fun machine => ?_
  split
  · exact (Built.pushFrame calls _ _ _).bind fun _ => built_currentLocalScope.bind fun _ =>
      (Built.setRegisters shifts fun _ _ => rfl).bind fun _ => .pure _
  · exact .throw rfl

private theorem built_evaluate (reports : may.reports) (grows : may.grows) (shifts : may.shifts)
    (calls : may.calls) (count : Nat) : Built may (evaluate count) := by
  refine (built_popArguments count []).bind fun arguments => built_popBinding.bind fun method =>
    built_popBinding.bind fun caller => (built_binding method).bind fun target => ?_
  split
  · exact (built_constructArray reports grows method arguments).bind fun _ => .pure _
  · exact (built_checkCall _ _).bind fun _ => (built_bindArguments _ _ _).bind fun _ =>
      built_enterFrame shifts calls _ _ _ _

private theorem built_evaluateInPlace (shifts : may.shifts) (calls : may.calls) (count : Nat) :
    Built may (evaluateInPlace count) :=
  (built_popArguments count []).bind fun _ => built_popBinding.bind fun _ =>
    (built_binding _).bind fun _ => (built_checkCall _ _).bind fun _ =>
    built_receiverScope.bind fun _ => (built_bindArguments _ _ _).bind fun _ =>
    .registers (fun _ _ => rfl) fun _ => built_enterFrame shifts calls _ _ _ _

/-! ## Returns -/

private theorem built_rescue (owner : ScopeId) (keep : Option BindingId) : Built may (rescue owner keep) := by
  unfold rescue
  split
  · exact .pure _
  · refine (built_scope owner).bind fun scope => ?_
    split
    · exact ((built_binding _).bind fun _ => built_adopt _).bind fun _ => .pure _
    · exact .pure _

theorem built_releaseScopes (frees : may.frees) (scopes : List ScopeId) (keep : Option BindingId) :
    Built may (releaseScopes scopes keep) := by
  induction scopes generalizing keep with
  | nil => exact .pure _
  | cons scope rest ih =>
    exact (built_rescue scope keep).bind fun keep => (Built.releaseScope frees scope).bind fun _ =>
      ih keep

theorem built_releaseMethod (frees : may.frees) (frame : Frame) (keep : Option BindingId) :
    Built may (releaseMethod frame keep) := by
  unfold releaseMethod
  split
  · exact .pure _
  · refine .bind ?_ fun kept => ?_
    · unfold keepsMethod
      split
      · exact .pure _
      · split
        · exact .pure _
        · exact (built_binding _).bind fun _ => .pure _
    · split
      · exact .pure _
      · exact (built_rescue _ _).bind fun _ => (Built.freeScope frees _).bind fun _ =>
          (Built.freeBinding frees _).bind fun _ => .pure _

theorem built_yielded (frame : Frame) (outermost : Bool) (explicit : Option BindingId) :
    Built may (yielded frame outermost explicit) := by
  unfold yielded
  split
  · exact .pure _
  · split
    · exact .registers (fun _ _ => rfl) fun _ => .pure _
    · refine (built_binding _).bind fun caller => ?_
      split <;> exact .pure _

theorem built_popExplicit (hasValue : Bool) : Built may (popExplicit hasValue) := by
  unfold popExplicit
  split
  · exact built_popBinding.bind fun _ => .pure _
  · exact .pure _

private theorem built_returnFromFrame (frees : may.frees) (shifts : may.shifts) (calls : may.calls)
    (hasValue : Bool) : Built may (returnFromFrame hasValue) := by
  refine (built_popExplicit hasValue).bind fun explicit => (Built.popFrame calls).bind fun frame =>
    (Built.truncate _).bind fun _ => (Built.view calls).bind fun machine =>
    (built_yielded frame _ explicit).bind fun keep => (built_releaseScopes frees _ keep).bind fun keep =>
    (built_releaseMethod frees frame keep).bind fun keep => ?_
  split
  · exact .pure _
  · exact (Built.view calls).bind fun _ => (built_push _).bind fun _ =>
      .currentFrame (fun _ _ => rfl) fun _ => (Built.setRegisters shifts fun _ _ => rfl).bind fun _ =>
      built_currentLocalScope.bind fun _ => (Built.setRegisters shifts fun _ _ => rfl).bind fun _ =>
      .pure _

/-! ## Instructions -/

private theorem built_andNext {action : Action Unit} (built : Built may action) : Built may (andNext action) :=
  built.bind fun _ => .pure _

end Action

/-- What an instruction may do. -/
@[reducible] def Opcode.footprint (opcode : Opcode) : Footprint where
  reports := opcode ∈ [.assign, .add, .subtract, .multiply, .divide, .and, .or, .not, .compare,
    .resolveScoped, .arrayIndex, .jumpIfFalse, .evaluate]
  climbs := opcode = .resolveDirect
  grows := opcode ∈ [.copy, .defineMethod, .enterLocal, .evaluate]
  frees := opcode ∈ [.leaveLocal, .return]
  notes := opcode ∈ [.compare, .endStatement]
  shifts := opcode ∈ [.enterLocal, .leaveLocal, .evaluate, .evaluateInPlace, .return]
  calls := opcode ∈ [.evaluate, .evaluateInPlace, .return]

namespace Action

/-- Every instruction is put together from what it may do. -/
theorem built_step (names : NamePool) (opcode : Opcode) (operand : Nat) :
    Built opcode.footprint (step names opcode operand) := by
  cases opcode with
  | loadName =>
    refine built_andNext ?_
    split
    · exact .pushItem _
    · exact .throw rfl
  | loadLiteral =>
    refine built_andNext (.get (fun _ _ => rfl) fun machine => ?_)
    split
    · exact built_push _
    · exact .throw rfl
  | assign => exact built_andNext (built_assign (by decide))
  | add | subtract | multiply | divide | and | or =>
    exact built_andNext (built_binary (by decide) _)
  | not => exact built_andNext (built_negate (by decide))
  | equal | notEqual => exact built_andNext (built_equality _)
  | compare =>
    exact built_andNext (built_compare (by decide) (by decide))
  | loadComparisonBit => exact built_andNext (built_loadComparisonBit operand)
  | jumpIfFalse =>
    exact built_popBinding.bind fun _ => (built_truthy (by decide) _).bind fun _ =>
      .pure _
  | jump => exact .pure _
  | jumpIfNull => exact built_popBinding.bind fun _ => (built_binding _).bind fun _ => .pure _
  | copy =>
    exact built_andNext (built_popBinding.bind fun _ =>
      (built_copyBinding (by decide) _).bind fun _ => built_push _)
  | bindType =>
    refine built_andNext ?_
    split
    · exact built_peekBinding.bind fun _ => built_updateBinding _ _
    · exact .throw rfl
  | resolveDirect => exact built_andNext (built_resolveTop rfl names)
  | resolveScoped => exact built_andNext (built_resolveMember (by decide) names)
  | defineMethod => exact built_andNext (built_defineMethod (by decide) names operand)
  | bindSection => exact built_andNext (built_peekBinding.bind fun _ => built_updateBinding _ _)
  | evaluate =>
    exact built_evaluate (by decide) (by decide)
      (by decide) (by decide) operand
  | evaluateInPlace =>
    exact built_evaluateInPlace (by decide) (by decide) operand
  | «return» =>
    exact built_returnFromFrame (by decide) (by decide)
      (by decide) _
  | arrayIndex => exact built_andNext (built_arrayIndex (by decide))
  | enterLocal =>
    exact built_andNext (built_enterLocal (by decide) (by decide))
  | leaveLocal =>
    exact built_andNext (built_leaveLocal (by decide) (by decide))
  | syscall => exact built_andNext (built_syscall operand)
  | duplicate => exact built_andNext (Built.peek.bind fun _ => .pushItem _)
  | endStatement =>
    exact built_andNext (built_popBinding.bind fun _ => .finished (by decide) _)
  | swap => exact built_andNext .swap
  | dropTop => exact built_andNext (Built.pop.bind fun _ => .pure _)
  | dereference =>
    exact built_andNext (built_peekBinding.bind fun _ => (built_binding _).bind fun _ => .pure _)
  | extendArgument | nop => exact .pure _

end Action

end ScopeMachine
