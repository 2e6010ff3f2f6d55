import ScopeMachine.Proofs.Assembly.Effect
import ScopeMachine.Proofs.Machine.Veil
import ScopeMachine.Proofs.Store.Arena

set_option autoImplicit false

/-!
# Balance

What actions take from the operand stack and leave on it, and which faults they can raise. A machine
is sound when all indices and offsets that it holds are valid. An action raises a fault about the
stack only when the stack does not offer what the action takes.
-/

namespace ScopeMachine

/-! ## Faults -/

namespace Fault

/-- The fault of an instruction that does not find what it takes on the stack. -/
def isStarved : Fault → Bool
  | .stackUnderflow | .expectedBinding | .expectedName => true
  | _ => false

/-- The fault of code that is not in order: an operand without a meaning, or a block or frame that
is not open. -/
def isMisplaced : Fault → Bool
  | .unknownConstant _ | .unknownName _ | .unknownSyscall _ | .unknownComparisonBit _
  | .unknownType _ | .operandOverflow _ | .noLocalScope | .missingFrame => true
  | _ => false

/-- The fault of a program that is compiled and run properly. -/
def IsOrdinary (fault : Fault) : Prop :=
  fault.isStarved = false ∧ fault.isMisplaced = false

end Fault

/-! ## Heaps -/

/-- The body of every live binding is one of the given offsets. -/
def Heap.Bound (sections : List Nat) (heap : Heap) : Prop :=
  ∀ id binding, heap.bindings.get? id = some binding → binding.body ∈ sections

namespace Heap

variable {sections : List Nat} {heap : Heap}

theorem Bound.allocate (bound : heap.Bound sections) {binding : Binding}
    (body : binding.body ∈ sections) : (heap.allocate binding).2.Bound sections := by
  intro id found live
  have view := heap.bindings.get?_allocate binding id
  simp only [Heap.allocate] at live
  rw [view] at live
  split at live
  · cases live
    exact body
  · exact bound id found live

theorem Bound.allocateScope (bound : heap.Bound sections) (scope : Scope) :
    (heap.allocateScope scope).2.Bound sections :=
  bound

theorem Bound.modifyBinding (bound : heap.Bound sections) {f : Binding → Binding}
    (kept : ∀ binding, binding.body ∈ sections → (f binding).body ∈ sections) (id : BindingId) :
    (heap.modifyBinding id f).Bound sections := by
  intro other found live
  simp only [Heap.modifyBinding, Arena.get?_modify] at live
  split at live
  · obtain ⟨binding, before, rfl⟩ := Option.map_eq_some_iff.mp live
    exact kept binding (bound other binding before)
  · exact bound other found live

theorem Bound.adopt (bound : heap.Bound sections) (scope : ScopeId) (id : BindingId) :
    (heap.adopt scope id).Bound sections :=
  bound

theorem Bound.declare (bound : heap.Bound sections) (scope : ScopeId) {binding : Binding}
    (body : binding.body ∈ sections) : (heap.declare scope binding).2.Bound sections := by
  unfold Heap.declare
  split
  · exact (bound.allocate body).adopt scope _
  · exact bound

theorem Bound.redeclare (bound : heap.Bound sections) (scope : ScopeId) {binding : Binding}
    (body : binding.body ∈ sections) : (heap.redeclare scope binding).2.Bound sections := by
  unfold Heap.redeclare
  split
  · exact bound.declare scope body
  · split
    · exact bound
    · exact bound.modifyBinding (fun _ _ => body) _
    · exact bound.declare scope body

theorem Bound.binding (bound : heap.Bound sections) {id : BindingId} {found : Binding}
    (live : heap.binding id = .ok found) : found.body ∈ sections := by
  unfold Heap.binding at live
  split at live
  · cases live
    exact bound id found (by assumption)
  · cases live

theorem Bound.copyInto (bound : heap.Bound sections) (scope : ScopeId) (ids : List BindingId) :
    (Heap.copyInto scope ids heap).2.Bound sections := by
  induction ids generalizing heap with
  | nil => exact bound
  | cons id rest ih =>
    unfold Heap.copyInto
    split
    · exact bound
    · next found live =>
      have body : found.body ∈ sections := bound.binding live
      have copied : { found with constant := false }.body ∈ sections := body
      exact ih ((bound.allocate copied).adopt scope _)

theorem Bound.copyScope (bound : heap.Bound sections) (source : ScopeId) :
    (heap.copyScope source).2.Bound sections := by
  unfold Heap.copyScope
  split
  · exact bound
  · next scope _ =>
    have allocated := bound.allocateScope
      { parent := scope.parent, parameters := scope.parameters, durable := true }
    generalize heap.allocateScope _ = pair at allocated ⊢
    obtain ⟨copy, after⟩ := pair
    have copied := allocated.copyInto copy scope.own.toList
    dsimp only at copied ⊢
    split
    · next result => rwa [result] at copied
    · next result => rwa [result] at copied

theorem Bound.freeBinding (bound : heap.Bound sections) (id : BindingId) :
    (heap.freeBinding id).2.Bound sections := by
  intro other found live
  have view := heap.bindings.get?_free id other
  simp only [Heap.freeBinding] at live
  rw [view] at live
  split at live
  · cases live
  · exact bound other found live

theorem Bound.freeBindings (bound : heap.Bound sections) (ids : List BindingId) (count : Nat) :
    (ids.foldl (fun (freed, heap) id =>
      let (found, heap) := heap.freeBinding id
      (if found then freed + 1 else freed, heap)) (count, heap)).2.Bound sections := by
  induction ids generalizing heap count with
  | nil => exact bound
  | cons id rest ih => exact ih (bound.freeBinding id) _

theorem Bound.freeScope (bound : heap.Bound sections) (id : ScopeId) :
    (heap.freeScope id).2.Bound sections := by
  obtain ⟨bindings, scopes⟩ := heap
  simp only [Heap.freeScope]
  split
  · exact bound
  · next scope after _ =>
    have kept : Heap.Bound sections ⟨bindings, after⟩ := bound
    exact kept.freeBindings scope.own.toList 0

theorem Bound.releaseScope (bound : heap.Bound sections) (id : ScopeId) :
    (heap.releaseScope id).2.Bound sections := by
  unfold Heap.releaseScope
  split
  · exact bound
  · split
    · exact bound
    · exact bound.freeScope id

end Heap

/-! ## Machines -/

/-- What the indices and offsets that a machine holds have to be valid for. -/
structure Limits where
  names : Nat
  constants : Nat
  sections : List Nat

/-- All names on the stack are in the pool, all constants are there, and all bodies are in place. -/
structure Sound (limits : Limits) (machine : Machine) : Prop where
  bodies : machine.heap.Bound limits.sections
  names : ∀ index, StackItem.name index ∈ machine.stack → index < limits.names
  constants : machine.constants.size = limits.constants

/-- A stack entry is of a kind. -/
def SlotKind.Fits : SlotKind → StackItem → Prop
  | .name, .name _ => True
  | .value, .binding _ => True
  | .copy, .binding _ => True
  | _, _ => False

/-- Stack entries are of the kinds of a shape, one by one. -/
def Fitting : Shape → List StackItem → Prop
  | [], [] => True
  | kind :: kinds, item :: items => kind.Fits item ∧ Fitting kinds items
  | _, _ => False

/-- A stack has entries of the kinds of a shape on top. -/
def Offers (shape : Shape) (stack : List StackItem) : Prop :=
  ∃ items rest, stack = items ++ rest ∧ Fitting shape items

/-- On every stack that offers the first shape, its entries are replaced by ones of the second. -/
def Replaces (takes gives : Shape) (before after : List StackItem) : Prop :=
  ∀ items rest, before = items ++ rest → Fitting takes items →
    ∃ made, after = made ++ rest ∧ Fitting gives made

variable {α β : Type}

/-- What an action on a sound machine ends in: it keeps the frames and the position and replaces
entries of the stack, or it raises a fault. -/
def Ends (limits : Limits) (takes gives : Shape) (yields : α → Prop) (before : Machine) :
    EStateM.Result Fault Machine α → Prop
  | .ok value after => yields value ∧ Sound limits after
    ∧ (after.frames = before.frames ∧ after.registers.ip = before.registers.ip)
    ∧ Replaces takes gives before.stack after.stack
  | .error fault _ => fault.IsOrdinary
    ∨ fault.isStarved = true ∧ fault.isMisplaced = false ∧ ¬ Offers takes before.stack

/-- An action that takes entries of the first shape from the stack and leaves ones of the second. -/
def Effect (limits : Limits) (takes gives : Shape) (yields : α → Prop) (action : Action α) : Prop :=
  ∀ machine, Sound limits machine → Ends limits takes gives yields machine (action machine)

namespace Effect

variable {limits : Limits} {takes middle gives : Shape} {yields : α → Prop} {action : Action α}

theorem bind {returns : β → Prop} {next : α → Action β}
    (first : Effect limits takes middle yields action)
    (second : ∀ value, yields value → Effect limits middle gives returns (next value)) :
    Effect limits takes gives returns (action >>= next) := by
  intro machine sound
  have ends := first machine sound
  cases result : action machine with
  | error fault after =>
    rw [result] at ends
    rw [Action.bind_of_error result]
    exact ends
  | ok value after =>
    rw [result] at ends
    rw [Action.bind_of_ok result]
    obtain ⟨yielded, kept, frames, replaces⟩ := ends
    have later := second value yielded after kept
    cases followed : next value after with
    | ok last final =>
      rw [followed] at later
      obtain ⟨returned, safe, same, exchanges⟩ := later
      refine ⟨returned, safe, ⟨same.1.trans frames.1, same.2.trans frames.2⟩,
        fun items rest split fits => ?_⟩
      obtain ⟨made, again, fitting⟩ := replaces items rest split fits
      exact exchanges made rest again fitting
    | error fault final =>
      rw [followed] at later
      obtain ordinary | ⟨starved, placed, lacking⟩ := later
      · exact .inl ordinary
      · refine .inr ⟨starved, placed, ?_⟩
        rintro ⟨items, rest, split, fits⟩
        obtain ⟨made, again, fitting⟩ := replaces items rest split fits
        exact lacking ⟨made, rest, again, fitting⟩

theorem weaken {returns : α → Prop} (effect : Effect limits takes gives yields action)
    (implies : ∀ value, yields value → returns value) :
    Effect limits takes gives returns action := by
  intro machine sound
  have ends := effect machine sound
  cases result : action machine with
  | ok value after =>
    rw [result] at ends
    exact ⟨implies value ends.1, ends.2⟩
  | error fault after =>
    rw [result] at ends
    exact ends

theorem pure {value : α} (shape : Shape) (holds : yields value) :
    Effect limits shape shape yields (Pure.pure value) :=
  fun _ sound => ⟨holds, sound, ⟨rfl, rfl⟩, fun items _ split fits => ⟨items, split, fits⟩⟩

theorem throw {fault : Fault} (ordinary : fault.IsOrdinary) :
    Effect limits takes gives yields (MonadExcept.throw fault) :=
  fun _ _ => .inl ordinary

/-- What a machine holds is valid. -/
theorem get (shape : Shape) : Effect limits shape shape (Sound limits) MonadState.get :=
  fun _ sound => ⟨sound, sound, ⟨rfl, rfl⟩, fun items _ split fits => ⟨items, split, fits⟩⟩

end Effect

/-! ## Actions without an effect on the stack -/

/-- An action that leaves the stack as it is. -/
def Calm (limits : Limits) (yields : α → Prop) (action : Action α) : Prop :=
  ∀ shape, Effect limits shape shape yields action

namespace Calm

variable {limits : Limits} {yields : α → Prop} {action : Action α}

theorem bind {returns : β → Prop} {next : α → Action β} (first : Calm limits yields action)
    (second : ∀ value, yields value → Calm limits returns (next value)) :
    Calm limits returns (action >>= next) :=
  fun shape => (first shape).bind fun value yielded => second value yielded shape

theorem pure {value : α} (holds : yields value) : Calm limits yields (Pure.pure value) :=
  fun shape => .pure shape holds

theorem throw {fault : Fault} (ordinary : fault.IsOrdinary) :
    Calm limits yields (MonadExcept.throw fault) :=
  fun _ => .throw ordinary

theorem get : Calm limits (Sound limits) MonadState.get :=
  fun shape => .get shape

theorem weaken {returns : α → Prop} (calm : Calm limits yields action)
    (implies : ∀ value, yields value → returns value) : Calm limits returns action :=
  fun shape => (calm shape).weaken implies

theorem intro
    (keeps : ∀ machine, Sound limits machine →
      match action machine with
      | .ok value after => yields value ∧ after.heap.Bound limits.sections
        ∧ after.stack = machine.stack ∧ after.frames = machine.frames
        ∧ after.constants = machine.constants ∧ after.registers.ip = machine.registers.ip
      | .error fault _ => fault.IsOrdinary) : Calm limits yields action := by
  intro shape machine sound
  have kept := keeps machine sound
  cases result : action machine with
  | ok value after =>
    rw [result] at kept
    obtain ⟨yielded, bound, stack, frames, constants, ip⟩ := kept
    refine ⟨yielded, ⟨bound, ?_, ?_⟩, ⟨frames, ip⟩, fun items rest split fits => ?_⟩
    · rw [stack]
      exact sound.names
    · rw [constants]
      exact sound.constants
    · rw [stack]
      exact ⟨items, split, fits⟩
  | error fault after =>
    rw [result] at kept
    exact .inl kept

end Calm

namespace Action

variable {limits : Limits} {yields : α → Prop}

private theorem calm_inspect {f : Heap → Except Stale α}
    (finds : ∀ heap value, heap.Bound limits.sections → f heap = .ok value → yields value) :
    Calm limits yields (inspect f) := by
  refine .intro fun machine sound => ?_
  unfold inspect
  cases found : f machine.heap with
  | ok value => exact ⟨finds _ _ sound.bodies found, sound.bodies, rfl, rfl, rfl, rfl⟩
  | error stale => exact ⟨rfl, rfl⟩

private theorem calm_change {f : Heap → α × Heap}
    (keeps : ∀ heap, heap.Bound limits.sections → (f heap).2.Bound limits.sections) :
    Calm limits (fun _ => True) (change f) :=
  .intro fun machine sound => ⟨trivial, keeps machine.heap sound.bodies, rfl, rfl, rfl, rfl⟩

private theorem calm_attempt {f : Heap → Except Stale α × Heap}
    (keeps : ∀ heap, heap.Bound limits.sections → (f heap).2.Bound limits.sections) :
    Calm limits (fun _ => True) (attempt f) := by
  refine .intro fun machine sound => ?_
  have kept := keeps machine.heap sound.bodies
  simp only [attempt, Machine.withHeap]
  generalize f machine.heap = result at kept ⊢
  obtain ⟨found, heap⟩ := result
  cases found with
  | ok value => exact ⟨trivial, kept, rfl, rfl, rfl, rfl⟩
  | error stale => exact ⟨rfl, rfl⟩

theorem calm_binding (id : BindingId) :
    Calm limits (fun binding => binding.body ∈ limits.sections) (binding id) :=
  calm_inspect fun _ _ bound found => bound.binding found

private theorem calm_scope (id : ScopeId) : Calm limits (fun _ => True) (scope id) :=
  calm_inspect fun _ _ _ _ => trivial

private theorem calm_findImmediate (id : ScopeId) (name : String) :
    Calm limits (fun _ => True) (findImmediate id name) :=
  calm_inspect fun _ _ _ _ => trivial

private theorem calm_findInherited (id : ScopeId) (name : String) :
    Calm limits (fun _ => True) (findInherited id name) :=
  calm_inspect fun _ _ _ _ => trivial

private theorem calm_updateBinding (id : BindingId) {f : Binding → Binding}
    (kept : ∀ binding, binding.body ∈ limits.sections → (f binding).body ∈ limits.sections) :
    Calm limits (fun _ => True) (updateBinding id f) :=
  (calm_binding id).bind fun _ _ => calm_change fun _ bound => bound.modifyBinding kept id

private theorem calm_allocate {value : Binding} (body : value.body ∈ limits.sections) :
    Calm limits (fun _ => True) (allocate value) :=
  calm_change fun _ bound => bound.allocate body

private theorem calm_allocateScope (scope : Scope) : Calm limits (fun _ => True) (allocateScope scope) :=
  calm_change fun _ bound => bound.allocateScope scope

private theorem calm_declare (scope : ScopeId) {value : Binding} (body : value.body ∈ limits.sections) :
    Calm limits (fun _ => True) (declare scope value) :=
  calm_attempt fun _ bound => bound.declare scope body

private theorem calm_redeclare (scope : ScopeId) {value : Binding} (body : value.body ∈ limits.sections) :
    Calm limits (fun _ => True) (redeclare scope value) :=
  calm_attempt fun _ bound => bound.redeclare scope body

private theorem calm_copyScope (id : ScopeId) : Calm limits (fun _ => True) (copyScope id) :=
  calm_attempt fun _ bound => bound.copyScope id

theorem calm_releaseScope (id : ScopeId) : Calm limits (fun _ => True) (releaseScope id) :=
  (calm_attempt fun _ bound => bound.releaseScope id).bind fun _ _ => .pure trivial

private theorem calm_freeScope (id : ScopeId) : Calm limits (fun _ => True) (freeScope id) :=
  (calm_attempt fun _ bound => bound.freeScope id).bind fun _ _ => .pure trivial

private theorem calm_freeBinding (id : BindingId) : Calm limits (fun _ => True) (freeBinding id) :=
  calm_change fun _ bound => bound.freeBinding id

private theorem calm_registers : Calm limits (fun _ => True) registers :=
  Calm.get.bind fun _ _ => .pure trivial

theorem calm_setRegisters {f : Registers → Registers} (same : ∀ registers, (f registers).ip = registers.ip) :
    Calm limits (fun _ => True) (setRegisters f) :=
  .intro fun _ sound => ⟨trivial, sound.bodies, rfl, rfl, rfl, same _⟩

private theorem calm_receiverScope : Calm limits (fun _ => True) receiverScope :=
  Calm.get.bind fun _ _ => (calm_binding _).bind fun _ _ => .pure trivial

theorem calm_currentLocalScope : Calm limits (fun _ => True) currentLocalScope := by
  refine Calm.get.bind fun machine _ => ?_
  split
  · exact .pure trivial
  · exact calm_receiverScope

private theorem calm_report (trouble : Trouble) : Calm limits (fun _ => True) (report trouble) :=
  .intro fun _ sound => ⟨trivial, sound.bodies, rfl, rfl, rfl, rfl⟩

private theorem calm_disposableScope : Calm limits (fun _ => True) disposableScope := by
  refine Calm.get.bind fun machine _ => ?_
  split <;> exact .pure trivial

section

variable (none : 0 ∈ limits.sections)

include none

private theorem calm_intern (payload : Payload) : Calm limits (fun _ => True) (intern payload) := by
  refine .intro fun machine sound => ?_
  have kept : (Machine.internIn machine.nothing payload
      (machine.heap, machine.interned)).2.1.Bound limits.sections := by
    simp only [Machine.internIn]
    split
    · exact sound.bodies
    · split
      · exact sound.bodies
      · exact sound.bodies.allocate none
  exact ⟨trivial, kept, rfl, rfl, rfl, rfl⟩

private theorem calm_temporary (payload : Payload) : Calm limits (fun _ => True) (temporary payload) := by
  unfold temporary
  split
  · exact calm_intern none _
  · exact calm_intern none _
  · refine calm_disposableScope.bind fun scope _ => ?_
    split
    · exact calm_declare _ none
    · exact calm_intern none _

omit none in
private theorem calm_adopt {value : Binding} (body : value.body ∈ limits.sections) :
    Calm limits (fun _ => True) (adopt value) := by
  refine calm_disposableScope.bind fun scope _ => ?_
  split
  · exact calm_declare _ body
  · exact calm_allocate body

omit none in
private theorem calm_keyword (word : Keyword) : Calm limits (fun _ => True) (keyword word) := by
  cases word with
  | caller => exact calm_registers.bind fun _ _ => .pure trivial
  | self => exact calm_registers.bind fun _ _ => .pure trivial
  | it => exact Calm.get.bind fun _ _ => .pure trivial

omit none in
private theorem calm_findThrough {find : ScopeId → String → Action (Option BindingId)}
    (finds : ∀ scope name, Calm limits (fun _ => True) (find scope name)) (id : BindingId)
    (name : String) : Calm limits (fun _ => True) (findThrough find id name) := by
  refine (calm_binding id).bind fun binding _ => ?_
  split
  · exact finds _ name
  · exact .pure trivial

private theorem calm_resolveName (name : String) : Calm limits (fun _ => True) (resolveName name) := by
  refine Calm.get.bind fun machine _ => (calm_findImmediate _ name).bind fun found _ => ?_
  split
  · exact .pure trivial
  · refine (calm_findThrough calm_findInherited _ name).bind fun found _ => ?_
    split
    · exact .pure trivial
    · refine (calm_findThrough calm_findImmediate _ name).bind fun found _ => ?_
      split
      · exact .pure trivial
      · refine (calm_findImmediate _ name).bind fun found _ => ?_
        split
        · exact .pure trivial
        · exact calm_declare _ none

private theorem calm_resolveDirect (name : String) : Calm limits (fun _ => True) (resolveDirect name) := by
  unfold resolveDirect
  split
  · exact calm_keyword _
  · exact calm_resolveName none name

private theorem calm_resolveScoped (target : BindingId) (name : String) :
    Calm limits (fun _ => True) (resolveScoped target name) := by
  refine (calm_binding target).bind fun binding _ => ?_
  split
  · exact .pure trivial
  · refine (calm_findImmediate _ name).bind fun found _ => ?_
    split
    · exact .pure trivial
    · exact (calm_declare _ none).bind fun _ _ => .pure trivial

private theorem calm_declareElements (scope : ScopeId) (count index : Nat) :
    Calm limits (fun _ => True) (declareElements scope count index) := by
  induction count generalizing index with
  | zero => exact .pure trivial
  | succ count ih => exact (calm_declare _ none).bind fun _ _ => ih (index + 1)

omit none in
private theorem calm_arraySize (arguments : List BindingId) :
    Calm limits (fun _ => True) (arraySize arguments) := by
  unfold arraySize
  split
  · exact (calm_binding _).bind fun _ _ => .pure trivial
  · exact .pure trivial

omit none in
private theorem calm_elementScope (array : BindingId) :
    Calm limits (fun _ => True) (elementScope array) := by
  refine (calm_binding array).bind fun binding _ => ?_
  split
  · exact .pure trivial
  · refine (calm_allocateScope _).bind fun scope _ => ?_
    refine Calm.bind (calm_updateBinding array ?_) fun _ _ => .pure trivial
    exact fun _ body => body

omit none in
private theorem calm_readSize (array : Binding) : Calm limits (fun _ => True) (readSize array) := by
  unfold readSize
  split
  · exact .throw ⟨rfl, rfl⟩
  · refine (calm_findImmediate _ _).bind fun found _ => ?_
    split
    · exact .throw ⟨rfl, rfl⟩
    · refine (calm_binding _).bind fun size _ => ?_
      split
      · exact .pure trivial
      · exact .throw ⟨rfl, rfl⟩

omit none in
theorem calm_truthy (condition : BindingId) : Calm limits (fun _ => True) (truthy condition) := by
  refine (calm_binding condition).bind fun binding _ => ?_
  split
  · exact .pure trivial
  · split
    · exact .pure trivial
    · exact (calm_report _).bind fun _ _ => .pure trivial

omit none in
private theorem calm_copyBinding (source : BindingId) :
    Calm limits (fun _ => True) (copyBinding source) := by
  refine (calm_binding source).bind fun binding body => ?_
  refine Calm.bind ?_ fun _ (_ : True) => calm_allocate body
  unfold copyAttributes
  split
  · exact calm_copyScope _
  · exact calm_allocateScope _

end

theorem calm_checkCall (target : Binding) (supplied : Nat) :
    Calm limits (fun _ => target.body ≠ 0) (checkCall target supplied) := by
  unfold checkCall
  split
  · next callable =>
    have bound : target.body ≠ 0 := by simpa [Binding.isCallable] using callable
    refine Calm.bind ?_ fun declared (_ : True) => ?_
    · unfold parameterCount
      split
      · exact (calm_scope _).bind fun _ _ => .pure trivial
      · exact .pure trivial
    · split
      · exact .throw ⟨rfl, rfl⟩
      · exact .pure bound
  · exact .throw ⟨rfl, rfl⟩

private theorem calm_bindParameters (scope : ScopeId) (pairs : List (String × BindingId)) :
    Calm limits (fun _ => True) (bindParameters scope pairs) := by
  induction pairs with
  | nil => exact .pure trivial
  | cons pair rest ih =>
    exact (calm_binding _).bind fun _ body =>
      Calm.bind (calm_redeclare scope body) fun _ _ => ih

theorem calm_bindArguments (target : Binding) (place : Option ScopeId)
    (arguments : List BindingId) : Calm limits (fun _ => True) (bindArguments target place arguments) := by
  unfold bindArguments
  split
  · exact (calm_scope _).bind fun _ _ => calm_bindParameters _ _
  · exact .pure trivial

private theorem calm_escape (id : BindingId) : Calm limits (fun _ => True) (escape id) :=
  (calm_binding id).bind fun _ body => calm_adopt body

private theorem calm_rescue (owner : ScopeId) (keep : Option BindingId) :
    Calm limits (fun _ => True) (rescue owner keep) := by
  unfold rescue
  split
  · exact .pure trivial
  · refine (calm_scope owner).bind fun scope _ => ?_
    split
    · exact (calm_escape _).bind fun _ _ => .pure trivial
    · exact .pure trivial

theorem calm_releaseScopes (scopes : List ScopeId) (keep : Option BindingId) :
    Calm limits (fun _ => True) (releaseScopes scopes keep) := by
  induction scopes generalizing keep with
  | nil => exact .pure trivial
  | cons scope rest ih =>
    exact (calm_rescue scope keep).bind fun keep _ =>
      (calm_releaseScope scope).bind fun _ _ => ih keep

theorem calm_releaseMethod (frame : Frame) (keep : Option BindingId) :
    Calm limits (fun _ => True) (releaseMethod frame keep) := by
  unfold releaseMethod
  split
  · exact .pure trivial
  · refine Calm.bind ?_ fun kept (_ : True) => ?_
    · unfold keepsMethod
      split
      · exact .pure trivial
      · split
        · exact .pure trivial
        · exact (calm_binding _).bind fun _ _ => .pure trivial
    · split
      · exact .pure trivial
      · exact (calm_rescue _ _).bind fun _ _ => (calm_freeScope _).bind fun _ _ =>
          (calm_freeBinding _).bind fun _ _ => .pure trivial

theorem calm_yielded (frame : Frame) (outermost : Bool) (explicit : Option BindingId) :
    Calm limits (fun _ => True) (yielded frame outermost explicit) := by
  unfold yielded
  split
  · exact .pure trivial
  · split
    · exact calm_registers.bind fun _ _ => .pure trivial
    · refine (calm_binding _).bind fun caller _ => ?_
      split <;> exact .pure trivial

theorem calm_refocus : Calm limits (fun _ => True) refocus :=
  calm_currentLocalScope.bind fun _ _ => calm_setRegisters (by intro; rfl)

/-! ## Actions on the stack -/

private theorem effect_push (id : BindingId) {kind : SlotKind} (binding : kind ≠ .name) (shape : Shape) :
    Effect limits shape (kind :: shape) (fun _ => True) (push id) := by
  intro machine sound
  refine ⟨trivial, ⟨sound.bodies, fun index member => ?_, sound.constants⟩, ⟨rfl, rfl⟩, ?_⟩
  · cases member with
    | tail _ member => exact sound.names index member
  · rintro items rest split fits
    refine ⟨.binding id :: items, congrArg _ split, ?_, fits⟩
    cases kind with
    | name => contradiction
    | value | copy => trivial

private theorem not_offers_nil (kind : SlotKind) (shape : Shape) : ¬ Offers (kind :: shape) [] := by
  rintro ⟨items, rest, split, fits⟩
  cases items with
  | nil => cases fits
  | cons => cases split

private theorem effect_pop (kind : SlotKind) (shape : Shape) :
    Effect limits (kind :: shape) shape (fun item => ∀ index, item = .name index → index < limits.names)
      pop := by
  intro machine sound
  unfold pop
  cases stack : machine.stack with
  | nil => exact .inr ⟨rfl, rfl, stack ▸ not_offers_nil kind shape⟩
  | cons item below =>
    refine ⟨?_, ⟨sound.bodies, fun index member => ?_, sound.constants⟩, ⟨rfl, rfl⟩, ?_⟩
    · rintro index rfl
      exact sound.names index (by simp [stack])
    · exact sound.names index (by rw [stack]; exact .tail _ member)
    · rintro items rest split fits
      rw [stack] at split
      cases items with
      | nil => cases fits
      | cons first others =>
        cases split
        exact ⟨others, rfl, fits.2⟩

/-- A stack that offers a shape has an entry of the first kind on top. -/
theorem Offers.fits {kind : SlotKind} {shape : Shape} {item : StackItem} {below : List StackItem}
    (offers : Offers (kind :: shape) (item :: below)) : kind.Fits item := by
  obtain ⟨items, rest, split, fits⟩ := offers
  cases items with
  | nil => cases fits
  | cons first others =>
    cases split
    exact fits.1

theorem effect_popBinding {kind : SlotKind} (binding : kind ≠ .name) (shape : Shape) :
    Effect limits (kind :: shape) shape (fun _ => True) popBinding := by
  intro machine sound
  have popped := effect_pop kind shape machine sound
  cases stack : machine.stack with
  | nil =>
    have result : pop machine = .error .stackUnderflow machine := by simp [pop, stack]
    rw [result] at popped
    rw [popBinding, bind_of_error result]
    exact popped
  | cons item below =>
    have result : pop machine = .ok item { machine with stack := below } := by simp [pop, stack]
    rw [result] at popped
    rw [popBinding, bind_of_ok result]
    cases item with
    | binding id => exact ⟨trivial, popped.2⟩
    | name index =>
      refine .inr ⟨rfl, rfl, fun offers => ?_⟩
      rw [stack] at offers
      have fits := Offers.fits offers
      cases kind <;> contradiction

private theorem effect_popName (shape : Shape) :
    Effect limits (.name :: shape) shape (fun index => index < limits.names) popName := by
  intro machine sound
  have popped := effect_pop .name shape machine sound
  cases stack : machine.stack with
  | nil =>
    have result : pop machine = .error .stackUnderflow machine := by simp [pop, stack]
    rw [result] at popped
    rw [popName, bind_of_error result]
    exact popped
  | cons item below =>
    have result : pop machine = .ok item { machine with stack := below } := by simp [pop, stack]
    rw [result] at popped
    rw [popName, bind_of_ok result]
    cases item with
    | name index => exact ⟨popped.1 index rfl, popped.2⟩
    | binding id =>
      refine .inr ⟨rfl, rfl, fun offers => ?_⟩
      rw [stack] at offers
      exact Offers.fits offers

private theorem effect_peekBinding {kind : SlotKind} (binding : kind ≠ .name) (shape : Shape) :
    Effect limits (kind :: shape) (kind :: shape) (fun _ => True) peekBinding := by
  intro machine sound
  cases stack : machine.stack with
  | nil =>
    have result : peek machine = .error .stackUnderflow machine := by simp [peek, stack]
    rw [peekBinding, bind_of_error result]
    exact .inr ⟨rfl, rfl, stack ▸ not_offers_nil _ _⟩
  | cons item below =>
    have result : peek machine = .ok item machine := by simp [peek, stack]
    rw [peekBinding, bind_of_ok result]
    cases item with
    | binding id => exact ⟨trivial, sound, ⟨rfl, rfl⟩, fun items _ split fits => ⟨items, split, fits⟩⟩
    | name index =>
      refine .inr ⟨rfl, rfl, fun offers => ?_⟩
      rw [stack] at offers
      have fits := Offers.fits offers
      cases kind <;> contradiction

theorem effect_popArguments (count : Nat) (arguments : List BindingId) (shape : Shape) :
    Effect limits (List.replicate count SlotKind.value ++ shape) shape (fun _ => True)
      (popArguments count arguments) := by
  induction count generalizing arguments with
  | zero => exact .pure shape trivial
  | succ count ih =>
    rw [List.replicate_succ, List.cons_append]
    exact (effect_popBinding (by simp) _).bind fun argument _ => ih (argument :: arguments)

private theorem effect_recover (trouble : Trouble) (shape : Shape) :
    Effect limits shape (.value :: shape) (fun _ => True) (recover trouble) :=
  (calm_report trouble shape).bind fun _ _ => (Effect.get shape).bind fun _ _ =>
    effect_push _ (by simp) shape

private theorem calm_poolName {names : NamePool} {index : Nat} (inside : index < names.size) :
    Calm limits (fun _ => True) (poolName names index) := by
  unfold poolName
  split
  · exact .pure trivial
  · next missing => simp [Pool.get?, Pool.size] at missing inside; omega

private theorem effect_popParameters {names : NamePool} (same : names.size = limits.names) (count : Nat)
    (parameters : List String) (shape : Shape) :
    Effect limits (List.replicate count SlotKind.name ++ shape) shape (fun _ => True)
      (popParameters names count parameters) := by
  induction count generalizing parameters with
  | zero => exact .pure shape trivial
  | succ count ih =>
    rw [List.replicate_succ, List.cons_append]
    exact (effect_popName _).bind fun index inside =>
      (calm_poolName (by omega) _).bind fun name _ => ih (name :: parameters)

/-! ## Instructions -/

section

variable (none : 0 ∈ limits.sections)

include none

private theorem effect_pushResult (result : Except OperatorError Payload) (shape : Shape) :
    Effect limits shape (.value :: shape) (fun _ => True) (pushResult result) := by
  cases result with
  | ok payload =>
    exact (calm_temporary none payload shape).bind fun _ _ => effect_push _ (by simp) shape
  | error error => exact effect_recover _ shape

private theorem effect_binary (operator : Binding → Binding → Except OperatorError Payload) :
    Effect limits [.value, .value] [.value] (fun _ => True) (binary operator) :=
  (effect_popBinding (by simp) _).bind fun _ _ => (effect_popBinding (by simp) _).bind fun _ _ =>
    (calm_binding _ _).bind fun _ _ => (calm_binding _ _).bind fun _ _ =>
    effect_pushResult none _ _

private theorem effect_negate : Effect limits [.value] [.value] (fun _ => True) negate :=
  (effect_popBinding (by simp) _).bind fun _ _ => (calm_binding _ _).bind fun _ _ =>
    effect_pushResult none _ _

omit none in
private theorem effect_assign : Effect limits [.value, .value] [.value] (fun _ => True) assign := by
  refine (effect_popBinding (by simp) _).bind fun _ _ => (effect_popBinding (by simp) _).bind
    fun target _ => (calm_binding _ _).bind fun current _ => ?_
  split
  · exact effect_recover _ _
  · refine (calm_binding _ _).bind fun source body => ?_
    refine Effect.bind (calm_updateBinding target ?_ _) fun _ _ => effect_push _ (by simp) _
    exact fun _ _ => body

private theorem effect_equality (wanted : Bool) :
    Effect limits [.value, .value] [.value] (fun _ => True) (equality wanted) :=
  (effect_popBinding (by simp) _).bind fun _ _ => (effect_popBinding (by simp) _).bind fun _ _ =>
    (calm_binding _ _).bind fun _ _ => (calm_binding _ _).bind fun _ _ =>
    (calm_intern none _ _).bind fun _ _ => effect_push _ (by simp) _

omit none in
private theorem effect_compare : Effect limits [.value, .value] [] (fun _ => True) compare := by
  refine (effect_popBinding (by simp) _).bind fun _ _ => (effect_popBinding (by simp) _).bind
    fun _ _ => (calm_binding _ _).bind fun left _ => (calm_binding _ _).bind fun right _ => ?_
  dsimp only
  split
  · exact calm_setRegisters (by intro; rfl) _
  · exact calm_setRegisters (by intro; rfl) _
  · exact (calm_setRegisters (by intro; rfl) _).bind fun _ _ => calm_report _ _

private theorem effect_loadComparisonBit {operand : Nat} (known : (ComparisonBit.ofOperand? operand).isSome) :
    Effect limits [] [.value] (fun _ => True) (loadComparisonBit operand) := by
  unfold loadComparisonBit
  split
  · next missing => simp [missing] at known
  · exact (calm_registers _).bind fun _ _ => (calm_intern none _ _).bind fun _ _ =>
      effect_push _ (by simp) _

omit none in
private theorem effect_defineMethod {names : NamePool} (same : names.size = limits.names) (count : Nat)
    (none : 0 ∈ limits.sections) :
    Effect limits (List.replicate count .name) [.value] (fun _ => True)
      (defineMethod names count) := by
  have parameters := effect_popParameters same count [] []
  rw [List.append_nil] at parameters
  exact parameters.bind fun _ _ => (calm_allocateScope _ _).bind fun _ _ =>
    Effect.bind (calm_allocate none _) fun _ _ => effect_push _ (by simp) _

private theorem effect_resolveTop {names : NamePool} (same : names.size = limits.names) :
    Effect limits [.name] [.value] (fun _ => True) (resolveTop names) :=
  (effect_popName _).bind fun _ inside => (calm_poolName (by omega) _).bind fun name _ =>
    (calm_resolveDirect none name _).bind fun _ _ => effect_push _ (by simp) _

private theorem effect_resolveMember {names : NamePool} (same : names.size = limits.names) :
    Effect limits [.name, .value] [.value] (fun _ => True) (resolveMember names) := by
  refine (effect_popName _).bind fun _ inside => (calm_poolName (by omega) _).bind fun name _ =>
    (effect_popBinding (by simp) _).bind fun target _ =>
    (calm_resolveScoped none target name _).bind fun found _ => ?_
  split
  · exact effect_push _ (by simp) _
  · exact (calm_binding _ _).bind fun _ _ => effect_recover _ _

omit none in
private theorem effect_arrayIndex : Effect limits [.value, .value] [.value] (fun _ => True) arrayIndex := by
  refine (effect_popBinding (by simp) _).bind fun _ _ => (effect_popBinding (by simp) _).bind
    fun _ _ => (calm_binding _ _).bind fun position _ => ?_
  split
  · refine (calm_binding _ _).bind fun array _ => (calm_readSize array _).bind fun found _ => ?_
    obtain ⟨scope, size⟩ := found
    dsimp only
    split
    · exact .throw ⟨rfl, rfl⟩
    · refine (calm_findImmediate _ _ _).bind fun element _ => ?_
      split
      · exact effect_push _ (by simp) _
      · exact effect_recover _ _
  · exact .throw ⟨rfl, rfl⟩

omit none in
private theorem effect_print : Effect limits [.value] [.value] (fun _ => True) print := by
  refine (effect_peekBinding (by simp) _).bind fun id _ => (calm_binding id _).bind fun value _ => ?_
  refine Calm.intro (fun machine sound => ?_) _
  exact ⟨trivial, sound.bodies, rfl, rfl, rfl, rfl⟩

private theorem effect_readLine : Effect limits [] [.value] (fun _ => True) readLine := by
  refine Effect.bind (Calm.intro (fun machine sound => ?_) []) fun line (_ : True) =>
    (calm_adopt none _).bind fun _ _ => effect_push _ (by simp) _
  simp only [Machine.withConsole]
  obtain ⟨line, console⟩ := machine.console.readLine
  cases line with
  | some line => exact ⟨trivial, sound.bodies, rfl, rfl, rfl, rfl⟩
  | none => exact ⟨rfl, rfl⟩

omit none in
theorem effect_constructArray (none : 0 ∈ limits.sections) (array : BindingId)
    (arguments : List BindingId) :
    Effect limits [] [.value] (fun _ => True) (constructArray array arguments) := by
  refine (calm_arraySize arguments _).bind fun size _ => ?_
  split
  · exact effect_recover _ _
  · refine (calm_elementScope array _).bind fun scope _ =>
      (calm_declareElements none scope _ _ _).bind fun _ _ => ?_
    exact Effect.bind (calm_declare scope none _) fun _ _ => effect_push _ (by simp) _

omit none in
private theorem effect_duplicate :
    Effect limits [.value] [.value, .value] (fun _ => True) (peek >>= pushItem) := by
  intro machine sound
  cases stack : machine.stack with
  | nil =>
    have result : peek machine = .error .stackUnderflow machine := by simp [peek, stack]
    rw [bind_of_error result]
    exact .inr ⟨rfl, rfl, stack ▸ not_offers_nil _ _⟩
  | cons item below =>
    have result : peek machine = .ok item machine := by simp [peek, stack]
    rw [bind_of_ok result]
    refine ⟨trivial, ⟨sound.bodies, fun index member => ?_, sound.constants⟩, ⟨rfl, rfl⟩, ?_⟩
    · cases member with
      | head => exact sound.names index (by simp [stack])
      | tail _ member => exact sound.names index member
    · rintro items rest split fits
      cases items with
      | nil => cases fits
      | cons first others =>
        have top : item = first := by
          rw [stack] at split
          exact (List.cons.inj split).1
        subst top
        exact ⟨item :: item :: others, by simp [split], fits.1, fits⟩

end

/-- Instructions that keep the frames, and where they go on. -/
theorem effect_step {pools : Pools} {limit : Nat} (names : limits.names = pools.names.size)
    (constants : limits.constants = pools.constants.size) (none : 0 ∈ limits.sections)
    {command : Command}
    (legal : command.Straight pools limit
      ∨ command.opcode = .bindSection ∧ command.operand ∈ limits.sections)
    (evaluate : command.opcode ≠ .evaluate) (returns : command.opcode ≠ .return) :
    Effect limits command.takes command.gives (· = .next)
      (step pools.names command.opcode command.operand) := by
  have andNext {takes gives : Shape} {action : Action Unit}
      (effect : Effect limits takes gives (fun _ => True) action) :
      Effect limits takes gives (· = .next) (andNext action) :=
    effect.bind fun _ _ => .pure _ rfl
  obtain ⟨opcode, operand⟩ := command
  obtain straight | ⟨rfl, body⟩ := legal
  case inr =>
    refine andNext ((effect_peekBinding (by simp) _).bind fun id _ => ?_)
    exact calm_updateBinding id (fun _ _ => body) _
  cases opcode with
  | evaluate => exact absurd rfl evaluate
  | «return» => exact absurd rfl returns
  | loadName =>
    have inside : operand < pools.names.size := straight
    refine andNext ?_
    rw [if_pos inside]
    intro machine sound
    refine ⟨trivial, ⟨sound.bodies, fun index member => ?_, sound.constants⟩, ⟨rfl, rfl⟩, ?_⟩
    · cases member with
      | head => exact names ▸ inside
      | tail _ member => exact sound.names index member
    · exact fun items rest split fits => ⟨.name operand :: items, congrArg _ split, trivial, fits⟩
  | loadLiteral =>
    have inside : operand < pools.constants.size := straight
    refine andNext ((Effect.get _).bind fun machine sound => ?_)
    have size := sound.constants
    split
    · exact effect_push _ (by simp) _
    · next missing =>
      have beyond : machine.constants.size ≤ operand := Array.getElem?_eq_none_iff.mp missing
      omega
  | assign => exact andNext effect_assign
  | add | subtract | multiply | divide | and | or => exact andNext (effect_binary none _)
  | not => exact andNext (effect_negate none)
  | notEqual => exact andNext (effect_equality none _)
  | compare => exact andNext effect_compare
  | loadComparisonBit => exact andNext (effect_loadComparisonBit none straight)
  | copy =>
    exact andNext ((effect_popBinding (by simp) _).bind fun _ _ =>
      (calm_copyBinding _ _).bind fun _ _ => effect_push _ (by simp) _)
  | resolveDirect => exact andNext (effect_resolveTop none names.symm)
  | resolveScoped => exact andNext (effect_resolveMember none names.symm)
  | defineMethod => exact andNext (effect_defineMethod names.symm operand none)
  | arrayIndex => exact andNext effect_arrayIndex
  | syscall =>
    have known : (Syscall.ofOperand? operand).isSome = true := straight
    match operand with
    | 0 => exact andNext effect_print
    | 1 => exact andNext (effect_readLine none)
    | _ + 2 => simp [Syscall.ofOperand?] at known
  | duplicate => exact andNext effect_duplicate
  | endStatement =>
    exact andNext ((effect_popBinding (by simp) _).bind fun _ _ => calm_setRegisters (by intro; rfl) _)
  | dereference =>
    exact andNext ((effect_peekBinding (by simp) _).bind fun _ _ =>
      (calm_binding _ _).bind fun _ _ => .pure _ trivial)
  | nop => exact .pure _ rfl
  | equal | jumpIfFalse | jump | jumpIfNull | bindType | bindSection | evaluateInPlace | enterLocal
  | leaveLocal | swap | dropTop | extendArgument => cases straight

end Action

end ScopeMachine
