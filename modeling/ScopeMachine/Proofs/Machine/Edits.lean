import Mathlib.Logic.Relation
import ScopeMachine.Proofs.Machine.Booting
import ScopeMachine.Proofs.Store.Provenance

set_option autoImplicit false

/-!
# Edits

All that instructions do to the heap, to the tables and to the reports of a machine, as a sequence of
single changes. A licence says which kinds of changes an instruction may make. A property that every
change keeps is kept by the instructions.
-/

namespace ScopeMachine

variable {α β : Type}

/-! ## Single changes -/

/-- What an instruction is allowed to do beyond storing and sharing values. -/
structure Licence where
  /-- To open a block. -/
  opens : Prop
  /-- To make scopes for attributes. -/
  grows : Prop
  /-- To free scopes. -/
  frees : Prop
  /-- To give a binding another type or another body. -/
  marks : Prop
  /-- To give attributes to a binding in place, or to free it on its own. -/
  may : BindingId → Prop
  /-- To declare bindings in a scope other than the one that temporaries go to. -/
  names : ScopeId → Prop
  /-- To change the frames. -/
  turns : Prop
  /-- To write a line. -/
  writes : Prop
  /-- To declare names that may be there. -/
  fills : Prop
  /-- To assign to a binding. -/
  assigns : Prop

/-- An instruction may do anything. -/
def Licence.free : Licence :=
  ⟨True, True, True, True, fun _ => True, fun _ => True, True, True, True, True⟩

/-- What a machine has in its heap and its tables, what it has reported on which line, what it has
written, and how it is configured. -/
def Machine.fixtures (machine : Machine) :
    Heap × Std.HashMap Payload BindingId × Array BindingId × BindingId × ScopeId × Array Report
      × Nat × String × Config :=
  (machine.heap, machine.interned, machine.constants, machine.nothing, machine.programScope,
    machine.reports, machine.line, machine.console.output, machine.config)

/-- One change under a licence. Only what is shared is stored as a constant, and nothing is assigned
to a constant. What a frame stores for a while has no name, and belongs to a scope that it frees by
itself, if there is one. A name is declared where it was not found. -/
inductive Edit (licence : Licence) (before : Machine) : Machine → Prop where
  /-- The stack, the frames, the registers and what can still be read do not count. -/
  | quiet {after : Machine} (same : after.fixtures = before.fixtures)
      (frames : after.frames = before.frames ∨ licence.turns) : Edit licence before after
  | report (trouble : Trouble) :
      Edit licence before (before.addReport .recoverable trouble.message)
  | write (text : String) (allowed : licence.writes) :
      Edit licence before (before.withConsole fun console => ((), console.writeLine text)).2
  | allocate {value : Binding} (drawn : before.heap.Drawn licence.grows value)
      (lone : before.disposable? = none ∧ value.name = none ∨ licence.grows) :
      Edit licence before { before with heap := (before.heap.allocate value).2 }
  | declare (scope : ScopeId) {value : Binding} (drawn : before.heap.Drawn licence.grows value)
      (place : before.disposable? = some scope ∧ value.name = none ∨ licence.names scope)
      (absent : (∀ name, value.name = some name → before.heap.findImmediate scope name = .ok none)
        ∨ licence.fills) :
      Edit licence before { before with heap := (before.heap.declare scope value).2 }
  | redeclare (scope : ScopeId) {value : Binding} (drawn : before.heap.Drawn licence.grows value)
      (place : licence.names scope) :
      Edit licence before { before with heap := (before.heap.redeclare scope value).2 }
  | assign {target : BindingId} {current source : Binding} (allowed : licence.assigns)
      (found : before.heap.bindings.get? target = some current) (plain : current.constant = false)
      (stored : before.heap.Stored source) :
      Edit licence before { before with heap := before.heap.modifyBinding target (·.assign source) }
  | intern (payload : Payload)
      (shared : payload = .absent ∨ (∃ value, payload = .boolean value)
        ∨ before.disposable? = none) :
      Edit licence before (before.withInterned (Machine.internIn before.nothing payload)).2
  | furnish {id : BindingId} {scope : ScopeId} (allowed : licence.may id) (grows : licence.grows)
      (suitable : before.heap.Suitable scope) :
      Edit licence before
        { before with
          heap := before.heap.modifyBinding id fun value => { value with scope := some scope } }
  | mark (id : BindingId) (f : Binding → Binding) (allowed : licence.marks)
      (scope : ∀ value, (f value).scope = value.scope)
      (name : ∀ value, (f value).name = value.name) :
      Edit licence before { before with heap := before.heap.modifyBinding id f }
  | allocateScope {scope : Scope} (allowed : licence.grows) (empty : scope.own = #[])
      (durable : scope.durable = true) (top : scope.parent = none) :
      Edit licence before { before with heap := (before.heap.allocateScope scope).2 }
  | openScope (parent : ScopeId) (allowed : licence.opens) :
      Edit licence before
        { before with heap := (before.heap.allocateScope { parent := some parent }).2 }
  | copyScope {source : ScopeId} (allowed : licence.grows) (serves : before.heap.Serves source) :
      Edit licence before { before with heap := (before.heap.copyScope source).2 }
  | releaseScope (owner : ScopeId) (allowed : licence.frees) :
      Edit licence before { before with heap := (before.heap.releaseScope owner).2 }
  | freeScope (owner : ScopeId) (allowed : licence.frees) :
      Edit licence before { before with heap := (before.heap.freeScope owner).2 }
  | freeBinding {id : BindingId} (allowed : licence.may id) (frees : licence.frees) :
      Edit licence before { before with heap := (before.heap.freeBinding id).2 }

/-- Changes one after the other. -/
abbrev Edits (licence : Licence) : Machine → Machine → Prop :=
  Relation.ReflTransGen (Edit licence)

/-- Sharing a value stores its binding, unless it is shared already. -/
theorem Machine.heap_intern (machine : Machine) (payload : Payload) :
    (machine.withInterned (Machine.internIn machine.nothing payload)).2.heap = machine.heap
      ∨ (machine.withInterned (Machine.internIn machine.nothing payload)).2.heap
        = (machine.heap.allocate payload.shared).2 := by
  by_cases absent : payload = .absent
  · subst absent
    exact .inl rfl
  · cases known : machine.interned[payload]? with
    | some id => exact .inl (by rw [Machine.withInterned, Machine.internIn_of_some absent known])
    | none =>
      refine .inr ?_
      rw [Machine.withInterned, Machine.internIn_of_none absent known]

variable {licence : Licence}

/-- What every change keeps is kept by many. -/
theorem Edits.keeps {holds : Machine → Prop} {before after : Machine} (edits : Edits licence before after)
    (edit : ∀ {before after}, Edit licence before after → holds before → holds after)
    (start : holds before) : holds after := by
  induction edits with
  | refl => exact start
  | tail _ last held => exact edit last held

/-! ## What is stored -/

/-- Where a binding comes from that is stored after a change. -/
inductive Derived (licence : Licence) (before : Machine) : Binding → Prop where
  | kept {value : Binding} (stored : before.heap.Stored value) : Derived licence before value
  | drawn {value : Binding} (drawn : before.heap.Drawn licence.grows value) :
      Derived licence before value
  | assigned {target source : Binding} (there : before.heap.Stored target)
      (stored : before.heap.Stored source) : Derived licence before (target.assign source)
  | shared {payload : Payload} (present : payload ≠ .absent) : Derived licence before payload.shared
  | furnished {value : Binding} {scope : ScopeId} (grows : licence.grows)
      (stored : before.heap.Stored value) (suitable : before.heap.Suitable scope) :
      Derived licence before { value with scope := some scope }
  | marked {value : Binding} {f : Binding → Binding} (allowed : licence.marks)
      (stored : before.heap.Stored value) (scope : (f value).scope = value.scope) :
      Derived licence before (f value)

theorem Edit.stored {before after : Machine} (edit : Edit licence before after) {value : Binding}
    (stored : after.heap.Stored value) : Derived licence before value := by
  have copied {value : Binding} (copied : before.heap.Stored value
      ∨ ∃ source, before.heap.Stored source ∧ value = { source with constant := false }) :
      Derived licence before value := by
    obtain kept | ⟨source, original, rfl⟩ := copied
    · exact .kept kept
    · exact .drawn (.copy source.name original)
  have made {other value : Binding} (drawn : before.heap.Drawn licence.grows other)
      (same : before.heap.Stored value ∨ value = other) : Derived licence before value := by
    obtain kept | rfl := same
    · exact .kept kept
    · exact .drawn drawn
  have lost {owner : ScopeId} {heap : Heap} {value : Binding}
      (cases_ : heap = before.heap ∨ before.heap.LiveScope owner ∧ before.heap.Loses owner heap)
      (stored : heap.Stored value) : Derived licence before value := by
    obtain rfl | ⟨-, loses⟩ := cases_
    · exact .kept stored
    · exact .kept (stored.of_loses loses)
  cases edit with
  | quiet same =>
    simp only [Machine.fixtures, Prod.mk.injEq] at same
    exact .kept (same.1 ▸ stored)
  | report | write | allocateScope | openScope => exact .kept stored
  | allocate drawn => exact made drawn (Heap.Stored.of_allocate stored)
  | declare scope drawn => exact made drawn (Heap.Stored.of_declare stored)
  | redeclare scope drawn => exact made drawn (Heap.Stored.of_redeclare stored)
  | assign _ found plain source =>
    obtain kept | ⟨target, there, rfl⟩ := Heap.Stored.of_modifyBinding stored
    · exact .kept kept
    · exact .assigned ⟨_, there⟩ source
  | intern payload =>
    by_cases absent : payload = .absent
    · subst absent
      exact .kept stored
    · cases known : before.interned[payload]? with
      | some id =>
        simp only [Machine.withInterned, Machine.internIn_of_some absent known] at stored
        exact .kept stored
      | none =>
        simp only [Machine.withInterned, Machine.internIn_of_none absent known] at stored
        obtain kept | rfl := Heap.Stored.of_allocate stored
        · exact .kept kept
        · exact .shared absent
  | furnish allowed grows suitable =>
    obtain kept | ⟨source, there, rfl⟩ := Heap.Stored.of_modifyBinding stored
    · exact .kept kept
    · exact .furnished grows ⟨_, there⟩ suitable
  | mark id f allowed scope =>
    obtain kept | ⟨source, there, rfl⟩ := Heap.Stored.of_modifyBinding stored
    · exact .kept kept
    · exact .marked allowed ⟨_, there⟩ (scope source)
  | copyScope => exact copied (Heap.Stored.of_copyScope stored)
  | releaseScope owner => exact lost (Heap.releaseScope_cases _ owner) stored
  | freeScope owner => exact lost (Heap.freeScope_cases _ owner) stored
  | freeBinding => exact .kept (Heap.Stored.of_freeBinding stored)

/-! ## Actions -/

/-- An action that makes such changes only. -/
def Editing (licence : Licence) (action : Action α) : Prop :=
  ∀ machine, Edits licence machine (Action.final (action machine))

/-- What a value is used for may change the machine further. -/
theorem Edits.bind {action : Action α} {next : α → Action β} {machine : Machine}
    (first : Edits licence machine (Action.final (action machine)))
    (second : ∀ value, Editing licence (next value)) :
    Edits licence machine (Action.final ((action >>= next) machine)) := by
  cases result : action machine with
  | error fault after =>
    rw [result] at first
    rw [Action.bind_of_error result]
    exact first
  | ok value after =>
    rw [result] at first
    rw [Action.bind_of_ok result]
    exact first.trans (second value after)

namespace Editing

variable {action : Action α} {next : α → Action β}

theorem bind (first : Editing licence action) (second : ∀ value, Editing licence (next value)) :
    Editing licence (action >>= next) :=
  fun machine => (first machine).bind second

theorem quiet (same : ∀ machine, (Action.final (action machine)).fixtures = machine.fixtures)
    (frames : ∀ machine, (Action.final (action machine)).frames = machine.frames) :
    Editing licence action :=
  fun machine => .single (.quiet (same machine) (.inl (frames machine)))

theorem turning (turns : licence.turns)
    (same : ∀ machine, (Action.final (action machine)).fixtures = machine.fixtures) :
    Editing licence action :=
  fun machine => .single (.quiet (same machine) (.inr turns))

theorem pure (value : α) : Editing licence (Pure.pure value) :=
  fun _ => .refl

theorem throw (fault : Fault) : Editing licence (MonadExcept.throw fault : Action α) :=
  fun _ => .refl

theorem get : Editing licence (MonadState.get : Action Machine) :=
  fun _ => .refl

end Editing

namespace Action

/-! ## The heap -/

private theorem editing_inspect (f : Heap → Except Stale α) : Editing licence (inspect f) := by
  intro machine
  unfold inspect
  cases f machine.heap <;> exact .refl

theorem heap_attempt (f : Heap → Except Stale α × Heap) (machine : Machine) :
    (final (attempt f machine)).heap = (f machine.heap).2 := by
  simp only [attempt, Machine.withHeap]
  generalize f machine.heap = result
  obtain ⟨found, heap⟩ := result
  cases found <;> rfl

private theorem edits_attempt {f : Heap → Except Stale α × Heap} {machine : Machine}
    (edit : Edit licence machine { machine with heap := (f machine.heap).2 }) :
    Edits licence machine (final (attempt f machine)) := by
  simp only [attempt, Machine.withHeap]
  generalize f machine.heap = result at edit ⊢
  obtain ⟨found, heap⟩ := result
  cases found <;> exact .single edit

theorem editing_binding (id : BindingId) : Editing licence (binding id) :=
  editing_inspect _

theorem binding_of_get? {id : BindingId} {machine : Machine} {value : Binding}
    (found : machine.heap.bindings.get? id = some value) : binding id machine = .ok value machine := by
  simp [binding, inspect, Heap.binding, found]

theorem binding_of_none {id : BindingId} {machine : Machine}
    (none : machine.heap.bindings.get? id = none) :
    binding id machine = .error (.staleHandle (.binding id)) machine := by
  simp [binding, inspect, Heap.binding, none]

theorem updateBinding_of_get? {id : BindingId} {machine : Machine} {value : Binding}
    (found : machine.heap.bindings.get? id = some value) (f : Binding → Binding) :
    updateBinding id f machine = .ok () { machine with heap := machine.heap.modifyBinding id f } :=
  bind_of_ok (binding_of_get? found)

private theorem edits_reads {id : BindingId} {next : Binding → Action β} {machine : Machine}
    (then_ : ∀ {value}, machine.heap.bindings.get? id = some value →
      Edits licence machine (final (next value machine))) :
    Edits licence machine (final ((binding id >>= next) machine)) := by
  cases found : machine.heap.bindings.get? id with
  | none =>
    rw [bind_of_error (binding_of_none found)]
    exact .refl
  | some value =>
    rw [bind_of_ok (binding_of_get? found)]
    exact then_ found

private theorem editing_scope (id : ScopeId) : Editing licence (scope id) :=
  editing_inspect _

private theorem editing_findImmediate (id : ScopeId) (name : String) : Editing licence (findImmediate id name) :=
  editing_inspect _

section

variable {value : Binding} {machine : Machine} (drawn : machine.heap.Drawn licence.grows value)

include drawn

private theorem edits_declare {scope : ScopeId}
    (place : machine.disposable? = some scope ∧ value.name = none ∨ licence.names scope)
    (absent : (∀ name, value.name = some name → machine.heap.findImmediate scope name = .ok none)
      ∨ licence.fills) :
    Edits licence machine (final (declare scope value machine)) :=
  edits_attempt (.declare scope drawn place absent)

private theorem edits_redeclare {scope : ScopeId} (place : licence.names scope) :
    Edits licence machine (final (redeclare scope value machine)) :=
  edits_attempt (.redeclare scope drawn place)

end

theorem editing_declare {scope : ScopeId} (place : licence.names scope) (fills : licence.fills)
    {value : Binding} (drawn : ∀ heap : Heap, heap.Drawn licence.grows value) :
    Editing licence (declare scope value) :=
  fun _ => edits_declare (drawn _) (.inr place) (.inr fills)

/-- A name that was looked for in vain is declared. -/
theorem edits_declare_absent {scope : ScopeId} {name : String} {machine : Machine}
    (place : licence.names scope) (absent : machine.heap.findImmediate scope name = .ok none) :
    Edits licence machine (final (declare scope (.unassigned name) machine)) := by
  refine edits_declare (.plain rfl rfl rfl rfl) (.inr place) (.inl fun other same => ?_)
  cases same
  exact absent

theorem editing_allocateScope (allowed : licence.grows) {value : Scope} (empty : value.own = #[])
    (durable : value.durable = true) (top : value.parent = none) :
    Editing licence (allocateScope value) :=
  fun _ => .single (.allocateScope allowed empty durable top)

private theorem editing_releaseScope (allowed : licence.frees) (owner : ScopeId) :
    Editing licence (releaseScope owner) :=
  Editing.bind (fun _ => edits_attempt (.releaseScope owner allowed)) fun _ => .pure _

theorem editing_freeScope (allowed : licence.frees) (owner : ScopeId) :
    Editing licence (freeScope owner) :=
  Editing.bind (fun _ => edits_attempt (.freeScope owner allowed)) fun _ => .pure _

private theorem editing_freeBinding {id : BindingId} (allowed : licence.may id) (frees : licence.frees) :
    Editing licence (freeBinding id) :=
  fun _ => .single (.freeBinding allowed frees)

/-! ## The stack, the registers and the frames -/

private theorem editing_pushItem (item : StackItem) : Editing licence (pushItem item) :=
  .quiet (fun _ => rfl) fun _ => rfl

theorem editing_push (id : BindingId) : Editing licence (push id) :=
  editing_pushItem _

private theorem editing_pop : Editing licence pop := by
  refine .quiet (fun machine => ?_) fun machine => ?_ <;>
  · unfold pop
    split <;> rfl

private theorem editing_popBinding : Editing licence popBinding := by
  refine editing_pop.bind fun item => ?_
  cases item with
  | binding id => exact .pure id
  | name index => exact .throw _

private theorem editing_popName : Editing licence popName := by
  refine editing_pop.bind fun item => ?_
  cases item with
  | binding id => exact .throw _
  | name index => exact .pure index

private theorem editing_peek : Editing licence peek := by
  refine .quiet (fun machine => ?_) fun machine => ?_ <;>
  · unfold peek
    split <;> rfl

private theorem editing_peekBinding : Editing licence peekBinding := by
  refine editing_peek.bind fun item => ?_
  cases item with
  | binding id => exact .pure id
  | name index => exact .throw _

private theorem editing_popArguments (count : Nat) (arguments : List BindingId) :
    Editing licence (popArguments count arguments) := by
  induction count generalizing arguments with
  | zero => exact .pure _
  | succ count ih => exact editing_popBinding.bind fun argument => ih (argument :: arguments)

private theorem editing_registers : Editing licence registers :=
  Editing.get.bind fun _ => .pure _

private theorem editing_setRegisters (f : Registers → Registers) : Editing licence (setRegisters f) :=
  .quiet (fun _ => rfl) fun _ => rfl

private theorem editing_currentFrame : Editing licence currentFrame := by
  refine Editing.get.bind fun machine => ?_
  split
  · exact .pure _
  · exact .throw _

private theorem editing_setLocalScopes (turns : licence.turns) (f : List ScopeId → List ScopeId) :
    Editing licence (setLocalScopes f) := by
  refine .turning turns fun machine => ?_
  unfold setLocalScopes
  split <;> rfl

private theorem editing_receiverScope : Editing licence receiverScope :=
  Editing.get.bind fun _ => (editing_binding _).bind fun _ => .pure _

private theorem editing_currentLocalScope : Editing licence currentLocalScope := by
  refine Editing.get.bind fun machine => ?_
  split
  · exact .pure _
  · exact editing_receiverScope

/-! ## Values -/

private theorem editing_intern {payload : Payload}
    (shared : payload = .absent ∨ ∃ value, payload = .boolean value) :
    Editing licence (intern payload) :=
  fun _ => .single (.intern payload (shared.imp_right .inl))

private theorem edits_adopt {value : Binding} {machine : Machine}
    (drawn : machine.heap.Drawn licence.grows value) (unnamed : value.name = none) :
    Edits licence machine (final (adopt value machine)) := by
  unfold adopt
  rw [bind_of_ok (disposableScope_eq machine)]
  cases held : machine.disposable? with
  | none => exact .single (.allocate drawn (.inl ⟨held, unnamed⟩))
  | some scope => exact edits_declare drawn (.inl ⟨held, unnamed⟩) (.inl (by simp [unnamed]))

/-- The binding of a payload can be stored anywhere. -/
theorem drawn_ofPayload (payload : Payload) (name : Option String) (heap : Heap) :
    heap.Drawn licence.grows { Binding.ofPayload payload with name } :=
  .plain rfl rfl rfl rfl

private theorem drawn_unassigned (name : String) (heap : Heap) :
    heap.Drawn licence.grows (.unassigned name) :=
  .plain rfl rfl rfl rfl

private theorem editing_temporary (payload : Payload) : Editing licence (temporary payload) := by
  unfold temporary
  split
  · exact editing_intern (.inl rfl)
  · exact editing_intern (.inr ⟨_, rfl⟩)
  · intro machine
    rw [bind_of_ok (disposableScope_eq machine)]
    cases held : machine.disposable? with
    | none => exact .single (.intern _ (.inr (.inr held)))
    | some scope =>
      exact edits_declare (drawn_ofPayload payload none machine.heap) (.inl ⟨held, rfl⟩)
        (.inl fun _ named => nomatch named)

private theorem editing_report (trouble : Trouble) : Editing licence (report trouble) :=
  fun _ => .single (.report trouble)

theorem editing_recover (trouble : Trouble) : Editing licence (recover trouble) :=
  (editing_report trouble).bind fun _ => Editing.get.bind fun _ => editing_push _

/-! ## Names and elements -/

private theorem editing_keyword (word : Keyword) : Editing licence (keyword word) := by
  cases word with
  | caller => exact editing_registers.bind fun _ => .pure _
  | self => exact editing_registers.bind fun _ => .pure _
  | it => exact Editing.get.bind fun _ => .pure _

/-- An action that changes nothing. -/
def Still (action : Action α) : Prop :=
  ∀ machine, final (action machine) = machine

theorem Still.bind {action : Action α} {next : α → Action β} (first : Still action)
    (second : ∀ value, Still (next value)) : Still (action >>= next) := by
  intro machine
  have same := first machine
  cases result : action machine with
  | error fault after =>
    rw [result] at same
    rw [bind_of_error result]
    exact same
  | ok value after =>
    rw [result] at same
    cases same
    rw [bind_of_ok result]
    exact second value _

private theorem still_inspect (f : Heap → Except Stale α) : Still (inspect f) := by
  intro machine
  unfold inspect
  cases f machine.heap <;> rfl

private theorem still_findThrough {find : ScopeId → String → Action (Option BindingId)}
    (finds : ∀ scope name, Still (find scope name)) (id : BindingId) (name : String) :
    Still (findThrough find id name) := by
  refine (still_inspect _).bind fun binding => ?_
  split
  · exact finds _ name
  · exact fun _ => rfl

/-- What follows an action that changes nothing starts from the same machine. -/
theorem edits_still {action : Action α} {next : α → Action β} {machine : Machine}
    (still : Still action)
    (then_ : ∀ {value}, action machine = .ok value machine →
      Edits licence machine (final (next value machine))) :
    Edits licence machine (final ((action >>= next) machine)) := by
  have same := still machine
  cases result : action machine with
  | error fault after =>
    rw [result] at same
    cases same
    rw [bind_of_error result]
    exact .refl
  | ok value after =>
    rw [result] at same
    cases same
    rw [bind_of_ok result]
    exact then_ result

private theorem findImmediate_ok {scope : ScopeId} {name : String} {machine : Machine}
    {found : Option BindingId} (searched : findImmediate scope name machine = .ok found machine) :
    machine.heap.findImmediate scope name = .ok found := by
  unfold findImmediate inspect at searched
  split at searched
  · cases searched
    assumption
  · cases searched

private theorem editing_resolveName (names : ∀ scope, licence.names scope) (name : String) :
    Editing licence (resolveName name) := by
  refine fun machine => edits_still (fun _ => rfl) fun {_} got => ?_
  cases got
  refine edits_still (still_inspect _) fun {found} searched => ?_
  split
  · exact .refl
  · refine edits_still (still_findThrough (fun _ _ => still_inspect _) _ _) fun {found} _ => ?_
    split
    · exact .refl
    · refine edits_still (still_findThrough (fun _ _ => still_inspect _) _ _) fun {found} _ => ?_
      split
      · exact .refl
      · refine edits_still (still_inspect _) fun {found} _ => ?_
        split
        · exact .refl
        · exact edits_declare_absent (names _) (findImmediate_ok searched)

private theorem editing_resolveDirect (names : ∀ scope, licence.names scope) (name : String) :
    Editing licence (resolveDirect name) := by
  unfold resolveDirect
  split
  · exact editing_keyword _
  · exact editing_resolveName names name

private theorem editing_resolveScoped (names : ∀ scope, licence.names scope) (target : BindingId)
    (name : String) :
    Editing licence (resolveScoped target name) := by
  refine (editing_binding target).bind fun binding => ?_
  split
  · exact .pure _
  · refine fun machine => edits_still (still_inspect _) fun {found} searched => ?_
    split
    · exact .refl
    · exact (edits_declare_absent (names _) (findImmediate_ok searched)).bind fun _ => .pure _

theorem editing_declareElements {scope : ScopeId} (place : licence.names scope) (fills : licence.fills)
    (count index : Nat) :
    Editing licence (declareElements scope count index) := by
  induction count generalizing index with
  | zero => exact .pure _
  | succ count ih =>
    exact (editing_declare place fills (drawn_unassigned (toString index))).bind fun _ =>
      ih (index + 1)

theorem editing_arraySize (arguments : List BindingId) : Editing licence (arraySize arguments) := by
  unfold arraySize
  split
  · exact (editing_binding _).bind fun _ => .pure _
  · exact .pure _

private theorem editing_readSize (array : Binding) : Editing licence (readSize array) := by
  unfold readSize
  split
  · exact .throw _
  · refine (editing_findImmediate _ _).bind fun found => ?_
    split
    · exact .throw _
    · refine (editing_binding _).bind fun size => ?_
      split
      · exact .pure _
      · exact .throw _

private theorem editing_arrayIndex : Editing licence arrayIndex := by
  refine editing_popBinding.bind fun _ => editing_popBinding.bind fun _ =>
    (editing_binding _).bind fun position => ?_
  split
  · refine (editing_binding _).bind fun array => (editing_readSize array).bind fun found => ?_
    obtain ⟨scope, size⟩ := found
    dsimp only
    split
    · exact .throw _
    · refine (editing_findImmediate _ _).bind fun element => ?_
      split
      · exact editing_push _
      · exact editing_recover _
  · exact .throw _

/-! ## Operators -/

private theorem editing_poolName (names : NamePool) (index : Nat) : Editing licence (poolName names index) := by
  unfold poolName
  split
  · exact .pure _
  · exact .throw _

private theorem editing_pushResult (result : Except OperatorError Payload) :
    Editing licence (pushResult result) := by
  cases result with
  | ok payload => exact (editing_temporary payload).bind fun _ => editing_push _
  | error error => exact editing_recover _

private theorem editing_binary (operator : Binding → Binding → Except OperatorError Payload) :
    Editing licence (binary operator) :=
  editing_popBinding.bind fun _ => editing_popBinding.bind fun _ => (editing_binding _).bind
    fun _ => (editing_binding _).bind fun _ => editing_pushResult _

private theorem editing_negate : Editing licence negate :=
  editing_popBinding.bind fun _ => (editing_binding _).bind fun _ => editing_pushResult _

/-- What is assigned to was read before, and is no constant. -/
theorem editing_assign (assigns : licence.assigns) : Editing licence assign := by
  refine editing_popBinding.bind fun value => editing_popBinding.bind fun target machine =>
    edits_reads fun {current} there => ?_
  split
  · exact editing_recover _ machine
  · next unlocked =>
    refine edits_reads fun {source} stored => ?_
    rw [bind_of_ok (updateBinding_of_get? there _)]
    exact .tail (.single (.assign assigns there (by simpa using unlocked) ⟨value, stored⟩))
      (.quiet rfl (.inl rfl))

private theorem editing_equality (wanted : Bool) : Editing licence (equality wanted) :=
  editing_popBinding.bind fun _ => editing_popBinding.bind fun _ => (editing_binding _).bind
    fun _ => (editing_binding _).bind fun _ => (editing_intern (.inr ⟨_, rfl⟩)).bind
    fun _ => editing_push _

private theorem editing_compare : Editing licence compare := by
  refine editing_popBinding.bind fun _ => editing_popBinding.bind fun _ =>
    (editing_binding _).bind fun left => (editing_binding _).bind fun right => ?_
  dsimp only
  split
  · exact editing_setRegisters _
  · exact editing_setRegisters _
  · exact (editing_setRegisters _).bind fun _ => editing_report _

private theorem editing_loadComparisonBit (operand : Nat) : Editing licence (loadComparisonBit operand) := by
  unfold loadComparisonBit
  split
  · exact .throw _
  · exact editing_registers.bind fun _ => (editing_intern (.inr ⟨_, rfl⟩)).bind fun _ =>
      editing_push _

private theorem editing_truthy (condition : BindingId) : Editing licence (truthy condition) := by
  refine (editing_binding condition).bind fun binding => ?_
  split
  · exact .pure _
  · split
    · exact .pure _
    · exact (editing_report _).bind fun _ => .pure _

theorem edits_copyAttributes (grows : licence.grows) {machine : Machine} {source : BindingId}
    {value : Binding} (there : machine.heap.bindings.get? source = some value) :
    Edits licence machine (final (copyAttributes value machine))
      ∧ ∀ {scope after}, copyAttributes value machine = .ok scope after →
        after.heap.bindings.get? source = some value ∧ after.heap.Suitable scope := by
  unfold copyAttributes
  cases attributes : value.scope with
  | none =>
    refine ⟨.single (.allocateScope grows rfl rfl rfl), fun made => ?_⟩
    cases made
    exact ⟨there, Heap.suitable_allocateScope rfl rfl⟩
  | some scope =>
    have serves : machine.heap.Serves scope := ⟨source, value, there, attributes⟩
    refine ⟨edits_attempt (.copyScope grows serves), fun {copy after} made => ?_⟩
    simp only [copyScope, attempt, Machine.withHeap] at made
    split at made
    · next result =>
      cases made
      simp only [Prod.mk.injEq] at result
      obtain ⟨made, rfl⟩ := result
      exact ⟨Heap.get?_copyScope there, Heap.suitable_copyScope serves made⟩
    · cases made

/-- A copy has attributes of its own. -/
theorem editing_copyBinding (grows : licence.grows) (source : BindingId) :
    Editing licence (copyBinding source) := by
  refine fun machine => edits_reads fun {value} there => ?_
  obtain ⟨edits, opened⟩ := edits_copyAttributes grows there
  cases opens : copyAttributes value machine with
  | error fault after =>
    rw [opens] at edits
    rw [bind_of_error opens]
    exact edits
  | ok scope after =>
    rw [opens] at edits
    rw [bind_of_ok opens]
    obtain ⟨still, suitable⟩ := opened opens
    exact edits.tail (.allocate (.furnished grows ⟨source, still⟩ suitable) (.inr grows))

theorem editing_popParameters (names : NamePool) (count : Nat) (parameters : List String) :
    Editing licence (popParameters names count parameters) := by
  induction count generalizing parameters with
  | zero => exact .pure _
  | succ count ih =>
    exact editing_popName.bind fun index => (editing_poolName names index).bind fun name =>
      ih (name :: parameters)

private theorem editing_defineMethod (grows : licence.grows) (names : NamePool) (count : Nat) :
    Editing licence (defineMethod names count) := by
  refine (editing_popParameters names count []).bind fun parameters machine => ?_
  exact .tail (.tail (.single (.allocateScope grows rfl rfl rfl))
    (.allocate (.method grows (Heap.suitable_allocateScope rfl rfl)) (.inr grows)))
    (.quiet rfl (.inl rfl))

private theorem editing_resolveTop (places : ∀ scope, licence.names scope) (names : NamePool) :
    Editing licence (resolveTop names) :=
  editing_popName.bind fun _ => (editing_poolName names _).bind fun name =>
    (editing_resolveDirect places name).bind fun _ => editing_push _

private theorem editing_resolveMember (places : ∀ scope, licence.names scope) (names : NamePool) :
    Editing licence (resolveMember names) := by
  refine editing_popName.bind fun _ => (editing_poolName names _).bind fun name =>
    editing_popBinding.bind fun target => (editing_resolveScoped places target name).bind
    fun found => ?_
  split
  · exact editing_push _
  · exact (editing_binding _).bind fun _ => editing_recover _

/-! ## Blocks -/

private theorem editing_enterLocal (opens : licence.opens) (turns : licence.turns) :
    Editing licence enterLocal :=
  editing_registers.bind fun _ => Editing.bind (fun _ => .single (.openScope _ opens)) fun _ =>
    (editing_setLocalScopes turns _).bind fun _ => editing_setRegisters _

theorem editing_leaveLocal (frees : licence.frees) (turns : licence.turns) :
    Editing licence leaveLocal := by
  refine editing_currentFrame.bind fun frame => ?_
  split
  · exact .throw _
  · exact (editing_setLocalScopes turns _).bind fun _ => (editing_releaseScope frees _).bind fun _ =>
      editing_currentLocalScope.bind fun _ => editing_setRegisters _

private theorem editing_print (writes : licence.writes) : Editing licence print :=
  editing_peekBinding.bind fun id => (editing_binding id).bind fun value _ =>
    .single (.write value.display writes)

private theorem editing_readLine : Editing licence readLine := by
  refine Editing.bind (.quiet (fun machine => ?_) fun machine => ?_) fun line =>
    Editing.bind (fun machine => edits_adopt (drawn_ofPayload (.text line) none machine.heap) rfl)
      fun _ => editing_push _
  all_goals
    have unwritten : machine.console.readLine.2.output = machine.console.output := rfl
    simp only [Machine.withConsole]
    generalize machine.console.readLine = result at unwritten ⊢
    obtain ⟨line, console⟩ := result
  · cases line <;> simpa [Machine.fixtures, final] using unwritten
  · cases line <;> rfl

private theorem editing_syscall (operand : Nat)
    (writes : Syscall.ofOperand? operand = some .print → licence.writes) :
    Editing licence (syscall operand) := by
  unfold syscall
  split
  · next print => exact editing_print (writes print)
  · exact editing_readLine
  · exact .throw _

/-! ## Calls and returns -/

theorem editing_callOperands (count : Nat) : Editing licence (callOperands count) :=
  (editing_popArguments count []).bind fun _ => editing_popBinding.bind fun _ =>
    editing_popBinding.bind fun _ => (editing_binding _).bind fun _ => .pure _

theorem editing_checkCall (target : Binding) (supplied : Nat) :
    Editing licence (checkCall target supplied) := by
  unfold checkCall
  split
  · refine Editing.bind ?_ fun declared => ?_
    · unfold parameterCount
      split
      · exact (editing_scope _).bind fun _ => .pure _
      · exact .pure _
    · split
      · exact .throw _
      · exact .pure _
  · exact .throw _

private theorem editing_bindParameters {scope : ScopeId} (place : licence.names scope)
    (pairs : List (String × BindingId)) :
    Editing licence (bindParameters scope pairs) := by
  induction pairs with
  | nil => exact .pure _
  | cons pair rest ih =>
    refine fun machine => edits_reads fun {source} there => ?_
    have copied : (Binding.unassigned pair.1).assign source
        = { source with name := some pair.1, constant := false } := by
      simp [Binding.assign, Binding.unassigned, Binding.isNull]
    rw [copied]
    exact Edits.bind (edits_redeclare (.copy _ ⟨_, there⟩) place) fun _ => ih

theorem editing_bindArguments {target : Binding} {place : Option ScopeId}
    (names : ∀ scope, target.scope = some scope → licence.names (place.getD scope))
    (arguments : List BindingId) : Editing licence (bindArguments target place arguments) := by
  unfold bindArguments
  split
  · next scope refers =>
    exact (editing_scope _).bind fun _ => editing_bindParameters (names scope refers) _
  · exact .pure _

theorem editing_rescue (owner : ScopeId) (keep : Option BindingId) :
    Editing licence (rescue owner keep) := by
  unfold rescue
  split
  · exact .pure _
  · refine (editing_scope owner).bind fun scope => ?_
    split
    · exact Editing.bind (fun machine => edits_reads fun {escaped} there =>
        edits_adopt (.copy none ⟨_, there⟩) rfl) fun _ => .pure _
    · exact .pure _

theorem editing_releaseScopes (frees : licence.frees) (scopes : List ScopeId)
    (keep : Option BindingId) :
    Editing licence (releaseScopes scopes keep) := by
  induction scopes generalizing keep with
  | nil => exact .pure _
  | cons scope rest ih =>
    exact (editing_rescue scope keep).bind fun keep => (editing_releaseScope frees scope).bind fun _ =>
      ih keep

theorem editing_keepsMethod (frame : Frame) (scope : ScopeId) (keep : Option BindingId) :
    Editing licence (keepsMethod frame scope keep) := by
  unfold keepsMethod
  split
  · exact .pure _
  · split
    · exact .pure _
    · exact (editing_binding _).bind fun _ => .pure _

theorem editing_yielded (frame : Frame) (outermost : Bool) (explicit : Option BindingId) :
    Editing licence (yielded frame outermost explicit) := by
  unfold yielded
  split
  · exact .pure _
  · split
    · exact editing_registers.bind fun _ => .pure _
    · refine (editing_binding _).bind fun caller => ?_
      split <;> exact .pure _

theorem editing_popExplicit (hasValue : Bool) : Editing licence (popExplicit hasValue) := by
  unfold popExplicit
  split
  · exact editing_popBinding.bind fun _ => .pure _
  · exact .pure _

theorem editing_popFrame (turns : licence.turns) : Editing licence popFrame := by
  refine .turning turns fun machine => ?_
  unfold popFrame
  split <;> rfl

theorem editing_truncate (height : Nat) : Editing licence (truncate height) :=
  .quiet (fun _ => rfl) fun _ => rfl

private theorem editing_refocus : Editing licence refocus :=
  editing_currentLocalScope.bind fun _ => editing_setRegisters _

theorem editing_enterFrame (turns : licence.turns) (caller receiver : BindingId) (body : Nat)
    (methodScope : Option ScopeId) : Editing licence (enterFrame caller receiver body methodScope) := by
  refine Editing.get.bind fun machine => ?_
  split
  · refine Editing.bind (.turning turns fun _ => rfl) fun _ => editing_currentLocalScope.bind fun _ =>
      (editing_setRegisters _).bind fun _ => .pure _
  · exact .throw _

private theorem editing_evaluateInPlace (names : ∀ scope, licence.names scope) (turns : licence.turns)
    (count : Nat) : Editing licence (evaluateInPlace count) :=
  (editing_popArguments count []).bind fun _ => editing_popBinding.bind fun _ =>
    (editing_binding _).bind fun target => (editing_checkCall target _).bind fun _ =>
    editing_receiverScope.bind fun _ => (editing_bindArguments (fun _ _ => names _) _).bind fun _ =>
    editing_registers.bind fun _ => editing_enterFrame turns _ _ _ _

theorem editing_callMethod (names : ∀ scope, licence.names scope) (turns : licence.turns)
    (caller method : BindingId) (target : Binding) (arguments : List BindingId) :
    Editing licence ((checkCall target arguments.length >>= fun _ => bindArguments target none arguments)
      >>= fun _ => enterFrame caller method target.body target.scope) :=
  Editing.bind ((editing_checkCall target _).bind fun _ =>
    editing_bindArguments (fun _ _ => names _) _) fun _ => editing_enterFrame turns _ _ _ _

private theorem editing_elementScope {array : BindingId} (may : licence.may array) (grows : licence.grows) :
    Editing licence (elementScope array) := by
  refine fun machine => edits_reads fun {binding} there => ?_
  cases binding.scope with
  | some scope => exact .refl
  | none =>
    let made := machine.heap.allocateScope { durable := true }
    let after : Machine := { machine with heap := made.2 }
    have opens : allocateScope { durable := true } machine = .ok made.1 after := rfl
    have found : after.heap.bindings.get? array = some binding := there
    dsimp only
    rw [bind_of_ok opens, bind_of_ok (updateBinding_of_get? found _)]
    exact .tail (.single (.allocateScope grows rfl rfl rfl))
      (.furnish may grows (Heap.suitable_allocateScope rfl rfl))

theorem editing_constructArray {array : BindingId} (may : licence.may array) (grows : licence.grows)
    (names : ∀ scope, licence.names scope) (fills : licence.fills) (arguments : List BindingId) :
    Editing licence (constructArray array arguments) := by
  refine (editing_arraySize arguments).bind fun size => ?_
  split
  · exact editing_recover _
  · next size =>
    exact (editing_elementScope may grows).bind fun scope =>
      (editing_declareElements (names scope) fills _ _).bind fun _ =>
      (editing_declare (names scope) fills (drawn_ofPayload (.integer size) _)).bind
        fun _ => editing_push _

private theorem editing_evaluate (may : ∀ id, licence.may id) (grows : licence.grows)
    (names : ∀ scope, licence.names scope) (turns : licence.turns) (fills : licence.fills) (count : Nat) :
    Editing licence (evaluate count) := by
  rw [evaluate_eq]
  refine (editing_callOperands count).bind fun operands => ?_
  obtain ⟨caller, method, target, arguments⟩ := operands
  dsimp only
  split
  · exact (editing_constructArray (may method) grows names fills arguments).bind fun _ => .pure _
  · exact editing_callMethod names turns _ _ target arguments

private theorem editing_releaseMethod {frame : Frame}
    (may : frame.methodScope.isSome → licence.may frame.receiver) (frees : licence.frees)
    (keep : Option BindingId) : Editing licence (releaseMethod frame keep) := by
  unfold releaseMethod
  split
  · exact .pure _
  · next own =>
    refine (editing_keepsMethod frame _ keep).bind fun kept => ?_
    split
    · exact .pure _
    · exact (editing_rescue _ keep).bind fun _ => (editing_freeScope frees _).bind fun _ =>
        (editing_freeBinding (may (by simp [own])) frees).bind fun _ => .pure _

/-- A frame frees its own scopes, and the method copy that it runs on. -/
theorem editing_settled {frame : Frame}
    (may : frame.methodScope.isSome → licence.may frame.receiver) (frees : licence.frees)
    (outermost : Bool) (explicit : Option BindingId) :
    Editing licence (settled frame outermost explicit) :=
  (editing_yielded frame outermost explicit).bind fun keep =>
    (editing_releaseScopes frees frame.localScopes keep).bind fun keep =>
    editing_releaseMethod may frees keep

theorem editing_resumed (frame : Frame) (keep : Option BindingId) :
    Editing licence (resumed frame keep) :=
  Editing.get.bind fun _ => (editing_push _).bind fun _ => editing_currentFrame.bind fun _ =>
    (editing_setRegisters _).bind fun _ => editing_refocus.bind fun _ => .pure _

private theorem editing_returnFromFrame (may : ∀ id, licence.may id) (frees : licence.frees)
    (turns : licence.turns) (hasValue : Bool) : Editing licence (returnFromFrame hasValue) := by
  refine (editing_popExplicit hasValue).bind fun explicit => (editing_popFrame turns).bind fun frame =>
    (editing_truncate _).bind fun _ => Editing.get.bind fun machine =>
    (editing_yielded frame _ explicit).bind fun keep =>
    (editing_releaseScopes frees frame.localScopes keep).bind fun keep =>
    (editing_releaseMethod (fun _ => may _) frees keep).bind fun keep => ?_
  split
  · exact .pure _
  · simpa only [resumed, refocus, bind_assoc] using editing_resumed frame keep

/-! ## Instructions -/

theorem editing_andNext {action : Action Unit} (editing : Editing licence action) :
    Editing licence (andNext action) :=
  editing.bind fun _ => .pure _

/-- A mark changes neither the name nor the attributes of the binding on top. -/
theorem editing_mark (marks : licence.marks) {f : Binding → Binding}
    (scope : ∀ value, (f value).scope = value.scope) (name : ∀ value, (f value).name = value.name) :
    Editing licence (peekBinding >>= fun id => updateBinding id f) := by
  refine editing_peekBinding.bind fun id machine => ?_
  refine edits_reads fun there => ?_
  exact .single (.mark id f marks scope name)

/-- Every instruction makes such changes only, if its licence has what its opcode needs. -/
theorem editing_step (names : NamePool) (opcode : Opcode) (operand : Nat)
    (opens : opcode = .enterLocal → licence.opens)
    (grows : opcode = .copy ∨ opcode = .defineMethod ∨ opcode = .evaluate → licence.grows)
    (frees : opcode = .leaveLocal ∨ opcode = .return → licence.frees)
    (marks : opcode = .bindType ∨ opcode = .bindSection → licence.marks)
    (may : opcode = .evaluate ∨ opcode = .return → ∀ id, licence.may id)
    (places : opcode = .resolveDirect ∨ opcode = .resolveScoped ∨ opcode = .evaluate
      ∨ opcode = .evaluateInPlace → ∀ scope, licence.names scope)
    (turns : opcode = .enterLocal ∨ opcode = .leaveLocal ∨ opcode = .evaluate
      ∨ opcode = .evaluateInPlace ∨ opcode = .return → licence.turns)
    (writes : opcode = .syscall → Syscall.ofOperand? operand = some .print → licence.writes)
    (fills : opcode = .evaluate → licence.fills) (assigns : opcode = .assign → licence.assigns) :
    Editing licence (step names opcode operand) := by
  cases opcode with
  | loadName =>
    refine editing_andNext ?_
    split
    · exact editing_pushItem _
    · exact .throw _
  | loadLiteral =>
    refine editing_andNext (Editing.get.bind fun machine => ?_)
    split
    · exact editing_push _
    · exact .throw _
  | assign => exact editing_andNext (editing_assign (assigns rfl))
  | add | subtract | multiply | divide | and | or => exact editing_andNext (editing_binary _)
  | not => exact editing_andNext editing_negate
  | equal | notEqual => exact editing_andNext (editing_equality _)
  | compare => exact editing_andNext editing_compare
  | loadComparisonBit => exact editing_andNext (editing_loadComparisonBit operand)
  | jumpIfFalse =>
    exact editing_popBinding.bind fun condition => (editing_truthy condition).bind fun _ => .pure _
  | jump => exact .pure _
  | jumpIfNull => exact editing_popBinding.bind fun _ => (editing_binding _).bind fun _ => .pure _
  | copy =>
    exact editing_andNext (editing_popBinding.bind fun source =>
      (editing_copyBinding (grows (.inl rfl)) source).bind fun _ => editing_push _)
  | bindType =>
    refine editing_andNext ?_
    split
    · exact editing_mark (marks (.inl rfl)) (fun _ => rfl) fun _ => rfl
    · exact .throw _
  | resolveDirect => exact editing_andNext (editing_resolveTop (places (by simp)) names)
  | resolveScoped => exact editing_andNext (editing_resolveMember (places (by simp)) names)
  | defineMethod =>
    exact editing_andNext (editing_defineMethod (grows (.inr (.inl rfl))) names operand)
  | bindSection => exact editing_andNext (editing_mark (marks (.inr rfl)) (fun _ => rfl) fun _ => rfl)
  | evaluate =>
    exact editing_evaluate (may (.inl rfl)) (grows (.inr (.inr rfl))) (places (by simp))
      (turns (by simp)) (fills rfl) operand
  | evaluateInPlace => exact editing_evaluateInPlace (places (by simp)) (turns (by simp)) operand
  | «return» => exact editing_returnFromFrame (may (.inr rfl)) (frees (.inr rfl)) (turns (by simp)) _
  | arrayIndex => exact editing_andNext editing_arrayIndex
  | enterLocal => exact editing_andNext (editing_enterLocal (opens rfl) (turns (by simp)))
  | leaveLocal => exact editing_andNext (editing_leaveLocal (frees (.inl rfl)) (turns (by simp)))
  | syscall => exact editing_andNext (editing_syscall operand (writes rfl))
  | duplicate => exact editing_andNext (editing_peek.bind fun _ => editing_pushItem _)
  | endStatement => exact editing_andNext (editing_popBinding.bind fun _ => editing_setRegisters _)
  | swap =>
    refine editing_andNext (.quiet (fun machine => ?_) fun machine => ?_) <;> split <;> rfl
  | dropTop => exact editing_andNext (editing_pop.bind fun _ => .pure _)
  | dereference =>
    exact editing_andNext (editing_peekBinding.bind fun _ => (editing_binding _).bind fun _ => .pure _)
  | extendArgument | nop => exact .pure _

end Action

end ScopeMachine
