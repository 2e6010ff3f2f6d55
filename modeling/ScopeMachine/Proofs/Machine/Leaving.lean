import ScopeMachine.Proofs.Machine.InOrder

set_option autoImplicit false

/-!
# Leaving blocks and frames

A machine in order closes its blocks and leaves its frames without a fault. What a frame yields is
copied out of the scopes that go with it, and the machine stays in order.
-/

namespace ScopeMachine

open Heap

/-- A copy of a binding, as it is made of what a frame yields. -/
def Binding.escaped (value : Binding) : Binding :=
  { value with name := none, constant := false }

/-- A heap with one more binding, stored for the current frame of a machine. -/
def Machine.housed (machine : Machine) (heap : Heap) (value : Binding) : Heap :=
  match machine.disposable? with
  | some scope => heap.declared scope value
  | none => (heap.allocate value).2

/-- A binding that is kept was copied out of a scope if it belonged to it. -/
inductive Rescues (owner : ScopeId) (machine : Machine) :
    Option BindingId → Option BindingId → Machine → Prop where
  | free {keep : Option BindingId} (free : ∀ id ∈ keep, ¬ machine.heap.Owns owner id) :
      Rescues owner machine keep keep machine
  | escaped {id : BindingId} {value : Binding} (owns : machine.heap.Owns owner id)
      (there : machine.heap.bindings.get? id = some value) :
      Rescues owner machine (some id) (some (machine.heap.allocate value.escaped).1)
        { machine with heap := machine.housed machine.heap value.escaped }

section

variable {lost more : ScopeId → Prop} {copies : List BindingId} {frames : List Frame}
  {machine : Machine}

theorem Order.focuses {frame : Frame} {callers : List Frame}
    (order : Order lost copies (frame :: callers) machine) (registers : Registers)
    (caller : registers.caller = frame.caller) (receiver : registers.receiver = frame.receiver)
    (last : ∀ {id}, registers.lastResult = some id → machine.heap.Public copies id)
    (place : machine.heap.Reachable lost copies registers.localScope) :
    Order lost copies (frame :: callers) { machine with frames := frame :: callers, registers }
      ∧ Focused lost copies { machine with frames := frame :: callers, registers }
      ∧ Attached { machine with frames := frame :: callers, registers } :=
  ⟨order.rearranged order.items fun _ _ => rfl,
    ⟨caller ▸ order.holds (.head _) .caller, receiver ▸ order.holds (.head _) .receiver, last, place⟩,
    ⟨_, _, rfl, caller, receiver⟩⟩

namespace Action

/-! ## The innermost scope -/

variable (furnished : Furnished lost copies machine)

include furnished

/-- The innermost scope is found, and names can be looked up in it. -/
theorem currentLocalScope_ok (receiver : machine.heap.Public copies machine.registers.receiver) :
    ∃ scope, currentLocalScope machine = .ok scope machine
      ∧ machine.heap.Reachable lost copies scope := by
  have object : ∃ scope, receiverScope machine = .ok scope machine
      ∧ machine.heap.Reachable lost copies scope := by
    obtain ⟨value, reads, there⟩ := binding_of_live receiver.live
    have found : binding machine.registers.receiver machine = .ok value machine := by
      simp [binding, inspect, reads]
    have unfolds : receiverScope machine = (binding machine.registers.receiver >>= fun receiver =>
      pure (receiver.scope.getD machine.programScope)) machine := rfl
    rw [unfolds, bind_of_ok found]
    refine ⟨value.scope.getD machine.programScope, rfl, ?_⟩
    cases refers : value.scope with
    | none => exact furnished.program.reachable
    | some scope =>
      exact (furnished.guarded.common ⟨value, there, refers⟩ receiver.other).reachable
  have block := @furnished.disposable
  obtain ⟨_, _, _, frames, _⟩ := machine
  rcases frames with _ | ⟨⟨_, _, _, _, _ | ⟨innermost, _⟩, _, _⟩, _⟩
  · exact object
  · exact object
  · obtain ⟨live, unsealed⟩ := block rfl
    exact ⟨innermost, rfl, .inl live, unsealed⟩

theorem refocus_ok (receiver : machine.heap.Public copies machine.registers.receiver) :
    ∃ localScope, refocus machine
        = .ok () { machine with registers := { machine.registers with localScope } }
      ∧ machine.heap.Reachable lost copies localScope := by
  obtain ⟨scope, result, reachable⟩ := currentLocalScope_ok furnished receiver
  exact ⟨scope, bind_of_ok result, reachable⟩

/-! ## Results -/

/-- A binding is copied into the current frame. -/
theorem escape_eq {id : BindingId} {value : Binding}
    (there : machine.heap.bindings.get? id = some value) :
    escape id machine = .ok (machine.heap.allocate value.escaped).1
      { machine with heap := machine.housed machine.heap value.escaped } := by
  have found : binding id machine = .ok value machine := by
    simp [binding, inspect, Heap.binding, there]
  unfold escape
  rw [bind_of_ok found]
  unfold adopt
  rw [bind_of_ok (disposableScope_eq machine)]
  unfold Machine.housed
  cases held : machine.disposable? with
  | none => rfl
  | some scope => exact attempt_of_ok (declare_of_live (furnished.disposable held).1 value.escaped)

private theorem escape_ok {id : BindingId} (known : machine.heap.Public copies id) :
    ∃ copy after, escape id machine = .ok copy after ∧ Keeps lost copies machine after
      ∧ after.heap.Public copies copy ∧ ¬ machine.heap.Live copy
      ∧ ∀ {owner}, after.heap.Owns owner copy → machine.disposable? = some owner := by
  obtain ⟨value, reads, there⟩ := binding_of_live known.live
  have found : binding id machine = .ok value machine := by simp [binding, inspect, reads]
  unfold escape
  rw [bind_of_ok found]
  exact adopt_ok furnished fun scope refers =>
    furnished.guarded.common ⟨value, there, refers⟩ known.other

/-- What is rescued from a scope that the calling frames do not use does not belong to it. -/
theorem rescue_ok {owner : ScopeId} (live : machine.heap.LiveScope owner)
    (other : machine.disposable? ≠ some owner) {keep : Option BindingId}
    (known : ∀ id ∈ keep, machine.heap.Public copies id) :
    ∃ kept after, rescue owner keep machine = .ok kept after ∧ Keeps lost copies machine after
      ∧ Rescues owner machine keep kept after
      ∧ ∀ id ∈ kept, after.heap.Public copies id ∧ ¬ after.heap.Owns owner id
        ∧ (id ∈ keep ∨ ¬ machine.heap.Live id) := by
  cases keep with
  | none => exact ⟨none, machine, rfl, .refl furnished, .free (by simp), by simp⟩
  | some id =>
    obtain ⟨scope, reads, there⟩ := scope_of_live live
    have found : Action.scope owner machine = .ok scope machine := by
      simp [Action.scope, inspect, reads]
    have continues : rescue owner (some id) machine
        = (if scope.owns id then escape id >>= fun copy => pure (some copy) else pure (some id))
          machine := bind_of_ok found
    have member : scope.owns id = true ↔ machine.heap.Owns owner id := by
      simp [Scope.owns, Owns, there]
    rw [continues]
    by_cases owned : scope.owns id = true
    · rw [if_pos owned]
      obtain ⟨value, -, held⟩ := binding_of_live (known id rfl).live
      have copies := escape_eq furnished held
      obtain ⟨copy, after, escapes, keeps, held_copy, new, place⟩ := escape_ok furnished (known id rfl)
      cases escapes.symm.trans copies
      refine ⟨_, _, bind_of_ok copies, keeps, .escaped (member.mp owned) held, ?_⟩
      rintro _ ⟨⟩
      exact ⟨held_copy, fun owns => other (place owns), .inr new⟩
    · rw [if_neg owned]
      have free : ¬ machine.heap.Owns owner id := fun owns => owned (member.mpr owns)
      refine ⟨some id, machine, rfl, .refl furnished, .free ?_, ?_⟩
      · rintro _ ⟨⟩
        exact free
      · rintro _ ⟨⟩
        exact ⟨known id rfl, free, .inl rfl⟩

end Action

end

/-- A scope is gone, its slot has moved on to the next generation, and a binding still refers to
it. -/
structure Heap.Stranded (heap : Heap) (scope : ScopeId) : Prop where
  passed : heap.scopes.generation scope.index = scope.generation + 1
  dead : ¬ heap.LiveScope scope
  referred : ∃ id, heap.Refers id scope

/-- What counts as lost after a return: what was lost before, and the scope of the method that was
left, if it is stranded. -/
structure Loss (lost more : ScopeId → Prop) (frames : List Frame) (heap : Heap) : Prop where
  implies : ∀ {scope}, lost scope → more scope
  dead : ∀ {scope}, more scope → ¬ heap.LiveScope scope
  stranded : ∀ {frame scope}, frames.head? = some frame → frame.methodScope = some scope →
    heap.Stranded scope → more scope

/-! ## Blocks -/

section

variable {lost : ScopeId → Prop} {copies : List BindingId} {frame : Frame}
  {callers : List Frame} {machine : Machine}

theorem Order.keeps {frames : List Frame} {after : Machine}
    (order : Order lost copies frames machine) (keeps : Keeps lost copies machine after) :
    Order lost copies frames after := by
  refine order.went keeps.went keeps.furnished.guarded (fun member other => ?_) fun _ _ => ?_
  · rw [keeps.stack] at member
    exact keeps.public (order.items member other)
  · rw [keeps.stack]

/-- No calling frame uses the scopes of a frame. -/
theorem Order.disposable_ne (order : Order lost copies (frame :: callers) machine)
    (current : machine.frames = callers) {scope : ScopeId} (inside : scope ∈ frame.estate) :
    machine.disposable? ≠ some scope := by
  intro held
  unfold Machine.disposable? at held
  rw [current] at held
  cases callers with
  | nil => cases held
  | cons caller others =>
    refine (order.estates.disjoint inside).2 (.head _) ?_
    obtain block | ⟨-, own⟩ := Option.or_eq_some_iff.mp held
    · exact List.mem_append_left _ (List.mem_of_mem_head? block)
    · exact List.mem_append_right _ (Option.mem_toList.mpr own)

namespace Action

private theorem releaseScope_ok {scope : ScopeId} (fleeting : machine.heap.Fleeting scope) :
    ∃ left, releaseScope scope machine = .ok () { machine with heap := left }
      ∧ machine.heap.Loses scope left ∧ left = (machine.heap.freeScope scope).2 := by
  obtain ⟨count, left, frees, loses⟩ := releaseScope_of_fleeting fleeting
  have same : machine.heap.releaseScope scope = machine.heap.freeScope scope := by
    obtain ⟨found, there, brief⟩ := fleeting
    simp [Heap.releaseScope, Heap.scope, there, brief]
  refine ⟨left, ?_, loses, by rw [← same, frees]⟩
  have attempts : attempt (fun heap => heap.releaseScope scope) machine
      = .ok count { machine with heap := left } := by
    simp only [attempt, Machine.withHeap, frees]
  exact bind_of_ok attempts

theorem leaveLocal_ok (order : Order lost copies (frame :: callers) machine)
    (current : machine.frames = frame :: callers) (attached : Attached machine)
    (height : machine.stack.length = frame.stackMark) {scope : ScopeId} {scopes : List ScopeId}
    (blocks : frame.localScopes = scope :: scopes) :
    ∃ left registers after, leaveLocal machine = .ok () after
      ∧ after = { machine with
        heap := left, frames := { frame with localScopes := scopes } :: callers, registers }
      ∧ machine.heap.Loses scope left
      ∧ Order lost copies after.frames after ∧ Focused lost copies after ∧ Attached after := by
  obtain ⟨_, _, same, caller, receiver⟩ := attached
  rw [current] at same
  cases same
  have fleeting : (closing frame scopes callers machine).heap.Fleeting scope :=
    order.estates.fleeting (.head _) (blocks ▸ List.mem_cons_self)
  obtain ⟨left, releases, loses, -⟩ := releaseScope_ok fleeting
  have closed : Order lost copies ({ frame with localScopes := scopes } :: callers)
      { closing frame scopes callers machine with heap := left } :=
    (order.closes height blocks loses).rearranged (order.closes height blocks loses).items
      fun _ _ => rfl
  obtain ⟨localScope, found, reachable⟩ := currentLocalScope_ok (closed.furnished List.suffix_rfl)
    (receiver ▸ closed.holds (.head _) .receiver)
  have result : leaveLocal machine = .ok () { closing frame scopes callers machine with
      heap := left
      registers := { machine.registers with localScope, lastResult := none } } := by
    rw [leaveLocal_eq current blocks, bind_of_ok releases, bind_of_ok found]
    rfl
  exact ⟨left, _, _, result, rfl, loses,
    closed.focuses _ caller receiver (fun absent => by cases absent) reachable⟩

/-! ## Frames -/

end Action

/-- Scopes that the calling frames do not use are freed one after the other, each after what is kept
was rescued from it. -/
inductive FreesScopes : List ScopeId → Option BindingId → Option BindingId → Machine → Machine → Prop where
  | done {keep : Option BindingId} {machine : Machine} : FreesScopes [] keep keep machine machine
  | next {scope : ScopeId} {scopes : List ScopeId} {keep kept last : Option BindingId}
      {machine middle after : Machine} (apart : machine.disposable? ≠ some scope)
      (rescues : Rescues scope machine keep kept middle) (live : middle.heap.LiveScope scope)
      (later : FreesScopes scopes kept last { middle with heap := (middle.heap.freeScope scope).2 } after) :
      FreesScopes (scope :: scopes) keep last machine after

/-- What becomes of the method copy that a frame runs on. It is freed with its scope, unless the
binding that is kept needs it. -/
inductive DisposesMethodCopy (frame : Frame) (keep : Option BindingId) (machine : Machine) :
    Option BindingId → Machine → Prop where
  | absent (absent : frame.methodScope = none) : DisposesMethodCopy frame keep machine keep machine
  | kept {scope : ScopeId} {id : BindingId} (own : frame.methodScope = some scope) (member : id ∈ keep)
      (needs : id = frame.receiver ∨ machine.heap.Refers id scope) :
      DisposesMethodCopy frame keep machine keep machine
  | freed {scope : ScopeId} {kept : Option BindingId} {left : Machine}
      (own : frame.methodScope = some scope) (freesScopes : FreesScopes [scope] keep kept machine left) :
      DisposesMethodCopy frame keep machine kept
        { left with heap := (left.heap.freeBinding frame.receiver).2 }

namespace Action

/-- The blocks of a frame that was removed already are closed one after the other. -/
theorem releaseScopes_ok {scopes : List ScopeId} {keep : Option BindingId}
    (order : Order lost copies ({ frame with localScopes := scopes } :: callers) machine)
    (current : machine.frames = callers) (height : machine.stack.length = frame.stackMark)
    (known : ∀ id ∈ keep, machine.heap.Public copies id) :
    ∃ kept after, releaseScopes scopes keep machine = .ok kept after
      ∧ after.frames = callers ∧ after.stack = machine.stack
      ∧ Order lost copies ({ frame with localScopes := [] } :: callers) after
      ∧ (∀ id ∈ kept, after.heap.Public copies id) ∧ FreesScopes scopes keep kept machine after
      ∧ ∀ copy ∈ copies, after.heap.bindings.get? copy = machine.heap.bindings.get? copy := by
  induction scopes generalizing machine keep with
  | nil => exact ⟨keep, machine, rfl, current, rfl, order, known, .done, fun _ _ => rfl⟩
  | cons scope scopes ih =>
    have inside : scope ∈ ({ frame with localScopes := scope :: scopes } : Frame).estate := .head _
    have furnished := order.furnished (current ▸ List.suffix_cons _ callers)
    have apart := order.disposable_ne current inside
    obtain ⟨kept, middle, rescues, keeps, rescuing, rescued⟩ := rescue_ok furnished
      (order.estates.liveScope (.head _) inside) apart known
    have kept_order := order.keeps keeps
    obtain ⟨left, releases, loses, rfl⟩ := releaseScope_ok
      (kept_order.estates.fleeting (.head _) (List.mem_cons_self : scope ∈ scope :: scopes))
    have closed := kept_order.closes ((congrArg _ keeps.stack).trans height) rfl loses
    obtain ⟨last, after, result, frames, stack, settled, public_, freesScopes, same⟩ := ih closed
      (keeps.went.continues.frames.trans current) ((congrArg _ keeps.stack).trans height)
      fun id member => (rescued id member).1.loses loses (rescued id member).2.1
    refine ⟨last, after, ?_, frames, stack.trans keeps.stack, settled, public_,
      .next apart rescuing (kept_order.estates.liveScope (.head _) (.head _)) freesScopes,
      fun copy waits => ?_⟩
    · rw [releaseScopes, bind_of_ok rescues, bind_of_ok releases]
      exact result
    · rw [same copy waits, loses.kept (kept_order.guarded.unowned waits scope),
        keeps.went.grows.copies waits]

private theorem freeScope_ok {scope : ScopeId} (live : machine.heap.LiveScope scope) :
    ∃ left, freeScope scope machine = .ok () { machine with heap := left }
      ∧ machine.heap.Loses scope left ∧ left = (machine.heap.freeScope scope).2 := by
  obtain ⟨count, left, frees, loses⟩ := freeScope_of_live live
  exact ⟨left, bind_of_ok (attempt_of_ok frees), loses, by rw [frees]⟩

/-- A method copy that is kept is needed by what the frame yields, and one that is not kept is not
what the frame yields. -/
theorem keepsMethod_ok {scope : ScopeId} {keep : Option BindingId}
    (known : ∀ id ∈ keep, machine.heap.Public copies id) :
    ∃ keeps, keepsMethod frame scope keep machine = .ok keeps machine
      ∧ (keeps = false → ∀ id ∈ keep, id ≠ frame.receiver)
      ∧ (keeps = true → ∃ id ∈ keep, id = frame.receiver ∨ machine.heap.Refers id scope) := by
  cases keep with
  | none => exact ⟨false, rfl, by simp⟩
  | some id =>
    obtain ⟨value, reads, there⟩ := binding_of_live (known id rfl).live
    have found : binding id machine = .ok value machine := by simp [binding, inspect, reads]
    unfold keepsMethod
    by_cases same : id = frame.receiver
    · exact ⟨true, by simp only [if_pos same]; rfl, by simp, fun _ => ⟨id, rfl, .inl same⟩⟩
    · refine ⟨value.scope = some scope, ?_, fun _ => ?_, fun refers => ?_⟩
      · simp only [if_neg same]
        exact bind_of_ok found
      · rintro _ ⟨⟩
        exact same
      · exact ⟨id, rfl, .inr ⟨value, there, of_decide_eq_true refers⟩⟩

/-- The method copy of a frame without blocks is freed or kept. -/
theorem releaseMethod_ok {keep : Option BindingId}
    (order : Order lost copies (frame :: callers) machine)
    (current : machine.frames = callers) (height : machine.stack.length = frame.stackMark)
    (known : ∀ id ∈ keep, machine.heap.Public copies id) :
    ∃ kept after, releaseMethod frame keep machine = .ok kept after
      ∧ after.frames = callers ∧ after.stack = machine.stack
      ∧ (∀ {more}, Loss lost more (frame :: callers) after.heap → Order more copies callers after)
      ∧ (frame.methodScope = none → Order lost copies (frame :: callers) after)
      ∧ (∀ {id}, machine.heap.Public copies id → Spares machine.heap frame id →
        after.heap.Public copies id)
      ∧ (∀ id ∈ kept, after.heap.Public copies id) ∧ DisposesMethodCopy frame keep machine kept after
      ∧ ∀ copy ∈ copies, after.heap.bindings.get? copy = machine.heap.bindings.get? copy := by
  have kept_whole {more : ScopeId → Prop} (loss : Loss lost more (frame :: callers) machine.heap) :
      Order more copies callers machine := (order.tail rfl).mono loss.implies loss.dead
  unfold releaseMethod
  cases own : frame.methodScope with
  | none =>
    exact ⟨keep, machine, rfl, current, rfl, kept_whole, fun _ => order, fun known _ => known, known,
      .absent own, fun _ _ => rfl⟩
  | some scope =>
    have inside : scope ∈ frame.estate := List.mem_append_right _ (Option.mem_toList.mpr own)
    obtain ⟨keeps, decided, unlike, needed⟩ := keepsMethod_ok known
    cases keeps with
    | true =>
      obtain ⟨id, member, needs⟩ := needed rfl
      exact ⟨keep, machine, bind_of_ok decided, current, rfl, kept_whole, fun absent => (by cases absent),
        fun known _ => known, known, .kept own member needs, fun _ _ => rfl⟩
    | false =>
      have furnished := order.furnished (current ▸ List.suffix_cons _ callers)
      have apart := order.disposable_ne current inside
      obtain ⟨kept, middle, rescues, keeps, rescuing, rescued⟩ := rescue_ok furnished
        (order.estates.liveScope (.head _) inside) apart known
      have still := order.keeps keeps
      have live := still.estates.liveScope (.head _) inside
      obtain ⟨left, frees, loses, rfl⟩ := freeScope_ok live
      refine ⟨kept,
        { middle with heap := ((middle.heap.freeScope scope).2.freeBinding frame.receiver).2 }, ?_,
        keeps.went.continues.frames.trans current, keeps.stack, fun loss => ?_,
        fun absent => (by cases absent), fun known spares => ?_, fun id member => ?_,
        .freed own (.next apart rescuing live .done), fun copy waits => ?_⟩
      · refine (bind_of_ok decided).trans ((bind_of_ok rescues).trans ?_)
        exact bind_of_ok frees
      · exact still.frees ((congrArg _ keeps.stack).trans height) own loses loss.implies
          loss.dead fun refers => loss.stranded rfl own ⟨loses.passed, loses.not_liveScope, _, refers⟩
      · have spared := spares.grows known.live keeps.went.grows
        exact ((keeps.public known).loses loses (spared.unowned inside)).freeBinding
          (spared.other (Option.isSome_of_eq_some own))
      · obtain ⟨public_, unowned, source⟩ := rescued id member
        refine (public_.loses loses unowned).freeBinding ?_
        obtain same | new := source
        · exact unlike rfl id same
        · rintro rfl
          exact new (order.holds (.head _) .receiver).live
      · have other : copy ≠ frame.receiver := by
          rintro rfl
          exact (order.holds (.head _) .receiver).other waits
        rw [get?_freeBinding, if_neg other, loses.kept (still.guarded.unowned waits scope),
          keeps.went.grows.copies waits]

private theorem yielded_ok (order : Order lost copies (frame :: callers) machine) (outermost : Bool)
    {explicit : Option BindingId} (known : ∀ id ∈ explicit, machine.heap.Public copies id)
    (last : ∀ {id}, machine.registers.lastResult = some id → machine.heap.Public copies id) :
    ∃ keep, yielded frame outermost explicit machine = .ok keep machine
      ∧ ∀ id ∈ keep, machine.heap.Public copies id := by
  have caller := order.holds (.head _) .caller
  cases explicit with
  | some id => exact ⟨some id, rfl, known⟩
  | none =>
    cases outermost with
    | true => exact ⟨machine.registers.lastResult, rfl, fun id member => last member⟩
    | false =>
      obtain ⟨value, reads, -⟩ := binding_of_live caller.live
      have found : binding frame.caller machine = .ok value machine := by
        simp [binding, inspect, reads]
      have yields : yielded frame false none machine
          = (if value.isNull then (pure (some frame.receiver) : Action (Option BindingId))
            else pure (some frame.caller)) machine := bind_of_ok found
      rw [yields]
      split
      · refine ⟨some frame.receiver, rfl, ?_⟩
        rintro _ ⟨⟩
        exact order.holds (.head _) .receiver
      · refine ⟨some frame.caller, rfl, ?_⟩
        rintro _ ⟨⟩
        exact caller

/-- A frame that was removed already frees what it owned, and what it yields stays. -/
theorem settled_ok (order : Order lost copies (frame :: callers) machine)
    (current : machine.frames = callers) (height : machine.stack.length = frame.stackMark)
    (outermost : Bool) {explicit : Option BindingId}
    (known : ∀ id ∈ explicit, machine.heap.Public copies id)
    (last : ∀ {id}, machine.registers.lastResult = some id → machine.heap.Public copies id) :
    ∃ kept after, settled frame outermost explicit machine = .ok kept after
      ∧ after.frames = callers ∧ after.stack = machine.stack
      ∧ (∀ {more}, Loss lost more (frame :: callers) after.heap → Order more copies callers after)
      ∧ (frame.methodScope = none →
        Order lost copies ({ frame with localScopes := [] } :: callers) after)
      ∧ (∀ {id}, frame.savedResult = some id → after.heap.Public copies id)
      ∧ (∀ id ∈ kept, after.heap.Public copies id)
      ∧ (∃ keep rest middle, yielded frame outermost explicit machine = .ok keep machine
        ∧ FreesScopes frame.localScopes keep rest machine middle
        ∧ DisposesMethodCopy { frame with localScopes := [] } rest middle kept after)
      ∧ ∀ copy ∈ copies, after.heap.bindings.get? copy = machine.heap.bindings.get? copy := by
  obtain ⟨keep, yields, public_⟩ := yielded_ok order outermost known last
  obtain ⟨rescued_keep, middle, releases, frames, stack, closed, rescued, freesScopes, kept_copies⟩ :=
    releaseScopes_ok order current height public_
  obtain ⟨result, after, frees, left, same, order, bottom, spared, safe, disposes, left_copies⟩ :=
    releaseMethod_ok closed frames ((congrArg _ stack).trans height) rescued
  refine ⟨result, after, ?_, left, same.trans stack, fun loss => order ?_, bottom,
    fun saved => spared (closed.holds (.head _) (.saved saved))
      (closed.apart List.suffix_rfl (.saved saved)), safe,
    ⟨keep, rescued_keep, middle, yields, freesScopes, disposes⟩,
    fun copy waits => (left_copies copy waits).trans (kept_copies copy waits)⟩
  · rw [settled, bind_of_ok yields, bind_of_ok releases]
    exact frees
  · refine ⟨loss.implies, loss.dead, fun head own => ?_⟩
    cases head
    exact loss.stranded rfl own

end Action

end

end ScopeMachine
