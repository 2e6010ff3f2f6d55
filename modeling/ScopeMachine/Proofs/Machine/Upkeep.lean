import ScopeMachine.Proofs.Machine.Moves
import ScopeMachine.Proofs.Store.Custody

set_option autoImplicit false

/-!
# Upkeep

What an action inside a frame does to a guarded heap. It makes the heap grow, it yields public
bindings, and the only stale handles that it can come across are those of lost scopes.
-/

namespace ScopeMachine

open Heap

/-! ## Machines -/

/-- The bindings that a machine holds from the start or shares for good. -/
inductive Machine.Root (machine : Machine) : BindingId → Prop where
  | nothing : machine.Root machine.nothing
  | constant {id : BindingId} : id ∈ machine.constants → machine.Root id
  | interned {payload : Payload} {id : BindingId} : machine.interned[payload]? = some id →
      machine.Root id

/-- The innermost scope that the current frame frees by itself. -/
def Machine.disposable? (machine : Machine) : Option ScopeId :=
  match machine.frames with
  | [] => none
  | frame :: _ => frame.localScopes.head?.or frame.methodScope

theorem Machine.disposable?_of_frames {before after : Machine} (frames : after.frames = before.frames) :
    after.disposable? = before.disposable? := by
  unfold Machine.disposable?
  rw [frames]

/-- What every action relies on. -/
structure Furnished (lost : ScopeId → Prop) (copies : List BindingId) (machine : Machine) : Prop where
  guarded : Guarded lost copies machine.heap
  roots : ∀ {id}, machine.Root id → machine.heap.Public copies id
  program : machine.heap.Common lost copies machine.programScope
  disposable : ∀ {scope}, machine.disposable? = some scope →
    machine.heap.LiveScope scope ∧ machine.heap.Unsealed copies scope

/-- What the resolution of names relies on. -/
structure Focused (lost : ScopeId → Prop) (copies : List BindingId) (machine : Machine) : Prop where
  caller : machine.heap.Public copies machine.registers.caller
  receiver : machine.heap.Public copies machine.registers.receiver
  lastResult : ∀ {id}, machine.registers.lastResult = some id → machine.heap.Public copies id
  localScope : machine.heap.Reachable lost copies machine.registers.localScope

/-- The heap has grown, new shared values are new bindings, and a new last result is public. -/
structure Went (copies : List BindingId) (before after : Machine) : Prop where
  continues : Continues (Grows copies) before after
  interned : ∀ {payload : Payload} {id}, after.interned[payload]? = some id →
    before.interned[payload]? = some id ∨ Fresh before.heap after.heap id
  lastResult : ∀ {id}, after.registers.lastResult = some id →
    before.registers.lastResult = some id ∨ after.heap.Public copies id

section

variable {lost : ScopeId → Prop} {copies : List BindingId} {before middle after : Machine}

theorem Went.grows (went : Went copies before after) : Grows copies before.heap after.heap := by
  obtain ⟨_, _, _, _, _, _, _, grows, rfl⟩ := went.continues
  exact grows

theorem Went.trans (first : Went copies before middle) (second : Went copies middle after) :
    Went copies before after where
  continues := by
    obtain ⟨_, _, _, _, _, _, _, grows, rfl⟩ := first.continues
    obtain ⟨comparison, lastResult, _, _, _, _, _, more, rfl⟩ := second.continues
    exact ⟨comparison, lastResult, _, _, _, _, _, grows.trans more, rfl⟩
  interned held := by
    obtain held | fresh := second.interned held
    · exact (first.interned held).imp_right second.grows.fresh_right
    · exact .inr (first.grows.fresh_left fresh)
  lastResult last := by
    obtain last | known := second.lastResult last
    · exact (first.lastResult last).imp_right second.grows.public
    · exact .inr known

/-- Changes of the stack, of what was written and of what was reported do not count. -/
theorem Went.of_heap {stack : List StackItem} {heap : Heap} {console : Console}
    {reports : Array Report} (grows : Grows copies before.heap heap) :
    Went copies before { before with heap, stack, console, reports } :=
  ⟨⟨before.registers.comparison, before.registers.lastResult, _, _, _, _, _, grows, rfl⟩, .inl, .inl⟩

theorem Went.root (went : Went copies before after) {id : BindingId} (root : after.Root id) :
    before.Root id ∨ Fresh before.heap after.heap id := by
  have interned := @went.interned
  obtain ⟨_, _, _, _, _, _, _, -, rfl⟩ := went.continues
  cases root with
  | nothing => exact .inl .nothing
  | constant member => exact .inl (.constant member)
  | interned held => exact (interned held).imp_left .interned

theorem Furnished.went (furnished : Furnished lost copies before) (went : Went copies before after)
    (guarded : Guarded lost copies after.heap) : Furnished lost copies after := by
  have grows := went.grows
  refine ⟨guarded, fun {id} root => ?_, ?_, ?_⟩
  · obtain root | fresh := went.root root
    · exact grows.public (furnished.roots root)
    · exact furnished.guarded.public_of_fresh fresh
  · obtain ⟨_, _, _, _, _, _, _, -, rfl⟩ := went.continues
    exact grows.common furnished.program
  · intro scope held
    obtain ⟨_, _, _, _, _, _, _, -, rfl⟩ := went.continues
    obtain ⟨live, unsealed⟩ := furnished.disposable held
    exact ⟨grows.liveScope live, grows.unsealed unsealed⟩

theorem Focused.went (focused : Focused lost copies before) (went : Went copies before after) :
    Focused lost copies after := by
  have grows := went.grows
  have lastResult := @went.lastResult
  obtain ⟨_, _, _, _, _, _, _, -, rfl⟩ := went.continues
  refine ⟨grows.public focused.caller, grows.public focused.receiver, fun last => ?_,
    grows.reachable focused.localScope⟩
  obtain last | known := lastResult last
  · exact grows.public (focused.lastResult last)
  · exact known

end

/-! ## Outcomes -/

/-- A fault that names a stale handle only if it is that of a lost scope. -/
def Excused (lost : ScopeId → Prop) (fault : Fault) : Prop :=
  ∀ {stale}, fault = .staleHandle stale → ∃ scope, stale = .scope scope ∧ lost scope

/-- An action has kept the stack and all that actions rely on. -/
structure Keeps (lost : ScopeId → Prop) (copies : List BindingId) (before after : Machine) :
    Prop where
  went : Went copies before after
  furnished : Furnished lost copies after
  stack : after.stack = before.stack

variable {α β : Type}

/-- What an action that keeps the stack ends in: a value, or an excused fault. -/
def Sustains (lost : ScopeId → Prop) (copies : List BindingId) (before : Machine)
    (yields : α → Heap → Prop) : EStateM.Result Fault Machine α → Prop
  | .ok value after => Keeps lost copies before after ∧ yields value after.heap
  | .error fault after => Keeps lost copies before after ∧ Excused lost fault

/-- An action that keeps the stack and all that actions rely on. -/
def Works (lost : ScopeId → Prop) (copies : List BindingId) (machine : Machine)
    (yields : α → Heap → Prop) (action : Action α) : Prop :=
  Sustains lost copies machine yields (action machine)

section

variable {lost : ScopeId → Prop} {copies : List BindingId} {machine before after : Machine}
  {yields : α → Heap → Prop} {returns : β → Heap → Prop} {action : Action α} {next : α → Action β}

namespace Keeps

theorem refl (furnished : Furnished lost copies machine) : Keeps lost copies machine machine :=
  ⟨.of_heap (.refl copies machine.heap), furnished, rfl⟩

theorem trans {middle : Machine} (first : Keeps lost copies before middle)
    (second : Keeps lost copies middle after) : Keeps lost copies before after :=
  ⟨first.went.trans second.went, second.furnished, second.stack.trans first.stack⟩

/-- A change of the heap keeps what actions rely on if it makes a guarded heap grow. -/
theorem of_heap (furnished : Furnished lost copies machine) {heap : Heap} {console : Console}
    {reports : Array Report} (grows : Grows copies machine.heap heap)
    (guarded : Guarded lost copies heap) :
    Keeps lost copies machine { machine with heap, console, reports } :=
  ⟨.of_heap grows, furnished.went (.of_heap grows) guarded, rfl⟩

end Keeps

section

variable (keeps : Keeps lost copies before after)

include keeps

theorem Keeps.public {id : BindingId} (known : before.heap.Public copies id) :
    after.heap.Public copies id :=
  keeps.went.grows.public known

theorem Keeps.common {scope : ScopeId} (common : before.heap.Common lost copies scope) :
    after.heap.Common lost copies scope :=
  keeps.went.grows.common common

theorem Keeps.reachable {scope : ScopeId} (reachable : before.heap.Reachable lost copies scope) :
    after.heap.Reachable lost copies scope :=
  keeps.went.grows.reachable reachable

end

namespace Works

theorem bind (first : Works lost copies machine yields action)
    (second : ∀ value after, Keeps lost copies machine after → yields value after.heap →
      Works lost copies after returns (next value)) :
    Works lost copies machine returns (action >>= next) := by
  unfold Works at first ⊢
  cases result : action machine with
  | error fault middle =>
    rw [result] at first
    rw [Action.bind_of_error result]
    exact first
  | ok value middle =>
    rw [result] at first
    obtain ⟨keeps, yielded⟩ := first
    rw [Action.bind_of_ok result]
    have later := second value middle keeps yielded
    unfold Works at later
    cases followed : next value middle with
    | ok last after =>
      rw [followed] at later
      exact ⟨keeps.trans later.1, later.2⟩
    | error fault after =>
      rw [followed] at later
      exact ⟨keeps.trans later.1, later.2⟩

theorem pure (furnished : Furnished lost copies machine) {value : α}
    (holds : yields value machine.heap) : Works lost copies machine yields (Pure.pure value) :=
  ⟨.refl furnished, holds⟩

theorem throw (furnished : Furnished lost copies machine) {fault : Fault}
    (excused : Excused lost fault) :
    Works lost copies machine yields (MonadExcept.throw fault : Action α) :=
  ⟨.refl furnished, excused⟩

theorem read {value : α} (reads : action machine = .ok value machine)
    (works : Works lost copies machine returns (next value)) :
    Works lost copies machine returns (action >>= next) := by
  unfold Works
  rw [Action.bind_of_ok reads]
  exact works

theorem weaken {other : α → Heap → Prop} (works : Works lost copies machine yields action)
    (implies : ∀ value heap, yields value heap → other value heap) :
    Works lost copies machine other action := by
  unfold Works at works ⊢
  cases result : action machine with
  | ok value after =>
    rw [result] at works
    exact ⟨works.1, implies value after.heap works.2⟩
  | error fault after =>
    rw [result] at works
    exact works

end Works

end

/-! ## Actions -/

namespace Action

section

variable {lost : ScopeId → Prop} {copies : List BindingId} {machine : Machine}
  (furnished : Furnished lost copies machine)

include furnished

/-! ### The heap -/

private theorem works_inspect {yields : α → Heap → Prop} {f : Heap → Except Stale α}
    (reads : (∃ value, f machine.heap = .ok value ∧ yields value machine.heap)
      ∨ ∃ scope, f machine.heap = .error (.scope scope) ∧ lost scope) :
    Works lost copies machine yields (inspect f) := by
  unfold Works inspect
  obtain ⟨value, found, holds⟩ | ⟨scope, fails, gone⟩ := reads
  · rw [found]
    exact ⟨.refl furnished, holds⟩
  · rw [fails]
    exact ⟨.refl furnished, fun {stale} same => ⟨scope, (Fault.staleHandle.inj same).symm, gone⟩⟩

private theorem works_change {yields : α → Heap → Prop} {f : Heap → α × Heap}
    (grows : Grows copies machine.heap (f machine.heap).2)
    (guarded : Guarded lost copies (f machine.heap).2)
    (holds : yields (f machine.heap).1 (f machine.heap).2) :
    Works lost copies machine yields (change f) :=
  ⟨.of_heap furnished grows guarded, holds⟩

private theorem works_attempt {yields : α → Heap → Prop} {f : Heap → Except Stale α × Heap}
    (tries : (∃ value heap, f machine.heap = (.ok value, heap) ∧ Grows copies machine.heap heap
        ∧ Guarded lost copies heap ∧ yields value heap)
      ∨ ∃ scope, f machine.heap = (.error (.scope scope), machine.heap) ∧ lost scope) :
    Works lost copies machine yields (attempt f) := by
  simp only [Works, attempt, Machine.withHeap]
  obtain ⟨value, heap, made, grows, guarded, holds⟩ | ⟨scope, fails, gone⟩ := tries
  · rw [made]
    exact ⟨.of_heap furnished grows guarded, holds⟩
  · rw [fails]
    exact ⟨.refl furnished, fun {stale} same => ⟨scope, (Fault.staleHandle.inj same).symm, gone⟩⟩

theorem works_binding {id : BindingId} (live : machine.heap.Live id) :
    Works lost copies machine (fun binding heap => heap.bindings.get? id = some binding)
      (binding id) :=
  works_inspect furnished (.inl (binding_of_live live))

private theorem works_scope {id : ScopeId} (live : machine.heap.LiveScope id) :
    Works lost copies machine (fun scope heap => heap.scopes.get? id = some scope)
      (scope id) :=
  works_inspect furnished (.inl (scope_of_live live))

theorem works_findImmediate {id : ScopeId} (reachable : machine.heap.Reachable lost copies id)
    (name : String) :
    Works lost copies machine (fun found heap => ∀ id ∈ found, heap.Public copies id)
      (findImmediate id name) := by
  refine works_inspect furnished ?_
  obtain ⟨found, finds, owned⟩ | ⟨fails, dead⟩ := furnished.guarded.tidy.findImmediate id name
  · exact .inl ⟨found, finds, fun held member =>
      furnished.guarded.public (owned held member) reachable.2⟩
  · exact .inr ⟨id, fails, reachable.lost_of_dead dead⟩

private theorem works_findInherited {id : ScopeId} (common : machine.heap.Common lost copies id)
    (name : String) :
    Works lost copies machine (fun found heap => ∀ id ∈ found, heap.Public copies id)
      (findInherited id name) := by
  have same := findInherited_eq (common.dead_or_lasting furnished.guarded) name
  have works := works_findImmediate furnished common.reachable name
  unfold Works findImmediate inspect at works
  unfold Works findInherited inspect
  dsimp only at works ⊢
  rwa [same]

theorem works_updateBinding {id : BindingId} (known : machine.heap.Public copies id)
    {f : Binding → Binding}
    (common : ∀ binding scope, machine.heap.bindings.get? id = some binding →
      (f binding).scope = some scope → machine.heap.Common lost copies scope) :
    Works lost copies machine (fun _ _ => True) (updateBinding id f) := by
  obtain ⟨value, reads, -⟩ := binding_of_live known.live
  have found : binding id machine = .ok value machine := by simp [binding, inspect, reads]
  exact .read found (works_change furnished (grows_modifyBinding known.other f)
    (furnished.guarded.modifyBinding known.other common) trivial)

private theorem works_declare {owner : ScopeId} (reachable : machine.heap.Reachable lost copies owner)
    {value : Binding}
    (common : ∀ scope, value.scope = some scope → machine.heap.Common lost copies scope) :
    Works lost copies machine (fun id heap => heap.Public copies id) (declare owner value) := by
  refine works_attempt furnished ?_
  by_cases live : machine.heap.LiveScope owner
  · exact .inl ⟨_, _, declare_of_live live value, furnished.guarded.grows_declared owner value,
      furnished.guarded.declared common, furnished.guarded.public_declared reachable.2 value⟩
  · exact .inr ⟨owner, declare_of_dead live value, reachable.lost_of_dead live⟩

/-- A binding that refers to no scope can be declared wherever names are looked up. -/
theorem works_declare_plain {owner : ScopeId}
    (reachable : machine.heap.Reachable lost copies owner) {value : Binding}
    (plain : value.scope = none) :
    Works lost copies machine (fun id heap => heap.Public copies id) (declare owner value) :=
  works_declare furnished reachable fun scope refers => by rw [plain] at refers; cases refers

private theorem works_redeclare {owner : ScopeId} (reachable : machine.heap.Reachable lost copies owner)
    {value : Binding}
    (common : ∀ scope, value.scope = some scope → machine.heap.Common lost copies scope) :
    Works lost copies machine (fun _ _ => True) (redeclare owner value) := by
  have declares := (works_declare furnished reachable common).weaken
    fun _ _ _ => (trivial : True)
  cases named : value.name with
  | none =>
    have same (heap : Heap) : heap.redeclare owner value = heap.declare owner value := by
      rw [Heap.redeclare, named]
    simpa only [redeclare, declare, same] using declares
  | some name =>
    obtain ⟨found, finds, owned⟩ | ⟨fails, dead⟩ :=
      furnished.guarded.tidy.findImmediate owner name
    · cases found with
      | none =>
        have same : machine.heap.redeclare owner value = machine.heap.declare owner value := by
          simp only [Heap.redeclare, named, finds]
        simpa only [Works, redeclare, declare, attempt, Machine.withHeap, same] using declares
      | some id =>
        have known := furnished.guarded.public (owned id rfl) reachable.2
        refine works_attempt furnished (.inl ⟨id, machine.heap.modifyBinding id fun _ => value, ?_,
          grows_modifyBinding known.other _,
          furnished.guarded.modifyBinding known.other fun _ scope _ refers => common scope refers,
          trivial⟩)
        simp only [Heap.redeclare, named, finds]
    · refine works_attempt furnished (.inr ⟨owner, ?_, reachable.lost_of_dead dead⟩)
      simp only [Heap.redeclare, named, fails]

/-! ### Values -/

theorem works_report (trouble : Trouble) :
    Works lost copies machine (fun _ _ => True) (report trouble) :=
  ⟨.of_heap furnished (.refl copies machine.heap) furnished.guarded, trivial⟩

theorem works_intern (payload : Payload) :
    Works lost copies machine (fun id heap => heap.Public copies id) (intern payload) := by
  have guarded := furnished.guarded
  obtain same | ⟨missing, made⟩ : (∃ id, machine.Root id
        ∧ Machine.internIn machine.nothing payload (machine.heap, machine.interned)
          = (id, machine.heap, machine.interned))
      ∨ machine.interned[payload]? = none
        ∧ ∃ value : Binding, value.scope = none
          ∧ Machine.internIn machine.nothing payload (machine.heap, machine.interned)
            = ((machine.heap.allocate value).1, (machine.heap.allocate value).2,
              machine.interned.insert payload (machine.heap.allocate value).1) := by
    simp only [Machine.internIn]
    split
    · exact .inl ⟨_, .nothing, rfl⟩
    · split
      · next id held => exact .inl ⟨id, .interned held, rfl⟩
      · next missing => exact .inr ⟨missing, _, rfl, rfl⟩
  · obtain ⟨id, root, same⟩ := same
    simp only [Works, intern, Machine.withInterned, same]
    exact ⟨.refl furnished, furnished.roots root⟩
  · obtain ⟨value, plain, made⟩ := made
    have fresh := guarded.fresh_allocate value
    have stored : Guarded lost copies (machine.heap.allocate value).2 :=
      guarded.allocate fun scope refers => by rw [plain] at refers; cases refers
    simp only [Works, intern, Machine.withInterned, made]
    have went : Went copies machine { machine with
        heap := (machine.heap.allocate value).2
        interned := machine.interned.insert payload (machine.heap.allocate value).1 } := by
      refine ⟨⟨machine.registers.comparison, machine.registers.lastResult, _, _, _, _, _,
        guarded.grows_allocate value, rfl⟩, fun {key id} held => ?_, .inl⟩
      rw [Std.HashMap.getElem?_insert] at held
      split at held
      · cases held
        exact .inr fresh
      · exact .inl held
    exact ⟨⟨went, furnished.went went stored, rfl⟩, guarded.public_of_fresh fresh⟩

omit furnished in
theorem disposableScope_eq (machine : Machine) :
    disposableScope machine = .ok machine.disposable? machine := by
  obtain ⟨_, _, _, _ | ⟨frame, rest⟩, _⟩ := machine <;> rfl

theorem Furnished.reachable {scope : ScopeId} (held : machine.disposable? = some scope) :
    machine.heap.Reachable lost copies scope :=
  ⟨.inl (furnished.disposable held).1, (furnished.disposable held).2⟩

/-- A binding can always be stored for the current frame. It belongs to the innermost scope of the
frame, or to nothing. -/
theorem adopt_ok {value : Binding}
    (common : ∀ scope, value.scope = some scope → machine.heap.Common lost copies scope) :
    ∃ id after, adopt value machine = .ok id after ∧ Keeps lost copies machine after
      ∧ after.heap.Public copies id ∧ ¬ machine.heap.Live id
      ∧ ∀ {owner}, after.heap.Owns owner id → machine.disposable? = some owner := by
  have guarded := furnished.guarded
  have fresh := guarded.fresh_allocate value
  unfold adopt
  rw [bind_of_ok (disposableScope_eq machine)]
  cases held : machine.disposable? with
  | none =>
    exact ⟨_, _, rfl, .of_heap furnished (guarded.grows_allocate value) (guarded.allocate common),
      guarded.public_of_fresh fresh, fresh.new, fun owns => absurd owns (fresh.unowned _)⟩
  | some scope =>
    obtain ⟨live, unsealed⟩ := furnished.disposable held
    refine ⟨(machine.heap.allocate value).1,
      { machine with heap := machine.heap.declared scope value }, ?_,
      .of_heap furnished (guarded.grows_declared scope value) (guarded.declared common),
      guarded.public_declared unsealed value, fresh.new, fun {owner} owns => ?_⟩
    · simp only [declare, attempt, Machine.withHeap, declare_of_live live value]
    · obtain owns | ⟨rfl, -, -⟩ := owns_adopt.mp owns
      · exact absurd owns (fresh.unowned owner)
      · rfl

theorem works_adopt {value : Binding}
    (common : ∀ scope, value.scope = some scope → machine.heap.Common lost copies scope) :
    Works lost copies machine (fun id heap => heap.Public copies id) (adopt value) := by
  obtain ⟨id, after, result, keeps, known, -⟩ := adopt_ok furnished common
  unfold Works
  rw [result]
  exact ⟨keeps, known⟩

theorem works_temporary (payload : Payload) :
    Works lost copies machine (fun id heap => heap.Public copies id)
      (temporary payload) := by
  unfold temporary
  split
  · exact works_intern furnished _
  · exact works_intern furnished _
  · refine .read (disposableScope_eq machine) ?_
    cases held : machine.disposable? with
    | none => exact works_intern furnished payload
    | some scope => exact works_declare_plain furnished (Furnished.reachable furnished held) rfl

/-! ### Names -/

private theorem works_keyword (focused : Focused lost copies machine) (word : Keyword) :
    Works lost copies machine (fun id heap => heap.Public copies id) (keyword word) := by
  cases word with
  | caller => exact .read rfl (.pure furnished focused.caller)
  | self => exact .read rfl (.pure furnished focused.receiver)
  | it =>
    refine .read rfl (.pure furnished ?_)
    cases last : machine.registers.lastResult with
    | none => exact furnished.roots .nothing
    | some id => exact focused.lastResult last

private theorem works_findThrough {find : ScopeId → String → Action (Option BindingId)} {id : BindingId}
    (known : machine.heap.Public copies id) (name : String)
    (finds : ∀ {scope after}, Furnished lost copies after → after.heap.Common lost copies scope →
      Works lost copies after (fun found heap => ∀ id ∈ found, heap.Public copies id)
        (find scope name)) :
    Works lost copies machine (fun found heap => ∀ id ∈ found, heap.Public copies id)
      (findThrough find id name) := by
  refine (works_binding furnished known.live).bind fun value after keeps there => ?_
  cases refers : value.scope with
  | none => exact .pure keeps.furnished (by simp)
  | some scope =>
    exact finds keeps.furnished
      (keeps.furnished.guarded.common ⟨value, there, refers⟩ (keeps.public known).other)

private theorem works_resolveName (focused : Focused lost copies machine) (name : String) :
    Works lost copies machine (fun id heap => heap.Public copies id) (resolveName name) := by
  refine .read rfl ((works_findImmediate furnished focused.localScope name).bind
    fun found first keeps known => ?_)
  cases found with
  | some id => exact .pure keeps.furnished (known id rfl)
  | none =>
    refine (works_findThrough keeps.furnished (keeps.public focused.receiver) name
      fun furnished common => works_findInherited furnished common name).bind
      fun found second again known => ?_
    replace keeps := keeps.trans again
    cases found with
    | some id => exact .pure keeps.furnished (known id rfl)
    | none =>
      refine (works_findThrough keeps.furnished (keeps.public focused.caller) name
        fun furnished common => works_findImmediate furnished common.reachable name).bind
        fun found third again known => ?_
      replace keeps := keeps.trans again
      cases found with
      | some id => exact .pure keeps.furnished (known id rfl)
      | none =>
        refine (works_findImmediate keeps.furnished (keeps.common furnished.program).reachable
          name).bind fun found last again known => ?_
        replace keeps := keeps.trans again
        cases found with
        | some id => exact .pure keeps.furnished (known id rfl)
        | none =>
          exact works_declare_plain keeps.furnished (keeps.reachable focused.localScope) rfl

theorem works_resolveDirect (focused : Focused lost copies machine) (name : String) :
    Works lost copies machine (fun id heap => heap.Public copies id)
      (resolveDirect name) := by
  unfold resolveDirect
  split
  · exact works_keyword furnished focused _
  · exact works_resolveName furnished focused name

theorem works_resolveScoped {target : BindingId} (known : machine.heap.Public copies target)
    (name : String) :
    Works lost copies machine (fun found heap => ∀ id ∈ found, heap.Public copies id)
      (resolveScoped target name) := by
  refine (works_binding furnished known.live).bind fun value first keeps there => ?_
  cases refers : value.scope with
  | none => exact .pure keeps.furnished (by simp)
  | some scope =>
    have common := keeps.furnished.guarded.common ⟨value, there, refers⟩ (keeps.public known).other
    refine (works_findImmediate keeps.furnished common.reachable name).bind
      fun found second again known => ?_
    cases found with
    | some id => exact .pure again.furnished known
    | none =>
      refine (works_declare_plain again.furnished (again.reachable common.reachable) rfl).bind
        fun id last more known => .pure more.furnished ?_
      simpa using known

/-! ### Arrays and conditions -/

theorem works_declareElements {owner : ScopeId}
    (reachable : machine.heap.Reachable lost copies owner) (count index : Nat) :
    Works lost copies machine (fun _ _ => True) (declareElements owner count index) := by
  induction count generalizing index machine with
  | zero => exact .pure furnished trivial
  | succ count ih =>
    refine (works_declare_plain furnished reachable rfl).bind fun _ after keeps _ => ?_
    exact ih keeps.furnished (keeps.reachable reachable) (index + 1)

omit furnished in
theorem arraySize_ok {arguments : List BindingId}
    (live : ∀ id ∈ arguments, machine.heap.Live id) :
    ∃ size, arraySize arguments machine = .ok size machine := by
  unfold arraySize
  split
  · next argument =>
    obtain ⟨value, reads, -⟩ := binding_of_live (live argument (.head _))
    have found : binding argument machine = .ok value machine := by simp [binding, inspect, reads]
    exact ⟨_, bind_of_ok found⟩
  · exact ⟨none, rfl⟩

theorem works_readSize {id : BindingId} (known : machine.heap.Public copies id) {array : Binding}
    (there : machine.heap.bindings.get? id = some array) :
    Works lost copies machine (fun found heap => heap.Common lost copies found.1)
      (readSize array) := by
  unfold readSize
  split
  · exact .throw furnished fun same => by cases same
  · next scope refers =>
    have common := furnished.guarded.common ⟨array, there, refers⟩ known.other
    refine (works_findImmediate furnished common.reachable _).bind fun found first keeps known => ?_
    cases found with
    | none => exact .throw keeps.furnished fun same => by cases same
    | some size =>
      refine (works_binding keeps.furnished (known size rfl).live).bind fun value last again _ => ?_
      split
      · exact .pure again.furnished ((keeps.trans again).common common)
      · exact .throw again.furnished fun same => by cases same

theorem works_truthy {condition : BindingId} (known : machine.heap.Public copies condition) :
    Works lost copies machine (fun _ _ => True) (truthy condition) := by
  refine (works_binding furnished known.live).bind fun value after keeps _ => ?_
  split
  · exact .pure keeps.furnished trivial
  · split
    · exact .pure keeps.furnished trivial
    · exact (works_report keeps.furnished _).bind fun _ _ again _ => .pure again.furnished trivial

/-! ### Calls -/

theorem works_checkCall {target : Binding}
    (live : ∀ scope, target.scope = some scope → machine.heap.LiveScope scope) (supplied : Nat) :
    Works lost copies machine (fun _ _ => True) (checkCall target supplied) := by
  unfold checkCall
  split
  · have counts : Works lost copies machine (fun _ _ => True) (parameterCount target) := by
      unfold parameterCount
      split
      · next scope refers =>
        exact (works_scope furnished (live scope refers)).bind fun _ _ keeps _ =>
          .pure keeps.furnished trivial
      · exact .pure furnished trivial
    refine counts.bind fun declared after keeps _ => ?_
    split
    · exact .throw keeps.furnished fun same => by cases same
    · exact .pure keeps.furnished trivial
  · exact .throw furnished fun same => by cases same

private theorem works_bindParameters {owner : ScopeId}
    (reachable : machine.heap.Reachable lost copies owner) {pairs : List (String × BindingId)}
    (known : ∀ pair ∈ pairs, machine.heap.Public copies pair.2) :
    Works lost copies machine (fun _ _ => True) (bindParameters owner pairs) := by
  induction pairs generalizing machine with
  | nil => exact .pure furnished trivial
  | cons pair rest ih =>
    obtain ⟨parameter, argument⟩ := pair
    have held : machine.heap.Public copies argument := known _ (.head _)
    refine (works_binding furnished held.live).bind fun source first keeps there => ?_
    have common : ∀ scope, ((Binding.unassigned parameter).assign source).scope = some scope →
        first.heap.Common lost copies scope := fun scope refers =>
      keeps.furnished.guarded.common ⟨source, there, refers⟩ held.other
    refine (works_redeclare keeps.furnished (keeps.reachable reachable) common).bind
      fun _ last again _ => ?_
    have later := keeps.trans again
    exact ih later.furnished (later.reachable reachable)
      fun pair member => later.public (known pair (.tail _ member))

theorem works_bindArguments {target : Binding}
    (live : ∀ scope, target.scope = some scope → machine.heap.LiveScope scope)
    (unsealed : ∀ scope, target.scope = some scope → machine.heap.Unsealed copies scope)
    {arguments : List BindingId} (given : ∀ id ∈ arguments, machine.heap.Public copies id) :
    Works lost copies machine (fun _ _ => True) (bindArguments target none arguments) := by
  unfold bindArguments
  split
  · next scope refers =>
    have reachable : machine.heap.Reachable lost copies scope :=
      ⟨.inl (live scope refers), unsealed scope refers⟩
    refine (works_scope furnished (live scope refers)).bind fun declared after keeps _ => ?_
    refine works_bindParameters keeps.furnished (keeps.reachable reachable) fun pair member => ?_
    exact keeps.public (given _ (List.of_mem_zip member).2)
  · exact .pure furnished trivial

end

end Action

end ScopeMachine
