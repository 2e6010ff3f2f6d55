import ScopeMachine.Proofs.Machine.Frames

set_option autoImplicit false

/-!
# What instructions leave alone

Most actions change the heap, the stack and what was written or reported, and leave the rest of a
machine as it is. What they do to the heap is bounded by a relation between heaps, which is any that
the changes of the heap keep.
-/

namespace ScopeMachine

/-! ## Changes of the heap -/

/-- A preorder between heaps that every change of bindings and of what scopes own respects. -/
structure Change (relates : Heap → Heap → Prop) : Prop where
  refl : ∀ heap, relates heap heap
  trans : ∀ {first second third}, relates first second → relates second third → relates first third
  allocate : ∀ heap binding, relates heap (heap.allocate binding).2
  modifyBinding : ∀ heap id f, relates heap (heap.modifyBinding id f)
  adopt : ∀ heap scope id, relates heap (heap.adopt scope id)

/-- Scopes may be made too. -/
structure Growth (relates : Heap → Heap → Prop) : Prop extends Change relates where
  allocateScope : ∀ heap scope, relates heap (heap.allocateScope scope).2

/-- Bindings and scopes may be freed too. -/
structure Decay (relates : Heap → Heap → Prop) : Prop extends Change relates where
  freeBinding : ∀ heap id, relates heap (heap.freeBinding id).2
  freeScope : ∀ heap id, relates heap (heap.freeScope id).2

/-- Any two heaps are related. -/
def anyChange : Heap → Heap → Prop :=
  fun _ _ => True

theorem growth_anyChange : Growth anyChange where
  refl _ := trivial
  trans _ _ := trivial
  allocate _ _ := trivial
  modifyBinding _ _ _ := trivial
  adopt _ _ _ := trivial
  allocateScope _ _ := trivial

theorem decay_anyChange : Decay anyChange where
  refl _ := trivial
  trans _ _ := trivial
  allocate _ _ := trivial
  modifyBinding _ _ _ := trivial
  adopt _ _ _ := trivial
  freeBinding _ _ := trivial
  freeScope _ _ := trivial

section

variable {relates : Heap → Heap → Prop}

theorem Change.declare (change : Change relates) (heap : Heap) (scope : ScopeId)
    (binding : Binding) : relates heap (heap.declare scope binding).2 := by
  unfold Heap.declare
  split
  · exact change.trans (change.allocate heap binding) (change.adopt _ scope _)
  · exact change.refl heap

theorem Change.redeclare (change : Change relates) (heap : Heap) (scope : ScopeId)
    (binding : Binding) : relates heap (heap.redeclare scope binding).2 := by
  unfold Heap.redeclare
  split
  · exact change.declare heap scope binding
  · split
    · exact change.refl heap
    · exact change.modifyBinding heap _ _
    · exact change.declare heap scope binding

theorem Change.copyInto (change : Change relates) (scope : ScopeId) (ids : List BindingId)
    (heap : Heap) : relates heap (Heap.copyInto scope ids heap).2 := by
  induction ids generalizing heap with
  | nil => exact change.refl heap
  | cons id rest ih =>
    unfold Heap.copyInto
    split
    · exact change.refl heap
    · exact change.trans (change.trans (change.allocate heap _) (change.adopt _ scope _)) (ih _)

theorem Growth.copyScope (growth : Growth relates) (heap : Heap) (source : ScopeId) :
    relates heap (heap.copyScope source).2 := by
  unfold Heap.copyScope
  split
  · exact growth.refl heap
  · next scope _ =>
    have allocated := growth.allocateScope heap
      { parent := scope.parent, parameters := scope.parameters, durable := true }
    generalize heap.allocateScope _ = pair at allocated ⊢
    obtain ⟨copy, after⟩ := pair
    have copied := growth.copyInto copy scope.own.toList after
    dsimp only at copied ⊢
    split
    · next result =>
      rw [result] at copied
      exact growth.trans allocated copied
    · next result =>
      rw [result] at copied
      exact growth.trans allocated copied

theorem Decay.releaseScope (decay : Decay relates) (heap : Heap) (id : ScopeId) :
    relates heap (heap.releaseScope id).2 := by
  unfold Heap.releaseScope
  split
  · exact decay.refl heap
  · split
    · exact decay.refl heap
    · exact decay.freeScope heap id

end

/-! ## Actions -/

variable {α β : Type}

/-- The machine that an action leaves, whether it ends in a value or a fault. -/
def Action.final : EStateM.Result Fault Machine α → Machine
  | .ok _ machine => machine
  | .error _ machine => machine

/-- Only the heap, the stack, the table of shared values, and what was written and reported have
changed. -/
def Turns (relates : Heap → Heap → Prop) (before after : Machine) : Prop :=
  ∃ heap stack interned console reports, relates before.heap heap
    ∧ after = { before with heap, stack, interned, console, reports }

/-- The comparison and the last result may have changed too. -/
def Continues (relates : Heap → Heap → Prop) (before after : Machine) : Prop :=
  ∃ comparison lastResult, Turns relates
    { before with registers := { before.registers with comparison, lastResult } } after

/-- An action that leaves the frames and the registers alone, and changes the heap as a relation
allows. -/
def Steady (relates : Heap → Heap → Prop) (action : Action α) : Prop :=
  ∀ machine, Turns relates machine (Action.final (action machine))

/-- An action that leaves all of the registers alone but the comparison and the last result. -/
def Continuing (relates : Heap → Heap → Prop) (action : Action α) : Prop :=
  ∀ machine, Continues relates machine (Action.final (action machine))

theorem Turns.continues {relates : Heap → Heap → Prop} {before after : Machine}
    (turns : Turns relates before after) : Continues relates before after :=
  ⟨before.registers.comparison, before.registers.lastResult, turns⟩

section

variable {relates : Heap → Heap → Prop} {before after : Machine} (turns : Turns relates before after)

include turns

theorem Turns.config : after.config = before.config := by
  obtain ⟨_, _, _, _, _, -, rfl⟩ := turns
  rfl

theorem Turns.frames : after.frames = before.frames := by
  obtain ⟨_, _, _, _, _, -, rfl⟩ := turns
  rfl

theorem Turns.registers : after.registers = before.registers := by
  obtain ⟨_, _, _, _, _, -, rfl⟩ := turns
  rfl

end

section

variable {relates : Heap → Heap → Prop} {before after : Machine}
  (continues : Continues relates before after)

include continues

theorem Continues.config : after.config = before.config := by
  obtain ⟨_, _, turns⟩ := continues
  exact turns.config

theorem Continues.frames : after.frames = before.frames := by
  obtain ⟨_, _, turns⟩ := continues
  exact turns.frames

theorem Continues.caller : after.registers.caller = before.registers.caller := by
  obtain ⟨_, _, turns⟩ := continues
  rw [turns.registers]

theorem Continues.receiver : after.registers.receiver = before.registers.receiver := by
  obtain ⟨_, _, turns⟩ := continues
  rw [turns.registers]

end

section

variable {relates : Heap → Heap → Prop}

theorem Change.turns (change : Change relates) (machine : Machine) : Turns relates machine machine :=
  ⟨_, _, _, _, _, change.refl machine.heap, rfl⟩

theorem Change.turns_trans (change : Change relates) {first second third : Machine}
    (before : Turns relates first second) (after : Turns relates second third) :
    Turns relates first third := by
  obtain ⟨_, _, _, _, _, once, rfl⟩ := before
  obtain ⟨_, _, _, _, _, twice, rfl⟩ := after
  exact ⟨_, _, _, _, _, change.trans once twice, rfl⟩

namespace Steady

variable {action : Action α} {next : α → Action β} (change : Change relates)

include change

theorem bind (first : Steady relates action) (second : ∀ value, Steady relates (next value)) :
    Steady relates (action >>= next) := by
  intro machine
  have once := first machine
  cases result : action machine with
  | error fault after =>
    rw [result] at once
    rw [Action.bind_of_error result]
    exact once
  | ok value after =>
    rw [result] at once
    rw [Action.bind_of_ok result]
    exact change.turns_trans once (second value after)

theorem pure (value : α) : Steady relates (Pure.pure value) :=
  fun machine => change.turns machine

theorem throw (fault : Fault) : Steady relates (MonadExcept.throw fault : Action α) :=
  fun machine => change.turns machine

theorem get : Steady relates (MonadState.get : Action Machine) :=
  fun machine => change.turns machine

end Steady

private theorem Change.continues_trans (change : Change relates) {first second third : Machine}
    (before : Continues relates first second) (after : Continues relates second third) :
    Continues relates first third := by
  obtain ⟨_, _, _, _, _, _, _, once, rfl⟩ := before
  obtain ⟨comparison, lastResult, _, _, _, _, _, twice, rfl⟩ := after
  exact ⟨comparison, lastResult, _, _, _, _, _, change.trans once twice, rfl⟩

theorem Continuing.bind {action : Action α} {next : α → Action β} (change : Change relates)
    (first : Continuing relates action) (second : ∀ value, Continuing relates (next value)) :
    Continuing relates (action >>= next) := by
  intro machine
  have once := first machine
  cases result : action machine with
  | error fault after =>
    rw [result] at once
    rw [Action.bind_of_error result]
    exact once
  | ok value after =>
    rw [result] at once
    rw [Action.bind_of_ok result]
    exact change.continues_trans once (second value after)

theorem Steady.continuing {action : Action α} (steady : Steady relates action) :
    Continuing relates action :=
  fun machine => (steady machine).continues

namespace Action

private theorem steady_inspect (change : Change relates) (f : Heap → Except Stale α) :
    Steady relates (inspect f) := by
  intro machine
  unfold inspect
  cases f machine.heap <;> exact change.turns machine

private theorem steady_change {f : Heap → α × Heap} (changes : ∀ heap, relates heap (f heap).2) :
    Steady relates (Action.change f) :=
  fun machine => ⟨_, _, _, _, _, changes machine.heap, rfl⟩

private theorem steady_attempt {f : Heap → Except Stale α × Heap}
    (changes : ∀ heap, relates heap (f heap).2) : Steady relates (attempt f) := by
  intro machine
  have changed := changes machine.heap
  simp only [attempt, Machine.withHeap]
  generalize f machine.heap = result at changed ⊢
  obtain ⟨found, heap⟩ := result
  cases found <;> exact ⟨_, _, _, _, _, changed, rfl⟩

private theorem steady_intern (change : Change relates) (payload : Payload) :
    Steady relates (intern payload) := by
  intro machine
  have changed : relates machine.heap
      (Machine.internIn machine.nothing payload (machine.heap, machine.interned)).2.1 := by
    simp only [Machine.internIn]
    split
    · exact change.refl _
    · split
      · exact change.refl _
      · exact change.allocate _ _
  exact ⟨_, _, _, _, _, changed, rfl⟩

end Action

private theorem Steady.evenly {action : Action α} {notes : Prop} (steady : Steady relates action) :
    Continuing relates action ∧ (¬ notes → Steady relates action) :=
  ⟨steady.continuing, fun _ => steady⟩

/-- What neither shifts nor calls leaves the frames and the registers alone, except for the comparison
and the last result if it may change these. -/
theorem Built.evenly {may : Footprint} {action : Action α} (built : Built may action)
    (change : Change relates) (growth : may.grows → Growth relates) (decay : may.frees → Decay relates)
    (shifts : ¬ may.shifts) (calls : ¬ may.calls) :
    Continuing relates action ∧ (¬ may.notes → Steady relates action) := by
  have same (machine : Machine) {stack interned console reports} :
      Turns relates machine { machine with stack, interned, console, reports } :=
    ⟨_, _, _, _, _, change.refl machine.heap, rfl⟩
  induction built with
  | pure value => exact (Steady.pure change value).evenly
  | throw => exact (Steady.throw change _).evenly
  | bind _ _ first second =>
    exact ⟨.bind change first.1 fun value => (second value).1,
      fun notes => (first.2 notes).bind change fun value => (second value).2 notes⟩
  | get _ _ second =>
    exact ⟨.bind change (Steady.get change).continuing fun machine => (second machine).1,
      fun notes => (Steady.get change).bind change fun machine => (second machine).2 notes⟩
  | inspect | findInherited => exact (Action.steady_inspect change _).evenly
  | allocate value =>
    exact (Action.steady_change fun heap => change.allocate heap value).evenly
  | modifyBinding id f =>
    exact (Action.steady_change fun heap => change.modifyBinding heap id f).evenly
  | declare scope value =>
    exact (Action.steady_attempt fun heap => change.declare heap scope value).evenly
  | redeclare scope value =>
    exact (Action.steady_attempt fun heap => change.redeclare heap scope value).evenly
  | intern payload => exact (Action.steady_intern change payload).evenly
  | allocateScope allowed scope =>
    exact (Action.steady_change fun heap => (growth allowed).allocateScope heap scope).evenly
  | copyScope allowed source =>
    exact (Action.steady_attempt fun heap => (growth allowed).copyScope heap source).evenly
  | releaseScope allowed owner =>
    exact ((Action.steady_attempt fun heap => (decay allowed).releaseScope heap owner).bind change
      fun _ => .pure change _).evenly
  | freeScope allowed owner =>
    exact ((Action.steady_attempt fun heap => (decay allowed).freeScope heap owner).bind change
      fun _ => .pure change _).evenly
  | freeBinding allowed id =>
    exact (Action.steady_change fun heap => (decay allowed).freeBinding heap id).evenly
  | pushItem | truncate | writeLine | report =>
    exact Steady.evenly fun machine => same machine
  | pop | peek =>
    refine Steady.evenly fun machine => ?_
    obtain ⟨_, _, stack, _⟩ := machine
    cases stack <;> exact same _
  | swap =>
    refine Steady.evenly fun machine => ?_
    obtain ⟨_, _, stack, _⟩ := machine
    match stack with
    | [] | [_] | _ :: _ :: _ => exact same _
  | readLine =>
    refine Steady.evenly fun machine => ?_
    simp only [Machine.withConsole]
    obtain ⟨line, console⟩ := machine.console.readLine
    cases line <;> exact same _
  | compared allowed comparison =>
    exact ⟨fun machine => ⟨comparison, machine.registers.lastResult, same _⟩, absurd allowed⟩
  | finished allowed result =>
    exact ⟨fun machine => ⟨machine.registers.comparison, some result, same _⟩, absurd allowed⟩
  | setRegisters allowed | setLocalScopes allowed => exact absurd allowed shifts
  | view allowed | pushFrame allowed | popFrame allowed => exact absurd allowed calls

section

variable {action : Action α}

private theorem Steady.of_plain (change : Change relates) (built : Built .plain action) :
    Steady relates action :=
  (built.evenly change False.elim False.elim id id).2 id

private theorem Steady.of_growing (growth : Growth relates) (built : Built .growing action) :
    Steady relates action :=
  (built.evenly growth.toChange (fun _ => growth) False.elim id id).2 id

private theorem Steady.of_freeing (decay : Decay relates) (built : Built .freeing action) :
    Steady relates action :=
  (built.evenly decay.toChange False.elim (fun _ => decay) id id).2 id

end

namespace Action

section

variable (change : Change relates)

include change

theorem steady_binding (id : BindingId) : Steady relates (binding id) :=
  .of_plain change (built_binding id)

theorem steady_push (id : BindingId) : Steady relates (push id) :=
  .of_plain change (built_push id)

theorem steady_popBinding : Steady relates popBinding :=
  .of_plain change built_popBinding

theorem steady_popArguments (count : Nat) (arguments : List BindingId) :
    Steady relates (popArguments count arguments) :=
  .of_plain change (built_popArguments count arguments)

theorem steady_popExplicit (hasValue : Bool) : Steady relates (popExplicit hasValue) :=
  .of_plain change (built_popExplicit hasValue)

theorem steady_registers : Steady relates registers :=
  (Steady.get change).bind change fun _ => .pure change _

theorem steady_receiverScope : Steady relates receiverScope :=
  .of_plain change built_receiverScope

theorem steady_checkCall (target : Binding) (supplied : Nat) :
    Steady relates (checkCall target supplied) :=
  .of_plain change (built_checkCall target supplied)

theorem steady_bindArguments (target : Binding) (place : Option ScopeId)
    (arguments : List BindingId) : Steady relates (bindArguments target place arguments) :=
  .of_plain change (built_bindArguments target place arguments)

end

theorem steady_constructArray (growth : Growth relates) (array : BindingId)
    (arguments : List BindingId) : Steady relates (constructArray array arguments) :=
  .of_growing growth (built_constructArray trivial trivial array arguments)

theorem steady_copyBinding (growth : Growth relates) (source : BindingId) :
    Steady relates (copyBinding source) :=
  .of_growing growth (built_copyBinding trivial source)

theorem steady_releaseScope (decay : Decay relates) (id : ScopeId) :
    Steady relates (releaseScope id) :=
  .of_freeing decay (.releaseScope trivial id)

theorem steady_settled (decay : Decay relates) (frame : Frame) (outermost : Bool)
    (explicit : Option BindingId) : Steady relates (settled frame outermost explicit) :=
  .of_freeing decay ((built_yielded frame outermost explicit).bind fun keep =>
    (built_releaseScopes trivial frame.localScopes keep).bind fun keep =>
    built_releaseMethod trivial frame keep)

/-! ## Instructions -/

/-- Every instruction but those that open and close blocks and frames leaves the frames alone, and
the registers except for the comparison and the last result. -/
theorem continuing_step (growth : Growth relates) (names : NamePool) {opcode : Opcode}
    (operand : Nat) (enter : opcode ≠ .enterLocal) (leave : opcode ≠ .leaveLocal)
    (evaluate : opcode ≠ .evaluate) (inPlace : opcode ≠ .evaluateInPlace)
    (returns : opcode ≠ .return) : Continuing relates (step names opcode operand) :=
  ((built_step names opcode operand).evenly growth.toChange (fun _ => growth)
    (by simp [leave, returns]) (by simp [enter, leave, evaluate, inPlace, returns])
    (by simp [evaluate, inPlace, returns])).1

end Action

end

end ScopeMachine
