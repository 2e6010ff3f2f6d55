import ScopeMachine.Proofs.Machine.Enclosing
import ScopeMachine.Proofs.Machine.Upholding
import ScopeMachine.Proofs.Store.Gains
import ScopeMachine.Proofs.Store.Lookup

set_option autoImplicit false

/-!
# Anchored bindings

The receivers of the running calls belong to no scope. Most changes of a heap do not touch such a
binding, and leave its attributes where they are. What does is an assignment to it, and the end of the
call that it runs.
-/

namespace ScopeMachine

open Heap Assembly

/-! ## Changes of a heap -/

namespace Heap

/-- A binding that belongs to no scope is there, with its attributes in the given scope. -/
structure Anchored (heap : Heap) (id : BindingId) (scope : Option ScopeId) : Prop where
  live : heap.Live id
  unowned : ∀ owner, ¬ heap.Owns owner id
  refers : heap.scopeOf id = scope

section

variable {heap after : Heap} {id : BindingId} {scope : Option ScopeId}

/-- The binding is the same, and no scope has come to own it. -/
theorem Anchored.same (anchored : heap.Anchored id scope)
    (same : after.bindings.get? id = heap.bindings.get? id)
    (owns : ∀ {owner}, after.Owns owner id → heap.Owns owner id ∨ ¬ heap.Live id) :
    after.Anchored id scope := by
  obtain ⟨⟨value, there⟩, unowned, refers⟩ := anchored
  refine ⟨⟨value, same.trans there⟩, fun owner owned => ?_, ?_⟩
  · obtain before | new := owns owned
    · exact unowned owner before
    · exact new ⟨value, there⟩
  · rw [scopeOf, same]
    exact refers

theorem Anchored.allocate (anchored : heap.Anchored id scope) (value : Binding) :
    (heap.allocate value).2.Anchored id scope :=
  anchored.same (get?_allocate_of_live anchored.live) .inl

theorem Anchored.declare (anchored : heap.Anchored id scope) (owner : ScopeId) (value : Binding) :
    (heap.declare owner value).2.Anchored id scope := by
  have gains : Gains (fun _ => True) (fun _ => True) heap (heap.declare owner value).2 :=
    gains_declare trivial value
  refine anchored.same ?_ gains.owns
  by_cases live : heap.LiveScope owner
  · rw [declare_of_live live]
    exact get?_allocate_of_live anchored.live
  · rw [declare_of_dead live]

/-- What takes the place of a binding that a scope owns takes no other's. -/
theorem Anchored.redeclare (anchored : heap.Anchored id scope) (owner : ScopeId) (value : Binding) :
    (heap.redeclare owner value).2.Anchored id scope := by
  unfold Heap.redeclare
  split
  · exact anchored.declare owner value
  · split
    · exact anchored
    · next found =>
      refine anchored.same (get?_modifyBinding_ne ?_) .inl
      rintro rfl
      exact anchored.unowned owner (findImmediate_owns found)
    · exact anchored.declare owner value

theorem Anchored.modifyBinding (anchored : heap.Anchored id scope) {changed : BindingId}
    {f : Binding → Binding} (keeps : changed = id → ∀ value, (f value).scope = value.scope) :
    (heap.modifyBinding changed f).Anchored id scope := by
  by_cases same : id = changed
  · subst same
    obtain ⟨⟨value, there⟩, unowned, refers⟩ := anchored
    have reads : (heap.modifyBinding id f).bindings.get? id = some (f value) := by
      unfold Heap.modifyBinding
      rw [Arena.get?_modify, if_pos rfl, there, Option.map_some]
    refine ⟨⟨_, reads⟩, unowned, ?_⟩
    rw [scopeOf, reads, Option.bind_some, keeps rfl, ← refers, scopeOf, there, Option.bind_some]
  · exact anchored.same (get?_modifyBinding_ne same) .inl

theorem Anchored.allocateScope (anchored : heap.Anchored id scope) {made : Scope}
    (empty : made.own = #[]) : (heap.allocateScope made).2.Anchored id scope :=
  anchored.same rfl fun owns => .inl ((owns_allocateScope empty).mp owns)

theorem Anchored.copyScope (anchored : heap.Anchored id scope) (source : ScopeId) :
    (heap.copyScope source).2.Anchored id scope := by
  obtain ⟨value, there⟩ := anchored.live
  refine anchored.same ((get?_copyScope there).trans there.symm) fun owns => ?_
  obtain ⟨stale, fails⟩ | ⟨found, -, after, -⟩ := copyScope_cases heap source
  · rw [fails] at owns
    exact .inl owns
  · have gains : Gains (fun _ => True) (fun _ => True) _ (heap.copyScope source).2 :=
      after ▸ gains_copyInto trivial (liveScope_allocateScope.mpr (.inl rfl)) _
    exact (gains.owns owns).imp_left (owns_allocateScope rfl).mp

theorem Anchored.loses (anchored : heap.Anchored id scope) {owner : ScopeId}
    (loses : heap.Loses owner after) : after.Anchored id scope :=
  anchored.same (loses.kept (anchored.unowned owner)) fun owns => .inl (loses.owns_before owns).2

theorem Anchored.freeScope (anchored : heap.Anchored id scope) (owner : ScopeId) :
    (heap.freeScope owner).2.Anchored id scope := by
  obtain same | ⟨-, loses⟩ := freeScope_cases heap owner
  · exact same.symm ▸ anchored
  · exact anchored.loses loses

theorem Anchored.releaseScope (anchored : heap.Anchored id scope) (owner : ScopeId) :
    (heap.releaseScope owner).2.Anchored id scope := by
  obtain same | ⟨-, loses⟩ := releaseScope_cases heap owner
  · exact same.symm ▸ anchored
  · exact anchored.loses loses

theorem Anchored.freeBinding (anchored : heap.Anchored id scope) {freed : BindingId}
    (other : freed ≠ id) : (heap.freeBinding freed).2.Anchored id scope :=
  anchored.same ((get?_freeBinding freed id).trans (if_neg other.symm)) .inl

end

end Heap

/-! ## Changes of a machine -/

section

variable {licence : Licence} {before after : Machine} {id : BindingId} {scope : Option ScopeId}

/-- A change moves the attributes of a binding that belongs to no scope only if the licence is for this
binding, or for assignments. -/
theorem Edit.anchored (edit : Edit licence before after) (may : ¬ licence.may id)
    (assigns : ¬ licence.assigns) (anchored : before.heap.Anchored id scope) :
    after.heap.Anchored id scope := by
  have other {changed : BindingId} (allowed : licence.may changed) : changed ≠ id := by
    rintro rfl
    exact may allowed
  cases edit with
  | quiet same =>
    simp only [Machine.fixtures, Prod.mk.injEq] at same
    exact same.1 ▸ anchored
  | report | write => exact anchored
  | allocate => exact anchored.allocate _
  | declare place => exact anchored.declare place _
  | redeclare place => exact anchored.redeclare place _
  | assign allowed => exact absurd allowed assigns
  | intern payload =>
    obtain same | same := before.heap_intern payload
    · exact same ▸ anchored
    · exact same ▸ anchored.allocate _
  | furnish allowed => exact anchored.modifyBinding fun same => absurd same (other allowed)
  | mark changed f _ keeps => exact anchored.modifyBinding fun _ => keeps
  | allocateScope _ empty => exact anchored.allocateScope empty
  | openScope => exact anchored.allocateScope rfl
  | copyScope => exact anchored.copyScope _
  | releaseScope owner => exact anchored.releaseScope owner
  | freeScope owner => exact anchored.freeScope owner
  | freeBinding allowed => exact anchored.freeBinding (other allowed)

theorem Edits.anchored (edits : Edits licence before after) (may : ¬ licence.may id)
    (assigns : ¬ licence.assigns) (anchored : before.heap.Anchored id scope) :
    after.heap.Anchored id scope :=
  edits.keeps (fun edit held => Edit.anchored edit may assigns held) anchored

private theorem Action.heap_assign {value target : BindingId} {rest : List StackItem}
    (stack : before.stack = .binding value :: .binding target :: rest) :
    (final (assign before)).heap = before.heap
      ∨ ∃ current source, before.heap.bindings.get? target = some current ∧ current.constant = false
        ∧ (final (assign before)).heap = before.heap.modifyBinding target (·.assign source) := by
  have pops : popBinding before = .ok value { before with stack := .binding target :: rest } :=
    popBinding_top stack
  have again : popBinding { before with stack := .binding target :: rest }
      = .ok target { before with stack := rest } := popBinding_top rfl
  rw [assign, bind_of_ok pops, bind_of_ok again]
  let ready : Machine := { before with stack := rest }
  cases there : before.heap.bindings.get? target with
  | none =>
    have unread : binding target ready = .error _ ready := binding_of_none there
    rw [bind_of_error unread]
    exact .inl rfl
  | some current =>
    have reads : binding target ready = .ok current ready := binding_of_get? there
    rw [bind_of_ok reads]
    split
    · exact .inl rfl
    · next unlocked =>
      cases stored : before.heap.bindings.get? value with
      | none =>
        have unread : binding value ready = .error _ ready := binding_of_none stored
        rw [bind_of_error unread]
        exact .inl rfl
      | some source =>
        have reads : binding value ready = .ok source ready := binding_of_get? stored
        have found : ready.heap.bindings.get? target = some current := there
        have updates : updateBinding target (·.assign source) ready = .ok () _ :=
          updateBinding_of_get? found _
        rw [bind_of_ok reads, bind_of_ok updates]
        exact .inr ⟨current, source, rfl, by simpa using unlocked, rfl⟩

/-- An assignment to another binding moves no attributes of this one. -/
theorem Action.anchored_assign {value target : BindingId} {rest : List StackItem}
    (stack : before.stack = .binding value :: .binding target :: rest) (other : target ≠ id)
    (anchored : before.heap.Anchored id scope) : (final (assign before)).heap.Anchored id scope := by
  obtain same | ⟨_, source, -, -, changed⟩ := heap_assign stack
  · exact same.symm ▸ anchored
  · rw [changed]
    exact anchored.modifyBinding fun same => absurd same other

end

/-! ## Instructions -/

section

variable {lost : ScopeId → Prop} {kinds : Shape} {machine : Machine}

theorem InOrder.anchored (inOrder : InOrder lost kinds machine) {frame : Frame}
    (member : frame ∈ machine.frames) :
    machine.heap.Anchored frame.receiver (machine.heap.scopeOf frame.receiver) :=
  ⟨(inOrder.order.holds member .receiver).live, inOrder.order.estates.receivers member, rfl⟩

/-- All changes to other bindings but assignments. -/
def Licence.without (id : BindingId) : Licence :=
  ⟨True, True, True, True, (· ≠ id), fun _ => True, True, True, True, False⟩

theorem Editing.anchored {α : Type} {action : Action α} {id : BindingId} {scope : Option ScopeId}
    (editing : Editing (.without id) action) (anchored : machine.heap.Anchored id scope) :
    (Action.final (action machine)).heap.Anchored id scope :=
  (editing machine).anchored (fun other => other rfl) (fun none => none) anchored

/-- A return frees the method copy of the frame that is left, and no receiver of the other frames. -/
theorem InOrder.anchored_return (inOrder : InOrder lost kinds machine) {frame : Frame}
    (member : frame ∈ machine.frames.tail) (hasValue : Bool) :
    (Action.final (Action.returnFromFrame hasValue machine)).heap.Anchored frame.receiver
      (machine.heap.scopeOf frame.receiver) := by
  have anchored := inOrder.anchored (List.mem_of_mem_tail member)
  obtain ⟨top, callers, current, -⟩ := inOrder.attached
  rw [current, List.tail_cons] at member
  have other (called : top.methodScope.isSome) : top.receiver ≠ frame.receiver := fun same =>
    (inOrder.order.apart (current ▸ List.suffix_rfl) (.held member .receiver)).other called same.symm
  have pops := (Action.editing_popExplicit hasValue).anchored anchored
  have frames := (Action.steady_popExplicit growth_anyChange.toChange hasValue machine).frames
  cases explicit : Action.popExplicit hasValue machine with
  | error fault after =>
    rw [explicit] at pops
    rw [Action.returnFromFrame, Action.bind_of_error explicit]
    exact pops
  | ok value ready =>
    rw [explicit] at pops frames
    have there : (Action.popped top callers ready).heap.Anchored frame.receiver
        (machine.heap.scopeOf frame.receiver) := pops
    rw [Action.returnFromFrame_eq (frames.trans current) explicit]
    refine Editing.anchored ((Action.editing_settled other trivial _ value).bind fun keep => ?_) there
    split
    · exact .pure _
    · exact Action.editing_resumed top keep

variable {source : Program} {offset limit : Nat} {cell : Cell}
  (flows : Flows (Pools.ofProgram source) limit (bodies source) True (image source) offset cell)
  (atCell : InOrderAtCell lost source offset cell machine) {frame : Frame}

include flows atCell

/-- A call changes the copy that it runs on, if any. -/
theorem anchored_evaluate (call : cell.command.opcode = .evaluate) (member : frame ∈ machine.frames) :
    (Action.final (Action.evaluate cell.command.operand machine)).heap.Anchored frame.receiver
      (machine.heap.scopeOf frame.receiver) := by
  obtain ⟨⟨opcode, operand⟩, line, depth, shape⟩ := cell
  subst call
  obtain ⟨under, items, rest, onTop, -⟩ := atCell.split (flows.suits trivial)
  obtain ⟨_, method, caller, target, arguments, -, -, reads, -, prepared⟩ := onTop.prepared
  have anchored : ({ machine with stack := rest } : Machine).heap.Anchored frame.receiver
      (machine.heap.scopeOf frame.receiver) := onTop.inOrder.anchored member
  have other : method ≠ frame.receiver := by
    rintro rfl
    exact (prepared.order.holds member .receiver).other (.head _)
  rw [Action.evaluate_eq, Action.bind_of_ok reads]
  dsimp only
  split
  · exact Editing.anchored ((Action.editing_constructArray other trivial (fun _ => trivial) trivial
      arguments).bind fun _ => .pure _) anchored
  · exact Editing.anchored (Action.editing_callMethod (fun _ => trivial) trivial caller method target
      arguments) anchored

/-- No instruction moves the attributes of the receiver of a frame that stays, but an assignment to
it. -/
theorem anchored_step (member : frame ∈ machine.frames)
    (stays : cell.command.opcode = .return → frame ∈ machine.frames.tail)
    (apart : cell.command.opcode = .assign →
      machine.stack[1]? ≠ some (.binding frame.receiver)) :
    (Action.final (Action.step (Pools.ofProgram source).names cell.command.opcode
      cell.command.operand machine)).heap.Anchored frame.receiver
        (machine.heap.scopeOf frame.receiver) := by
  by_cases call : cell.command.opcode = .evaluate
  · rw [call]
    exact anchored_evaluate flows atCell call member
  by_cases returns : cell.command.opcode = .return
  · obtain ⟨kinds, -, inOrder⟩ := atCell
    rw [returns]
    exact inOrder.anchored_return (stays returns) _
  by_cases assigns : cell.command.opcode = .assign
  · obtain ⟨⟨opcode, operand⟩, line, depth, shape⟩ := cell
    subst assigns
    obtain ⟨under, items, rest, onTop, -⟩ := atCell.split (flows.suits trivial)
    obtain ⟨value, target, rfl⟩ := onTop.fits.two_values
    have stack := onTop.stack
    have other : target ≠ frame.receiver := by
      rintro rfl
      exact apart rfl (by rw [stack]; rfl)
    obtain ⟨kinds, -, inOrder⟩ := atCell
    rw [Action.step, Action.final_andNext]
    exact Action.anchored_assign stack other (inOrder.anchored member)
  · obtain ⟨kinds, -, inOrder⟩ := atCell
    exact Editing.anchored (Action.editing_step _ _ _ (fun _ => trivial) (fun _ => trivial)
      (fun _ => trivial) (fun _ => trivial) (by simp [call, returns]) (fun _ _ => trivial)
      (fun _ => trivial) (fun _ _ => trivial) (fun _ => trivial) (fun same => absurd same assigns))
      (inOrder.anchored member)

end

end ScopeMachine
