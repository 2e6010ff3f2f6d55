import ScopeMachine.Proofs.Machine.Booting
import ScopeMachine.Proofs.Machine.Edits
import ScopeMachine.Proofs.Store.Shield

set_option autoImplicit false

/-!
# Shelter

A machine is sheltered when its heap is shielded and its constants are those of an earlier machine and
the values that it has shared. All that instructions do to the heap keeps a machine sheltered, as long
as what they write to or free by itself was set aside for them.
-/

namespace ScopeMachine

open Heap

/-! ## Literals -/

/-- A machine with the tables of an earlier one. Its constants are those of the earlier one and the
values that it has shared since. -/
structure Machine.Retains (base machine : Machine) : Prop where
  constants : machine.constants = base.constants
  nothing : machine.nothing = base.nothing
  programScope : machine.programScope = base.programScope
  shared : ∀ {payload : Payload} {id}, base.interned[payload]? = some id →
    machine.interned[payload]? = some id
  literals : ∀ (id : BindingId) (binding : Binding), binding.constant = true →
    (machine.heap.bindings.get? id = some binding
      ↔ base.heap.bindings.get? id = some binding
        ∨ ∃ payload : Payload, machine.interned[payload]? = some id ∧ binding = payload.shared)

/-- A machine whose heap is shielded, with the literals of an earlier one. -/
structure Sheltered (base : Machine) (spare : List BindingId) (machine : Machine) : Prop where
  shielded : machine.heap.Shielded spare
  retains : base.Retains machine

section

variable {base machine after : Machine} {spare fewer : List BindingId}

/-- A shared value is found under its key. -/
theorem Machine.Retains.found (retains : base.Retains machine) {payload : Payload} {id : BindingId}
    (known : machine.interned[payload]? = some id) :
    machine.heap.bindings.get? id = some payload.shared :=
  (retains.literals id payload.shared rfl).mpr (.inr ⟨payload, known, rfl⟩)

/-- A constant of the earlier machine is still there. -/
theorem Machine.Retains.keeps (retains : base.Retains machine) {id : BindingId} {binding : Binding}
    (constant : binding.constant = true) (there : base.heap.bindings.get? id = some binding) :
    machine.heap.bindings.get? id = some binding :=
  (retains.literals id binding constant).mpr (.inl there)

theorem Sheltered.same (sheltered : Sheltered base spare machine)
    (same : after.fixtures = machine.fixtures) : Sheltered base spare after := by
  obtain ⟨_, _, _, _, _, _, _, _, _, _, _, _⟩ := after
  simp only [Machine.fixtures, Prod.mk.injEq] at same
  obtain ⟨rfl, rfl, rfl, rfl, rfl, -⟩ := same
  obtain ⟨shielded, constants, nothing, programScope, shared, literals⟩ := sheltered
  exact ⟨shielded, constants, nothing, programScope, shared, literals⟩

theorem Sheltered.subset (sheltered : Sheltered base spare machine) (once : fewer.Nodup)
    (sub : fewer ⊆ spare) : Sheltered base fewer machine :=
  ⟨sheltered.shielded.subset once sub, sheltered.retains⟩

theorem Sheltered.sublist (sheltered : Sheltered base spare machine)
    (sub : List.Sublist fewer spare) : Sheltered base fewer machine :=
  sheltered.subset (sheltered.shielded.once.sublist sub) sub.subset

theorem Sheltered.perm (sheltered : Sheltered base spare machine) (perm : fewer.Perm spare) :
    Sheltered base fewer machine :=
  sheltered.subset (perm.nodup_iff.mpr sheltered.shielded.once) perm.subset

/-- The heap may change if its constants stay the same. -/
theorem Sheltered.heap (sheltered : Sheltered base spare machine) {heap : Heap}
    (shielded : heap.Shielded fewer) (same : SameConstants machine.heap heap) :
    Sheltered base fewer { machine with heap } := by
  obtain ⟨-, constants, nothing, programScope, shared, literals⟩ := sheltered
  refine ⟨shielded, constants, nothing, programScope, shared, fun id binding constant => ?_⟩
  exact (same id binding constant).trans (literals id binding constant)

theorem Sheltered.change (sheltered : Sheltered base spare machine) {heap : Heap}
    (respects : Respects spare machine.heap heap) : Sheltered base spare { machine with heap } := by
  obtain ⟨shielded, same⟩ := respects sheltered.shielded
  exact sheltered.heap shielded same

/-- A value that is shared for the first time gets a constant of its own. -/
theorem Sheltered.shares (sheltered : Sheltered base spare machine) {payload : Payload}
    (new : machine.interned[payload]? = none) :
    Sheltered base spare { machine with
      heap := (machine.heap.allocate payload.shared).2
      interned := machine.interned.insert payload (machine.heap.allocate payload.shared).1 } := by
  have found {key : Payload} {id : BindingId} (known : machine.interned[key]? = some id) :
      machine.heap.bindings.get? id = some key.shared := sheltered.retains.found known
  have kept {key : Payload} {id : BindingId} (known : machine.interned[key]? = some id) :
      (machine.interned.insert payload (machine.heap.allocate payload.shared).1)[key]? = some id := by
    rw [Std.HashMap.getElem?_insert, if_neg]
    · exact known
    · intro same
      cases LawfulBEq.eq_of_beq same
      rw [new] at known
      cases known
  have gone (binding : Binding) :
      machine.heap.bindings.get? (machine.heap.allocate payload.shared).1 ≠ some binding :=
    fun there => machine.heap.not_live_allocate payload.shared ⟨binding, there⟩
  obtain ⟨shielded, constants, nothing, programScope, shared, literals⟩ := sheltered
  refine ⟨shielded.allocate payload.shared, constants, nothing, programScope,
    fun known => kept (shared known), fun id binding constant => ?_⟩
  rw [get?_allocate]
  constructor
  · intro there
    split at there
    · next same =>
      subst same
      cases there
      exact .inr ⟨payload, Std.HashMap.getElem?_insert_self, rfl⟩
    · obtain before | ⟨key, known, rfl⟩ := (literals id binding constant).mp there
      · exact .inl before
      · exact .inr ⟨key, kept known, rfl⟩
  · rintro (before | ⟨key, known, rfl⟩)
    · have there := (literals id binding constant).mpr (.inl before)
      rw [if_neg, there]
      rintro rfl
      exact gone binding there
    · rw [Std.HashMap.getElem?_insert] at known
      split at known
      · next same =>
        cases LawfulBEq.eq_of_beq same
        cases known
        rw [if_pos rfl]
      · rw [if_neg, found known]
        rintro rfl
        exact gone _ (found known)

theorem Sheltered.intern (sheltered : Sheltered base spare machine) (payload : Payload) :
    Sheltered base spare (machine.withInterned (Machine.internIn machine.nothing payload)).2 := by
  by_cases absent : payload = .absent
  · subst absent
    exact sheltered.same rfl
  · cases known : machine.interned[payload]? with
    | some id =>
      refine sheltered.same ?_
      simp only [Machine.withInterned, Machine.internIn_of_some absent known, Machine.fixtures]
    | none =>
      have shares := sheltered.shares known
      simp only [Machine.withInterned, Machine.internIn_of_none absent known]
      exact shares

/-- All changes but those that write to a binding unchecked, or free one on its own. -/
def sheltering : Licence :=
  ⟨True, True, True, False, fun _ => False, fun _ => True, True, True, True, True⟩

/-- Every such change keeps a machine sheltered. -/
theorem Sheltered.edit (sheltered : Sheltered base spare machine)
    (edit : Edit sheltering machine after) : Sheltered base spare after := by
  cases edit with
  | quiet same => exact sheltered.same same
  | report | write =>
    obtain ⟨shielded, constants, nothing, programScope, shared, literals⟩ := sheltered
    exact ⟨shielded, constants, nothing, programScope, shared, literals⟩
  | allocate drawn => exact sheltered.change (respects_allocate drawn.constant)
  | declare scope drawn => exact sheltered.change (respects_declare drawn.constant scope)
  | redeclare scope drawn => exact sheltered.change (respects_redeclare scope drawn.constant)
  | assign _ found plain stored =>
    exact sheltered.change (respects_modifyBinding (fun _ unlocked => unlocked) ⟨_, found, plain⟩)
  | intern payload => exact sheltered.intern payload
  | furnish allowed => exact allowed.elim
  | mark _ _ allowed => exact allowed.elim
  | allocateScope _ empty => exact sheltered.change (respects_allocateScope empty)
  | openScope parent => exact sheltered.change (respects_allocateScope rfl)
  | copyScope => exact sheltered.change (respects_copyScope _)
  | releaseScope owner => exact sheltered.change (respects_releaseScope owner)
  | freeScope owner => exact sheltered.change (respects_freeScope owner)
  | freeBinding allowed => exact allowed.elim

end

/-! ## Actions -/

variable {α β : Type}

/-- An action that keeps a machine sheltered, and may free some of what was set aside. -/
def Shelters (base : Machine) (spare left : List BindingId) (action : Action α) : Prop :=
  ∀ machine, Sheltered base spare machine → Sheltered base left (Action.final (action machine))

/-- The binding that goes with a frame: the method copy that it runs on. -/
def Frame.aside (frame : Frame) : List BindingId :=
  match frame.methodScope with
  | some _ => [frame.receiver]
  | none => []

theorem Frame.aside_sublist (frame : Frame) : List.Sublist frame.aside [frame.receiver] := by
  unfold Frame.aside
  split
  · exact .refl _
  · exact List.nil_sublist _

section

variable {base : Machine} {spare left : List BindingId}

theorem Editing.shelters {action : Action α} (editing : Editing sheltering action) :
    Shelters base spare spare action :=
  fun machine sheltered => (editing machine).keeps (fun edit held => held.edit edit) sheltered

/-- What is not freed before a fault stays. -/
theorem Shelters.bind {action : Action α} {next : α → Action β}
    (first : Shelters base spare spare action) (sub : List.Sublist left spare)
    (second : ∀ value, Shelters base spare left (next value)) :
    Shelters base spare left (action >>= next) := by
  intro machine sheltered
  have once := first machine sheltered
  cases result : action machine with
  | error fault after =>
    rw [result] at once
    rw [Action.bind_of_error result]
    exact once.sublist sub
  | ok value after =>
    rw [result] at once
    rw [Action.bind_of_ok result]
    exact second value after once

/-- Only what may be changed is written to. -/
theorem Sheltered.updates {machine : Machine} (sheltered : Sheltered base spare machine)
    {id : BindingId} {f : Binding → Binding} (mutable : machine.heap.Mutable id)
    (keeps : ∀ binding, binding.constant = false → (f binding).constant = false) :
    Sheltered base spare (Action.final (Action.updateBinding id f machine)) := by
  have changed := sheltered.change (respects_modifyBinding keeps mutable)
  obtain ⟨binding, reads, -⟩ := binding_of_live mutable.live
  have updates : Action.updateBinding id f machine
      = .ok () { machine with heap := machine.heap.modifyBinding id f } := by
    refine Action.bind_of_ok (?_ : Action.binding id machine = .ok binding machine)
    simp [Action.binding, Action.inspect, reads]
  rw [updates]
  exact changed

private theorem shelters_elementScope {array : BindingId} (aside : array ∈ spare) :
    Shelters base spare spare (Action.elementScope array) := by
  refine (Action.editing_binding array).shelters.bind (.refl _) fun binding => ?_
  split
  · exact (Editing.pure _).shelters
  · refine (Action.editing_allocateScope trivial rfl rfl rfl).shelters.bind (.refl _) fun scope => ?_
    refine Shelters.bind (fun _ sheltered => ?_) (.refl _) fun _ => (Editing.pure _).shelters
    exact sheltered.updates (sheltered.shielded.aside aside) fun _ plain => plain

/-- An array is made of a copy that was set aside. -/
theorem shelters_constructArray {array : BindingId} (aside : array ∈ spare)
    (arguments : List BindingId) :
    Shelters base spare spare (Action.constructArray array arguments) := by
  refine (Action.editing_arraySize arguments).shelters.bind (.refl _) fun size => ?_
  split
  · exact (Action.editing_recover _).shelters
  · next size =>
    exact (shelters_elementScope aside).bind (.refl _) fun scope =>
      (Action.editing_declareElements trivial trivial _ _).shelters.bind (.refl _) fun _ =>
      (Action.editing_declare trivial trivial (Action.drawn_ofPayload (.integer size) _)).shelters.bind
        (.refl _) fun _ => (Action.editing_push _).shelters

/-- The method copy of a frame was set aside, and is freed with the frame. -/
theorem shelters_releaseMethod (frame : Frame) (keep : Option BindingId) :
    Shelters base (frame.aside ++ spare) spare (Action.releaseMethod frame keep) := by
  have sub : List.Sublist spare (frame.aside ++ spare) := List.sublist_append_right _ _
  have fewer {action : Action (Option BindingId)} (editing : Editing sheltering action) :
      Shelters base (frame.aside ++ spare) spare action :=
    fun machine sheltered => (editing.shelters machine sheltered).sublist sub
  cases own : frame.methodScope with
  | none =>
    simp only [Action.releaseMethod, own]
    exact fewer (.pure keep)
  | some scope =>
    simp only [Action.releaseMethod, own]
    refine (Action.editing_keepsMethod frame scope keep).shelters.bind sub fun kept => ?_
    split
    · exact fewer (.pure keep)
    · refine (Action.editing_rescue scope keep).shelters.bind sub fun kept =>
        (Action.editing_freeScope trivial scope).shelters.bind sub fun _ machine sheltered => ?_
      have copy : frame.aside = [frame.receiver] := by simp [Frame.aside, own]
      rw [copy] at sheltered
      obtain ⟨shielded, same⟩ := sheltered.shielded.freeBinding
      exact sheltered.heap shielded same

theorem shelters_settled (frame : Frame) (outermost : Bool) (explicit : Option BindingId) :
    Shelters base (frame.aside ++ spare) spare (Action.settled frame outermost explicit) := by
  have sub : List.Sublist spare (frame.aside ++ spare) := List.sublist_append_right _ _
  exact (Action.editing_yielded frame outermost explicit).shelters.bind sub fun keep =>
    (Action.editing_releaseScopes trivial frame.localScopes keep).shelters.bind sub fun keep =>
    shelters_releaseMethod frame keep

/-- A copy is set aside. -/
theorem Sheltered.copies {machine after : Machine} (sheltered : Sheltered base spare machine)
    {source id : BindingId} (copies : Action.copyBinding source machine = .ok id after) :
    Sheltered base (id :: spare) after := by
  unfold Action.copyBinding at copies
  cases found : machine.heap.bindings.get? source with
  | none =>
    rw [Action.bind_of_error (Action.binding_of_none found)] at copies
    cases copies
  | some binding =>
    rw [Action.bind_of_ok (Action.binding_of_get? found)] at copies
    have edits : Edits sheltering machine (Action.final (Action.copyAttributes binding machine)) :=
      (Action.edits_copyAttributes trivial found).1
    have opened := edits.keeps (fun edit held => Sheltered.edit held edit) sheltered
    cases opens : Action.copyAttributes binding machine with
    | error fault last =>
      rw [Action.bind_of_error opens] at copies
      cases copies
    | ok scope last =>
      rw [opens] at opened
      rw [Action.bind_of_ok opens] at copies
      cases copies
      have plain : ({ binding with scope := some scope, constant := false } : Binding).constant
        = false := rfl
      exact opened.heap (opened.shielded.sets_aside plain) (sameConstants_allocate plain)

end

end ScopeMachine
