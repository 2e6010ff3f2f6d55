import ScopeMachine.Proofs.Machine.Estate

set_option autoImplicit false

/-!
# Machines in order

A machine that runs a well-shaped program is in order, with the copies that the shape
of its stack tells of as those that wait.
-/

namespace ScopeMachine

open Assembly Heap

/-! ## Kinds of bindings on the stack -/

def picked (kind : SlotKind) : Shape → List StackItem → List BindingId
  | found :: kinds, .binding id :: items =>
    if found = kind then id :: picked kind kinds items else picked kind kinds items
  | _ :: kinds, .name _ :: items => picked kind kinds items
  | _, _ => []

section

variable {kinds more wider : Shape} {items others : List StackItem} {kind : SlotKind}

theorem picked_append (fits : Fitting kinds items) :
    picked kind (kinds ++ more) (items ++ others)
      = picked kind kinds items ++ picked kind more others := by
  induction kinds generalizing items with
  | nil =>
    cases fits.nil
    cases more <;> rfl
  | cons found kinds ih =>
    match items with
    | [] => cases fits
    | .name index :: items => exact ih fits.2
    | .binding id :: items =>
      have later := ih fits.2
      simp only [List.cons_append, picked, later]
      split <;> rfl

theorem mem_picked (fits : Fitting kinds items) {id : BindingId} :
    .binding id ∈ items ↔ id ∈ picked .value kinds items ∨ id ∈ picked .copy kinds items := by
  induction kinds generalizing items with
  | nil =>
    cases fits.nil
    simp [picked]
  | cons found kinds ih =>
    match items with
    | [] => cases fits
    | .name index :: items => simpa [picked] using ih fits.2
    | .binding other :: items =>
      have later := ih fits.2
      cases found with
      | name => cases fits.1
      | value => simp [picked, later, or_assoc]
      | copy => simp [picked, later, or_left_comm]

theorem picked_copy_nil (plain : .copy ∉ kinds) : picked .copy kinds items = [] := by
  induction kinds generalizing items with
  | nil => cases items <;> rfl
  | cons found kinds ih =>
    have later : .copy ∉ kinds := fun member => plain (.tail _ member)
    match items with
    | [] => rfl
    | .name index :: items => exact ih later
    | .binding id :: items =>
      have other : found ≠ .copy := fun same => plain (same ▸ .head _)
      simp only [picked, if_neg other]
      exact ih later

/-- Where a copy may stand for a value, fewer copies wait. -/
theorem picked_copy_sublist (covers : SlotKind.Covers wider kinds) :
    List.Sublist (picked .copy wider items) (picked .copy kinds items) := by
  induction wider generalizing kinds items with
  | nil => cases items <;> exact List.nil_sublist _
  | cons wanted wider ih =>
    match kinds, items with
    | [], _ => cases covers
    | _ :: _, [] => exact List.nil_sublist _
    | _ :: _, .name index :: items => exact ih covers.2
    | found :: kinds, .binding id :: items =>
      have later := @ih kinds items covers.2
      have accepts := covers.1
      cases wanted <;> cases found <;> first
        | contradiction
        | exact later
        | exact later.cons _
        | exact later.cons_cons _

private theorem picked_apart (fits : Fitting kinds items) (covers : SlotKind.Covers wider kinds)
    (once : (picked .copy kinds items).Nodup)
    (apart : ∀ id ∈ picked .value kinds items, id ∉ picked .copy kinds items) :
    ∀ id ∈ picked .value wider items, id ∉ picked .copy wider items := by
  induction wider generalizing kinds items with
  | nil => cases items <;> simp [picked]
  | cons wanted wider ih =>
    match kinds, items with
    | [], _ => cases covers
    | _ :: _, [] => cases fits
    | _ :: _, .name index :: items => exact ih fits.2 covers.2 once apart
    | found :: kinds, .binding first :: items =>
      have fewer : List.Sublist (picked .copy wider items) (picked .copy kinds items) :=
        picked_copy_sublist covers.2
      have accepts := covers.1
      have fit := fits.1
      cases found with
      | name => cases fit
      | value =>
        cases wanted with
        | name => cases accepts
        | copy => cases accepts
        | value =>
          simp only [picked, if_true, reduceCtorEq, if_false, List.forall_mem_cons] at once apart ⊢
          exact ⟨fun member => apart.1 (fewer.subset member), ih fits.2 covers.2 once apart.2⟩
      | copy =>
        simp only [picked, if_true, reduceCtorEq, if_false, List.nodup_cons, List.mem_cons,
          not_or] at once apart
        have later := ih fits.2 covers.2 once.2 fun id member => (apart id member).2
        cases wanted with
        | name => cases accepts
        | value =>
          simp only [picked, if_true, reduceCtorEq, if_false, List.forall_mem_cons]
          exact ⟨fun member => once.1 (fewer.subset member), later⟩
        | copy =>
          simp only [picked, if_true, reduceCtorEq, if_false, List.mem_cons, not_or]
          refine fun id member => ⟨?_, later id member⟩
          rintro rfl
          have inside : .binding id ∈ items :=
            (mem_picked (fits.2.covers covers.2)).mpr (.inl member)
          obtain value | copy := (mem_picked fits.2).mp inside
          · exact (apart id value).1 rfl
          · exact once.1 copy

theorem Fitting.of_append (fits : Fitting (kinds ++ more) items) :
    ∃ upper lower, items = upper ++ lower ∧ Fitting kinds upper ∧ Fitting more lower := by
  induction kinds generalizing items with
  | nil => exact ⟨[], items, rfl, trivial, fits⟩
  | cons kind kinds ih =>
    cases items with
    | nil => cases fits
    | cons item items =>
      obtain ⟨upper, lower, rfl, first, second⟩ := ih fits.2
      exact ⟨item :: upper, lower, rfl, ⟨fits.1, first⟩, second⟩

end

/-- What is offered may be weakened to what is asked for. -/
theorem SlotKind.covers_of_offered {wants shape : Shape} (offered : offered wants shape = true) :
    Covers (wants ++ shape.drop wants.length) shape := by
  induction wants generalizing shape with
  | nil => exact covers_self shape
  | cons wanted wants ih =>
    cases shape with
    | nil => cases offered
    | cons found shape =>
      simp only [SlotKind.offered, Bool.and_eq_true] at offered
      exact ⟨offered.1, ih offered.2⟩

theorem SlotKind.Covers.append {first second upper lower : Shape} (above : Covers first upper)
    (below : Covers second lower) : Covers (first ++ second) (upper ++ lower) := by
  induction first generalizing upper with
  | nil =>
    cases upper with
    | nil => exact below
    | cons => cases above
  | cons kind first ih =>
    cases upper with
    | nil => cases above
    | cons => exact ⟨above.1, ih above.2⟩

/-! ## The kinds of a whole stack -/

/-- The kinds of a stack: those of the current frame have the given shape, and below the mark of a
frame are those of the calling frame, which waits for one more value. The outermost frame runs on no
method copy. -/
def Spans (code : List Cell) : Shape → List Frame → Shape → Prop
  | _, [], _ => False
  | shape, frame :: callers, kinds =>
    ∃ below, kinds = shape ++ below ∧ frame.stackMark = below.length
      ∧ (callers = [] → below = [] ∧ frame.methodScope = none)
      ∧ (callers ≠ [] → ∃ back waiting,
        Leads True code frame.returnAddress back (.value :: waiting) ∧ Spans code waiting callers below)

section

variable {code : List Cell} {shape wider kinds : Shape} {frames : List Frame}

/-- The shape of the current frame changes, and the rest stays. -/
theorem Spans.replace (spans : Spans code shape frames kinds) (other : Shape) :
    ∃ below, kinds = shape ++ below ∧ Spans code other frames (other ++ below)
      ∧ ∀ frame ∈ frames, frame.stackMark ≤ below.length := by
  induction frames generalizing shape kinds with
  | nil => cases spans
  | cons frame callers ih =>
    obtain ⟨below, rfl, mark, bottom, caller⟩ := spans
    refine ⟨below, rfl, ⟨below, rfl, mark, bottom, caller⟩, fun held member => ?_⟩
    obtain rfl | member := List.mem_cons.mp member
    · exact Nat.le_of_eq mark
    · have more : callers ≠ [] := List.ne_nil_of_mem member
      obtain ⟨back, waiting, -, spans⟩ := caller more
      obtain ⟨lower, rfl, -, marks⟩ := ih spans
      have low := marks held member
      rw [List.length_append]
      omega

/-- A change of the open blocks does not count. -/
theorem Spans.blocks {frame : Frame} {callers : List Frame}
    (spans : Spans code shape (frame :: callers) kinds) (scopes : List ScopeId) :
    Spans code shape ({ frame with localScopes := scopes } :: callers) kinds :=
  spans

/-- A call puts a frame on top, with nothing above its mark. -/
theorem Spans.call {frame : Frame} {depth : Nat} (spans : Spans code shape frames kinds)
    (mark : frame.stackMark = kinds.length)
    (leads : Leads True code frame.returnAddress depth (.value :: shape)) :
    Spans code [] (frame :: frames) kinds := by
  refine ⟨kinds, rfl, mark, fun none => ?_, fun _ => ⟨depth, shape, leads, spans⟩⟩
  subst none
  cases spans

/-- The part of the stack that a command takes lies above the marks of all frames. -/
theorem Spans.split {takes : Shape} {stack : List StackItem}
    (spans : Spans code shape frames kinds) (fits : Fitting kinds stack)
    (offered : SlotKind.offered takes shape = true) :
    ∃ below items rest, kinds = shape ++ below ∧ stack = items ++ rest ∧ Fitting takes items
      ∧ Fitting (shape.drop takes.length ++ below) rest
      ∧ SlotKind.Covers (takes ++ (shape.drop takes.length ++ below)) kinds
      ∧ (∀ gives, Spans code (gives ++ shape.drop takes.length) frames
        (gives ++ (shape.drop takes.length ++ below)))
      ∧ ∀ frame ∈ frames, frame.stackMark ≤ rest.length := by
  have replaces := spans.replace
  obtain ⟨below, rfl, -, marks⟩ := replaces shape
  have weaker := (SlotKind.covers_of_offered offered).append (SlotKind.covers_self below)
  rw [List.append_assoc] at weaker
  obtain ⟨items, rest, stack, fits, lower⟩ := (fits.covers weaker).of_append
  refine ⟨below, items, rest, rfl, stack, fits, lower, weaker, fun gives => ?_, fun frame member => ?_⟩
  · obtain ⟨other, same, spans, -⟩ := replaces (gives ++ shape.drop takes.length)
    cases List.append_cancel_left same
    rwa [List.append_assoc] at spans
  · have low := marks frame member
    rw [lower.length, List.length_append]
    omega

end

/-! ## The order of a machine -/

/-- A machine with entries of known kinds on its stack, in order. -/
structure InOrder (lost : ScopeId → Prop) (kinds : Shape) (machine : Machine) : Prop where
  fits : Fitting kinds machine.stack
  order : Order lost (picked .copy kinds machine.stack) machine.frames machine
  values : ∀ id ∈ picked .value kinds machine.stack, id ∉ picked .copy kinds machine.stack
  focused : Focused lost (picked .copy kinds machine.stack) machine
  attached : Attached machine

/-- The property of a machine that comes to a cell. -/
def InOrderAtCell (lost : ScopeId → Prop) (source : Program) : Assertion := fun _ cell machine =>
  ∃ kinds, Spans (image source) cell.shape machine.frames kinds ∧ InOrder lost kinds machine

section

variable {lost more : ScopeId → Prop} {copies : List BindingId} {kinds wider : Shape}
  {machine after : Machine}

theorem Focused.sublist {fewer : List BindingId} (sub : List.Sublist fewer copies)
    (focused : Focused lost copies machine) : Focused lost fewer machine :=
  ⟨focused.caller.sublist sub, focused.receiver.sublist sub,
    fun last => (focused.lastResult last).sublist sub,
    focused.localScope.imp_right (·.sublist sub)⟩

theorem Focused.mono (focused : Focused lost copies machine)
    (implies : ∀ {scope}, lost scope → more scope) : Focused more copies machine :=
  ⟨focused.caller, focused.receiver, focused.lastResult,
    focused.localScope.imp_left (·.imp_right implies)⟩

theorem InOrder.covers (inOrder : InOrder lost kinds machine) (covers : SlotKind.Covers wider kinds) :
    InOrder lost wider machine := by
  have sub : List.Sublist (picked .copy wider machine.stack) (picked .copy kinds machine.stack) :=
    picked_copy_sublist covers
  exact ⟨inOrder.fits.covers covers, inOrder.order.sublist sub,
    picked_apart inOrder.fits covers inOrder.order.guarded.nodup inOrder.values,
    inOrder.focused.sublist sub, inOrder.attached⟩

theorem InOrder.mono (inOrder : InOrder lost kinds machine)
    (implies : ∀ {scope}, lost scope → more scope)
    (dead : ∀ {scope}, more scope → ¬ machine.heap.LiveScope scope) : InOrder more kinds machine :=
  { inOrder with
    order := inOrder.order.mono implies dead
    focused := inOrder.focused.mono implies }

theorem InOrder.furnished (inOrder : InOrder lost kinds machine) :
    Furnished lost (picked .copy kinds machine.stack) machine :=
  inOrder.order.furnished List.suffix_rfl

theorem InOrder.arrives {source : Program} {shape : Shape} {offset depth : Nat}
    (inOrder : InOrder lost kinds machine) (spans : Spans (image source) shape machine.frames kinds)
    (leads : Leads True (image source) offset depth shape) :
    (InOrderAtCell lost source).Arrives (image source) offset machine := by
  obtain ⟨cell, stands, -, covers⟩ := leads.covers trivial
  obtain ⟨below, rfl, spans, -⟩ := spans.replace cell.shape
  exact ⟨cell, stands, _, spans,
    inOrder.covers (covers.append (SlotKind.covers_self below))⟩

theorem Attached.continues {relates : Heap → Heap → Prop} (attached : Attached machine)
    (continues : Continues relates machine after) : Attached after := by
  obtain ⟨frame, rest, frames, caller, receiver⟩ := attached
  exact ⟨frame, rest, continues.frames.trans frames, continues.caller.trans caller,
    continues.receiver.trans receiver⟩

theorem drop_above {items rest : List StackItem} {mark : Nat} (low : mark ≤ rest.length) :
    (items ++ rest).drop ((items ++ rest).length - mark) = rest.drop (rest.length - mark) := by
  have height : (items ++ rest).length - mark = items.length + (rest.length - mark) := by
    rw [List.length_append]
    omega
  rw [height, List.drop_append]
  simp

/-- Entries that were taken from the stack are replaced by others. -/
theorem InOrder.delivered {takes gives under : Shape} {items made rest : List StackItem}
    (inOrder : InOrder lost (takes ++ under) machine) (stack : machine.stack = items ++ rest)
    (fits : Fitting takes items) (lower : Fitting under rest) (taken : .copy ∉ takes)
    (given : .copy ∉ gives) (marks : ∀ frame ∈ machine.frames, frame.stackMark ≤ rest.length)
    (went : Went (picked .copy under rest) machine after)
    (guarded : Guarded lost (picked .copy under rest) after.heap)
    (left : after.stack = made ++ rest) (new : Fitting gives made)
    (known : ∀ {id}, .binding id ∈ made → after.heap.Public (picked .copy under rest) id) :
    InOrder lost (gives ++ under) after := by
  obtain ⟨-, order, values, focused, attached⟩ := inOrder
  have before : picked .copy (takes ++ under) machine.stack = picked .copy under rest := by
    rw [stack, picked_append fits, picked_copy_nil taken, List.nil_append]
  have now : picked .copy (gives ++ under) after.stack = picked .copy under rest := by
    rw [left, picked_append new, picked_copy_nil given, List.nil_append]
  rw [before] at order values focused
  have frames : after.frames = machine.frames := went.continues.frames
  refine ⟨left ▸ new.append lower, ?_, ?_, ?_, attached.continues went.continues⟩
  · rw [now, frames]
    refine order.went went guarded (fun {id} member other => ?_) fun frame member => ?_
    · rw [left] at member
      obtain member | member := List.mem_append.mp member
      · exact known member
      · exact went.grows.public (order.items (stack ▸ List.mem_append_right _ member) other)
    · rw [left, stack, drop_above (marks frame member), drop_above (marks frame member)]
  · rw [now]
    intro id member
    rw [left, picked_append new] at member
    obtain member | member := List.mem_append.mp member
    · exact (known ((mem_picked new).mpr (.inl member))).other
    · refine values id ?_
      rw [stack, picked_append fits]
      exact List.mem_append_right _ member
  · rw [now]
    exact focused.went went

end

end ScopeMachine
