import ScopeMachine.Proofs.Machine.Entering

set_option autoImplicit false

/-!
# Upholding

Every instruction of a well-shaped program keeps a machine in order, and a fault that stops it leaves
all that the machine holds in place.
-/

namespace ScopeMachine

open Assembly Heap

/-! ## What a machine holds -/

/-- A machine holds a binding: on its stack, in its frames and the registers that belong to them, or
in its tables. -/
inductive Machine.Holds (machine : Machine) : BindingId → Prop where
  | root {id : BindingId} : machine.Root id → machine.Holds id
  | item {id : BindingId} : .binding id ∈ machine.stack → machine.Holds id
  | caller : machine.Holds machine.registers.caller
  | receiver : machine.Holds machine.registers.receiver
  | frame {frame : Frame} {id : BindingId} : frame ∈ machine.frames → frame.Holds id →
      machine.Holds id

/-- The heap of a machine is tidy, and all that the machine holds is there. -/
structure Machine.Intact (machine : Machine) : Prop where
  tidy : machine.heap.Tidy
  held : ∀ {id}, machine.Holds id → machine.heap.Live id
  scopes : ∀ {frame scope}, frame ∈ machine.frames → scope ∈ frame.estate →
    machine.heap.LiveScope scope

/-- A program has ended with everything in place. -/
structure Ended (result : Option BindingId) (machine : Machine) : Prop where
  intact : machine.Intact
  result : ∀ id ∈ result, machine.heap.Live id

/-- A fault has stopped a program with everything in place. -/
structure Stopped (lost : ScopeId → Prop) (fault : Fault) (machine : Machine) : Prop where
  intact : machine.Intact
  lastResult : ∀ id ∈ machine.registers.lastResult, machine.heap.Live id
  excused : Excused lost fault

section

variable {lost more : ScopeId → Prop} {kinds takes gives under : Shape} {machine after : Machine}

theorem Excused.mono {fault : Fault} (excused : Excused lost fault)
    (implies : ∀ {scope}, lost scope → more scope) : Excused more fault := by
  intro stale same
  obtain ⟨scope, named, gone⟩ := excused same
  exact ⟨scope, named, implies gone⟩

/-- A fault stops a machine in order with everything in place. -/
theorem InOrder.stopped (inOrder : InOrder lost kinds machine)
    (went : Went (picked .copy kinds machine.stack) machine after)
    (furnished : Furnished lost (picked .copy kinds machine.stack) after)
    (shorter : after.stack <:+ machine.stack) {fault : Fault} (excused : Excused lost fault) :
    Stopped lost fault after := by
  have grows := went.grows
  have order := inOrder.order
  have focused := inOrder.focused.went went
  have frames : after.frames = machine.frames := went.continues.frames
  refine ⟨⟨furnished.guarded.tidy, fun held => ?_, fun member inside => ?_⟩,
    fun id last => (focused.lastResult last).live, excused⟩
  · cases held with
    | root root => exact (furnished.roots root).live
    | item member => exact grows.live (order.live_item (shorter.subset member))
    | caller => exact focused.caller.live
    | receiver => exact focused.receiver.live
    | frame member held => exact grows.live (order.holds (frames ▸ member) held).live
  · exact grows.liveScope (order.estates.liveScope (frames ▸ member) inside)

theorem InOrder.intact (inOrder : InOrder lost kinds machine) :
    machine.Intact ∧ ∀ id ∈ machine.registers.lastResult, machine.heap.Live id := by
  have stopped : Stopped lost .missingFrame machine :=
    inOrder.stopped (.of_heap (.refl _ machine.heap)) inOrder.furnished List.suffix_rfl
      fun same => by cases same
  exact ⟨stopped.intact, stopped.lastResult⟩

/-! ## The stack -/

/-- Only calls ask for copies. -/
theorem Command.copy_not_taken {command : Command} (evaluate : command.opcode ≠ .evaluate) :
    .copy ∉ command.takes := by
  obtain ⟨opcode, operand⟩ := command
  cases opcode with
  | evaluate => contradiction
  | syscall | «return» =>
    simp only [Command.takes]
    split <;> simp
  | _ => simp [Command.takes]

theorem Command.copy_not_given {command : Command} (copy : command.opcode ≠ .copy) :
    .copy ∉ command.gives := by
  obtain ⟨opcode, operand⟩ := command
  cases opcode with
  | copy => contradiction
  | _ => simp [Command.gives]

theorem InOrder.taken {items rest : List StackItem} (inOrder : InOrder lost (takes ++ under) machine)
    (stack : machine.stack = items ++ rest) (fits : Fitting takes items) (plain : .copy ∉ takes) :
    picked .copy (takes ++ under) machine.stack = picked .copy under rest
      ∧ ∀ {id}, .binding id ∈ items → machine.heap.Public (picked .copy under rest) id := by
  have copies : picked .copy (takes ++ under) machine.stack = picked .copy under rest := by
    rw [stack, picked_append fits, picked_copy_nil plain, List.nil_append]
  refine ⟨copies, fun {id} member => ?_⟩
  have value : id ∈ picked .value takes items := by
    obtain value | copy := (mem_picked fits).mp member
    · exact value
    · rw [picked_copy_nil plain] at copy
      cases copy
  rw [← copies]
  refine inOrder.order.items (stack ▸ List.mem_append_left _ member) (inOrder.values id ?_)
  rw [stack, picked_append fits]
  exact List.mem_append_left _ value

theorem InOrder.seals {items rest : List StackItem} (inOrder : InOrder lost (takes ++ under) machine)
    (stack : machine.stack = items ++ rest) (fits : Fitting takes items)
    (lower : Fitting under rest) (plain : .copy ∉ takes)
    (marks : ∀ frame ∈ machine.frames, frame.stackMark ≤ rest.length) {heap : Heap} {own : ScopeId}
    {value : Binding} (grows : Grows (picked .copy under rest) machine.heap heap)
    (guarded : Guarded lost (picked .copy under rest) heap) (lasting : heap.Lasting own)
    (new : ¬ machine.heap.LiveScope own) (unused : ∀ id, ¬ heap.Refers id own)
    (refers : value.scope = some own) :
    InOrder lost (.copy :: under)
      { machine with
        heap := (heap.allocate value).2
        stack := .binding (heap.allocate value).1 :: rest } := by
  obtain ⟨copies, -⟩ := inOrder.taken stack fits plain
  obtain ⟨-, order, values, focused, attached⟩ := inOrder
  rw [copies] at order values focused
  have inside {id : BindingId} (member : .binding id ∈ rest) : .binding id ∈ machine.stack :=
    stack ▸ List.mem_append_right _ member
  have waits : picked .copy (.copy :: under) (.binding (heap.allocate value).1 :: rest)
      = (heap.allocate value).1 :: picked .copy under rest := by simp [picked]
  have sealed := order.seals grows guarded lasting new refers unused inside fun frame member => by
    rw [stack, drop_above (marks frame member)]
    exact @drop_above [.binding (heap.allocate value).1] rest _ (marks frame member)
  refine ⟨⟨trivial, lower⟩, ?_, fun id member => ?_, ?_, attached⟩
  · rw [waits]
    exact sealed
  · rw [waits]
    have value : id ∈ picked .value under rest := by simpa [picked] using member
    have live := order.live_item (inside ((mem_picked lower).mpr (.inl value)))
    intro waited
    obtain rfl | waited := List.mem_cons.mp waited
    · exact heap.not_live_allocate _ (grows.live live)
    · refine values id ?_ waited
      rw [stack, picked_append fits]
      exact List.mem_append_right _ value
  · rw [waits]
    exact ⟨focused.caller.outside_new grows new refers, focused.receiver.outside_new grows new refers,
      fun last => (focused.lastResult last).outside_new grows new refers,
      focused.localScope.outside_new grows guarded lasting new refers⟩

private theorem picked_call (kind : SlotKind) {count : Nat} {upper rest : List StackItem}
    {method caller : BindingId} (values : Fitting (List.replicate count .value) upper) :
    picked kind (Action.callTakes count ++ under)
        (upper ++ [StackItem.binding method, .binding caller] ++ rest)
      = picked kind (List.replicate count .value) upper
        ++ picked kind [.copy, .value] [.binding method, .binding caller]
        ++ picked kind under rest := by
  have pair : Fitting [.copy, .value] [.binding method, .binding caller] := ⟨trivial, trivial, trivial⟩
  rw [Action.callTakes, picked_append (values.append pair), picked_append values]

theorem picked_copy_call {count : Nat} {upper rest : List StackItem} {method caller : BindingId}
    (values : Fitting (List.replicate count .value) upper) :
    picked .copy (Action.callTakes count ++ under)
        (upper ++ [StackItem.binding method, .binding caller] ++ rest)
      = method :: picked .copy under rest := by
  rw [picked_call .copy values, picked_copy_nil (by simp)]
  rfl

theorem InOrder.operands {count : Nat} {upper rest : List StackItem} {method caller : BindingId}
    (inOrder : InOrder lost (Action.callTakes count ++ under) machine)
    (stack : machine.stack = upper ++ [StackItem.binding method, .binding caller] ++ rest)
    (values : Fitting (List.replicate count .value) upper) (lower : Fitting under rest) :
    picked .copy (Action.callTakes count ++ under) machine.stack
        = method :: picked .copy under rest
      ∧ (∀ {id}, .binding id ∈ upper → machine.heap.Public (method :: picked .copy under rest) id)
      ∧ machine.heap.Public (method :: picked .copy under rest) caller
      ∧ (∀ {id}, .binding id ∈ rest → id ≠ method)
      ∧ ∀ id ∈ picked .value under rest, id ∉ method :: picked .copy under rest := by
  have plain : .copy ∉ List.replicate count SlotKind.value := by simp
  have split : picked .value (Action.callTakes count ++ under) machine.stack
      = picked .value (List.replicate count .value) upper ++ [caller] ++ picked .value under rest := by
    rw [stack, picked_call .value values]
    rfl
  have copies : picked .copy (Action.callTakes count ++ under) machine.stack
      = method :: picked .copy under rest := by rw [stack, picked_copy_call values]
  obtain ⟨-, order, apart, -, -⟩ := inOrder
  rw [copies] at order apart
  have inside {id : BindingId} (member : .binding id ∈ upper) :
      id ∈ picked .value (Action.callTakes count ++ under) machine.stack := by
    rw [split, List.append_assoc]
    refine List.mem_append_left _ (((mem_picked values).mp member).resolve_right ?_)
    rw [picked_copy_nil plain]
    exact List.not_mem_nil
  have called : caller ∈ picked .value (Action.callTakes count ++ under) machine.stack := by
    rw [split]
    exact List.mem_append_left _ (List.mem_append_right _ (.head _))
  have below {id : BindingId} (member : id ∈ picked .value under rest) :
      id ∈ picked .value (Action.callTakes count ++ under) machine.stack := by
    rw [split]
    exact List.mem_append_right _ member
  refine ⟨copies, fun member => ?_, ?_, fun {id} member => ?_, fun id member => apart id (below member)⟩
  · exact order.items (by simp [stack, member]) (apart _ (inside member))
  · exact order.items (by simp [stack]) (apart _ called)
  · obtain value | copy := (mem_picked lower).mp member
    · exact fun same => apart id (below value) (same ▸ .head _)
    · rintro rfl
      exact (List.nodup_cons.mp order.guarded.nodup).1 copy

theorem InOrder.prepared {count : Nat} {upper rest : List StackItem} {method caller : BindingId}
    {target : Binding} {arguments : List BindingId}
    (inOrder : InOrder lost (Action.callTakes count ++ under) machine)
    (stack : machine.stack = upper ++ [StackItem.binding method, .binding caller] ++ rest)
    (values : Fitting (List.replicate count .value) upper) (lower : Fitting under rest)
    (marks : ∀ frame ∈ machine.frames, frame.stackMark ≤ rest.length)
    (there : machine.heap.bindings.get? method = some target)
    (inside : ∀ id ∈ arguments, .binding id ∈ upper) :
    PreparedCall lost (picked .copy under rest) method caller target arguments
      { machine with stack := rest } := by
  obtain ⟨copies, given, calling, alone, -⟩ := inOrder.operands stack values lower
  obtain ⟨-, order, -, focused, -⟩ := inOrder
  rw [copies] at order focused
  refine ⟨order.rearranged (fun member => order.items ?_) fun frame member => ?_,
    focused.stack rest, there, fun id member => given (inside id member), calling, alone⟩
  · exact stack ▸ List.mem_append_right _ member
  · rw [stack, drop_above (marks frame member)]

theorem Action.popExplicit_ok {hasValue : Bool} {items rest : List StackItem}
    (stack : machine.stack = items ++ rest) (fits : Fitting (Action.returnTakes hasValue) items) :
    ∃ explicit, Action.popExplicit hasValue machine = .ok explicit { machine with stack := rest }
      ∧ (if hasValue then ∃ id, machine.stack.head? = some (.binding id) ∧ explicit = some id
        else explicit = none)
      ∧ ∀ id ∈ explicit, .binding id ∈ items := by
  cases hasValue with
  | false =>
    cases fits.nil
    obtain rfl : machine.stack = rest := stack
    exact ⟨none, rfl, rfl, by simp⟩
  | true =>
    obtain ⟨top, rfl⟩ := Fitting.one_value fits
    refine ⟨some top, Action.bind_of_ok (Action.popBinding_top stack), ⟨top, by simp [stack], rfl⟩, ?_⟩
    rintro _ ⟨⟩
    exact .head _

/-- A frame is removed with what lies above its mark. -/
theorem Action.popped_eq {frame : Frame} {callers : List Frame} {shape below : Shape}
    {rest : List StackItem} (fits : Fitting (shape ++ below) rest)
    (mark : frame.stackMark = below.length) :
    ∃ upper lower, rest = upper ++ lower ∧ Fitting shape upper ∧ Fitting below lower
      ∧ lower.length = frame.stackMark
      ∧ Action.popped frame callers { machine with stack := rest }
        = { machine with stack := lower, frames := callers } := by
  obtain ⟨upper, lower, rfl, above, fitting⟩ := fits.of_append
  have height : lower.length = frame.stackMark := fitting.length.trans mark.symm
  refine ⟨upper, lower, rfl, above, fitting, height, ?_⟩
  have top : (upper ++ lower).drop ((upper ++ lower).length - frame.stackMark) = lower := by
    rw [drop_above (Nat.le_of_eq height.symm), height, Nat.sub_self, List.drop_zero]
  simp only [Action.popped, top]

/-- Once a frame is removed, the machine is in order for what lies below its mark. -/
theorem InOrder.uncovers {frame : Frame} {callers : List Frame} {shape below : Shape}
    {rest : List StackItem} (order : Order lost (picked .copy (shape ++ below) rest)
      (frame :: callers) { machine with stack := rest })
    (fits : Fitting (shape ++ below) rest)
    (values : ∀ id ∈ picked .value (shape ++ below) rest, id ∉ picked .copy (shape ++ below) rest)
    (mark : frame.stackMark = below.length)
    (marks : ∀ lower ∈ callers, lower.stackMark ≤ below.length) :
    ∃ lower, Action.popped frame callers { machine with stack := rest }
        = { machine with stack := lower, frames := callers }
      ∧ Fitting below lower ∧ lower.length = frame.stackMark
      ∧ List.Sublist (picked .copy below lower) (picked .copy (shape ++ below) rest)
      ∧ (∀ id ∈ picked .value below lower, id ∉ picked .copy below lower)
      ∧ Order lost (picked .copy below lower) (frame :: callers)
        { machine with stack := lower, frames := callers } := by
  obtain ⟨upper, lower, rfl, above, fitting, height, popped⟩ := Action.popped_eq fits mark
  have sub : List.Sublist (picked .copy below lower) (picked .copy (shape ++ below) (upper ++ lower)) := by
    rw [picked_append above]
    exact List.sublist_append_right _ _
  have fewer := order.sublist sub
  refine ⟨lower, popped, fitting, height, sub, fun id member waits => ?_, ?_⟩
  · refine values id ?_ (sub.subset waits)
    rw [picked_append above]
    exact List.mem_append_right _ member
  · refine fewer.rearranged (fun member => fewer.items (List.mem_append_right _ member))
      fun held member => (drop_above ?_).symm
    obtain rfl | member := List.mem_cons.mp member
    · exact Nat.le_of_eq height.symm
    · have low := marks held member
      omega

theorem Order.ended {copies : List BindingId} {frame : Frame} {result : Option BindingId}
    (order : Order lost copies [frame] machine) (left : machine.frames = [])
    (caller : machine.registers.caller = frame.caller)
    (receiver : machine.registers.receiver = frame.receiver)
    (known : ∀ id ∈ result, machine.heap.Public copies id) : Ended result machine := by
  refine ⟨⟨order.guarded.tidy, fun held => ?_, fun member => ?_⟩, fun id member => (known id member).live⟩
  · cases held with
    | root root => exact (order.roots root).live
    | item member => exact order.live_item member
    | caller => exact caller ▸ (order.holds (.head _) .caller).live
    | receiver => exact receiver ▸ (order.holds (.head _) .receiver).live
    | frame member => rw [left] at member; cases member
  · rw [left] at member
    cases member

/-- Handing on a result leaves the heap as it is. -/
theorem Action.heap_resumed {frame calling : Frame} {others : List Frame} {kept : Option BindingId}
    (current : machine.frames = calling :: others) :
    (Action.final (Action.resumed frame kept machine)).heap = machine.heap := by
  rw [Action.resumed_eq current]
  obtain ⟨fault, focuses⟩ | ⟨localScope, focuses⟩ :=
    Action.refocus_cases (Action.handed frame calling kept machine)
  · rw [Action.bind_of_error focuses]
    rfl
  · rw [Action.bind_of_ok focuses]
    rfl

theorem Order.resumes {frame calling : Frame} {others : List Frame} {below : Shape}
    {kept : Option BindingId}
    (order : Order lost (picked .copy below machine.stack) (calling :: others) machine)
    (current : machine.frames = calling :: others) (fits : Fitting below machine.stack)
    (values : ∀ id ∈ picked .value below machine.stack, id ∉ picked .copy below machine.stack)
    (marks : ∀ held ∈ calling :: others, held.stackMark ≤ machine.stack.length)
    (saved : ∀ {id}, frame.savedResult = some id →
      machine.heap.Public (picked .copy below machine.stack) id)
    (known : ∀ id ∈ kept, machine.heap.Public (picked .copy below machine.stack) id) :
    ∃ after, Action.resumed frame kept machine = .ok (.goto frame.returnAddress) after
      ∧ after.frames = calling :: others ∧ InOrder lost (.value :: below) after := by
  have given : machine.heap.Public (picked .copy below machine.stack) (kept.getD machine.nothing) := by
    cases kept with
    | none => exact order.roots .nothing
    | some id => exact known id rfl
  have handed : Order lost (picked .copy below machine.stack) (calling :: others)
      (Action.handed frame calling kept machine) := by
    refine order.rearranged (fun {id} member other => ?_) fun held member => ?_
    · obtain same | member := List.mem_cons.mp member
      · cases same
        exact given
      · exact order.items member other
    · exact @drop_above [.binding _] machine.stack _ (marks held member)
  have upper : (Action.handed frame calling kept machine).frames = calling :: others := current
  obtain ⟨localScope, focuses, reachable⟩ := Action.refocus_ok
    (handed.furnished (upper ▸ List.suffix_rfl)) (handed.holds (.head _) .receiver)
  have set := handed.focuses { (Action.handed frame calling kept machine).registers with localScope }
    rfl rfl saved reachable
  rw [← upper] at set
  obtain ⟨order, focused, attached⟩ := set
  refine ⟨_, (Action.resumed_eq current).trans (Action.bind_of_ok focuses), current, ?_⟩
  have copies (top : BindingId) : picked .copy (.value :: below) (.binding top :: machine.stack)
      = picked .copy below machine.stack := by simp [picked]
  refine ⟨⟨trivial, fits⟩, (copies _).symm ▸ order, fun id member => ?_, (copies _).symm ▸ focused, attached⟩
  have member : id ∈ kept.getD machine.nothing :: picked .value below machine.stack := by
    simpa [picked, Action.handed] using member
  refine (copies _).symm ▸ ?_
  obtain rfl | member := List.mem_cons.mp member
  · exact given.other
  · exact values id member

/-- A machine in order, with what a command takes on top of its stack, above the marks of all frames. -/
structure OperandsOnTop (lost : ScopeId → Prop) (takes under : Shape) (items rest : List StackItem)
    (machine : Machine) : Prop where
  inOrder : InOrder lost (takes ++ under) machine
  stack : machine.stack = items ++ rest
  fits : Fitting takes items
  lower : Fitting under rest
  marks : ∀ frame ∈ machine.frames, frame.stackMark ≤ rest.length

theorem InOrder.split {code : List Cell} {shape kinds : Shape} (inOrder : InOrder lost kinds machine)
    (spans : Spans code shape machine.frames kinds)
    (offered : SlotKind.offered takes shape = true) :
    ∃ below items rest, kinds = shape ++ below
      ∧ OperandsOnTop lost takes (shape.drop takes.length ++ below) items rest machine
      ∧ ∀ gives, Spans code (gives ++ shape.drop takes.length) machine.frames
        (gives ++ (shape.drop takes.length ++ below)) := by
  obtain ⟨below, items, rest, same, stack, fits, lower, covers, spans, marks⟩ :=
    spans.split inOrder.fits offered
  exact ⟨below, items, rest, same, ⟨inOrder.covers covers, stack, fits, lower, marks⟩, spans⟩

theorem InOrderAtCell.split {source : Program} {offset : Nat} {cell : Cell}
    (atCell : InOrderAtCell lost source offset cell machine)
    (offered : SlotKind.offered takes cell.shape = true) :
    ∃ under items rest, OperandsOnTop lost takes under items rest machine
      ∧ ∀ gives, Spans (image source) (gives ++ cell.shape.drop takes.length) machine.frames
        (gives ++ under) := by
  obtain ⟨kinds, spans, inOrder⟩ := atCell
  obtain ⟨below, items, rest, -, onTop, spans⟩ := inOrder.split spans offered
  exact ⟨_, items, rest, onTop, spans⟩

end

/-! ## Instructions -/

/-- A machine that has left its frame. What the frame owned was freed, and what it yields is not handed
on yet. -/
structure LeftFrame (lost : ScopeId → Prop) (source : Program) (machine : Machine) (frame : Frame)
    (callers : List Frame) (below : Shape) (explicit kept : Option BindingId) (after : Machine) :
    Prop where
  current : machine.frames = frame :: callers
  frames : after.frames = callers
  fits : Fitting below after.stack
  height : after.stack.length = frame.stackMark
  suffix : after.stack <:+ machine.stack
  values : ∀ id ∈ picked .value below after.stack, id ∉ picked .copy below after.stack
  bottom : callers = [] → below = [] ∧ frame.methodScope = none
  back : callers ≠ [] → ∃ depth waiting,
    Leads True (image source) frame.returnAddress depth (.value :: waiting)
      ∧ Spans (image source) waiting callers below
  order : ∀ {more}, Loss lost more machine.frames after.heap →
    Order more (picked .copy below after.stack) callers after
  outermost : frame.methodScope = none → Order lost (picked .copy below after.stack)
    ({ frame with localScopes := [] } :: callers) after
  saved : ∀ {id}, frame.savedResult = some id →
    after.heap.Public (picked .copy below after.stack) id
  safe : ∀ id ∈ kept, after.heap.Public (picked .copy below after.stack) id
  registers : after.registers.caller = frame.caller ∧ after.registers.receiver = frame.receiver
  frees : ∃ keep rest middle,
    Action.yielded frame callers.isEmpty explicit
        { machine with stack := after.stack, frames := callers }
      = .ok keep { machine with stack := after.stack, frames := callers }
    ∧ FreesScopes frame.localScopes keep rest
      { machine with stack := after.stack, frames := callers } middle
    ∧ DisposesMethodCopy { frame with localScopes := [] } rest middle kept after
  untouched : ∀ copy ∈ picked .copy below after.stack,
    after.heap.bindings.get? copy = machine.heap.bindings.get? copy

/-- An instruction has led to a machine as described, or to a fault that leaves everything in place. -/
def Attains (lost : ScopeId → Prop) (holds : Transfer → Machine → Prop) :
    EStateM.Result Fault Machine Transfer → Prop
  | .ok transfer after => holds transfer after
  | .error fault after => Stopped lost fault after

/-- A copy with a scope of its own was put on the stack. The scope is new, and so are the bindings in
it. -/
structure Copied (lost : ScopeId → Prop) (under : Shape) (rest : List StackItem)
    (before after : Machine) : Prop where
  made : ∃ (scope : Scope) (heap : Heap) (value : Binding), scope.own = #[]
    ∧ value.scope = some (before.heap.allocateScope scope).1
    ∧ Gains (· = (before.heap.allocateScope scope).1) (fun _ => False)
      (before.heap.allocateScope scope).2 heap
    ∧ Grows (picked .copy under rest) before.heap heap
    ∧ after = { before with
      heap := (heap.allocate value).2, stack := .binding (heap.allocate value).1 :: rest }
  inOrder : InOrder lost (.copy :: under) after

/-- A call has filled the scope of the method copy and has put a frame that owns it. -/
structure Called (lost : ScopeId → Prop) (source : Program) (under : Shape)
    (rest : List StackItem) (method : BindingId) (target : Binding) (before after : Machine) :
    Prop where
  opened : ∃ (caller : BindingId) (own : ScopeId) (arguments : List BindingId) (ready : Machine),
    target.scope = some own
    ∧ (Action.checkCall target arguments.length >>= fun _ =>
      Action.bindArguments target none arguments) { before with stack := rest } = .ok () ready
    ∧ ready.registers = before.registers ∧ ready.stack = rest
    ∧ after.frames = Action.newFrame caller method (some own) ready :: before.frames
    ∧ after.heap = ready.heap ∧ after.interned = ready.interned
  body : target.body ∈ sections source ∧ target.body ≠ 0
  stack : after.stack = rest
  grows : Grows (picked .copy under rest) before.heap after.heap
  inOrder : InOrder lost under after

/-- What has to hold after an instruction of a program. -/
abbrev Upheld (lost : ScopeId → Prop) (source : Program) (next : Nat) :
    EStateM.Result Fault Machine Transfer → Prop :=
  (InOrderAtCell lost source).After (image source) Ended (Stopped lost) next

section

variable {lost : ScopeId → Prop} {source : Program} {offset limit : Nat} {cell : Cell}
  {machine : Machine} {under : Shape} {items rest : List StackItem}

/-- The entries that are taken hold public bindings only, if they are values. -/
theorem OperandsOnTop.taken {takes : Shape} (onTop : OperandsOnTop lost takes under items rest machine)
    (plain : .copy ∉ takes) :
    picked .copy (takes ++ under) machine.stack = picked .copy under rest
      ∧ ∀ {id}, .binding id ∈ items → machine.heap.Public (picked .copy under rest) id :=
  onTop.inOrder.taken onTop.stack onTop.fits plain

/-- A copy is made of the value on top. -/
theorem OperandsOnTop.copies (operand : Nat) (onTop : OperandsOnTop lost [.value] under items rest machine)
    (gone : ∀ {scope}, lost scope → ¬ (Action.final (Action.step (Pools.ofProgram source).names
      .copy operand machine)).heap.LiveScope scope) :
    Attains lost (fun transfer after => transfer = .next ∧ Copied lost under rest machine after)
      (Action.step (Pools.ofProgram source).names .copy operand machine) := by
  obtain ⟨copies, known⟩ := onTop.taken (by simp)
  obtain ⟨inOrder, stack, fits, lower, marks⟩ := onTop
  obtain ⟨original, rfl⟩ := fits.one_value
  have furnished := inOrder.furnished
  rw [copies] at furnished
  have steps : Action.step (Pools.ofProgram source).names .copy operand machine
      = (Action.copyBinding original >>= fun id => Action.push id >>= fun _ => pure .next)
        { machine with stack := rest } := by
    simp only [Action.step, Action.andNext, bind_assoc]
    exact Action.bind_of_ok (Action.popBinding_top stack)
  have left {scope : ScopeId} (held : lost scope) : ¬ (Action.final (Action.copyBinding original
      { machine with stack := rest })).heap.LiveScope scope := by
    have dead := gone held
    rw [steps] at dead
    cases result : Action.copyBinding original { machine with stack := rest } with
    | ok id after =>
      rw [Action.bind_of_ok result] at dead
      exact dead
    | error fault after =>
      rw [Action.bind_of_error result] at dead
      exact dead
  rw [steps]
  obtain ⟨fault, result, excused⟩ |
    ⟨heap, scope, value, result, grows, guarded, lasting, unused, refers, empty, gains⟩ :=
    Action.copyBinding_cases (furnished.stack rest) (known (.head _)) left
  · rw [Action.bind_of_error result]
    refine inOrder.stopped (.of_heap (.refl _ machine.heap)) ?_ ?_ excused
    · rw [copies]
      exact furnished.stack rest
    · exact ⟨_, stack.symm⟩
  · rw [Action.bind_of_ok result]
    have new := machine.heap.not_live_allocateScope scope
    exact ⟨rfl, ⟨scope, heap, value, empty, refers, gains, grows, rfl⟩,
      inOrder.seals stack fits lower (by simp) marks grows guarded lasting new unused refers⟩

/-- A block is opened. -/
theorem InOrder.opens {kinds : Shape} {frame : Frame} {callers : List Frame} (operand : Nat)
    (inOrder : InOrder lost kinds machine) (current : machine.frames = frame :: callers)
    (gone : ∀ {scope}, lost scope → ¬ (Action.final (Action.step (Pools.ofProgram source).names
      .enterLocal operand machine)).heap.LiveScope scope) :
    ∃ registers after, Action.step (Pools.ofProgram source).names .enterLocal operand machine
        = .ok .next after
      ∧ after = { machine with
        heap := (machine.heap.allocateScope { parent := some machine.registers.localScope }).2
        frames := { frame with
          localScopes := (machine.heap.allocateScope
            { parent := some machine.registers.localScope }).1 :: frame.localScopes } :: callers
        registers }
      ∧ InOrder lost kinds after := by
  have order := inOrder.order
  rw [current] at order
  have result := Action.enterLocal_eq current
  have left {scope : ScopeId} (held : lost scope) :
      ¬ (Action.final (Action.enterLocal machine)).heap.LiveScope scope := by
    have dead := gone held
    simp only [Action.step, Action.andNext, Action.bind_of_ok result] at dead
    rwa [result]
  obtain ⟨scope, after, same, stack, -, order, focused, attached⟩ :=
    Action.enterLocal_ok order current inOrder.attached left
  have opened : InOrder lost kinds after :=
    ⟨stack ▸ inOrder.fits, stack ▸ order, stack ▸ inOrder.values, stack ▸ focused, attached⟩
  rw [result] at same
  cases same
  exact ⟨_, _, Action.bind_of_ok result, rfl, opened⟩

theorem InOrder.closes {kinds : Shape} {frame : Frame} {callers : List Frame} {scope : ScopeId}
    {scopes : List ScopeId} (operand : Nat) (inOrder : InOrder lost kinds machine)
    (current : machine.frames = frame :: callers) (blocks : frame.localScopes = scope :: scopes)
    (height : machine.stack.length = frame.stackMark) :
    ∃ left registers after, Action.step (Pools.ofProgram source).names .leaveLocal operand machine
        = .ok .next after
      ∧ after = { machine with
        heap := left, frames := { frame with localScopes := scopes } :: callers, registers }
      ∧ machine.heap.Loses scope left ∧ InOrder lost kinds after := by
  have order := inOrder.order
  rw [current] at order
  obtain ⟨left, registers, after, result, same, loses, order, focused, attached⟩ :=
    Action.leaveLocal_ok order current inOrder.attached height blocks
  have stack : after.stack = machine.stack := same ▸ rfl
  have closed : InOrder lost kinds after :=
    ⟨stack ▸ inOrder.fits, stack ▸ order, stack ▸ inOrder.values, stack ▸ focused, attached⟩
  exact ⟨left, registers, after, Action.bind_of_ok result, same, loses, closed⟩

end

section

variable {lost : ScopeId → Prop} {source : Program} {offset limit : Nat} {cell : Cell}
  {machine : Machine}
  (flows : Flows (Pools.ofProgram source) limit (bodies source) True (image source) offset cell)

include flows

/-- A machine that has done an instruction inside its frame goes on at a cell. -/
theorem InOrder.passes {under : Shape} {after : Machine} {transfer : Transfer}
    (inOrder : InOrder lost (cell.command.gives ++ under) after)
    (spans : Spans (image source) (cell.command.shapeAfter cell.shape) after.frames
      (cell.command.gives ++ under))
    (passes : cell.command.Passes transfer) (returns : cell.command.opcode ≠ .return) :
    Upheld lost source (offset + cell.command.width) (.ok transfer after) := by
  obtain ⟨rfl, jump⟩ | ⟨rfl, jumps⟩ := passes
  · exact inOrder.arrives spans (flows.next jump returns)
  · exact inOrder.arrives spans (flows.target jumps)

variable (placed : Placed True source offset cell machine)

section

variable {under : Shape} {items rest : List StackItem}
  (onTop : OperandsOnTop lost cell.command.takes under items rest machine)

include placed onTop

/-- An instruction that stays in its frame and makes no copy replaces what it takes by values. -/
theorem OperandsOnTop.straight (copy : cell.command.opcode ≠ .copy)
    (evaluate : cell.command.opcode ≠ .evaluate) (returns : cell.command.opcode ≠ .return)
    (enter : cell.command.opcode ≠ .enterLocal) (leave : cell.command.opcode ≠ .leaveLocal)
    (gone : ∀ {scope}, lost scope → ¬ (Action.final (Action.step (Pools.ofProgram source).names
      cell.command.opcode cell.command.operand machine)).heap.LiveScope scope) :
    Attains lost (fun transfer after => cell.command.Passes transfer
        ∧ Went (picked .copy under rest) machine after
        ∧ (∃ made, after.stack = made ++ rest ∧ Fitting cell.command.gives made)
        ∧ InOrder lost (cell.command.gives ++ under) after)
      (Action.step (Pools.ofProgram source).names cell.command.opcode cell.command.operand
        machine) := by
  have taken := Command.copy_not_taken evaluate
  obtain ⟨copies, known⟩ := onTop.taken taken
  obtain ⟨inOrder, stack, fits, lower, marks⟩ := onTop
  have furnished := inOrder.furnished
  have focused := inOrder.focused
  rw [copies] at furnished focused
  have delivers := Action.delivers_step furnished focused flows.legal copy evaluate returns enter
    leave stack fits known gone
  unfold Delivers at delivers
  have moves {transfer : Transfer} {after : Machine} := @moves_step True source cell machine offset
    limit flows placed transfer after
  cases result : Action.step (Pools.ofProgram source).names cell.command.opcode
      cell.command.operand machine with
  | error fault after =>
    rw [result] at delivers
    obtain ⟨went, furnished, shorter, excused⟩ := delivers
    rw [← copies] at went furnished
    exact inOrder.stopped went furnished shorter excused
  | ok transfer after =>
    rw [result] at delivers
    obtain ⟨went, furnished, made, left, new, given⟩ := delivers
    have passes : cell.command.Passes transfer := by
      cases moves result with
      | stays passes => exact passes
      | calls opcode => contradiction
      | returns opcode => contradiction
      | halts opcode => contradiction
    exact ⟨passes, went, ⟨made, left, new⟩, inOrder.delivered stack fits lower taken
      (Command.copy_not_given copy) marks went furnished.guarded left new given⟩

end

omit flows in
/-- The operands of a call are taken, and the copy that has waited is the method. -/
theorem OperandsOnTop.prepared {under : Shape} {items rest : List StackItem} {count : Nat}
    (onTop : OperandsOnTop lost (Action.callTakes count) under items rest machine) :
    ∃ upper method caller target arguments, items = upper ++ [StackItem.binding method, .binding caller]
      ∧ Fitting (List.replicate count .value) upper
      ∧ Action.callOperands count machine
        = .ok (caller, method, target, arguments) { machine with stack := rest }
      ∧ machine.heap.bindings.get? method = some target
      ∧ PreparedCall lost (picked .copy under rest) method caller target arguments
        { machine with stack := rest } := by
  obtain ⟨inOrder, stack, fits, lower, marks⟩ := onTop
  obtain ⟨upper, method, caller, target, arguments, rfl, values, reads, there, inside⟩ :=
    Action.callOperands_reads stack fits fun id waits =>
      inOrder.order.live_item (stack ▸ List.mem_append_left _ ((mem_picked fits).mpr (.inr waits)))
  exact ⟨upper, method, caller, target, arguments, rfl, values, reads, there,
    inOrder.prepared stack values lower marks there inside⟩

omit flows in
/-- A call makes an array of the copy that has waited, or goes on in a frame that runs on it. -/
theorem OperandsOnTop.calls {under : Shape} {items rest : List StackItem} (operand : Nat)
    (sound : Sound (limits source) machine)
    (onTop : OperandsOnTop lost (Action.callTakes operand) under items rest machine) :
    ∃ upper method caller target, items = upper ++ [StackItem.binding method, .binding caller]
      ∧ Fitting (List.replicate operand .value) upper
      ∧ machine.heap.bindings.get? method = some target
      ∧ Attains lost (fun transfer after =>
          transfer = .next ∧ target.tag = .array ∧ after.frames = machine.frames
              ∧ InOrder lost (.value :: under) after
            ∨ transfer = .goto target.body
              ∧ Called lost source under rest method target machine after)
        (Action.evaluate operand machine) := by
  obtain ⟨upper, method, caller, target, arguments, rfl, values, reads, there, prepared⟩ := onTop.prepared
  obtain ⟨inOrder, stack, fits, lower, marks⟩ := onTop
  refine ⟨upper, method, caller, target, rfl, values, there, ?_⟩
  obtain ⟨-, -, -, -, apart⟩ := inOrder.operands stack values lower
  -- once the operands are taken, the copy is a value like any other
  have two : SlotKind.Covers [.value, .value] [.copy, .value] := ⟨rfl, rfl, trivial⟩
  have weaker : SlotKind.Covers (List.replicate operand SlotKind.value ++ [SlotKind.value, .value] ++ under)
      (Action.callTakes operand ++ under) :=
    ((SlotKind.covers_self (List.replicate operand .value)).append two).append
      (SlotKind.covers_self under)
  have plain : .copy ∉ List.replicate operand SlotKind.value ++ [SlotKind.value, .value] := by simp
  have pair : Fitting [.value, .value] [.binding method, .binding caller] := ⟨trivial, trivial, trivial⟩
  have released := inOrder.covers weaker
  obtain ⟨same, -⟩ := released.taken stack (values.append pair) plain
  have takes : Went (picked .copy under rest) machine { machine with stack := rest } :=
    .of_heap (.refl _ machine.heap)
  have stops {fault : Fault} {after : Machine}
      (went : Went (picked .copy under rest) { machine with stack := rest } after)
      (furnished : Furnished lost (picked .copy under rest) after) (shorter : after.stack <:+ rest)
      (excused : Excused lost fault) : Stopped lost fault after := by
    refine released.stopped ?_ ?_ (shorter.trans ⟨_, stack.symm⟩) excused
    · rw [same]
      exact takes.trans went
    · rwa [same]
  have spec := Action.evaluate_spec (.head _) operand sound
  rw [Action.evaluate_eq, Action.bind_of_ok reads] at spec ⊢
  dsimp only at spec ⊢
  split
  · next array =>
    have delivers := prepared.constructs
    unfold Delivers at delivers
    cases result : Action.constructArray method arguments { machine with stack := rest } with
    | error fault after =>
      rw [result] at delivers
      obtain ⟨went, furnished, shorter, excused⟩ := delivers
      rw [Action.bind_of_error result]
      exact stops went furnished shorter excused
    | ok value after =>
      rw [result] at delivers
      obtain ⟨went, furnished, made, left, new, known⟩ := delivers
      rw [Action.bind_of_ok result]
      exact .inl ⟨rfl, array, went.continues.frames, released.delivered stack (values.append pair)
        lower plain (by simp) marks (takes.trans went) furnished.guarded left new known⟩
  · next callable =>
    rw [if_neg callable] at spec
    have works := prepared.prepares
    unfold Works at works
    obtain ⟨own, refers, -, -⟩ := prepared.own
    have steady := ((Action.steady_checkCall growth_anyChange.toChange target arguments.length).bind
      growth_anyChange.toChange fun _ => Action.steady_bindArguments growth_anyChange.toChange target
      none arguments) { machine with stack := rest }
    cases result : (Action.checkCall target arguments.length >>= fun _ =>
        Action.bindArguments target none arguments) { machine with stack := rest } with
    | error fault after =>
      rw [result] at works
      rw [Action.bind_of_error result]
      exact stops works.1.went works.1.furnished (works.1.stack ▸ List.suffix_rfl) works.2
    | ok value ready =>
      rw [result] at works steady
      rw [Action.bind_of_ok result, Action.enterFrame_eq] at spec ⊢
      split
      · next room =>
        rw [if_pos room] at spec
        obtain ⟨after, focuses, left, frames, ⟨heap, interned⟩, order, focused, attached⟩ :=
          prepared.enters works.1 (congrArg _ steady.registers)
        rw [Action.bind_of_ok focuses] at spec ⊢
        obtain ⟨_, _, ended, -⟩ | ⟨_, ended, -⟩ | ⟨body, _, _, ended, -, member, bound, -⟩ := spec
        · cases ended
        · cases ended
        cases ended
        rw [refers] at frames
        exact .inr ⟨rfl, ⟨caller, own, arguments, ready, refers, result, steady.registers,
          works.1.stack, frames, heap, interned⟩, ⟨member, bound⟩, left,
          heap.symm ▸ works.1.went.grows,
          ⟨left ▸ lower, left ▸ order, left ▸ fun id member waits => apart id member (.tail _ waits),
            left ▸ focused, attached⟩⟩
      · exact stops works.1.went works.1.furnished (works.1.stack ▸ List.suffix_rfl)
          fun same => by cases same

variable (atCell : InOrderAtCell lost source offset cell machine)
  (gone : ∀ {scope}, lost scope → ¬ (Action.final (Action.step (Pools.ofProgram source).names
    cell.command.opcode cell.command.operand machine)).heap.LiveScope scope)

include placed atCell gone

/-- An instruction that stays in its frame and makes no copy keeps a machine in order. -/
theorem inOrderAtCell_straight (copy : cell.command.opcode ≠ .copy)
    (evaluate : cell.command.opcode ≠ .evaluate) (returns : cell.command.opcode ≠ .return)
    (enter : cell.command.opcode ≠ .enterLocal) (leave : cell.command.opcode ≠ .leaveLocal) :
    Upheld lost source (offset + cell.command.width)
      (Action.step (Pools.ofProgram source).names cell.command.opcode cell.command.operand
        machine) := by
  obtain ⟨under, items, rest, onTop, spans⟩ := atCell.split (flows.suits trivial)
  have straight := onTop.straight flows placed copy evaluate returns enter leave gone
  cases result : Action.step (Pools.ofProgram source).names cell.command.opcode
      cell.command.operand machine with
  | error fault after =>
    rw [result] at straight
    exact straight
  | ok transfer after =>
    rw [result] at straight
    obtain ⟨passes, went, -, inOrder⟩ := straight
    refine InOrder.passes flows inOrder ?_ passes returns
    rw [went.continues.frames]
    exact spans cell.command.gives

omit placed in
/-- A copy waits on the stack. -/
theorem inOrderAtCell_copy (copy : cell.command.opcode = .copy) :
    Upheld lost source (offset + cell.command.width)
      (Action.step (Pools.ofProgram source).names cell.command.opcode cell.command.operand
        machine) := by
  obtain ⟨⟨opcode, operand⟩, line, depth, shape⟩ := cell
  subst copy
  obtain ⟨under, items, rest, onTop, spans⟩ := atCell.split (flows.suits trivial)
  have copies := onTop.copies operand gone
  cases result : Action.step (Pools.ofProgram source).names .copy operand machine with
  | error fault after =>
    rw [result] at copies
    exact copies
  | ok transfer after =>
    rw [result] at copies
    obtain ⟨rfl, ⟨_, _, _, -, -, -, -, rfl⟩, inOrder⟩ := copies
    exact inOrder.arrives (spans [.copy]) (flows.next (by simp) (by simp))

omit placed in
/-- A block is opened. -/
theorem inOrderAtCell_enter (enter : cell.command.opcode = .enterLocal) :
    Upheld lost source (offset + cell.command.width)
      (Action.step (Pools.ofProgram source).names cell.command.opcode cell.command.operand
        machine) := by
  obtain ⟨⟨opcode, operand⟩, line, depth, shape⟩ := cell
  subst enter
  obtain ⟨kinds, spans, inOrder⟩ := atCell
  obtain ⟨frame, callers, current, -⟩ := inOrder.attached
  obtain ⟨registers, after, steps, rfl, opened⟩ := inOrder.opens operand current gone
  dsimp only
  rw [steps]
  rw [current] at spans
  exact opened.arrives (spans.blocks _) (flows.next (by simp) (by simp))

omit gone in
/-- A block is closed, with nothing on the stack of its frame. -/
theorem inOrderAtCell_leave (leave : cell.command.opcode = .leaveLocal) :
    Upheld lost source (offset + cell.command.width)
      (Action.step (Pools.ofProgram source).names cell.command.opcode cell.command.operand
        machine) := by
  obtain ⟨deep, empty⟩ := flows.deep leave
  obtain ⟨⟨opcode, operand⟩, line, depth, shape⟩ := cell
  subst leave
  cases empty
  obtain ⟨-, framed⟩ := placed
  obtain ⟨kinds, spans, inOrder⟩ := atCell
  obtain ⟨frame, callers, current, -⟩ := inOrder.attached
  rw [current] at spans framed
  have height : machine.stack.length = frame.stackMark := by
    obtain ⟨below, rfl, mark, -⟩ := spans
    exact inOrder.fits.length.trans mark.symm
  obtain ⟨innermost, scopes, blocks⟩ : ∃ scope scopes, frame.localScopes = scope :: scopes :=
    List.exists_cons_of_length_pos (framed.1 ▸ deep)
  obtain ⟨left, registers, after, steps, rfl, -, closed⟩ :=
    inOrder.closes operand current blocks height
  dsimp only
  rw [steps]
  exact closed.arrives (spans.blocks _) (flows.next (by simp) (by simp))

omit gone in
/-- A call makes an array, or goes on in a frame of its own. -/
theorem inOrderAtCell_call (bodies : ∀ body ∈ sections source, body ≠ 0 →
      Leads True (image source) body 0 [])
    (call : cell.command.opcode = .evaluate)
    (here : machine.registers.ip + 1 = offset + cell.command.width) :
    Upheld lost source (offset + cell.command.width)
      (Action.step (Pools.ofProgram source).names cell.command.opcode cell.command.operand
        machine) := by
  obtain ⟨⟨opcode, operand⟩, line, depth, shape⟩ := cell
  subst call
  obtain ⟨under, items, rest, onTop, spans⟩ := atCell.split (flows.suits trivial)
  obtain ⟨upper, method, caller, target, -, -, -, calls⟩ := onTop.calls operand placed.1
  simp only [Action.step]
  cases result : Action.evaluate operand machine with
  | error fault after =>
    rw [result] at calls
    exact calls
  | ok transfer after =>
    rw [result] at calls
    obtain ⟨rfl, -, frames, inOrder⟩ | ⟨rfl, called⟩ := calls
    · exact inOrder.arrives (frames ▸ spans [.value]) (flows.next (by simp) (by simp))
    · obtain ⟨_, _, _, ready, -, -, registers, stack, frames, -⟩ := called.opened
      have mark : ready.stack.length = under.length := by rw [stack, onTop.lower.length]
      have address : ready.registers.ip + 1 = machine.registers.ip + 1 :=
        congrArg (·.ip + 1) registers
      have back := flows.next (by simp) (by simp)
      rw [← here, ← address] at back
      exact called.inOrder.arrives (frames ▸ (spans []).call mark back)
        (bodies target.body called.body.1 called.body.2)

omit placed atCell gone in
/-- A return leaves the frame and frees what it owned. -/
theorem leftFrame_return {kinds : Shape} (inOrder : InOrder lost kinds machine)
    (spans : Spans (image source) cell.shape machine.frames kinds)
    (returns : cell.command.opcode = .return) :
    ∃ frame callers below explicit kept after, kinds = cell.shape ++ below
      ∧ LeftFrame lost source machine frame callers below explicit kept after
      ∧ (if cell.command.operand ≠ 0 then
          ∃ id, machine.stack.head? = some (.binding id) ∧ explicit = some id
        else explicit = none)
      ∧ Action.step (Pools.ofProgram source).names cell.command.opcode cell.command.operand machine
        = (if callers.isEmpty then pure (.halt kept) else Action.resumed frame kept) after := by
  obtain ⟨⟨opcode, operand⟩, line, depth, shape⟩ := cell
  subst returns
  have takes : Command.takes ⟨.return, operand⟩ = Action.returnTakes (operand ≠ 0) := by
    by_cases zero : operand = 0 <;> simp [Command.takes, Action.returnTakes, zero]
  obtain ⟨below, items, rest, whole, ⟨inOrder, stack, fits, lower, marks⟩, spans⟩ :=
    inOrder.split spans (flows.suits trivial)
  have plain : .copy ∉ (Command.mk .return operand).takes := Command.copy_not_taken (by simp)
  obtain ⟨copies, known⟩ := inOrder.taken stack fits plain
  obtain ⟨frame, callers, current, caller, receiver⟩ := inOrder.attached
  obtain ⟨explicit, pops, top, given⟩ := Action.popExplicit_ok stack (takes ▸ fits)
  have order := inOrder.order
  have focused := inOrder.focused
  rw [copies] at order focused
  have spans := spans []
  rw [List.nil_append, List.nil_append, current] at spans
  rw [current] at order marks
  have taken : Order lost (picked .copy _ rest) (frame :: callers)
      { machine with stack := rest } :=
    order.rearranged (fun member => order.items (stack ▸ List.mem_append_right _ member))
      fun held member => by rw [stack, drop_above (marks held member)]
  obtain ⟨other, parts, mark, bottom, back⟩ := spans
  cases List.append_cancel_left parts
  have low : ∀ held ∈ callers, held.stackMark ≤ below.length := by
    intro held member
    obtain ⟨_, _, -, spans⟩ := back (List.ne_nil_of_mem member)
    obtain ⟨inner, rfl, -, low⟩ := spans.replace []
    exact Nat.le_trans (low held member) (by simp)
  have apart : ∀ id ∈ picked .value (shape.drop (Command.takes ⟨.return, operand⟩).length ++ below) rest,
      id ∉ picked .copy (shape.drop (Command.takes ⟨.return, operand⟩).length ++ below) rest := by
    intro id member
    rw [← copies]
    refine inOrder.values id ?_
    rw [stack, picked_append fits]
    exact List.mem_append_right _ member
  obtain ⟨left, popped, fitting, height, sub, values, left_order⟩ :=
    InOrder.uncovers taken lower apart mark low
  obtain ⟨kept, after, settles, frames, same, settled, outermost, saved, safe, frees, untouched⟩ :=
    Action.settled_ok left_order rfl height callers.isEmpty
      (fun id (member : id ∈ explicit) => (known (given id member)).sublist sub)
      fun last => (focused.lastResult last).sublist sub
  have stayed : after.stack = left := same
  rw [← stayed] at fitting height values settled outermost saved safe untouched
  refine ⟨frame, callers, below, explicit, kept, after, whole,
    ⟨current, frames, fitting, height, ?_, values, bottom, back, fun loss => settled (current ▸ loss),
      outermost, saved, safe, ?_, stayed ▸ frees, untouched⟩, by simpa only [decide_eq_true_eq] using top, ?_⟩
  · have part : left <:+ rest := by
      have lower : rest.drop (rest.length - frame.stackMark) = left := congrArg Machine.stack popped
      exact lower ▸ List.drop_suffix _ _
    rw [stayed, stack]
    exact part.trans (List.suffix_append items rest)
  · have turns := Action.steady_settled decay_anyChange frame callers.isEmpty explicit
      { machine with stack := left, frames := callers }
    rw [settles] at turns
    have registers : after.registers = machine.registers := turns.registers
    exact ⟨registers ▸ caller, registers ▸ receiver⟩
  · have still : Machine.frames { machine with stack := rest } = frame :: callers := current
    have whole := Action.returnFromFrame_eq still pops
    rw [popped, Action.bind_of_ok settles] at whole
    exact whole

omit placed gone in
/-- A frame is left. What it yields ends the program, or is handed to the calling frame. -/
theorem inOrderAtCell_return {more : ScopeId → Prop} (returns : cell.command.opcode = .return)
    (loss : Loss lost more machine.frames (Action.final (Action.step (Pools.ofProgram source).names
      cell.command.opcode cell.command.operand machine)).heap) :
    Upheld more source (offset + cell.command.width)
      (Action.step (Pools.ofProgram source).names cell.command.opcode cell.command.operand
        machine) := by
  obtain ⟨kinds, spans, inOrder⟩ := atCell
  obtain ⟨frame, callers, below, _, kept, after, -, leftFrame, -, steps⟩ :=
    leftFrame_return flows inOrder spans returns
  rw [steps] at loss ⊢
  cases callers with
  | nil =>
    obtain ⟨caller, receiver⟩ := leftFrame.registers
    exact (leftFrame.outermost (leftFrame.bottom rfl).2).ended leftFrame.frames caller receiver
      leftFrame.safe
  | cons calling others =>
    obtain ⟨depth, waiting, leads, spans⟩ := leftFrame.back (by simp)
    obtain ⟨inner, rfl, spans, lowest⟩ := spans.replace (.value :: waiting)
    rw [if_neg (by simp)] at loss ⊢
    rw [Action.heap_resumed leftFrame.frames] at loss
    obtain ⟨final, result, upper, resumed⟩ :=
      (leftFrame.order loss).resumes leftFrame.frames leftFrame.fits leftFrame.values
        (fun held member => by
          rw [leftFrame.fits.length]
          exact Nat.le_trans (lowest held member) (by simp)) leftFrame.saved leftFrame.safe
    rw [result]
    exact resumed.arrives (upper ▸ spans) leads

end

end ScopeMachine
