import ScopeMachine.Proofs.Machine.Defining
import ScopeMachine.Proofs.Machine.Shelter

set_option autoImplicit false

/-!
# Sparing

What a running machine may free on its own are the copies that wait on its stack and the method copies
that its frames run on. None of them is a literal, so every instruction of a well-shaped program keeps
the literals as they are.
-/

namespace ScopeMachine

open Assembly Heap

/-- The bindings that are set aside: the copies that wait, and those that frames run on. -/
def Machine.spare (machine : Machine) (kinds : Shape) : List BindingId :=
  picked .copy kinds machine.stack ++ machine.frames.flatMap Frame.aside

/-- A machine with entries of known kinds on its stack, and with the literals of an earlier one. -/
structure Sparing (base : Machine) (kinds : Shape) (machine : Machine) : Prop where
  fits : Fitting kinds machine.stack
  sheltered : Sheltered base (machine.spare kinds) machine

/-- The property of a machine that comes to a cell. -/
def Preserving (base : Machine) (source : Program) : Assertion := fun _ cell machine =>
  ∃ kinds, Spans (image source) cell.shape machine.frames kinds ∧ Sparing base kinds machine

/-- What has to hold after an instruction. -/
abbrev Preserved (base : Machine) (source : Program) (next : Nat) :
    EStateM.Result Fault Machine Transfer → Prop :=
  (Preserving base source).After (image source) (fun _ machine => base.Retains machine)
    (fun _ machine => base.Retains machine) next

section

variable {base machine after : Machine} {kinds wider takes gives under : Shape}
  {items made rest : List StackItem}

theorem Sparing.covers (sparing : Sparing base kinds machine)
    (covers : SlotKind.Covers wider kinds) : Sparing base wider machine := by
  have sub : List.Sublist (picked .copy wider machine.stack) (picked .copy kinds machine.stack) :=
    picked_copy_sublist covers
  exact ⟨sparing.fits.covers covers, sparing.sheltered.sublist (sub.append_right _)⟩

theorem Sparing.arrives {source : Program} {shape : Shape} {offset depth : Nat}
    (sparing : Sparing base kinds machine) (spans : Spans (image source) shape machine.frames kinds)
    (leads : Leads True (image source) offset depth shape) :
    (Preserving base source).Arrives (image source) offset machine := by
  obtain ⟨cell, stands, -, covers⟩ := leads.covers trivial
  obtain ⟨below, rfl, spans, -⟩ := spans.replace cell.shape
  exact ⟨cell, stands, _, spans,
    sparing.covers (covers.append (SlotKind.covers_self below))⟩

/-- The copies among what is left on the stack were there before. -/
theorem picked_sublist (fits : Fitting takes items) :
    List.Sublist (picked .copy under rest) (picked .copy (takes ++ under) (items ++ rest)) := by
  rw [picked_append fits]
  exact List.sublist_append_right _ _

/-- Entries that were taken from the stack are replaced by values. -/
theorem Sheltered.delivered
    (stack : machine.stack = items ++ rest) (fits : Fitting takes items)
    (lower : Fitting under rest) (given : .copy ∉ gives)
    (sheltered : Sheltered base (machine.spare (takes ++ under)) after)
    (frames : after.frames.flatMap Frame.aside = machine.frames.flatMap Frame.aside)
    (left : after.stack = made ++ rest) (new : Fitting gives made) :
    Sparing base (gives ++ under) after := by
  refine ⟨left ▸ new.append lower, sheltered.sublist ?_⟩
  have now : picked .copy (gives ++ under) after.stack = picked .copy under rest := by
    rw [left, picked_append new, picked_copy_nil given, List.nil_append]
  rw [Machine.spare, Machine.spare, now, frames, stack]
  exact (picked_sublist fits).append_right _

theorem Sparing.copied (sparing : Sparing base (takes ++ under) machine)
    (stack : machine.stack = items ++ rest) (fits : Fitting takes items)
    (lower : Fitting under rest) {original id : BindingId}
    (copies : Action.copyBinding original { machine with stack := rest } = .ok id after)
    (frames : after.frames = machine.frames) :
    Sparing base (.copy :: under) { after with stack := .binding id :: rest } := by
  have taken : Sheltered base (machine.spare (takes ++ under)) { machine with stack := rest } :=
    sparing.sheltered.same rfl
  have made := (taken.copies copies).same (rfl :
    Machine.fixtures { after with stack := .binding id :: rest } = after.fixtures)
  refine ⟨⟨trivial, lower⟩, made.sublist ?_⟩
  have waits : picked .copy (.copy :: under) (.binding id :: rest) = id :: picked .copy under rest := by
    simp [picked]
  simp only [Machine.spare, waits, frames, stack, List.cons_append]
  exact ((picked_sublist fits).append_right _).cons_cons _

end

/-- A call writes to nothing but the copy of its method. -/
theorem shelters_evaluate {base machine taken : Machine} {spare : List BindingId} {count : Nat}
    {caller method : BindingId} {target : Binding} {arguments : List BindingId}
    (aside : method ∈ spare)
    (operands : Action.callOperands count machine = .ok (caller, method, target, arguments) taken)
    (sheltered : Sheltered base spare machine) :
    Sheltered base spare (Action.final (Action.evaluate count machine)) := by
  have takes := (Action.editing_callOperands count).shelters machine sheltered
  rw [operands] at takes
  rw [Action.evaluate_eq, Action.bind_of_ok operands]
  dsimp only
  split
  · exact (shelters_constructArray aside arguments).bind (.refl _)
      (fun _ => (Editing.pure _).shelters) taken takes
  · exact Editing.shelters (((Action.editing_checkCall target arguments.length).bind fun _ =>
      Action.editing_bindArguments (fun _ _ => trivial) arguments).bind fun _ =>
      Action.editing_enterFrame trivial caller method target.body target.scope) taken takes

/-! ## Instructions -/

section

variable {base : Machine} {source : Program} {offset limit : Nat} {cell : Cell} {machine : Machine}
  (flows : Flows (Pools.ofProgram source) limit (bodies source) True (image source) offset cell)
  (placed : Placed True source offset cell machine)
  (preserving : Preserving base source offset cell machine)

include flows

theorem Assembly.Flows.not_in_place : cell.command.opcode ≠ .evaluateInPlace := by
  intro same
  have legal := flows.legal
  simp [Legal, Command.Straight, same] at legal

include preserving

theorem Preserving.split :
    ∃ under items rest, machine.stack = items ++ rest ∧ Fitting cell.command.takes items
      ∧ Fitting under rest ∧ Sparing base (cell.command.takes ++ under) machine
      ∧ (∀ gives, Spans (image source) (gives ++ cell.shape.drop cell.command.takes.length)
        machine.frames (gives ++ under))
      ∧ ∀ frame ∈ machine.frames, frame.stackMark ≤ rest.length := by
  obtain ⟨kinds, spans, sparing⟩ := preserving
  obtain ⟨_, items, rest, -, stack, fits, lower, covers, spans, marks⟩ :=
    spans.split sparing.fits (flows.suits trivial)
  exact ⟨_, items, rest, stack, fits, lower, sparing.covers covers, spans, marks⟩

include placed

/-- Where the heap stays sheltered, an instruction inside a frame keeps this. -/
theorem preserving_straight
    (sheltered : ∀ spare, Sheltered base spare machine → Sheltered base spare
      (Action.final (Action.step (Pools.ofProgram source).names cell.command.opcode
        cell.command.operand machine)))
    (copy : cell.command.opcode ≠ .copy) (evaluate : cell.command.opcode ≠ .evaluate)
    (returns : cell.command.opcode ≠ .return) (enter : cell.command.opcode ≠ .enterLocal)
    (leave : cell.command.opcode ≠ .leaveLocal) :
    Preserved base source (offset + cell.command.width)
      (Action.step (Pools.ofProgram source).names cell.command.opcode cell.command.operand
        machine) := by
  obtain ⟨under, items, rest, stack, fits, lower, sparing, spans, -⟩ := preserving.split flows
  have after := sheltered _ sparing.sheltered
  have straight {transfer : Transfer} {after : Machine} :=
    @straight_step True source cell machine offset limit flows placed evaluate returns enter leave
      transfer after
  have continues := Action.continuing_step growth_anyChange (Pools.ofProgram source).names
    cell.command.operand enter leave evaluate flows.not_in_place returns machine
  cases result : Action.step (Pools.ofProgram source).names cell.command.opcode
      cell.command.operand machine with
  | error fault last =>
    rw [result] at after
    exact after.retains
  | ok transfer last =>
    rw [result] at after continues
    change Sheltered base _ last at after
    obtain ⟨passes, replaces⟩ := straight result
    obtain ⟨made, left, new⟩ := replaces items rest stack fits
    have frames : last.frames = machine.frames := continues.frames
    have delivered := Sheltered.delivered stack fits lower (Command.copy_not_given copy) after
      (congrArg _ frames) left new
    obtain ⟨rfl, jump⟩ | ⟨rfl, jumps⟩ := passes
    · exact delivered.arrives (frames ▸ spans cell.command.gives) (flows.next jump returns)
    · exact delivered.arrives (frames ▸ spans cell.command.gives) (flows.target jumps)

/-- A copy waits on the stack. -/
theorem preserving_copy (copy : cell.command.opcode = .copy) :
    Preserved base source (offset + cell.command.width)
      (Action.step (Pools.ofProgram source).names cell.command.opcode cell.command.operand
        machine) := by
  obtain ⟨⟨opcode, operand⟩, line, depth, shape⟩ := cell
  subst copy
  obtain ⟨under, items, rest, stack, fits, lower, sparing, spans, -⟩ := preserving.split flows
  obtain ⟨original, rfl⟩ := fits.one_value
  have taken : Sheltered base _ { machine with stack := rest } := sparing.sheltered.same rfl
  have editing : Editing sheltering (Action.copyBinding original) :=
    Action.editing_copyBinding trivial original
  have after := editing.shelters _ taken
  have continues := Action.steady_copyBinding growth_anyChange original { machine with stack := rest }
  have straight {transfer : Transfer} {after : Machine} := @straight_step True source _ machine offset
    limit flows placed (by simp) (by simp) (by simp) (by simp) transfer after
  have steps : Action.step (Pools.ofProgram source).names .copy operand machine
      = (Action.copyBinding original >>= fun id => Action.push id >>= fun _ => pure .next)
        { machine with stack := rest } := by
    simp only [Action.step, Action.andNext, bind_assoc]
    exact Action.bind_of_ok (Action.popBinding_top stack)
  dsimp only at straight ⊢
  rw [steps] at straight ⊢
  cases result : Action.copyBinding original { machine with stack := rest } with
  | error fault last =>
    rw [result] at after
    rw [Action.bind_of_error result]
    exact after.retains
  | ok id last =>
    rw [result] at continues
    rw [Action.bind_of_ok result] at straight ⊢
    have frames : last.frames = machine.frames := continues.frames
    obtain ⟨made, left, new⟩ := (straight rfl).2 [.binding original] rest stack fits
    obtain ⟨copy, rfl⟩ : ∃ copy, made = [.binding copy] :=
      Fitting.one_value (new.covers (⟨rfl, trivial⟩ : SlotKind.Covers [.value] [.copy]))
    obtain ⟨-, left⟩ := List.cons.inj left
    cases left
    exact (sparing.copied stack fits lower result frames).arrives (frames ▸ spans [.copy])
      (flows.next (by simp) (by simp))

omit flows placed in
/-- A change of the open blocks sets nothing aside. -/
theorem Preserving.blocks {after : Machine} {frame : Frame} {callers : List Frame}
    {scopes : List ScopeId} {target depth : Nat}
    (sheltered : ∀ spare, Sheltered base spare machine → Sheltered base spare after)
    (frames : machine.frames = frame :: callers)
    (closed : after.frames = { frame with localScopes := scopes } :: callers)
    (stack : after.stack = machine.stack)
    (leads : Leads True (image source) target depth cell.shape) :
    (Preserving base source).Arrives (image source) target after := by
  obtain ⟨kinds, spans, sparing⟩ := preserving
  have spare : after.spare kinds = machine.spare kinds := by
    rw [Machine.spare, Machine.spare, stack, closed, frames]
    rfl
  have same : Sparing base kinds after :=
    ⟨stack ▸ sparing.fits, spare ▸ sheltered _ sparing.sheltered⟩
  refine same.arrives ?_ leads
  rw [frames] at spans
  rw [closed]
  exact spans.blocks scopes

/-- A block is opened. -/
theorem preserving_enter (enter : cell.command.opcode = .enterLocal) :
    Preserved base source (offset + cell.command.width)
      (Action.step (Pools.ofProgram source).names cell.command.opcode cell.command.operand
        machine) := by
  obtain ⟨⟨opcode, operand⟩, line, depth, shape⟩ := cell
  subst enter
  have editing : Editing sheltering (Action.step (Pools.ofProgram source).names .enterLocal operand) :=
    Action.editing_step _ _ _ (fun _ => trivial) (by simp) (by simp) (by simp) (by simp)
      (fun _ _ => trivial) (fun _ => trivial) (fun _ _ => trivial) (fun _ => trivial)
      fun _ => trivial
  cases frames : machine.frames with
  | nil =>
    have framed := placed.2
    rw [frames] at framed
    cases framed
  | cons frame callers =>
    have steps : (Action.enterLocal >>= fun _ => pure Transfer.next) machine = _ :=
      Action.bind_of_ok (Action.enterLocal_eq frames)
    have kept (spare : List BindingId) (sheltered : Sheltered base spare machine) :=
      editing.shelters machine sheltered
    dsimp only [Action.step, Action.andNext] at kept ⊢
    rw [steps] at kept ⊢
    exact preserving.blocks kept frames rfl rfl (flows.next (by simp) (by simp))

/-- A block is closed. -/
theorem preserving_leave (leave : cell.command.opcode = .leaveLocal) :
    Preserved base source (offset + cell.command.width)
      (Action.step (Pools.ofProgram source).names cell.command.opcode cell.command.operand
        machine) := by
  obtain ⟨deep, empty⟩ := flows.deep leave
  obtain ⟨⟨opcode, operand⟩, line, depth, shape⟩ := cell
  subst leave
  cases empty
  have editing : Editing sheltering (Action.step (Pools.ofProgram source).names .leaveLocal operand) :=
    Action.editing_step _ _ _ (by simp) (by simp) (fun _ => trivial) (by simp) (by simp)
      (fun _ _ => trivial) (fun _ => trivial) (fun _ _ => trivial) (fun _ => trivial)
      fun _ => trivial
  have kept (spare : List BindingId) (sheltered : Sheltered base spare machine) :=
    editing.shelters machine sheltered
  have framed := placed.2
  cases frames : machine.frames with
  | nil =>
    rw [frames] at framed
    cases framed
  | cons frame callers =>
    rw [frames] at framed
    obtain ⟨innermost, scopes, blocks⟩ : ∃ scope scopes, frame.localScopes = scope :: scopes :=
      List.exists_cons_of_length_pos (framed.1 ▸ deep)
    dsimp only [Action.step, Action.andNext] at kept ⊢
    obtain ⟨fault, after, ended, -⟩ | ⟨after, ended, -, closed, stack⟩ :=
      Action.leaveLocal_spec placed.1 frames blocks
    · rw [Action.bind_of_error ended] at kept ⊢
      obtain ⟨_, -, sparing⟩ := preserving
      exact (kept _ sparing.sheltered).retains
    · rw [Action.bind_of_ok ended] at kept ⊢
      exact preserving.blocks kept frames closed stack (flows.next (by simp) (by simp))

/-- A call makes an array of the copy that has waited, or goes on in a frame that runs on it. -/
theorem preserving_call (bodies : ∀ body ∈ sections source, body ≠ 0 →
      Leads True (image source) body 0 [])
    (call : cell.command.opcode = .evaluate)
    (here : machine.registers.ip + 1 = offset + cell.command.width) :
    Preserved base source (offset + cell.command.width)
      (Action.step (Pools.ofProgram source).names cell.command.opcode cell.command.operand
        machine) := by
  obtain ⟨⟨opcode, operand⟩, line, depth, shape⟩ := cell
  subst call
  obtain ⟨under, items, rest, stack, fits, lower, sparing, spans, -⟩ := preserving.split flows
  change Fitting (Action.callTakes operand) items at fits
  change Sparing base (Action.callTakes operand ++ under) machine at sparing
  have waiting {id : BindingId} (waits : id ∈ picked .copy (Action.callTakes operand) items) :
      id ∈ machine.spare (Action.callTakes operand ++ under) := by
    rw [Machine.spare, stack, picked_append fits]
    exact List.mem_append_left _ (List.mem_append_left _ waits)
  obtain ⟨upper, method, caller, target, arguments, rfl, values, reads, there, -⟩ :=
    Action.callOperands_reads stack fits fun id waits =>
      (sparing.sheltered.shielded.aside (waiting waits)).live
  have spare : machine.spare (Action.callTakes operand ++ under)
      = method :: (picked .copy under rest ++ machine.frames.flatMap Frame.aside) := by
    rw [Machine.spare, stack, picked_copy_call values]
    rfl
  have aside : method ∈ machine.spare (Action.callTakes operand ++ under) := spare ▸ .head _
  have kept := shelters_evaluate aside reads sparing.sheltered
  simp only [Action.step]
  obtain ⟨fault, after, ended, -⟩ | ⟨after, ended, -, frames, replaces⟩ |
    ⟨body, after, _, ended, -, member, bound, -, -, -, -, replaces⟩ :=
    Action.evaluate_spec (.head _) operand placed.1
  · rw [ended] at kept ⊢
    exact kept.retains
  · rw [ended] at kept ⊢
    obtain ⟨made, left, new⟩ := replaces _ rest stack fits
    exact (Sheltered.delivered stack fits lower (by simp) kept (congrArg _ frames) left new).arrives
      (frames ▸ spans [.value]) (flows.next (by simp) (by simp))
  · rw [ended, spare] at kept
    rw [ended]
    obtain ⟨-, -, opened, -, -⟩ := Action.evaluate_opens reads ended
    obtain ⟨made, left, new⟩ := replaces _ rest stack fits
    cases new.nil
    have entered : Sparing base under after := by
      refine ⟨left ▸ lower, (kept.perm List.perm_middle).sublist ?_⟩
      rw [Machine.spare, opened, left]
      exact .append (.refl _) (.append_right (Frame.aside_sublist _) _)
    have back := flows.next (by simp) (by simp)
    rw [← here] at back
    exact entered.arrives (opened ▸ (spans []).call (by simp [left, lower.length]) back)
      (bodies body member bound)

/-- A frame is left, and with it the copy that it runs on. -/
theorem preserving_return (returns : cell.command.opcode = .return) :
    Preserved base source (offset + cell.command.width)
      (Action.step (Pools.ofProgram source).names cell.command.opcode cell.command.operand
        machine) := by
  obtain ⟨⟨opcode, operand⟩, line, depth, shape⟩ := cell
  subst returns
  have takes : Command.takes ⟨.return, operand⟩ = Action.returnTakes (operand ≠ 0) := by
    by_cases zero : operand = 0 <;> simp [Command.takes, Action.returnTakes, zero]
  obtain ⟨under, items, rest, stack, fits, lower, sparing, spans, -⟩ := preserving.split flows
  obtain ⟨explicit, pops, -⟩ := Action.popExplicit_ok stack (takes ▸ fits)
  cases frames : machine.frames with
  | nil =>
    have framed := placed.2
    rw [frames] at framed
    cases framed
  | cons frame callers =>
    have spans := spans []
    rw [frames] at spans
    obtain ⟨below, rfl, mark, -, back⟩ := spans
    obtain ⟨upper, left, rfl, above, fitting, -, popped⟩ : ∃ upper left, _ :=
      Action.popped_eq lower mark
    have sub : List.Sublist (picked .copy below left) (picked .copy _ machine.stack) :=
      stack ▸ (picked_sublist above).trans (picked_sublist fits)
    have sheltered : Sheltered base
        (frame.aside ++ (picked .copy below left ++ callers.flatMap Frame.aside))
        { machine with stack := left, frames := callers } := by
      have whole := sparing.sheltered
      rw [Machine.spare, frames, List.flatMap_cons] at whole
      exact ((whole.perm (List.perm_append_comm_assoc ..)).sublist
        (.append (.refl _) (.append_right sub _))).same rfl
    have kept : Sheltered base (picked .copy below left ++ callers.flatMap Frame.aside)
        (Action.final (Action.returnFromFrame (operand ≠ 0) machine)) := by
      have still : Machine.frames { machine with stack := upper ++ left } = frame :: callers := frames
      rw [Action.returnFromFrame_eq still pops, popped]
      have settles := shelters_settled frame callers.isEmpty explicit _ sheltered
      cases settled : Action.settled frame callers.isEmpty explicit
          { machine with stack := left, frames := callers } with
      | error fault last =>
        rw [settled] at settles
        rw [Action.bind_of_error settled]
        exact settles
      | ok keep last =>
        rw [settled] at settles
        rw [Action.bind_of_ok settled]
        refine Editing.shelters ?_ last settles
        split
        · exact .pure _
        · exact Action.editing_resumed frame keep
    simp only [Action.step]
    obtain ⟨fault, after, ended, -⟩ | ⟨gone, after, replaces, ⟨-, value, ended, -⟩ |
      ⟨more, id, ended, -, frames', stack'⟩⟩ :=
      Action.returnFromFrame_spec (operand ≠ 0) placed.1 frames
    · rw [ended] at kept ⊢
      exact kept.retains
    · rw [ended] at kept ⊢
      exact kept.retains
    · rw [ended] at kept ⊢
      obtain ⟨depth, waiting, leads, spans⟩ := back more
      obtain ⟨inner, rfl, spans, -⟩ := spans.replace (.value :: waiting)
      obtain ⟨made, same, none⟩ := replaces items (upper ++ left) stack (takes ▸ fits)
      cases none.nil
      change Sheltered base _ after at kept
      have top : after.stack = .binding id :: left := by
        rw [stack', same]
        exact congrArg _ (congrArg Machine.stack popped)
      have resumed : Sparing base (.value :: (waiting ++ inner)) after := by
        refine ⟨top ▸ ⟨trivial, fitting⟩, ?_⟩
        simpa [Machine.spare, top, frames', picked] using kept
      exact resumed.arrives (frames' ▸ spans) leads

end

section

variable {base : Machine} {source : Program}

/-- A body is given to a method that was just defined, which is no literal. -/
theorem Sheltered.binds {spare : List BindingId} {machine : Machine}
    (sheltered : Sheltered base spare machine) (presents : machine.Presents) (names : NamePool)
    (body : Nat) :
    Sheltered base spare (Action.final (Action.step names .bindSection body machine)) := by
  obtain ⟨id, scope, found, steps⟩ := presents.binds names body
  rw [steps]
  exact sheltered.change (respects_modifyBinding (fun _ plain => plain) ⟨_, found, rfl⟩)

variable (shape : source.wellShaped = true) (valid : (program source).valid)

include shape valid

/-- Every instruction of a well-shaped program keeps the literals. -/
theorem preserving_step {offset : Nat} {cell : Cell} {machine : Machine}
    (stands : Stands (image source) offset cell) (placed : Placed True source offset cell machine)
    (defining : Defining source offset cell machine)
    (preserving : Preserving base source offset cell machine)
    (here : machine.registers.ip = offset + extensionCount cell.command.operand) :
    Preserved base source (offset + cell.command.width)
      (Action.step (Pools.ofProgram source).names cell.command.opcode cell.command.operand
        machine) := by
  have counts : True → source.wellShaped = true := fun _ => shape
  have flows := (Rigor.Suits.of counts).flows valid stands
  by_cases returns : cell.command.opcode = .return
  · exact preserving_return flows placed preserving returns
  by_cases call : cell.command.opcode = .evaluate
  · refine preserving_call flows placed preserving (fun _ => leads_sections (.of counts) valid) call ?_
    rw [here, Nat.add_assoc, Command.width]
  by_cases enter : cell.command.opcode = .enterLocal
  · exact preserving_enter flows placed preserving enter
  by_cases leave : cell.command.opcode = .leaveLocal
  · exact preserving_leave flows placed preserving leave
  by_cases copy : cell.command.opcode = .copy
  · exact preserving_copy flows placed preserving copy
  refine preserving_straight flows placed preserving (fun spare sheltered => ?_) copy call returns
    enter leave
  by_cases binds : cell.command.opcode = .bindSection
  · rw [binds]
    exact sheltered.binds (defining.method binds) _ _
  · have editing : Editing sheltering (Action.step (Pools.ofProgram source).names cell.command.opcode
        cell.command.operand) := by
      refine Action.editing_step _ _ _ (fun _ => trivial) (fun _ => trivial) (fun _ => trivial) ?_ ?_
        (fun _ _ => trivial) (fun _ => trivial) (fun _ _ => trivial) (fun _ => trivial)
        fun _ => trivial
      · rintro (types | same)
        · have legal := flows.legal
          simp [Legal, Command.Straight, types] at legal
        · exact binds same
      · rintro (same | same)
        · exact absurd same call
        · exact absurd same returns
    exact editing.shelters machine sheltered

end

end ScopeMachine
