import ScopeMachine.Proofs.Assembly.Flow
import ScopeMachine.Proofs.Machine.Dispatch
import ScopeMachine.Proofs.Machine.Frames

set_option autoImplicit false

/-!
# Framing

Every frame of a running machine has as many open blocks as the cell that it stands at or returns to,
and in a well-shaped program the part of the stack that belongs to it has the shape of that cell. When
only the operands are known to leave values, entries that nothing takes may lie below that part.
-/

namespace ScopeMachine

open Assembly

/-! ## Shapes of stacks -/

theorem SlotKind.Fits.accepts {wanted found : SlotKind} {item : StackItem}
    (accepted : wanted.accepts found = true) (fits : found.Fits item) : wanted.Fits item := by
  cases wanted <;> cases found <;> cases item <;> simp_all [SlotKind.accepts, SlotKind.Fits]

theorem Fitting.append {first second : Shape} {upper lower : List StackItem}
    (above : Fitting first upper) (below : Fitting second lower) :
    Fitting (first ++ second) (upper ++ lower) := by
  induction first generalizing upper with
  | nil =>
    cases upper with
    | nil => exact below
    | cons => cases above
  | cons kind rest ih =>
    cases upper with
    | nil => cases above
    | cons => exact ⟨above.1, ih above.2⟩

theorem Fitting.split {wants shape : Shape} {items : List StackItem} (fits : Fitting shape items)
    (offered : SlotKind.offered wants shape = true) :
    ∃ taken others, items = taken ++ others ∧ Fitting wants taken
      ∧ Fitting (shape.drop wants.length) others := by
  induction wants generalizing shape items with
  | nil => exact ⟨[], items, rfl, trivial, fits⟩
  | cons wanted wants ih =>
    match shape, items with
    | [], _ => cases offered
    | _ :: _, [] => cases fits
    | found :: shape, item :: items =>
      simp only [SlotKind.offered, Bool.and_eq_true] at offered
      obtain ⟨taken, others, rfl, fitting, rest⟩ := ih fits.2 offered.2
      exact ⟨item :: taken, others, rfl, ⟨.accepts offered.1 fits.1, fitting⟩, rest⟩

theorem Fitting.covers {shape wider : Shape} {items : List StackItem} (fits : Fitting shape items)
    (covers : SlotKind.Covers wider shape) : Fitting wider items := by
  induction wider generalizing shape items with
  | nil =>
    cases shape with
    | nil => exact fits
    | cons => cases covers
  | cons wanted rest ih =>
    match shape, items with
    | [], _ => cases covers
    | _ :: _, [] => cases fits
    | _ :: _, _ :: _ => exact ⟨.accepts covers.1 fits.1, ih fits.2 covers.2⟩

theorem Fitting.bears {complete : Prop} {shape wider : Shape} {items : List StackItem}
    (fits : Fitting shape items) (bears : SlotKind.Bears complete wider shape) :
    ∃ upper lower, items = upper ++ lower ∧ Fitting wider upper ∧ (complete → lower = []) := by
  induction wider generalizing shape items with
  | nil =>
    refine ⟨[], items, rfl, trivial, fun total => ?_⟩
    cases bears total
    cases items with
    | nil => rfl
    | cons => cases fits
  | cons wanted rest ih =>
    match shape, items with
    | [], _ => cases bears
    | _ :: _, [] => cases fits
    | _ :: _, item :: _ =>
      obtain ⟨upper, lower, rfl, fitting, none⟩ := ih fits.2 bears.2
      exact ⟨item :: upper, lower, rfl, ⟨.accepts bears.1 fits.1, fitting⟩, none⟩

theorem Fitting.length {shape : Shape} {items : List StackItem} (fits : Fitting shape items) :
    items.length = shape.length := by
  induction shape generalizing items with
  | nil =>
    cases items with
    | nil => rfl
    | cons => cases fits
  | cons kind rest ih =>
    cases items with
    | nil => cases fits
    | cons => exact congrArg (· + 1) (ih fits.2)

/-! ## Frames -/

/-- The part of a stack above that of the calling frame has a shape, at least on top. Entries that
nothing takes may lie below, unless the shape is complete. -/
def Shaped (complete : Prop) (shape : Shape) (items : List StackItem) : Prop :=
  ∃ upper lower, items = upper ++ lower ∧ Fitting shape upper ∧ (complete → lower = [])

theorem Shaped.fitting {complete : Prop} {shape : Shape} {items : List StackItem}
    (shaped : Shaped complete shape items) (total : complete) : Fitting shape items := by
  obtain ⟨upper, lower, rfl, fits, none⟩ := shaped
  rwa [none total, List.append_nil]

theorem Shaped.bears {complete : Prop} {shape wider : Shape} {items : List StackItem}
    (shaped : Shaped complete shape items) (bears : SlotKind.Bears complete wider shape) :
    Shaped complete wider items := by
  obtain ⟨upper, lower, rfl, fits, none⟩ := shaped
  obtain ⟨top, rest, rfl, fitting, empty⟩ := fits.bears bears
  exact ⟨top, rest ++ lower, List.append_assoc .., fitting, fun total => by
    rw [empty total, none total, List.append_nil]⟩

theorem Shaped.split {complete : Prop} {wants shape : Shape} {items : List StackItem}
    (shaped : Shaped complete shape items) (offered : SlotKind.offered wants shape = true) :
    ∃ taken others, items = taken ++ others ∧ Fitting wants taken
      ∧ Shaped complete (shape.drop wants.length) others := by
  obtain ⟨upper, lower, rfl, fits, none⟩ := shaped
  obtain ⟨taken, others, rfl, fitting, rest⟩ := fits.split offered
  exact ⟨taken, others ++ lower, List.append_assoc .., fitting, others, lower, rfl, rest, none⟩

theorem Shaped.append {complete : Prop} {first second : Shape} {made others : List StackItem}
    (given : Fitting first made) (shaped : Shaped complete second others) :
    Shaped complete (first ++ second) (made ++ others) := by
  obtain ⟨upper, lower, rfl, fits, none⟩ := shaped
  exact ⟨made ++ upper, lower, (List.append_assoc ..).symm, given.append fits, none⟩

/-- The frames of a machine at a depth and a shape. The current frame has as many blocks open as the
depth says, and a calling frame as many as the cell that its call returns to. When shapes count, the
stack above the mark of the current frame has the shape, and below the mark lies the stack of the
calling frame, which waits for one more value. -/
def Framed (rigor : Rigor) (code : List Cell) :
    Nat → Shape → List Frame → List StackItem → Prop
  | _, _, [], _ => False
  | depth, shape, frame :: rest, stack =>
    frame.localScopes.length = depth
      ∧ ∃ below,
        (rigor.counts → ∃ items, stack = items ++ below ∧ Shaped rigor.complete shape items
          ∧ frame.stackMark = below.length)
        ∧ (rest = [] → rigor.counts → below = [])
        ∧ (rest ≠ [] → ∃ back waiting, Leads rigor code frame.returnAddress back (.value :: waiting)
          ∧ Framed rigor code back waiting rest below)

section

variable {rigor : Rigor} {code : List Cell} {depth : Nat} {shape : Shape} {frames : List Frame}
  {stack : List StackItem}

theorem Framed.bears {wider : Shape} (framed : Framed rigor code depth shape frames stack)
    (bears : rigor.counts → SlotKind.Bears rigor.complete wider shape) :
    Framed rigor code depth wider frames stack := by
  cases frames with
  | nil => cases framed
  | cons frame rest =>
    obtain ⟨blocks, below, own, bottom, caller⟩ := framed
    refine ⟨blocks, below, fun holds => ?_, bottom, caller⟩
    obtain ⟨items, split, fits, mark⟩ := own holds
    exact ⟨items, split, fits.bears (bears holds), mark⟩

theorem Framed.offers {wants : Shape} (framed : Framed rigor code depth shape frames stack)
    (holds : rigor.counts) (offered : SlotKind.offered wants shape = true) : Offers wants stack := by
  cases frames with
  | nil => cases framed
  | cons frame rest =>
    obtain ⟨-, below, own, -⟩ := framed
    obtain ⟨items, rfl, fits, -⟩ := own holds
    obtain ⟨taken, others, rfl, fitting, -⟩ := fits.split offered
    exact ⟨taken, others ++ below, by simp, fitting⟩

/-- Entries of the current frame are replaced by others. -/
theorem Framed.replace {wants gives : Shape} {after : List StackItem}
    (framed : Framed rigor code depth shape frames stack)
    (offered : rigor.counts → SlotKind.offered wants shape = true)
    (replaces : Replaces wants gives stack after) :
    Framed rigor code depth (gives ++ shape.drop wants.length) frames after := by
  cases frames with
  | nil => cases framed
  | cons frame rest =>
    obtain ⟨blocks, below, own, bottom, caller⟩ := framed
    refine ⟨blocks, below, fun holds => ?_, bottom, caller⟩
    obtain ⟨items, rfl, fits, mark⟩ := own holds
    obtain ⟨taken, others, rfl, fitting, remaining⟩ := fits.split (offered holds)
    obtain ⟨made, rfl, given⟩ := replaces taken (others ++ below) (by simp) fitting
    exact ⟨made ++ others, by simp, .append given remaining, mark⟩

/-- The number of open blocks changes in the current frame only. -/
theorem Framed.blocks {frame : Frame} {rest : List Frame} (scopes : List ScopeId)
    (framed : Framed rigor code depth shape (frame :: rest) stack) :
    Framed rigor code scopes.length shape ({ frame with localScopes := scopes } :: rest) stack := by
  obtain ⟨-, below, own, bottom, caller⟩ := framed
  exact ⟨rfl, below, own, bottom, caller⟩

/-- A call puts a frame on top, with nothing above its mark. -/
theorem Framed.call {frame : Frame} (framed : Framed rigor code depth shape frames stack) (empty : frame.localScopes = [])
    (mark : frame.stackMark = stack.length)
    (leads : Leads rigor code frame.returnAddress depth (.value :: shape)) :
    Framed rigor code 0 [] (frame :: frames) stack := by
  refine ⟨by rw [empty]; rfl, stack, fun _ => ⟨[], rfl, ⟨[], [], rfl, trivial, fun _ => rfl⟩, mark⟩,
    fun none => ?_, fun _ => ⟨depth, shape, leads, framed⟩⟩
  subst none
  cases framed

theorem Framed.arrives {offset : Nat} (framed : Framed rigor code depth shape frames stack)
    (leads : Leads rigor code offset depth shape) :
    ∃ cell, Stands code offset cell ∧ Framed rigor code cell.depth cell.shape frames stack := by
  obtain ⟨cell, stands, rfl, bears⟩ := leads
  exact ⟨cell, stands, framed.bears bears⟩

/-- When shapes do not count, neither does the stack. -/
theorem Framed.unshaped {other : Shape} {any : List StackItem}
    (framed : Framed rigor code depth shape frames stack) (not : ¬ rigor.counts) :
    Framed rigor code depth other frames any := by
  cases frames with
  | nil => cases framed
  | cons frame rest =>
    obtain ⟨blocks, below, -, bottom, caller⟩ := framed
    exact ⟨blocks, below, fun holds => absurd holds not, bottom, caller⟩

theorem Framed.push {id : BindingId} (framed : Framed rigor code depth shape frames stack) :
    Framed rigor code depth (.value :: shape) frames (.binding id :: stack) := by
  have replaces : Replaces [] [.value] stack (.binding id :: stack) := by
    intro items rest split fits
    cases items with
    | nil => exact ⟨[.binding id], congrArg _ split, trivial, trivial⟩
    | cons => cases fits
  exact framed.replace (fun _ => rfl) replaces

section

variable {frame : Frame} {rest : List Frame} {wants : Shape} {left : List StackItem}
  (framed : Framed rigor code depth shape (frame :: rest) stack)
  (offered : rigor.counts → SlotKind.offered wants shape = true)
  (replaces : Replaces wants [] stack left)

include framed offered replaces

/-- What a return leaves on the stack is what lies below the mark of its frame. -/
theorem Framed.truncate {below : List StackItem}
    (own : rigor.counts → ∃ items, stack = items ++ below ∧ Shaped rigor.complete shape items
      ∧ frame.stackMark = below.length) (holds : rigor.counts) :
    left.drop (left.length - frame.stackMark) = below := by
  obtain ⟨items, rfl, fits, mark⟩ := own holds
  obtain ⟨taken, others, rfl, fitting, -⟩ := fits.split (offered holds)
  obtain ⟨made, rfl, none⟩ := replaces taken (others ++ below) (by simp) fitting
  cases made with
  | cons => cases none
  | nil => simp [mark]

theorem Framed.back (call : rest ≠ []) (id : BindingId) :
    ∃ cell, Stands code frame.returnAddress cell
      ∧ Framed rigor code cell.depth cell.shape rest
        (.binding id :: left.drop (left.length - frame.stackMark)) := by
  have whole := framed
  obtain ⟨-, below, own, -, caller⟩ := framed
  obtain ⟨back, waiting, leads, framed⟩ := caller call
  refine Framed.arrives (Framed.push ?_) leads
  by_cases holds : rigor.counts
  · rwa [whole.truncate offered replaces own holds]
  · exact framed.unshaped holds

/-- A return from the program leaves the stack empty. -/
theorem Framed.bottom (outermost : rest = []) (holds : rigor.counts) :
    left.drop (left.length - frame.stackMark) = [] := by
  have whole := framed
  obtain ⟨-, below, own, bottom, -⟩ := framed
  rw [whole.truncate offered replaces own holds]
  exact bottom outermost holds

end

end

/-! ## Instructions -/

namespace Assembly

/-- What the indices and offsets of a program have to be valid for. -/
def limits (source : Program) : Limits where
  names := (Pools.ofProgram source).names.size
  constants := (Pools.ofProgram source).constants.size
  sections := sections source

end Assembly

/-- A machine at a cell of a program holds valid indices and offsets, and its frames are those of the
cell. -/
def Placed (rigor : Rigor) (source : Program) : Assertion := fun _ cell machine =>
  Sound (limits source) machine
    ∧ Framed rigor (image source) cell.depth cell.shape machine.frames machine.stack

/-- A fault that does not tell of code out of order, and of no missing entry when shapes count. -/
def Permitted (rigor : Rigor) (fault : Fault) : Prop :=
  fault.isMisplaced = false ∧ (rigor.counts → fault.isStarved = false)

section

variable {rigor : Rigor} {source : Program} {cell : Cell} {machine : Machine}

theorem Fails.permitted {wants : Shape} {fault : Fault} (fails : Fails wants machine.stack fault)
    (framed : Framed rigor (image source) cell.depth cell.shape machine.frames machine.stack)
    (offered : rigor.counts → SlotKind.offered wants cell.shape = true) : Permitted rigor fault := by
  obtain ⟨fed, placed⟩ | ⟨-, placed, lacking⟩ := fails
  · exact ⟨placed, fun _ => fed⟩
  · exact ⟨placed, fun holds => absurd (framed.offers holds (offered holds)) lacking⟩

theorem Fault.IsOrdinary.permitted {fault : Fault} (ordinary : fault.IsOrdinary) :
    Permitted rigor fault :=
  ⟨ordinary.2, fun _ => ordinary.1⟩

/-- What has to hold after an instruction of a program. -/
abbrev PlacedAfter (rigor : Rigor) (source : Program) (next : Nat) :
    EStateM.Result Fault Machine Transfer → Prop :=
  (Placed rigor source).After (image source) (fun _ machine => machine.frames = [] ∧ (rigor.counts → machine.stack = []))
    (fun fault _ => Permitted rigor fault) next

/-- The effect of an instruction that keeps the frames. -/
theorem Assembly.Flows.effect {offset limit : Nat}
    (flows : Flows (Pools.ofProgram source) limit (bodies source) rigor (image source) offset cell)
    (evaluate : cell.command.opcode ≠ .evaluate) (returns : cell.command.opcode ≠ .return)
    (jump : cell.command.opcode ≠ .jump) (branch : cell.command.opcode ≠ .jumpIfFalse)
    (enter : cell.command.opcode ≠ .enterLocal) (leave : cell.command.opcode ≠ .leaveLocal) :
    Effect (limits source) cell.command.takes cell.command.gives (· = .next)
      (Action.step (Pools.ofProgram source).names cell.command.opcode cell.command.operand) := by
  have legal : cell.command.Straight (Pools.ofProgram source) limit
      ∨ cell.command.opcode = .bindSection ∧ cell.command.operand ∈ (limits source).sections := by
    have legal := flows.legal
    unfold Legal at legal
    split at legal
    case h_5 same => exact .inr ⟨same, .tail _ legal⟩
    case h_6 => exact .inl legal
    all_goals contradiction
  exact Action.effect_step rfl rfl (.head _) legal evaluate returns

section

variable {offset limit : Nat}
  (flows : Flows (Pools.ofProgram source) limit (bodies source) rigor (image source) offset cell)
  (placed : Placed rigor source offset cell machine)

include flows placed

/-- An instruction that keeps the frames comes to the next cell. -/
theorem placed_straight (evaluate : cell.command.opcode ≠ .evaluate)
    (returns : cell.command.opcode ≠ .return) (jump : cell.command.opcode ≠ .jump)
    (branch : cell.command.opcode ≠ .jumpIfFalse) (enter : cell.command.opcode ≠ .enterLocal)
    (leave : cell.command.opcode ≠ .leaveLocal) :
    PlacedAfter rigor source (offset + cell.command.width)
      (Action.step (Pools.ofProgram source).names cell.command.opcode cell.command.operand
        machine) := by
  obtain ⟨sound, framed⟩ := placed
  have level : cell.command.depthAfter cell.depth = cell.depth := by
    unfold Command.depthAfter
    split <;> first | contradiction | rfl
  obtain ⟨fault, after, result, fails⟩ | ⟨transfer, after, result, rfl, kept, frames, -, replaces⟩ :=
    (flows.effect evaluate returns jump branch enter leave).split sound
  · rw [result]
    exact fails.permitted framed flows.suits
  · rw [result]
    rw [← frames] at framed
    have next := flows.next jump returns
    rw [level] at next
    obtain ⟨next, stands, framed⟩ := (framed.replace flows.suits replaces).arrives next
    exact ⟨next, stands, kept, framed⟩

private theorem placed_branch (branch : cell.command.opcode = .jumpIfFalse) :
    PlacedAfter rigor source (offset + cell.command.width)
      (Action.step (Pools.ofProgram source).names cell.command.opcode cell.command.operand
        machine) := by
  obtain ⟨sound, framed⟩ := placed
  obtain ⟨⟨opcode, operand⟩, line, depth, shape⟩ := cell
  subst branch
  have effect : Effect (limits source) [.value] [] (fun transfer => transfer = .next ∨ transfer = .goto operand)
      (Action.step (Pools.ofProgram source).names .jumpIfFalse operand) :=
    (Action.effect_popBinding (by simp) _).bind fun _ _ =>
      (Action.calm_truthy _ _).bind fun truth _ => .pure _ (by cases truth <;> simp)
  obtain ⟨fault, after, result, fails⟩ | ⟨transfer, after, result, goes, kept, frames, -, replaces⟩ :=
    effect.split sound
  · rw [result]
    exact fails.permitted framed flows.suits
  · rw [result]
    rw [← frames] at framed
    have replaced := framed.replace flows.suits replaces
    obtain rfl | rfl := goes
    · obtain ⟨next, stands, framed⟩ := replaced.arrives (flows.next (by simp) (by simp))
      exact ⟨next, stands, kept, framed⟩
    · obtain ⟨next, stands, framed⟩ := replaced.arrives (flows.target (.inr rfl))
      exact ⟨next, stands, kept, framed⟩

private theorem placed_jump (jump : cell.command.opcode = .jump) :
    PlacedAfter rigor source (offset + cell.command.width)
      (Action.step (Pools.ofProgram source).names cell.command.opcode cell.command.operand
        machine) := by
  obtain ⟨sound, framed⟩ := placed
  obtain ⟨⟨opcode, operand⟩, line, depth, shape⟩ := cell
  subst jump
  obtain ⟨next, stands, framed⟩ := framed.arrives (flows.target (.inl rfl))
  exact ⟨next, stands, sound, framed⟩

private theorem placed_enter (enter : cell.command.opcode = .enterLocal) :
    PlacedAfter rigor source (offset + cell.command.width)
      (Action.step (Pools.ofProgram source).names cell.command.opcode cell.command.operand
        machine) := by
  obtain ⟨sound, framed⟩ := placed
  obtain ⟨⟨opcode, operand⟩, line, depth, shape⟩ := cell
  subst enter
  cases frames : machine.frames with
  | nil => rw [frames] at framed; cases framed
  | cons frame rest =>
    rw [frames] at framed
    obtain ⟨scope, after, result, kept, opened, stack⟩ := Action.enterLocal_spec sound frames
    have stepped : Action.step (Pools.ofProgram source).names .enterLocal operand machine
        = .ok .next after := Action.bind_of_ok result
    have deeper := framed.blocks (scope :: frame.localScopes)
    rw [List.length_cons, framed.1, ← opened, ← stack] at deeper
    obtain ⟨next, stands, framed⟩ := deeper.arrives (flows.next (by simp) (by simp))
    rw [stepped]
    exact ⟨next, stands, kept, framed⟩

private theorem placed_leave (leave : cell.command.opcode = .leaveLocal) :
    PlacedAfter rigor source (offset + cell.command.width)
      (Action.step (Pools.ofProgram source).names cell.command.opcode cell.command.operand
        machine) := by
  obtain ⟨sound, framed⟩ := placed
  obtain ⟨deep, -⟩ := flows.deep leave
  obtain ⟨⟨opcode, operand⟩, line, depth, shape⟩ := cell
  subst leave
  cases frames : machine.frames with
  | nil => rw [frames] at framed; cases framed
  | cons frame rest =>
    rw [frames] at framed
    have blocks := framed.1
    cases scopes : frame.localScopes with
    | nil =>
      rw [scopes] at blocks
      exact absurd deep (by rw [← blocks]; simp)
    | cons scope others =>
      obtain ⟨fault, after, result, ordinary⟩ | ⟨after, result, kept, closed, stack⟩ :=
        Action.leaveLocal_spec sound frames scopes
      · have stepped : Action.step (Pools.ofProgram source).names .leaveLocal operand machine
            = .error fault after := Action.bind_of_error result
        rw [stepped]
        exact ordinary.permitted
      · have stepped : Action.step (Pools.ofProgram source).names .leaveLocal operand machine
            = .ok .next after := Action.bind_of_ok result
        have shallower := framed.blocks others
        rw [← closed, ← stack] at shallower
        have level : others.length = depth - 1 := by
          rw [scopes] at blocks
          simp only [List.length_cons] at blocks
          omega
        rw [level] at shallower
        obtain ⟨next, stands, framed⟩ := shallower.arrives (flows.next (by simp) (by simp))
        rw [stepped]
        exact ⟨next, stands, kept, framed⟩

/-- A call comes to the first cell of the body, or to the next cell when it makes an array. -/
theorem placed_call (bodies : ∀ body ∈ sections source, body ≠ 0 →
      Leads rigor (image source) body 0 [])
    (call : cell.command.opcode = .evaluate)
    (here : machine.registers.ip + 1 = offset + cell.command.width) :
    PlacedAfter rigor source (offset + cell.command.width)
      (Action.step (Pools.ofProgram source).names cell.command.opcode cell.command.operand
        machine) := by
  obtain ⟨sound, framed⟩ := placed
  obtain ⟨⟨opcode, operand⟩, line, depth, shape⟩ := cell
  subst call
  have next := flows.next (by simp) (by simp)
  simp only [Action.step]
  obtain ⟨fault, after, result, fails⟩ | ⟨after, result, kept, frames, replaces⟩ |
    ⟨body, after, frame, result, kept, member, bound, frames, empty, address, mark, replaces⟩ :=
    Action.evaluate_spec (.head _) operand sound
  · rw [result]
    exact fails.permitted framed flows.suits
  · rw [result]
    rw [← frames] at framed
    obtain ⟨next, stands, framed⟩ := (framed.replace flows.suits replaces).arrives next
    exact ⟨next, stands, kept, framed⟩
  · rw [result]
    rw [← here, ← address] at next
    have entered := (framed.replace flows.suits replaces).call empty mark next
    rw [← frames] at entered
    obtain ⟨first, stands, framed⟩ := entered.arrives (bodies body member bound)
    exact ⟨first, stands, kept, framed⟩

/-- A return comes to the cell behind its call, or ends the program. -/
theorem placed_return (returns : cell.command.opcode = .return) :
    PlacedAfter rigor source (offset + cell.command.width)
      (Action.step (Pools.ofProgram source).names cell.command.opcode cell.command.operand
        machine) := by
  obtain ⟨sound, framed⟩ := placed
  have suits := flows.suits
  obtain ⟨⟨opcode, operand⟩, line, depth, shape⟩ := cell
  subst returns
  have takes : Command.takes ⟨.return, operand⟩ = Action.returnTakes (operand ≠ 0) := by
    by_cases zero : operand = 0 <;> simp [Command.takes, Action.returnTakes, zero]
  simp only [Command.suits, takes] at suits
  simp only [Action.step]
  cases frames : machine.frames with
  | nil => rw [frames] at framed; cases framed
  | cons frame rest =>
    have whole := framed
    rw [frames] at framed
    obtain ⟨fault, after, result, fails⟩ | ⟨left, after, replaces, ends⟩ :=
      Action.returnFromFrame_spec (operand ≠ 0) sound frames
    · rw [result]
      exact fails.permitted whole suits
    · obtain ⟨outermost, value, result, none, stack⟩ | ⟨call, id, result, kept, top, stack⟩ := ends
      · rw [result]
        exact ⟨none, fun holds => stack.trans (framed.bottom suits replaces outermost holds)⟩
      · rw [result]
        obtain ⟨next, stands, framed⟩ := framed.back suits replaces call id
        rw [← top, ← stack] at framed
        exact ⟨next, stands, kept, framed⟩

end

end

/-- Every instruction of a program comes to a cell with the frames of that cell. -/
theorem kept_placed {rigor : Rigor} {source : Program} (suits : rigor.Suits source)
    (valid : (program source).valid) :
    Kept (Pools.ofProgram source).names (image source) (Placed rigor source)
      (fun _ machine => machine.frames = [] ∧ (rigor.counts → machine.stack = [])) (fun fault _ => Permitted rigor fault) where
  moved _ _ _ _ placed := ⟨⟨placed.1.bodies, placed.1.names, placed.1.constants⟩, placed.2⟩
  step {offset cell machine} stands placed here := by
    have flows := suits.flows valid stands
    by_cases call : cell.command.opcode = .evaluate
    · exact placed_call flows placed (fun _ => leads_sections suits valid) call (by
        rw [here, Nat.add_assoc, Command.width])
    by_cases returns : cell.command.opcode = .return
    · exact placed_return flows placed returns
    by_cases jump : cell.command.opcode = .jump
    · exact placed_jump flows placed jump
    by_cases branch : cell.command.opcode = .jumpIfFalse
    · exact placed_branch flows placed branch
    by_cases enter : cell.command.opcode = .enterLocal
    · exact placed_enter flows placed enter
    by_cases leave : cell.command.opcode = .leaveLocal
    · exact placed_leave flows placed leave
    · exact placed_straight flows placed call returns jump branch enter leave

/-! ## The start -/

def storing (nothing : BindingId)
    (state : Array BindingId × Heap × Std.HashMap Payload BindingId) (constant : Constant) :
    Array BindingId × Heap × Std.HashMap Payload BindingId :=
  ((state.1.push (Machine.constantIn nothing constant state.2).1),
    (Machine.constantIn nothing constant state.2).2)

private theorem storing_bound {sections : List Nat} (none : 0 ∈ sections) (nothing : BindingId)
    (state : Array BindingId × Heap × Std.HashMap Payload BindingId) (constant : Constant)
    (bound : state.2.1.Bound sections) : (storing nothing state constant).2.1.Bound sections := by
  simp only [storing, Machine.constantIn]
  split
  · exact bound
  · simp only [Machine.internIn]
    split
    · exact bound
    · split
      · exact bound
      · exact bound.allocate none
  · exact (bound.allocateScope _).allocate none

private theorem constants_stored {sections : List Nat} (none : 0 ∈ sections) (nothing : BindingId)
    (constants : List Constant) (state : Array BindingId × Heap × Std.HashMap Payload BindingId)
    (bound : state.2.1.Bound sections) :
    (constants.foldl (storing nothing) state).1.size = state.1.size + constants.length
      ∧ (constants.foldl (storing nothing) state).2.1.Bound sections := by
  induction constants generalizing state with
  | nil => exact ⟨rfl, bound⟩
  | cons constant rest ih =>
    obtain ⟨size, safe⟩ := ih (storing nothing state constant)
      (storing_bound none nothing state constant bound)
    refine ⟨?_, safe⟩
    rw [List.foldl_cons, size, List.length_cons, storing, Array.size_push]
    omega

/-- The heap before the constants are stored: the program object with its scope, nothing, and the
array constructor. -/
def groundwork : Heap :=
  Machine.bootstrap.heap

/-- The binding that stands for no value. -/
def nothingId : BindingId :=
  ⟨1, 0⟩

/-- The constants of a program with the heap and the table of shared values after they are stored. -/
def storedConstants (pools : Pools) : Array BindingId × Heap × Std.HashMap Payload BindingId :=
  pools.constants.entries.toList.foldl (storing nothingId) (#[], groundwork, ∅)

theorem boot_eq (config : Config) (input : List UInt8) (pools : Pools) :
    Machine.boot config input pools
      = { config
          heap := (storedConstants pools).2.1
          programScope := ⟨0, 0⟩
          nothing := nothingId
          constants := (storedConstants pools).1
          interned := (storedConstants pools).2.2
          stack := []
          frames := [{ caller := nothingId, receiver := ⟨0, 0⟩ }]
          registers := { caller := nothingId, receiver := ⟨0, 0⟩, localScope := ⟨0, 0⟩ }
          console := { input }
          reports := #[]
          line := 0 } := by
  unfold storedConstants
  rw [Array.foldl_toList]
  rfl

theorem groundwork_slots :
    groundwork.bindings.slots
      = #[.occupied 0 { tag := .object, scope := some ⟨0, 0⟩, constant := true },
          .occupied 0 { name := some nothingName, constant := true },
          .occupied 0 { name := some Machine.arrayName, tag := .array, scope := some ⟨1, 0⟩ }] :=
  rfl

private theorem groundwork_bound {sections : List Nat} (none : 0 ∈ sections) :
    groundwork.Bound sections := by
  rintro ⟨index, generation⟩ binding live
  simp only [Arena.get?, groundwork_slots] at live
  rcases index with _ | _ | _ | index
  case succ.succ.succ => simp at live
  all_goals
    by_cases first : (0 : UInt32) = generation
    · simp [first] at live
      subst live
      exact none
    · simp [first] at live

/-- A machine that is ready to run a program holds valid indices and offsets. -/
theorem sound_boot (source : Program) (config : Config) (input : List UInt8) :
    Sound (limits source) (Machine.boot config input (Pools.ofProgram source)) := by
  have none : 0 ∈ (limits source).sections := .head _
  obtain ⟨size, bound⟩ := constants_stored none nothingId
    (Pools.ofProgram source).constants.entries.toList (#[], groundwork, ∅) (groundwork_bound none)
  rw [boot_eq]
  refine ⟨bound, fun index member => absurd member (by simp), ?_⟩
  show (storedConstants (Pools.ofProgram source)).1.size = _
  rw [storedConstants, size]
  simp [limits, Pool.size]

/-- A machine that is ready to run a program is at its first cell. -/
theorem Assembly.Rigor.Suits.placed_boot {rigor : Rigor} {source : Program}
    (suits : rigor.Suits source) (valid : (program source).valid) (config : Config) (input : List UInt8) :
    (Placed rigor source).At (image source)
      (Machine.boot config input (Pools.ofProgram source)) := by
  have framed : Framed rigor (image source) 0 []
      (Machine.boot config input (Pools.ofProgram source)).frames [] :=
    ⟨rfl, [], fun _ => ⟨[], rfl, ⟨[], [], rfl, trivial, fun _ => rfl⟩, rfl⟩, fun _ _ => rfl,
      fun more => absurd rfl more⟩
  obtain ⟨cell, stands, framed⟩ := framed.arrives (leads_image suits valid)
  exact ⟨0, cell, 0, stands, reading_start 0 cell rfl ⟨rfl, rfl⟩,
    sound_boot source config input, framed⟩

theorem placed_boot {shaped : Prop} {source : Program} (shape : shaped → source.wellShaped = true)
    (valid : (program source).valid) (config : Config) (input : List UInt8) :
    (Placed shaped source).At (image source) (Machine.boot config input (Pools.ofProgram source)) :=
  (Rigor.Suits.of shape).placed_boot valid config input

end ScopeMachine
