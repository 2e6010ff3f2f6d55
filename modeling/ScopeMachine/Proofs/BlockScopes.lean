import ScopeMachine.Proofs.Leaks
import ScopeMachine.Proofs.Machine.Anchor
import ScopeMachine.Proofs.Machine.Focus

set_option autoImplicit false

/-!
# The innermost scope around a block

When a block is closed, the register for the innermost scope is set by what the frame has, and not to
what it was before the block. Both are the same unless the receiver of a call was given other attributes
in the meantime. Only an assignment to the receiver does this.
-/

namespace ScopeMachine

open Assembly Heap

/-! ## Frames that stay -/

/-- The current frame of a machine is still there in another one, with at least the blocks it had. -/
def Machine.Underlies (start machine : Machine) : Prop :=
  ∃ base callers upper blocks, start.frames = base :: callers
    ∧ machine.frames = upper ++ { base with localScopes := blocks ++ base.localScopes } :: callers

/-- A frame stays with its blocks, unless it is left, or one of these blocks is closed. -/
theorem Shifts.over {opcode : Opcode} {base : Frame} {callers upper frames after : List Frame}
    {blocks : List ScopeId} (shifts : Shifts opcode frames after)
    (current : frames = upper ++ { base with localScopes := blocks ++ base.localScopes } :: callers) :
    (∃ above more, after = above ++ { base with localScopes := more ++ base.localScopes } :: callers)
      ∨ opcode = .return ∧ after = callers
      ∨ upper = [] ∧ blocks = [] ∧ ∃ scopes, after = { base with localScopes := scopes } :: callers
        ∧ scopes.length < base.localScopes.length := by
  cases upper with
  | nil =>
    cases shifts with
    | opens scope =>
      cases current
      exact .inl ⟨[], scope :: blocks, rfl⟩
    | @closes frame _ scope scopes closed =>
      cases current
      cases blocks with
      | nil =>
        have closed : base.localScopes = scope :: scopes := closed
        exact .inr (.inr ⟨rfl, rfl, scopes, rfl, by rw [closed]; exact Nat.lt_succ_self _⟩)
      | cons innermost blocks =>
        have closed : innermost :: (blocks ++ base.localScopes) = scope :: scopes := closed
        cases closed
        exact .inl ⟨[], blocks, rfl⟩
    | calls call frame => exact .inl ⟨[frame], blocks, congrArg _ current⟩
    | returns =>
      cases current
      exact .inr (.inl ⟨rfl, rfl⟩)
  | cons top upper =>
    cases shifts with
    | opens | closes =>
      cases current
      exact .inl ⟨_ :: upper, blocks, rfl⟩
    | calls call frame => exact .inl ⟨frame :: top :: upper, blocks, congrArg _ current⟩
    | returns =>
      cases current
      exact .inl ⟨upper, blocks, rfl⟩

private theorem Shifts.of_return {frames after : List Frame} (shifts : Shifts .return frames after) :
    ∃ frame, frames = frame :: after := by
  cases shifts with
  | calls call => simp at call
  | returns => exact ⟨_, rfl⟩

section

variable {opcode : Opcode} {start machine after : Machine}

/-- As long as more frames or blocks are there than at the start, its frame stays. -/
theorem Machine.Underlies.refocuses (underlies : start.Underlies machine)
    (refocuses : machine.Refocuses opcode after) (within : start.Within after) :
    start.Underlies after := by
  obtain ⟨base, callers, upper, blocks, begins, current⟩ := underlies
  obtain ⟨-, abides⟩ | ⟨shifts, -⟩ := refocuses
  · exact ⟨base, callers, upper, blocks, begins, abides.frames.trans current⟩
  obtain ⟨above, more, frames⟩ | ⟨-, frames⟩ | ⟨-, -, scopes, frames, fewer⟩ := shifts.over current
  · exact ⟨base, callers, above, more, begins, frames⟩
  all_goals
    unfold Machine.Within Machine.openBlocks at within
    rw [begins, frames] at within
    simp only [List.length_cons] at within
    omega

/-- The first end of a block after which there are no more frames and blocks than at the start leaves
the frames of the start, with the register in focus. -/
theorem Machine.Underlies.closes (underlies : start.Underlies machine)
    (refocuses : machine.Refocuses opcode after) (leaves : opcode = .leaveLocal)
    (within : start.Within machine) (closed : ¬ start.Within after) :
    after.frames = start.frames ∧ after.InFocus := by
  obtain ⟨base, callers, upper, blocks, begins, current⟩ := underlies
  have inside := (Machine.within_iff begins current).mp within
  obtain ⟨-, abides⟩ | ⟨shifts, focus⟩ := refocuses
  · exact absurd ((Machine.within_iff begins (abides.frames.trans current)).mpr inside) closed
  obtain ⟨above, more, frames⟩ | ⟨returns, -⟩ | ⟨flat, none, -⟩ := shifts.over current
  · rw [Machine.within_iff begins frames] at closed
    obtain ⟨rfl, rfl⟩ : above = [] ∧ more = [] := by simpa only [not_or, not_not] using closed
    exact ⟨frames.trans begins.symm, focus⟩
  · exact absurd (returns.symm.trans leaves) nofun
  · exact absurd inside (by simp [flat, none])

end

section

variable {compiled : Compiled} {machine start after : Machine} {first last : Nat}

private theorem Machine.run_advance {steps : Nat} {inner next : Machine}
    (reached : machine.run compiled steps = .running inner)
    (ran : machine.run compiled (steps + 1) = .running next) :
    inner.advance compiled = .running next := by
  rw [Machine.run_succ, reached] at ran
  exact ran

namespace Machine.Brackets

variable (brackets : machine.Brackets compiled first last start after)

include brackets

private theorem begins_underlies : start.Underlies start := by
  obtain ⟨inner, ran, within⟩ :=
    brackets.inside (first + 1) (Nat.lt_succ_self first) brackets.order
  obtain ⟨opcode, next, ⟨-, abides⟩ | ⟨shifts, -⟩⟩ :=
    Machine.advance_refocuses (Machine.run_advance brackets.begins ran)
  · unfold Machine.Within Machine.openBlocks at within
    rw [abides.frames] at within
    omega
  · cases brackets.enters.symm.trans next
    generalize current : start.frames = frames, inner.frames = later at shifts
    cases shifts with
    | opens scope => exact ⟨_, _, [], [], current, current⟩
    | calls call => simp at call

/-- As long as the block is open, its frame stays. -/
theorem underlies (steps : Nat) (low : first ≤ steps) (high : steps ≤ last) :
    ∃ inner, machine.run compiled steps = .running inner ∧ start.Underlies inner := by
  induction steps, low using Nat.le_induction with
  | base => exact ⟨start, brackets.begins, brackets.begins_underlies⟩
  | succ steps low ih =>
    obtain ⟨inner, reached, underlies⟩ := ih (Nat.le_of_succ_le high)
    obtain ⟨next, ran, within⟩ := brackets.inside (steps + 1) (Nat.lt_succ_of_le low) high
    obtain ⟨opcode, -, refocuses⟩ := Machine.advance_refocuses (Machine.run_advance reached ran)
    exact ⟨next, ran, underlies.refocuses refocuses within⟩

/-- The end of the block leaves the frames as they were before it, with the register in focus. -/
theorem frames_restored : after.frames = start.frames ∧ after.InFocus := by
  obtain ⟨inner, reached, leaves⟩ := brackets.leaves
  obtain ⟨same, again, underlies⟩ :=
    brackets.underlies last (Nat.le_of_lt brackets.order) (Nat.le_refl last)
  cases reached.symm.trans again
  obtain ⟨same, again, within⟩ := brackets.inside last brackets.order (Nat.le_refl last)
  cases reached.symm.trans again
  obtain ⟨opcode, next, refocuses⟩ :=
    Machine.advance_refocuses (Machine.run_advance reached brackets.ends)
  cases leaves.symm.trans next
  exact underlies.closes refocuses rfl within brackets.closed

end Machine.Brackets

end

/-! ## Receivers -/

/-- The frame at the bottom stays, with the program object as its receiver. -/
theorem Shifts.bottom {opcode : Opcode} {frames after : List Frame} {receiver : BindingId}
    (shifts : Shifts opcode frames after)
    (bottom : frames.getLast?.map Frame.receiver = some receiver) :
    after.getLast?.map Frame.receiver = some receiver := by
  cases shifts with
  | @opens frame callers | @closes frame callers =>
    cases callers with
    | nil => exact bottom
    | cons => rwa [List.getLast?_cons_cons] at bottom ⊢
  | calls call frame =>
    cases frames with
    | nil => cases bottom
    | cons => rwa [List.getLast?_cons_cons]
  | returns inner =>
    cases after with
    | nil => exact absurd rfl inner
    | cons => rwa [List.getLast?_cons_cons] at bottom

section

variable {program : Program} {compiled : Compiled} {config : Config} {input : List UInt8}

private theorem bottom_run {steps : Nat} {machine : Machine}
    (reached : (Machine.boot config input compiled.pools).run compiled steps = .running machine) :
    machine.frames.getLast?.map Frame.receiver = some ⟨0, 0⟩ := by
  induction steps generalizing machine with
  | zero =>
    cases reached
    rw [boot_eq]
    rfl
  | succ steps ih =>
    cases past : (Machine.boot config input compiled.pools).run compiled steps with
    | finished | failed =>
      rw [Machine.run_succ, past] at reached
      cases reached
    | running before =>
      obtain ⟨opcode, -, ⟨-, abides⟩ | ⟨shifts, -⟩⟩ :=
        Machine.advance_refocuses (Machine.run_advance past reached)
      · rw [abides.frames]
        exact ih past
      · exact shifts.bottom (ih past)

variable (accepted : program.compile = .ok compiled) (shape : program.wellShaped = true)
  (addressable : Addressable program compiled)

include accepted shape addressable

private theorem scopeOf_object {steps : Nat} {machine : Machine}
    (reached : (Machine.boot config input compiled.pools).run compiled steps = .running machine) :
    machine.heap.scopeOf ⟨0, 0⟩ = some machine.programScope
      ∧ machine.programScope = (Machine.boot config input compiled.pools).programScope := by
  obtain ⟨pools, -, -, valid⟩ := program.compile_ok accepted
  have at_ := abiding_boot shape valid config input
  rw [← pools] at at_
  have retains := retains_run shape valid (encodes_image accepted addressable) pools at_ steps
  rw [reached] at retains
  change (Machine.boot config input compiled.pools).Retains machine at retains
  refine ⟨?_, retains.programScope⟩
  rw [scopeOf, retains.keepsLiterals.object]
  rfl

private theorem inFocus_boot : (Machine.boot config input compiled.pools).InFocus := by
  have flat : (Machine.boot config input compiled.pools).openBlocks = 0 := by
    rw [boot_eq]
    rfl
  have receiver : (Machine.boot config input compiled.pools).registers.receiver = ⟨0, 0⟩ := by
    rw [boot_eq]
  have begins : (Machine.boot config input compiled.pools).run compiled 0 = .running _ := rfl
  obtain ⟨object, -⟩ := scopeOf_object accepted shape addressable begins
  rw [Machine.InFocus, Machine.focus_of_flat flat, receiver, object, Option.getD_some, boot_eq]

private theorem object_not_redirected {steps : Nat} {before : Machine}
    (reached : (Machine.boot config input compiled.pools).run compiled steps = .running before) :
    ¬ before.Redirects compiled ⟨0, 0⟩ := by
  rintro ⟨next, advanced, differ⟩
  have ran : (Machine.boot config input compiled.pools).run compiled (steps + 1) = .running next := by
    rw [Machine.run_succ, reached]
    exact advanced
  obtain ⟨here, programScope⟩ := scopeOf_object accepted shape addressable reached
  obtain ⟨there, still⟩ := scopeOf_object accepted shape addressable ran
  rw [here, there, still, programScope] at differ
  exact differ rfl

private theorem redirects_assigns {steps : Nat} {before : Machine} (frame : Frame)
    (good : (Machine.boot config input compiled.pools).StrandsForGood compiled steps)
    (reached : (Machine.boot config input compiled.pools).run compiled steps = .running before)
    (redirects : before.Redirects compiled frame.receiver) (member : frame ∈ before.frames)
    (stays : before.nextOpcode? compiled = some .return → frame ∈ before.frames.tail) :
    before.nextOpcode? compiled = some .assign
      ∧ before.stack[1]? = some (StackItem.binding frame.receiver) := by
  have counts : True → program.wellShaped = true := fun _ => shape
  obtain ⟨next, advanced, differ⟩ := redirects
  obtain ⟨opcode, here, -⟩ := Machine.advance_refocuses advanced
  by_contra other
  refine differ ?_
  by_cases extends_ : opcode = .extendArgument
  · rw [Machine.heap_of_extends (extends_ ▸ here) advanced]
  · obtain ⟨operand, given⟩ := Machine.nextOperand?_of_nextOpcode? here
    obtain ⟨offset, cell, stands, command, ⟨placed, atCell⟩, -, advances⟩ :=
      placedInOrder_dispatch accepted shape addressable good reached here extends_ given
    have same : cell.command.opcode = opcode := congrArg Command.opcode command
    have flows := flows_image accepted counts stands
    have anchored := anchored_step flows atCell member
      (fun returns => stays (here.trans (congrArg some (same.symm.trans returns))))
      fun assigns target => other ⟨here.trans (congrArg some (same.symm.trans assigns)), target⟩
    obtain ⟨transfer, final, target, result, rfl, -⟩ :=
      Progress.after_running (advances.symm.trans advanced)
    rw [command, result] at anchored
    exact anchored.refers

/-- A frame that stays during a dispatch that redirects its receiver sees an assignment to it. -/
theorem underlies_assigns {steps : Nat} {start before next : Machine}
    (good : (Machine.boot config input compiled.pools).StrandsForGood compiled steps)
    (reached : (Machine.boot config input compiled.pools).run compiled steps = .running before)
    (attached : Attached start) (underlies : start.Underlies before)
    (redirects : before.Redirects compiled start.registers.receiver)
    (advanced : before.advance compiled = .running next)
    (stays : start.Underlies next ∨ before.nextOpcode? compiled ≠ some .return) :
    before.nextOpcode? compiled = some .assign
      ∧ before.stack[1]? = some (StackItem.binding start.registers.receiver) := by
  obtain ⟨base, callers, upper, blocks, begins, current⟩ := underlies
  obtain ⟨_, _, same, -, receiver⟩ := attached
  cases begins.symm.trans same
  rw [receiver] at redirects ⊢
  refine redirects_assigns accepted shape addressable
    { base with localScopes := blocks ++ base.localScopes } good reached redirects ?_ fun returns => ?_
  · rw [current]
    exact List.mem_append_right _ (.head _)
  · obtain ⟨_, _, above, more, again, frames⟩ := stays.resolve_right fun other => other returns
    cases begins.symm.trans again
    cases upper with
    | cons top upper =>
      rw [current]
      exact List.mem_append_right _ (.head _)
    | nil =>
      -- the frame would be left by this return
      obtain ⟨opcode, here, ⟨other, -⟩ | ⟨shifts, -⟩⟩ := Machine.advance_refocuses advanced
      · cases returns.symm.trans here
        exact absurd rfl other
      · cases returns.symm.trans here
        obtain ⟨left, split⟩ := shifts.of_return
        have fewer := congrArg List.length (current.symm.trans split)
        rw [frames] at fewer
        simp only [List.nil_append, List.length_cons, List.length_append] at fewer
        omega

end

/-! ## Blocks -/

/-- A dispatch of a run gives other attributes to the receiver of a frame that stays from then on. As long
as no stranded scope comes alive again, it is an assignment to the receiver. -/
structure Machine.RedirectedAt (machine : Machine) (compiled : Compiled) (start : Machine)
    (last steps : Nat) (before : Machine) : Prop where
  reached : machine.run compiled steps = .running before
  stays : ∀ later, steps ≤ later → later ≤ last → ∃ inner,
    machine.run compiled later = .running inner ∧ start.Underlies inner
  redirects : before.Redirects compiled start.registers.receiver
  assigns : machine.StrandsForGood compiled last → before.nextOpcode? compiled = some .assign
    ∧ before.stack[1]? = some (StackItem.binding start.registers.receiver)

section

variable {program : Program} {compiled : Compiled} (accepted : program.compile = .ok compiled)
  (shape : program.wellShaped = true) (addressable : Addressable program compiled) {config : Config}
  {input : List UInt8}

include accepted shape addressable

private theorem attached_run {steps : Nat} {machine : Machine}
    (reached : (Machine.boot config input compiled.pools).run compiled steps = .running machine) :
    Attached machine := by
  have counts : True → program.wellShaped = true := fun _ => shape
  obtain ⟨pools, -, -, valid⟩ := program.compile_ok accepted
  have boot := placed_boot counts valid config input
  rw [← pools] at boot
  exact (holds_run accepted counts addressable Attached.dispatches boot
    (attached_boot config input compiled.pools) steps reached).2

/-- Only the receiver of a call can be redirected, and only by an assignment. -/
theorem redirected_before {first last steps : Nat} {start after before : Machine}
    (brackets : (Machine.boot config input compiled.pools).Brackets compiled first last start after)
    (high : steps ≤ last)
    (reached : (Machine.boot config input compiled.pools).run compiled steps = .running before)
    (stays : ∀ later, steps ≤ later → later ≤ last → ∃ inner,
      (Machine.boot config input compiled.pools).run compiled later = .running inner
        ∧ start.Underlies inner)
    (redirects : before.Redirects compiled start.registers.receiver) :
    1 < start.frames.length
      ∧ (Machine.boot config input compiled.pools).RedirectedAt compiled start last steps before := by
  have attached := attached_run accepted shape addressable brackets.begins
  have ⟨base, callers, begins, _, receiver⟩ := attached
  refine ⟨?_, reached, stays, redirects, fun good => ?_⟩
  · cases callers with
    | cons => simp [begins]
    | nil =>
      have bottom := bottom_run brackets.begins
      rw [begins] at bottom
      have object : start.registers.receiver = ⟨0, 0⟩ := receiver.trans (Option.some.inj bottom)
      rw [object] at redirects
      exact absurd redirects (object_not_redirected accepted shape addressable reached)
  · obtain ⟨next, advanced, differ⟩ := redirects
    obtain ⟨inner, again, underlies⟩ := stays steps (Nat.le_refl steps) high
    cases reached.symm.trans again
    refine underlies_assigns accepted shape addressable (good.mono high) reached attached underlies
      ⟨next, advanced, differ⟩ advanced ?_
    obtain less | rfl := Nat.lt_or_eq_of_le high
    · obtain ⟨later, ran, underlies⟩ := stays (steps + 1) (Nat.le_succ steps) less
      cases (Machine.run_advance reached ran).symm.trans advanced
      exact .inl underlies
    · obtain ⟨inner, again, leaves⟩ := brackets.leaves
      cases reached.symm.trans again
      exact .inr (by rw [leaves]; simp)

end

/-- Along every run of a well-shaped program that is accepted, the end of a block sets the register for
the innermost scope to what it was before the block, unless no other block is open in the frame, the
frame is that of a call, and while it was there a dispatch gave its receiver other attributes. Then, as
long as no stranded scope comes alive again, the program has assigned to the receiver. -/
theorem blocks_restore_scope {program : Program} {compiled : Compiled}
    (accepted : program.compile = .ok compiled) (shape : program.wellShaped = true)
    (addressable : Addressable program compiled) (config : Config) (input : List UInt8)
    (first last : Nat) (start after : Machine)
    (brackets : (Machine.boot config input compiled.pools).Brackets compiled first last start after) :
    after.registers.localScope = start.registers.localScope
      ∨ start.openBlocks = 0 ∧ 1 < start.frames.length ∧ ∃ steps ≤ last, ∃ before,
        (Machine.boot config input compiled.pools).RedirectedAt compiled start last steps before := by
  obtain ⟨frames, focus⟩ := brackets.frames_restored
  obtain inFocus | ⟨flat, earlier, less, ⟨before, reached, redirects⟩, since⟩ :=
    focus_run (inFocus_boot accepted shape addressable) first brackets.begins
  · by_cases flat : start.openBlocks = 0
    · by_cases same : after.heap.scopeOf start.registers.receiver
          = start.heap.scopeOf start.registers.receiver
      · left
        have receiver : after.registers.receiver = start.registers.receiver := by
          obtain ⟨_, _, current, -, here⟩ :=
            attached_run accepted shape addressable brackets.begins
          obtain ⟨_, _, again, -, there⟩ := attached_run accepted shape addressable brackets.ends
          cases current.symm.trans (frames.symm.trans again)
          exact there.trans here.symm
        have blocks : after.openBlocks = 0 := by
          rw [Machine.openBlocks, frames]
          exact flat
        obtain ⟨-, here⟩ := scopeOf_object accepted shape addressable brackets.begins
        obtain ⟨-, there⟩ := scopeOf_object accepted shape addressable brackets.ends
        rw [focus, inFocus, Machine.focus_of_flat flat, Machine.focus_of_flat blocks, receiver, same,
          here, there]
      · right
        obtain ⟨steps, before, low, high, reached, redirects⟩ := redirects_between
          (Nat.le_succ_of_le (Nat.le_of_lt brackets.order)) brackets.begins brackets.ends same
        have inTime : steps ≤ last := Nat.le_of_lt_succ high
        obtain ⟨calls, redirected⟩ := redirected_before accepted shape addressable brackets inTime
          reached (fun later after_ => brackets.underlies later (Nat.le_trans low after_)) redirects
        exact ⟨flat, calls, steps, inTime, before, redirected⟩
    · left
      rw [focus, inFocus, Machine.focus_congr frames flat]
  · right
    have inTime : earlier ≤ last := Nat.le_of_lt (Nat.lt_trans less brackets.order)
    have stays (later : Nat) (low : earlier ≤ later) (high : later ≤ last) : ∃ inner,
        (Machine.boot config input compiled.pools).run compiled later = .running inner
          ∧ start.Underlies inner := by
      obtain soon | late := Nat.le_total later first
      · obtain ⟨passed, ran, same⟩ := since later low soon
        obtain ⟨base, callers, upper, blocks, begins, current⟩ := brackets.begins_underlies
        exact ⟨passed, ran, base, callers, upper, blocks, begins, same.trans current⟩
      · exact brackets.underlies later late high
    obtain ⟨calls, redirected⟩ :=
      redirected_before accepted shape addressable brackets inTime reached stays redirects
    exact ⟨flat, calls, earlier, inTime, before, redirected⟩

/-- Assigns to the method that runs, in front of an empty block of its body. -/
def replaceSelf : Program where
  main := [.statement (.define (.name "method") []),
    .block [.statement (.assign (.name "self") (.integer 1)), .block []],
    .statement (.call none "method" [])]

private theorem addressable_replaceSelf {compiled : Compiled}
    (accepted : replaceSelf.compile = .ok compiled) : Addressable replaceSelf compiled := by
  have code : size (image replaceSelf) = 25 := by cbv
  have names : (Pools.ofProgram replaceSelf).names.size = 2 := by cbv
  have constants : (Pools.ofProgram replaceSelf).constants.size = 4 := by cbv
  refine addressable_of_image accepted (by decide) ?_ ?_ ?_
  · rw [code]
    decide
  · rw [names]
    decide
  · rw [constants]
    decide

/-- The instruction that a program without input is about to dispatch, with the number of frames, that of
the open blocks of the uppermost one, and the register for the innermost scope. -/
def Program.scoped? (program : Program) (steps : Nat) :
    Option (Option Opcode × Nat × Nat × ScopeId) :=
  match program.compile with
  | .error _ => none
  | .ok compiled =>
    match (Machine.boot {} [] compiled.pools).run compiled steps with
    | .running machine =>
      some (machine.nextOpcode? compiled, machine.frames.length, machine.openBlocks,
        machine.registers.localScope)
    | _ => none

private theorem Program.scoped?_spec {program : Program} {compiled : Compiled} {steps frames blocks : Nat}
    {opcode : Option Opcode} {localScope : ScopeId} (accepted : program.compile = .ok compiled)
    (shows : program.scoped? steps = some (opcode, frames, blocks, localScope)) :
    ∃ machine, (Machine.boot {} [] compiled.pools).run compiled steps = .running machine
      ∧ machine.nextOpcode? compiled = opcode ∧ machine.frames.length = frames
      ∧ machine.openBlocks = blocks ∧ machine.registers.localScope = localScope := by
  simp only [scoped?, accepted] at shows
  split at shows
  · next machine reached =>
    cases shows
    exact ⟨machine, reached, rfl, rfl, rfl, rfl⟩
  · cases shows

/-- The register is another one after the block, and the assignment is found. -/
theorem replaceSelf_redirected :
    ∃ compiled start after, replaceSelf.compile = .ok compiled ∧ replaceSelf.wellShaped = true
      ∧ Addressable replaceSelf compiled
      ∧ (Machine.boot {} [] compiled.pools).Brackets compiled 19 20 start after
      ∧ after.registers.localScope ≠ start.registers.localScope
      ∧ ∃ steps ≤ 20, ∃ before,
        (Machine.boot {} [] compiled.pools).RedirectedAt compiled start 20 steps before := by
  have opens : replaceSelf.scoped? 19 = some (some .enterLocal, 2, 0, ⟨5, 0⟩) := by cbv
  have closes : replaceSelf.scoped? 20 = some (some .leaveLocal, 2, 1, ⟨6, 0⟩) := by cbv
  have ends : replaceSelf.scoped? 21 = some (some .return, 2, 0, ⟨0, 0⟩) := by cbv
  cases accepted : replaceSelf.compile with
  | error => simp [Program.scoped?, accepted] at opens
  | ok compiled =>
    have shape : replaceSelf.wellShaped = true := by decide
    have addressable := addressable_replaceSelf accepted
    obtain ⟨start, begun, enters, deep, flat, own⟩ := Program.scoped?_spec accepted opens
    obtain ⟨inner, reached, leaves, level, more, -⟩ := Program.scoped?_spec accepted closes
    obtain ⟨after, ended, -, again, fewer, other⟩ := Program.scoped?_spec accepted ends
    have brackets : (Machine.boot {} [] compiled.pools).Brackets compiled 19 20 start after := by
      refine ⟨begun, enters, by decide, fun steps low high => ?_, ⟨inner, reached, leaves⟩, ended, ?_⟩
      · obtain rfl : steps = 20 := Nat.le_antisymm high low
        exact ⟨inner, reached, .inr ⟨deep.trans level.symm, by omega⟩⟩
      · unfold Machine.Within
        omega
    have moved : after.registers.localScope ≠ start.registers.localScope := by
      rw [own, other]
      decide
    obtain ⟨-, -, redirected⟩ := (blocks_restore_scope accepted shape addressable {} [] 19 20 start
      after brackets).resolve_left moved
    exact ⟨compiled, start, after, rfl, shape, addressable, brackets, moved, redirected⟩

end ScopeMachine
