import Mathlib
import ScopeMachine.Program.Construct
import ScopeMachine.Proofs.Machine.Moves

set_option autoImplicit false

/-!
# Calls and their returns

A call and the return that ends it enclose what happens in between. While the call runs, the frames
and the stack of its callers stay what they are, and its return gives back all of them, with the
registers that belong to the calling frame and one result on the stack.
-/

namespace ScopeMachine

open Assembly

section

variable {program : Program}

/-! ## Inside a call -/

/-- A machine runs a call, or something that was called from it: the frame of the call lies over the
frames of its callers, and their part of the stack is untouched. -/
structure Calling (frame : Frame) (callers : List Frame) (stack : List StackItem)
    (machine : Machine) : Prop where
  frames : ∃ inner scopes, machine.frames = inner ++ { frame with localScopes := scopes } :: callers
    ∧ ∀ called ∈ inner, stack.length ≤ called.stackMark
  stack : stack <:+ machine.stack

/-- The frame of a call is gone, and the registers are set for the frame below it. -/
structure Returned (frame : Frame) (callers : List Frame) (stack : List StackItem)
    (machine : Machine) : Prop where
  frames : machine.frames = callers
  registers : ∃ caller others, callers = caller :: others
    ∧ machine.registers.caller = caller.caller ∧ machine.registers.receiver = caller.receiver
    ∧ machine.registers.lastResult = frame.savedResult
  stack : ∃ result, machine.stack = .binding result :: stack
  ip : machine.registers.ip = frame.returnAddress

/-- The machine is back from a call in the calling frame: all that belongs to that frame is what it
was before the call, the stack is what the call left with one result on it, and control is right
behind the call. -/
structure BackFrom (before entered machine : Machine) : Prop where
  frames : machine.frames = before.frames
  caller : machine.registers.caller = before.registers.caller
  receiver : machine.registers.receiver = before.registers.receiver
  lastResult : machine.registers.lastResult = before.registers.lastResult
  stack : ∃ result, machine.stack = .binding result :: entered.stack
  ip : machine.registers.ip = before.registers.ip + 1

private theorem Returned.backFrom {frame : Frame} {before entered machine : Machine}
    (returned : Returned frame before.frames entered.stack machine) (attached : Attached before)
    (address : frame.returnAddress = before.registers.ip + 1)
    (saved : frame.savedResult = before.registers.lastResult) :
    BackFrom before entered machine := by
  obtain ⟨frames, ⟨caller, others, callers, calling, receiving, result⟩, stack, ip⟩ := returned
  obtain ⟨top, rest, current, called, received⟩ := attached
  rw [callers] at current
  cases current
  exact ⟨frames, calling.trans called.symm, receiving.trans received.symm, result.trans saved, stack,
    ip.trans address⟩

theorem Calling.deeper {frame : Frame} {callers : List Frame} {stack : List StackItem}
    {machine : Machine} (calling : Calling frame callers stack machine) :
    callers.length < machine.frames.length := by
  obtain ⟨inner, scopes, frames, -⟩ := calling.frames
  rw [frames, List.length_append, List.length_cons]
  omega

private theorem suffix_below {items below stack whole : List StackItem} {mark : Nat}
    (suffix : stack <:+ whole) (split : whole = items ++ below) (marked : below.length = mark)
    (low : stack.length ≤ mark) : stack <:+ below := by
  refine List.suffix_of_suffix_length_le suffix ?_ (marked ▸ low)
  rw [split]
  exact List.suffix_append items below

/-- Every dispatch inside a call stays inside it, or is the return that ends it. -/
theorem Calling.dispatches {frame : Frame} {callers : List Frame} {stack : List StackItem}
    {before after : Machine} (calling : Calling frame callers stack before)
    (mark : frame.stackMark = stack.length)
    (dispatches : Dispatches True program before after) :
    Calling frame callers stack after
      ∨ Returned frame callers stack after
        ∧ ∃ offset cell, Stands (image program) offset cell ∧ cell.command.opcode = .return
          ∧ before.registers.ip = offset + extensionCount cell.command.operand := by
  obtain ⟨⟨inner, scopes, frames, marks⟩, suffix⟩ := calling
  cases dispatches with
  | reads extended extensions => exact .inl ⟨⟨inner, scopes, frames, marks⟩, suffix⟩
  | @moves offset next cell transfer moved stands here operand moves goes =>
    cases moves with
    | stays passes current still config caller receiver stack =>
      refine .inl ?_
      obtain ⟨items, made, below, split, marked, rebuilt⟩ := stack trivial
      rw [frames] at current
      cases inner with
      | nil =>
        cases current
        refine ⟨⟨[], _, still, marks⟩, ?_⟩
        have low := suffix_below suffix split marked (Nat.le_of_eq mark.symm)
        rw [Machine.stack_goto, rebuilt]
        exact low.trans (List.suffix_append made below)
      | cons called others =>
        have high := marks called (.head _)
        have higher := fun other member => marks other (.tail called member)
        cases current
        refine ⟨⟨_ :: others, scopes, still, fun other member => ?_⟩, ?_⟩
        · cases member with
          | head => exact high
          | tail _ member => exact higher other member
        · have low := suffix_below suffix split marked high
          rw [Machine.stack_goto, rebuilt]
          exact low.trans (List.suffix_append made below)
    | calls opcode room opened address height saved config caller receiver operands =>
      refine .inl ?_
      obtain ⟨taken, split, -, above⟩ := operands trivial
      have low : stack.length ≤ moved.stack.length := by
        cases inner with
        | nil =>
          rw [← mark]
          exact above { frame with localScopes := scopes } (by rw [frames]; rfl)
        | cons called others =>
          exact Nat.le_trans (marks called (.head _)) (above called (by rw [frames]; rfl))
      refine ⟨⟨_ :: inner, scopes, by rw [Machine.frames_goto, opened, frames]; rfl,
        fun other member => ?_⟩, ?_⟩
      · cases member with
        | head => exact height ▸ low
        | tail _ member => exact marks other member
      · exact List.suffix_of_suffix_length_le suffix (split ▸ List.suffix_append taken _) low
    | returns opcode current back config registers result =>
      obtain ⟨none, -⟩ | goto := goes
      · cases none
      cases goto
      obtain ⟨items, below, id, split, marked, pushed⟩ := result trivial
      rw [frames] at current
      cases inner with
      | nil =>
        cases current
        have same : stack = below :=
          (suffix_below suffix split marked (Nat.le_of_eq mark.symm)).eq_of_length
            (by rw [marked, ← mark])
        refine .inr ⟨⟨back, ⟨_, _, rfl, registers⟩, ⟨id, same ▸ pushed⟩, rfl⟩, _, _, stands, opcode,
          here⟩
      | cons called others =>
        have high := marks called (.head _)
        have higher := fun other member => marks other (.tail called member)
        refine .inl ?_
        injection current with first rest
        subst first
        have low := suffix_below suffix split marked high
        refine ⟨⟨others, scopes, back.trans rest.symm, higher⟩, ?_⟩
        rw [Machine.stack_goto, pushed]
        exact low.trans (List.suffix_cons _ _)
    | halts =>
      obtain ⟨none, -⟩ | goto := goes
      · cases none
      · cases goto

end

/-! ## Runs -/

section

variable {program : Program} {compiled : Compiled} (accepted : program.compile = .ok compiled)
  (shape : program.wellShaped = true) (addressable : Addressable program compiled)

include accepted shape addressable

/-- A dispatch is a call, which takes its arguments, the method and the caller from the stack. While
the call runs, the frames below it stay, and so does all that it left of the stack. When the machine
comes back to the depth of the call, it does so by a return, and finds all that belongs to the
calling frame as it was. -/
def Bracketed (compiled : Compiled) (before entered : Machine) : Prop :=
  ∃ frame operands count, before.nextOpcode? compiled = some .evaluate
    ∧ before.nextOperand? compiled = some count
    ∧ entered.frames = frame :: before.frames ∧ frame.stackMark = entered.stack.length
    ∧ before.stack = operands ++ entered.stack ∧ operands.length = count + 2
    ∧ ∀ fuel machine, entered.run compiled fuel = .running machine →
      (∀ earlier < fuel, ∀ passed, entered.run compiled earlier = .running passed →
        before.frames.length < passed.frames.length) →
      if before.frames.length < machine.frames.length then
        Calling frame before.frames entered.stack machine
      else
        BackFrom before entered machine
          ∧ ∃ earlier last, fuel = earlier + 1 ∧ entered.run compiled earlier = .running last
            ∧ last.nextOpcode? compiled = some .return

omit shape in
theorem nextOpcode?_of_stands {machine : Machine} {offset : Nat} {cell : Cell}
    (stands : Stands (image program) offset cell)
    (here : machine.registers.ip = offset + extensionCount cell.command.operand) :
    machine.nextOpcode? compiled = some cell.command.opcode := by
  have encodes := encodes_image accepted addressable
  rw [Machine.nextOpcode?, here, encodes.getElem?_instruction stands]
  rfl

/-- From inside a call a run comes to the return that ends it before it leaves the call in any other
way. -/
theorem calling_run {frame : Frame} {callers : List Frame} {stack : List StackItem}
    (mark : frame.stackMark = stack.length) (fuel : Nat) {machine final : Machine}
    (at_ : (Placed True program).At (image program) machine)
    (calling : Calling frame callers stack machine)
    (running : machine.run compiled fuel = .running final)
    (inside : ∀ earlier < fuel, ∀ passed, machine.run compiled earlier = .running passed →
      callers.length < passed.frames.length) :
    Calling frame callers stack final
      ∨ Returned frame callers stack final
        ∧ ∃ earlier last, fuel = earlier + 1 ∧ machine.run compiled earlier = .running last
          ∧ last.nextOpcode? compiled = some .return := by
  have counts : True → program.wellShaped = true := fun _ => shape
  induction fuel generalizing machine with
  | zero =>
    cases running
    exact .inl calling
  | succ fuel ih =>
    unfold Machine.run at running
    cases advanced : machine.advance compiled with
    | finished value ended =>
      rw [advanced] at running
      cases running
    | failed line fault ended =>
      rw [advanced] at running
      cases running
    | running next =>
      rw [advanced] at running
      have later (steps : Nat) :
          machine.run compiled (steps + 1) = next.run compiled steps := by
        simp only [Machine.run, advanced]
      have dispatches := dispatches_of_advance accepted counts addressable at_ advanced
      obtain still | ⟨returned, offset, cell, stands, opcode, here⟩ :=
        calling.dispatches mark dispatches
      · obtain calling | ⟨returned, earlier, last, rfl, passed, opcode⟩ :=
          ih (at_advance accepted counts addressable at_ advanced) still running
            fun earlier less passed reached =>
              inside (earlier + 1) (by omega) passed (by rw [later, reached])
        · exact .inl calling
        · exact .inr ⟨returned, earlier + 1, last, rfl, by rw [later, passed], opcode⟩
      · cases fuel with
        | zero =>
          cases running
          refine .inr ⟨returned, 0, machine, rfl, rfl, ?_⟩
          rw [nextOpcode?_of_stands accepted addressable stands here, opcode]
        | succ fuel =>
          have deeper := inside 1 (by omega) next (by rw [later]; rfl)
          rw [returned.frames] at deeper
          exact absurd deeper (Nat.lt_irrefl _)

/-- A dispatch that adds a frame is a call. -/
theorem call_of_deeper {before entered : Machine}
    (at_ : (Placed True program).At (image program) before)
    (entering : before.advance compiled = .running entered)
    (deeper : before.frames.length < entered.frames.length) :
    ∃ frame operands count, before.nextOpcode? compiled = some .evaluate
      ∧ before.nextOperand? compiled = some count
      ∧ entered.frames = frame :: before.frames ∧ frame.stackMark = entered.stack.length
      ∧ frame.returnAddress = before.registers.ip + 1
      ∧ frame.savedResult = before.registers.lastResult
      ∧ before.stack = operands ++ entered.stack ∧ operands.length = count + 2 := by
  have counts : True → program.wellShaped = true := fun _ => shape
  cases dispatches_of_advance accepted counts addressable at_ entering with
  | reads extended extensions => exact absurd deeper (Nat.lt_irrefl _)
  | moves stands here operand moves goes =>
    cases moves with
    | stays passes frames still config caller receiver stack =>
      rw [Machine.frames_goto, still, frames] at deeper
      exact absurd deeper (Nat.lt_irrefl _)
    | returns opcode frames back config registers stack =>
      rw [Machine.frames_goto, back, frames] at deeper
      exact absurd deeper (by simp)
    | halts =>
      obtain ⟨none, -⟩ | goto := goes
      · cases none
      · cases goto
    | calls opcode room frames address mark saved config caller receiver stack =>
      obtain ⟨operands, split, count, -⟩ := stack trivial
      have encodes := encodes_image accepted addressable
      refine ⟨_, operands, _, ?_, ?_, frames, mark, address, saved, split, count⟩
      · rw [nextOpcode?_of_stands accepted addressable stands here, opcode]
      · rw [Machine.nextOperand?, here, encodes.getElem?_instruction stands]
        exact congrArg some operand

/-- Along every run of a well-shaped program that is accepted, a dispatch that adds a frame opens a
bracket, which only the return from that frame closes. -/
theorem run_brackets_calls (config : Config) (input : List UInt8) (start : Nat)
    {before entered : Machine}
    (reached : (Machine.boot config input compiled.pools).run compiled start = .running before)
    (entering : before.advance compiled = .running entered)
    (deeper : before.frames.length < entered.frames.length) :
    Bracketed compiled before entered := by
  have counts : True → program.wellShaped = true := fun _ => shape
  obtain ⟨pools, -, -, valid⟩ := program.compile_ok accepted
  have boot := placed_boot counts valid config input
  rw [← pools] at boot
  obtain ⟨at_, attached⟩ := holds_run accepted counts addressable Attached.dispatches boot
    (attached_boot config input compiled.pools) start reached
  obtain ⟨frame, operands, count, opcode, operand, frames, mark, address, saved, split, length⟩ :=
    call_of_deeper accepted shape addressable at_ entering deeper
  refine ⟨frame, operands, count, opcode, operand, frames, mark, split, length,
    fun fuel machine running inside => ?_⟩
  have calling : Calling frame before.frames entered.stack entered :=
    ⟨⟨[], frame.localScopes, frames, fun _ member => by cases member⟩, List.suffix_refl _⟩
  obtain still | ⟨returned, last⟩ := calling_run accepted shape addressable mark fuel
    (at_advance accepted counts addressable at_ entering) calling running inside
  · rw [if_pos still.deeper]
    exact still
  · rw [if_neg (by rw [returned.frames]; exact Nat.lt_irrefl _)]
    exact ⟨returned.backFrom attached address saved, last⟩

end

/-- Calls a method that returns from a block inside it. -/
def callOnce : Program where
  main := [.statement (.define (.name "method") []),
    .block [.block [.statement (.giveBack none)]],
    .statement (.call none "method" [])]

private theorem accepted_callOnce : ∃ compiled, callOnce.compile = .ok compiled :=
  ⟨_, by cbv⟩

private theorem addressable_callOnce {compiled : Compiled} (accepted : callOnce.compile = .ok compiled) :
    Addressable callOnce compiled := by
  obtain ⟨pools, -, -, -⟩ := callOnce.compile_ok accepted
  have code : size (image callOnce) = 22 := by cbv
  have names : (Pools.ofProgram callOnce).names.size = 1 := by cbv
  have constants : (Pools.ofProgram callOnce).constants.size = 3 := by cbv
  refine ⟨by decide, ?_, ?_, ?_⟩
  · rw [size_image accepted, code]
    decide
  · rw [pools, names]
    decide
  · rw [pools, constants]
    decide

/-- The machine that runs a program on no input some dispatches later, with the one after it. -/
def Program.dispatch? (program : Program) (steps : Nat) : Option (Machine × Machine) :=
  match program.compile with
  | .error _ => none
  | .ok compiled =>
    match (Machine.boot {} [] compiled.pools).run compiled steps with
    | .running before =>
      match before.advance compiled with
      | .running after => some (before, after)
      | _ => none
    | _ => none

theorem callOnce_brackets :
    ∃ compiled before entered, callOnce.compile = .ok compiled ∧ callOnce.wellShaped = true
      ∧ Addressable callOnce compiled
      ∧ (Machine.boot {} [] compiled.pools).run compiled 13 = .running before
      ∧ before.advance compiled = .running entered
      ∧ before.frames.length < entered.frames.length
      ∧ Bracketed compiled before entered := by
  obtain ⟨compiled, accepted⟩ := accepted_callOnce
  have shape : callOnce.wellShaped = true := by decide
  have addressable := addressable_callOnce accepted
  have enters : (callOnce.dispatch? 13).map (fun (before, after) =>
      (before.frames.length, after.frames.length)) = some (1, 2) := by cbv
  simp only [Program.dispatch?, accepted] at enters
  cases reached : (Machine.boot {} [] compiled.pools).run compiled 13 with
  | finished | failed => simp [reached] at enters
  | running before =>
    cases entering : before.advance compiled with
    | finished | failed => simp [reached, entering] at enters
    | running entered =>
      simp only [reached, entering, Option.map_some, Option.some.injEq, Prod.mk.injEq] at enters
      have deeper : before.frames.length < entered.frames.length := by omega
      exact ⟨compiled, before, entered, accepted, shape, addressable, reached, entering, deeper,
        run_brackets_calls accepted shape addressable {} [] 13 reached entering deeper⟩

end ScopeMachine
