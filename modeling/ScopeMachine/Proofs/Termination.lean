import Mathlib.Algebra.Group.Nat.Defs
import Mathlib.Tactic.IntervalCases
import ScopeMachine.Program.Construct
import ScopeMachine.Proofs.Acceptance
import ScopeMachine.Proofs.Assembly.Forward
import ScopeMachine.Proofs.BoundScopes
import ScopeMachine.Proofs.Machine.Overflow
import ScopeMachine.Proofs.Preservation

set_option autoImplicit false

/-!
# Termination

A program without loops ends, however its methods call each other. Inside a frame control only goes
forward, a return comes back behind its call, and the number of frames is bounded. So the frames, read
as the digits of a number, count down. Every dispatch ends as well, unless it looks for a name along
parents that lead back to where they came from. Scopes have such parents only where the generations of
a slot have begun anew.
-/

namespace ScopeMachine

open Assembly

/-- How many dispatches are left at most to a machine at a position, with code of the given size and
room for a number of frames. Each frame counts the slots that it has in front of it, and a frame
weighs as much as all that could be called from it for one slot. -/
def reserve (size depth : Nat) : Nat → List Frame → Nat
  | _, [] => 0
  | position, frame :: rest =>
    (size - position) * (size + 1) ^ (depth - (rest.length + 1))
      + reserve size depth frame.returnAddress rest

private theorem reserve_later {size depth position later : Nat} {frames : List Frame}
    (current : frames ≠ []) (inside : position < size) (after : position < later) :
    reserve size depth later frames < reserve size depth position frames := by
  cases frames with
  | nil => contradiction
  | cons frame rest =>
    have weight : 0 < (size + 1) ^ (depth - (rest.length + 1)) := Nat.pow_pos (Nat.succ_pos size)
    have fewer : size - later < size - position := by omega
    exact Nat.add_lt_add_right (Nat.mul_lt_mul_of_pos_right fewer weight) _

private theorem reserve_blocks {size depth position : Nat} (frame : Frame) (rest : List Frame)
    (scopes : List ScopeId) :
    reserve size depth position ({ frame with localScopes := scopes } :: rest)
      = reserve size depth position (frame :: rest) :=
  rfl

/-- A call spends one slot of the calling frame, which is worth a whole frame more. -/
theorem reserve_call {size depth position body : Nat} {frame : Frame} {frames : List Frame}
    (current : frames ≠ []) (inside : position < size) (room : frames.length < depth)
    (address : frame.returnAddress = position + 1) :
    reserve size depth body (frame :: frames) < reserve size depth position frames := by
  cases frames with
  | nil => contradiction
  | cons caller rest =>
    simp only [reserve, List.length_cons, address] at room ⊢
    obtain ⟨free, rfl⟩ := Nat.exists_eq_add_of_lt room
    have above : rest.length + 1 + free + 1 - (rest.length + 1 + 1) = free := by omega
    have below : rest.length + 1 + free + 1 - (rest.length + 1) = free + 1 := by omega
    rw [above, below]
    have slots : size - position = (size - (position + 1)) + 1 := by omega
    have spare : (size - body) * (size + 1) ^ free < (size + 1) ^ (free + 1) := by
      rw [Nat.pow_succ, Nat.mul_comm ((size + 1) ^ free)]
      exact Nat.mul_lt_mul_of_pos_right (by omega) (Nat.pow_pos (Nat.succ_pos size))
    rw [slots, Nat.succ_mul]
    omega

private theorem reserve_return {size depth position : Nat} {frame : Frame} {frames : List Frame}
    (inside : position < size) :
    reserve size depth frame.returnAddress frames < reserve size depth position (frame :: frames) := by
  have weight : 0 < (size + 1) ^ (depth - (frames.length + 1)) := Nat.pow_pos (Nat.succ_pos size)
  exact Nat.lt_add_of_pos_left (Nat.mul_pos (by omega) weight)

/-! ## Searches -/

/-- A dispatch that finds parents without end has an instruction that looks for a name along them, from
the scope of the receiver. -/
theorem Machine.advance_endless {machine final : Machine} {compiled : Compiled} {line : Nat}
    (failed : machine.advance compiled = .failed line (.staleHandle .endless) final) :
    ∃ scope name, machine.heap.Refers machine.registers.receiver scope
      ∧ machine.heap.findInherited scope name = .error .endless := by
  cases found : compiled.code.instructions[machine.registers.ip]? with
  | none => simp [Machine.advance, found] at failed
  | some instruction =>
    by_cases extends_ : instruction.opcode = .extendArgument
    · simp only [Machine.advance, found, if_pos extends_, Machine.extend, Machine.stop] at failed
      split at failed <;> cases failed
    · rw [Machine.advance_of_instruction found extends_] at failed
      obtain ⟨fault, last, result⟩ : ∃ fault last, Action.step compiled.pools.names instruction.opcode
          (machine.registers.extended ||| instruction.operand.toNat) (machine.fetch compiled.code)
          = .error fault last := by
        rcases result : Action.step compiled.pools.names instruction.opcode
            (machine.registers.extended ||| instruction.operand.toNat) (machine.fetch compiled.code)
          with ⟨transfer, last⟩ | ⟨fault, last⟩
        · rw [result] at failed
          cases transfer <;> cases failed
        · exact ⟨fault, last, rfl⟩
      rw [result] at failed
      cases failed
      exact (Action.unbounded_step result rfl).2

/-- Where slots are freed seldom enough, the search for a name ends in every dispatch. -/
theorem Machine.run_ne_endless (compiled : Compiled) (config : Config) (input : List UInt8) (fuel : Nat)
    (few : ∀ index, (Machine.boot config input compiled.pools).scopeReuses compiled index fuel < 2 ^ 32)
    (line : Nat) (final : Machine) :
    (Machine.boot config input compiled.pools).run compiled fuel
      ≠ .failed line (.staleHandle .endless) final := by
  induction fuel with
  | zero => exact nofun
  | succ fuel ih =>
    have fewer (index : Nat) :=
      Nat.lt_of_le_of_lt (Machine.scopeReuses_mono _ index (Nat.le_succ fuel)) (few index)
    rw [Machine.run_succ]
    cases reached : (Machine.boot config input compiled.pools).run compiled fuel with
    | finished => exact nofun
    | failed =>
      have before := ih fewer
      rw [reached] at before
      exact before
    | running last =>
      intro failed
      obtain ⟨scope, name, refers, endless⟩ := Machine.advance_endless failed
      obtain ⟨-, -, -, ends⟩ := bound_scopes_last compiled config input fuel fewer
      simp only [reached, Progress.machine] at ends
      rw [(ends scope refers name).1] at endless
      exact Heap.findImmediate_ne_endless endless

/-! ## Runs -/

section

variable {program : Program} {compiled : Compiled} (accepted : program.compile = .ok compiled)
  (free : program.loopFree = true) (addressable : Addressable program compiled)

include accepted

private theorem ip_lt_size {machine : Machine} (at_ : (Placed False program).At (image program) machine) :
    machine.registers.ip < compiled.code.size := by
  obtain ⟨offset, cell, index, stands, reading, -⟩ := at_
  have bound := stands.lt_size
  have inside := reading.inside
  rw [size_image accepted, reading.ip]
  unfold Command.width at bound
  omega

include free in
/-- A command of a program without loops passes control forward. -/
theorem passes_forward {offset next : Nat} {cell : Cell} {transfer : Transfer}
    (stands : Stands (image program) offset cell) (passes : cell.command.Passes transfer)
    (goes : transfer = .next ∧ next = offset + cell.command.width ∨ transfer = .goto next) :
    offset + cell.command.width ≤ next := by
  obtain ⟨-, -, -, valid⟩ := program.compile_ok accepted
  obtain ⟨rfl, -⟩ | ⟨rfl, jump⟩ := passes
  · obtain ⟨-, rfl⟩ | goto := goes
    · exact Nat.le_refl _
    · cases goto
  · have forward := (forward_image free valid).stands stands jump
    obtain ⟨none, -⟩ | goto := goes
    · cases none
    · cases goto
      omega

include free addressable

/-- Every dispatch of a program without loops takes from the reserve. -/
theorem reserve_advance {machine after : Machine} {depth : Nat}
    (at_ : (Placed False program).At (image program) machine)
    (bound : machine.config.maxCallDepth ≤ depth)
    (advanced : machine.advance compiled = .running after) :
    reserve compiled.code.size depth after.registers.ip after.frames
        < reserve compiled.code.size depth machine.registers.ip machine.frames
      ∧ after.config = machine.config := by
  have shape : False → program.wellShaped = true := False.elim
  have inside := ip_lt_size accepted at_
  have current : machine.frames ≠ [] := by
    obtain ⟨_, _, _, _, _, -, framed⟩ := at_
    intro none
    rw [none] at framed
    cases framed
  cases dispatches_of_advance accepted shape addressable at_ advanced with
  | reads extended extensions => exact ⟨reserve_later current inside (Nat.lt_succ_self _), rfl⟩
  | moves stands here operand moves goes =>
    cases moves with
    | stays passes frames still config =>
      refine ⟨?_, config⟩
      have forward := passes_forward accepted free stands passes
        (goes.imp_left fun next => ⟨next.1, by rw [next.2, here, Command.width, Nat.add_assoc]⟩)
      rw [frames] at current
      rw [Machine.ip_goto, Machine.frames_goto, still, reserve_blocks, frames]
      refine reserve_later current inside ?_
      rw [here]
      unfold Command.width at forward
      omega
    | calls opcode room frames address mark saved config =>
      refine ⟨?_, config⟩
      rw [Machine.frames_goto, frames]
      exact reserve_call current inside (Nat.lt_of_lt_of_le room bound) address
    | returns opcode frames back config =>
      refine ⟨?_, config⟩
      obtain ⟨none, -⟩ | goto := goes
      · cases none
      · cases goto
        rw [Machine.ip_goto, Machine.frames_goto, back, frames]
        exact reserve_return inside
    | halts =>
      obtain ⟨none, -⟩ | goto := goes
      · cases none
      · cases goto

/-- A run of a program without loops is no longer than its reserve. -/
theorem run_within_reserve {machine : Machine} {depth : Nat}
    (at_ : (Placed False program).At (image program) machine)
    (bound : machine.config.maxCallDepth ≤ depth) (fuel : Nat)
    (enough : reserve compiled.code.size depth machine.registers.ip machine.frames < fuel)
    (after : Machine) : machine.run compiled fuel ≠ .running after := by
  have shape : False → program.wellShaped = true := False.elim
  induction fuel generalizing machine with
  | zero => exact absurd enough (Nat.not_lt_zero _)
  | succ fuel ih =>
    unfold Machine.run
    cases advanced : machine.advance compiled with
    | finished value final => simp
    | failed line fault final => simp
    | running next =>
      obtain ⟨less, config⟩ := reserve_advance accepted free addressable at_ bound advanced
      exact ih (at_advance accepted shape addressable at_ advanced) (config ▸ bound) (by omega)

/-- Every run of an accepted program without loops ends, with a result or a fault, after a number of
dispatches that depends on the size of the code and the greatest number of frames only. No dispatch has
to follow parents without end, as long as no slot of a scope was freed so often that its generations
begin anew. -/
theorem run_terminates (config : Config) (input : List UInt8) :
    ∃ fuel ≤ (compiled.code.size + 1) ^ max 1 config.maxCallDepth,
      (∃ result final, (Machine.boot config input compiled.pools).run compiled fuel
          = .finished result final)
        ∨ ∃ line fault final, (Machine.boot config input compiled.pools).run compiled fuel
            = .failed line fault final
          ∧ ((∀ index, (Machine.boot config input compiled.pools).scopeReuses compiled index fuel
              < 2 ^ 32) → fault ≠ .staleHandle .endless) := by
  obtain ⟨pools, -, -, valid⟩ := program.compile_ok accepted
  have shape : False → program.wellShaped = true := False.elim
  have start := placed_boot shape valid config input
  rw [← pools] at start
  have enough : reserve compiled.code.size (max 1 config.maxCallDepth) 0
      (Machine.boot config input compiled.pools).frames
      < (compiled.code.size + 1) ^ max 1 config.maxCallDepth := by
    obtain ⟨depth, equal⟩ := Nat.exists_eq_add_of_le (Nat.le_max_left 1 config.maxCallDepth)
    rw [equal, Nat.add_comm 1 depth]
    show (compiled.code.size - 0) * _ ^ (depth + 1 - (0 + 1)) + 0 < _
    rw [Nat.pow_succ, Nat.mul_comm (_ ^ depth)]
    exact Nat.mul_lt_mul_of_pos_right (by omega) (Nat.pow_pos (Nat.succ_pos _))
  have ends := run_within_reserve accepted free addressable start (Nat.le_max_right 1 _) _ enough
  refine ⟨_, Nat.le_refl _, ?_⟩
  cases result : (Machine.boot config input compiled.pools).run compiled
      ((compiled.code.size + 1) ^ max 1 config.maxCallDepth) with
  | running machine => exact absurd result (ends machine)
  | finished value final => exact .inl ⟨value, final, rfl⟩
  | failed line fault final =>
    refine .inr ⟨line, fault, final, rfl, fun few endless => ?_⟩
    exact Machine.run_ne_endless compiled config input _ few line final (endless ▸ result)

end

/-- A method that does nothing but call itself. -/
def regress : Program where
  main := [.statement (.define (.name "again") []),
    .block [.statement (.call none "again" [])],
    .statement (.call none "again" [])]

theorem regress_terminates :
    regress.loopFree = true
      ∧ ∃ compiled, regress.compile = .ok compiled ∧ Addressable regress compiled
        ∧ ∀ (config : Config) (input : List UInt8),
          ∃ fuel ≤ (compiled.code.size + 1) ^ max 1 config.maxCallDepth,
            (∃ result final, (Machine.boot config input compiled.pools).run compiled fuel
                = .finished result final)
              ∨ ∃ line fault final, (Machine.boot config input compiled.pools).run compiled fuel
                  = .failed line fault final
                ∧ ((∀ index, (Machine.boot config input compiled.pools).scopeReuses compiled index fuel
                    < 2 ^ 32) → fault ≠ .staleHandle .endless) := by
  have free : regress.loopFree = true := by decide
  have accepts : ∃ compiled, regress.compile = .ok compiled := ⟨_, by cbv⟩
  obtain ⟨compiled, accepted⟩ := accepts
  obtain ⟨pools, -, -, -⟩ := regress.compile_ok accepted
  have code : size (image regress) = 25 := by cbv
  have names : (Pools.ofProgram regress).names.size = 1 := by cbv
  have constants : (Pools.ofProgram regress).constants.size = 3 := by cbv
  have addressable : Addressable regress compiled := by
    refine ⟨by decide, ?_, ?_, ?_⟩
    · rw [size_image accepted, code]
      decide
    · rw [pools, names]
      decide
    · rw [pools, constants]
      decide
  exact ⟨free, compiled, accepted, addressable, run_terminates accepted free addressable⟩

/-! ## Parents in a circle -/

/-- The names of the methods of the ladder, from the lowest one on, and of the one that comes last. -/
def rungName : Nat → String
  | 0 => "f0"
  | 1 => "f1"
  | 2 => "f2"
  | 3 => "f3"
  | 4 => "f4"
  | 5 => "f5"
  | _ => "lost"

/-- When the lowest method runs for the first time, it puts itself under a global name. Every other one
calls the method below it 64 times. The last one becomes what stands under the global name, and opens
blocks down to the depth at which the lowest method runs. -/
def rungBody : Nat → Block
  | 0 => [.statement (.ifClause (.name "c")),
    .block [.statement (.assign (.name "g") (.name "self")),
      .statement (.assign (.name "c") (.boolean false))],
    .statement (.giveBack (some (.integer 1)))]
  | 6 => [.statement (.assign (.name "self") (.name "g")), .block [],
    .block [.block [.block [.block [.block [.statement (.name "x")]]]]]]
  | level + 1 => .statement (.integer 1)
    :: (List.replicate 64 (.statement (.call none (rungName level) []))
      ++ [Entry.statement (.giveBack (some (.integer 1)))])

/-- The definitions of the methods from a level on. -/
def rungs : Nat → Nat → Block
  | _, 0 => []
  | level, count + 1 =>
    .statement (.define (.name (rungName level)) []) :: .block (rungBody level)
      :: rungs (level + 1) count

/-- Blocks inside each other that have a temporary each. -/
def nest : Nat → Block
  | 0 => []
  | depth + 1 => [.statement (.binary .add (.integer 1) (.integer 1)), .block (nest depth)]

/-- The lowest method runs 4 * 64 ^ 5 = 2 ^ 32 times, each time with a scope in the same slot. -/
def ladder : Program where
  main := .statement (.assign (.name "c") (.boolean true))
    :: .statement (.assign (.name "g") (.integer 1))
    :: (rungs 0 7 ++ Entry.block (nest 6) :: .statement (.integer 1)
      :: (List.replicate 4 (.statement (.call none "f5" []))
      ++ [Entry.statement (.call none "lost" [])]))

/-- What the ladder speaks of, in the order in which it does. -/
def ladderPools : Pools :=
  .ofProgram ⟨[.statement (.assign (.name "c") (.boolean true)),
    .statement (.assign (.name "g") (.integer 1)),
    .statement (.define (.name "f0") []), .block (rungBody 0),
    .statement (.call none "f1"
      [.name "f2", .name "f3", .name "f4", .name "f5", .name "lost", .name "x"])]⟩

/-- The machine in front of the ladder. -/
def ladderStart : Machine where
  config := {}
  heap :=
    { bindings :=
        { slots := #[
            .occupied 0 { tag := .object, scope := some ⟨0, 0⟩, constant := true },
            .occupied 0 { name := some "Nothing", constant := true },
            .occupied 0 { name := some "Array", tag := .array, scope := some ⟨1, 0⟩ },
            .occupied 0
              { name := some "Object", tag := .object, scope := some ⟨2, 0⟩, constant := true },
            .occupied 0
              { name := some "Something", tag := .something, scope := some ⟨3, 0⟩, constant := true },
            .occupied 0 { tag := .boolean, payload := .boolean true, constant := true },
            .occupied 0 { tag := .integer, payload := .integer 1, constant := true },
            .occupied 0 { tag := .boolean, payload := .boolean false, constant := true }]
          size := 8 }
      scopes :=
        { slots := #[
            .occupied 0 { own := #[⟨2, 0⟩], durable := true }, .occupied 0 { durable := true },
            .occupied 0 { durable := true }, .occupied 0 { durable := true }]
          size := 4 } }
  stack := []
  frames := [{ caller := ⟨1, 0⟩, receiver := ⟨0, 0⟩ }]
  registers := { caller := ⟨1, 0⟩, receiver := ⟨0, 0⟩, localScope := ⟨0, 0⟩ }
  constants := #[⟨3, 0⟩, ⟨4, 0⟩, ⟨1, 0⟩, ⟨5, 0⟩, ⟨6, 0⟩, ⟨7, 0⟩]
  interned :=
    ((Std.HashMap.emptyWithCapacity.insert (.boolean true) ⟨5, 0⟩).insert (.integer 1) ⟨6, 0⟩).insert
      (.boolean false) ⟨7, 0⟩
  programScope := ⟨0, 0⟩
  nothing := ⟨1, 0⟩
  console := {}
  reports := #[]
  line := 0

private theorem ladder_start : Machine.boot {} [] ladderPools = ladderStart := by cbv

private theorem ladder_pools : Pools.ofProgram ladder = ladderPools := by cbv

private theorem context_ladder (label : Nat → Nat) (fuel : Nat) :
    (ladder.context label fuel).pools = ladderPools := by
  rw [← ladder_pools, Program.context]

private theorem ladder_constants :
    (ladderPools.constants.index? (.primitive (.boolean true)),
      ladderPools.constants.index? (.primitive (.integer 1)),
      ladderPools.constants.index? (.primitive (.boolean false))) = (some 3, some 4, some 5) := by
  cbv

section

variable (body : Nat → Nat)

/-- The slots of the methods below a level, each under its name and as it was made. -/
def rungSlots (count : Nat) : List (Slot Binding) :=
  (List.range count).flatMap fun level =>
    let method : Binding := { tag := .method, scope := some ⟨4 + level, 0⟩, body := body level + 1 }
    [.occupied 0 { method with name := some (rungName level) }, .occupied 0 method]

/-- The machine when the methods below a level have been defined. -/
def ladderDefined (count : Nat) : Machine :=
  { ladderStart with
    heap :=
      { bindings :=
          { slots := ladderStart.heap.bindings.slots
              ++ (.occupied 0 { name := some "c", tag := .boolean, payload := .boolean true }
              :: .occupied 0 { name := some "g", tag := .integer, payload := .integer 1 }
              :: rungSlots body count).toArray
            size := 10 + 2 * count }
        scopes :=
          { slots :=
              (.occupied 0
                { own := #[⟨2, 0⟩, ⟨8, 0⟩, ⟨9, 0⟩]
                    ++ ((List.range count).map fun level => ⟨10 + 2 * level, 0⟩).toArray
                  durable := true }
              :: List.replicate (3 + count) (.occupied 0 { durable := true })).toArray
            size := 4 + count } }
    registers :=
      { ladderStart.registers with
        lastResult := some ⟨if count = 0 then 9 else 8 + 2 * count, 0⟩ } }

/-- What stands under the global name when the lowest method has first run in a scope of a
generation. -/
def ladderHeld (first : Option UInt32) : Binding where
  name := some "g"
  tag := match first with | none => .integer | some _ => .method
  scope := match first with | none => none | some generation => some ⟨16, generation⟩
  body := match first with | none => 0 | some _ => body 0 + 1
  payload := match first with | none => .integer 1 | some _ => .absent

variable (depth : Nat) (first : Option UInt32) (spent : Nat → UInt32)

/-- The machine with a number of calls open. Every depth has its slots, for the copy of the method and
for its scope, with the same generation. -/
def ladderAt : Machine :=
  let copies := (List.range 6).map fun index =>
    let level := 5 - index
    if index < depth then
      .occupied (spent index)
        { name := some (rungName level), tag := .method, scope := some ⟨11 + index, spent index⟩
          body := body level + 1 }
    else .vacant (spent index) (if index < 5 then some (25 + index) else none)
  let scopes := (List.range 6).map fun index =>
    if index < depth then .occupied (spent index) { durable := true }
    else .vacant (spent index) (some (12 + index))
  { ladderStart with
    heap :=
      { bindings :=
          { slots := ladderStart.heap.bindings.slots
              ++ (.occupied 0 { name := some "c", tag := .boolean, payload := .boolean first.isNone }
              :: .occupied 0 (ladderHeld body first) :: (rungSlots body 7 ++ copies)).toArray
            freeHead := if depth < 6 then some (24 + depth) else none
            size := 24 + depth }
        scopes :=
          { slots :=
              (.occupied 0
                { own := #[⟨2, 0⟩, ⟨8, 0⟩, ⟨9, 0⟩, ⟨10, 0⟩, ⟨12, 0⟩, ⟨14, 0⟩, ⟨16, 0⟩, ⟨18, 0⟩,
                    ⟨20, 0⟩, ⟨22, 0⟩]
                  durable := true }
              :: (List.replicate 10 (.occupied 0 { durable := true }) ++ scopes
              ++ [.vacant (match first with | none => 1 | some _ => 2) none])).toArray
            freeHead := some (11 + depth)
            size := 11 + depth } }
    frames := (List.range depth).reverse.map (fun index =>
        { returnAddress := 1, caller := ⟨1, 0⟩, receiver := ⟨24 + index, spent index⟩
          methodScope := some ⟨11 + index, spent index⟩, savedResult := some ⟨6, 0⟩ })
      ++ ladderStart.frames
    registers :=
      match depth with
      | 0 => { ladderStart.registers with lastResult := some ⟨6, 0⟩ }
      | top + 1 =>
        { ladderStart.registers with
          receiver := ⟨24 + top, spent top⟩, localScope := ⟨11 + top, spent top⟩
          lastResult := some ⟨6, 0⟩ } }

/-- The machine at the start of the innermost call. -/
def ladderEntered : Machine :=
  let machine := ladderAt body depth first spent
  { machine with registers := { machine.registers with lastResult := none } }

/-- The machine with what a call has given back. -/
def ladderReturned : Machine :=
  { ladderAt body depth first spent with stack := [.binding ⟨6, 0⟩] }

/-- The machine at the start of the last method. -/
def ladderLost : Machine :=
  let machine := ladderEntered body 1 first spent
  let copy : Binding :=
    { name := some "lost", tag := .method, scope := some ⟨11, spent 0⟩, body := body 6 + 1 }
  { machine with
    heap :=
      { machine.heap with
        bindings :=
          { machine.heap.bindings with
            slots := machine.heap.bindings.slots.set! 24 (.occupied (spent 0) copy) } } }

end

/-- The slots of a depth are freed. -/
def freedOnce (depth : Nat) (spent : Nat → UInt32) : Nat → UInt32 :=
  fun index => if index = depth then spent index + 1 else spent index

/-- Methods are called at a depth a number of times, and each of them calls those below it. -/
def freedBy (depth count : Nat) (spent : Nat → UInt32) : Nat → UInt32 :=
  fun index =>
    if depth ≤ index ∧ index < 6 then spent index + .ofNat (count * 64 ^ (index - depth))
    else spent index

section

variable (spent : Nat → UInt32)

private theorem freedBy_zero (depth : Nat) : freedBy depth 0 spent = spent := by
  funext index
  simp [freedBy]

private theorem freedBy_add (depth first second : Nat) :
    freedBy depth second (freedBy depth first spent) = freedBy depth (first + second) spent := by
  funext index
  unfold freedBy
  split
  · rw [Nat.add_mul, UInt32.ofNat_add, UInt32.add_assoc]
  · rfl

private theorem freedOnce_freedBy {depth : Nat} (inside : depth < 6) :
    freedOnce depth (freedBy (depth + 1) 64 spent) = freedBy depth 1 spent := by
  funext index
  unfold freedOnce freedBy
  obtain above | rfl | below := Nat.lt_trichotomy index depth
  · have other : index ≠ depth := by omega
    have outside : ¬ depth + 1 ≤ index := by omega
    have beyond : ¬ depth ≤ index := by omega
    simp [other, outside, beyond]
  · simp [inside]
  · have power : 64 * 64 ^ (index - (depth + 1)) = 1 * 64 ^ (index - depth) := by
      obtain ⟨more, rfl⟩ := Nat.exists_eq_add_of_lt below
      have left : depth + more + 1 - (depth + 1) = more := by omega
      have right : depth + more + 1 - depth = more + 1 := by omega
      rw [left, right, Nat.pow_succ, Nat.mul_comm, Nat.one_mul]
    have other : index ≠ depth := by omega
    have within : depth + 1 ≤ index := by omega
    have from_ : depth ≤ index := by omega
    simp only [other, within, from_, power, if_false, true_and]

end

section

open Activity

variable {context : Context} (line : Option Nat) (usage : Usage)

private theorem operation_assign (target source : Operation) :
    context.operation line usage (.assign target source)
      = (context.operation line .target target).andThen
        ((context.operation line .value source).andThen (perform line Action.assign)) :=
  rfl

private theorem operation_giveBack (value : Operation) :
    context.operation line usage (.giveBack (some value))
      = (context.operation line .value value).andThen (leave line true) := by
  show ((context.operation line .value value).andThen skip).andThen (leave line true) = _
  rw [andThen_skip]

private theorem operation_add (left right : Operation) :
    context.operation line usage (.binary .add left right)
      = (context.operation line .value left).andThen
        ((context.operation line .value right).andThen
        (perform line (Action.binary (Operator.arithmetic .add)))) := by
  show ((context.operation line .value left).andThen
    ((context.operation line .value right).andThen skip)).andThen _ = _
  rw [andThen_skip, andThen_assoc]
  rfl

private theorem operation_bare (name : String) :
    context.operation line usage (.call none name [])
      = (Context.bareMethod line name).andThen
        ((Context.copyMethod line name).andThen (call context.methods line 0)) :=
  rfl

private theorem operation_unknown :
    context.operation line .value (.name "x")
      = (perform line (Action.pushName "x")).andThen (perform line Action.checkTop) :=
  rfl

private theorem definition_define (label : Nat) (name : String) :
    context.definition line label (.define (.name name) [])
      = (context.operation line .target (.name name)).andThen
        ((perform line (Action.pushMethod [])).andThen
        ((perform line (Action.bindBody label)).andThen
        ((perform line Action.assign).andThen (perform line Action.endStatement)))) :=
  rfl

variable (pools : context.pools = ladderPools)

include pools

private theorem operation_one :
    context.operation line usage (.integer 1) = perform line (Action.pushConstant 4) := by
  have index := ladder_constants
  simp only [Prod.mk.injEq] at index
  show perform line (Action.pushConstant
    ((context.pools.constants.index? (.primitive (.integer 1))).getD 0)) = _
  rw [pools, index.2.1]
  rfl

private theorem operation_boolean (value : Bool) :
    context.operation line usage (.boolean value)
      = perform line (Action.pushConstant (if value then 3 else 5)) := by
  have index := ladder_constants
  simp only [Prod.mk.injEq] at index
  show perform line (Action.pushConstant
    ((context.pools.constants.index? (.primitive (.boolean value))).getD 0)) = _
  rw [pools]
  cases value with
  | false =>
    rw [index.2.2]
    rfl
  | true =>
    rw [index.1]
    rfl

end

section

open Activity

variable {context : Context} (body : Nat → Nat) (depth : Nat) (first : Option UInt32)
  (spent : Nat → UInt32)

/-- The last method up to the name that it looks for. -/
def ladderOpens (context : Context) : Activity :=
  (context.operation (some 0) .value (.assign (.name "self") (.name "g"))).andThen
    ((perform (some 0) Action.endStatement).andThen
    ((perform (some 0) Action.enterLocal).andThen
    ((perform (some 0) Action.leaveLocal).andThen
    ((perform (some 0) Action.enterLocal).andThen
    ((perform (some 0) Action.enterLocal).andThen
    ((perform (some 0) Action.enterLocal).andThen
    ((perform (some 0) Action.enterLocal).andThen (perform (some 0) Action.enterLocal))))))))

/-- A call copies the method below into the slots of the next depth. -/
theorem ladder_calls (inside : depth < 6) :
    context.operation (some 0) .value (.call none (rungName (5 - depth)) [])
        (ladderAt body depth first spent)
      = resume (context.methods (body (5 - depth) + 1))
        (ladderEntered body (depth + 1) first spent) := by
  rw [operation_bare]
  interval_cases depth <;> cbv

private theorem ladder_calls_lost :
    context.operation (some 0) .value (.call none "lost" []) (ladderAt body 0 first spent)
      = resume (context.methods (body 6 + 1)) (ladderLost body first spent) := by
  rw [operation_bare]
  cbv

private theorem ladder_takes :
    perform (some 0) Action.endStatement (ladderReturned body depth first spent)
      = .done (ladderAt body depth first spent) := by
  cases depth <;> rfl

private theorem ladder_defines {level : Nat} (inside : level < 7) :
    context.definition (some 0) (body level + 1) (.define (.name (rungName level)) [])
        (ladderDefined body level)
      = .done (ladderDefined body (level + 1)) := by
  rw [definition_define]
  interval_cases level <;> cbv

/-- The innermost block of the last method is in the slot of the lowest one, and its parents lead back
to it. -/
theorem ladder_searches :
    (match ladderOpens context (ladderLost body (some (spent 5)) spent) with
    | .done machine =>
      match Action.pushName "x" (machine.onLine (some 0)) with
      | .error fault _ => some fault
      | .ok _ _ => none
    | _ => none) = some (.staleHandle .endless) := by
  rw [ladderOpens, operation_assign]
  cbv

private theorem ladder_circles {generation : UInt32} (same : generation = spent 5) (place : Place) :
    ∃ line machine, context.entries (rungBody 6) place false (ladderLost body (some generation) spent)
      = .failed line (.staleHandle .endless) machine := by
  subst same
  have searches := @ladder_searches context body spent
  split at searches
  case h_2 => cases searches
  case h_1 machine reached =>
    split at searches
    case h_2 => cases searches
    case h_1 fault last failed =>
      cases searches
      have fails : perform (some 0) (Action.pushName "x") machine
          = .failed last.line (.staleHandle .endless)
            (last.addReport .fatal (Fault.staleHandle .endless).message) := by
        simp only [perform, act, failed]
      obtain ⟨rest, unfolds⟩ : ∃ rest, context.entries (rungBody 6) place false
          = (ladderOpens context).andThen
            ((perform (some 0) (Action.pushName "x")).andThen rest) := by
        simp only [rungBody, ladderOpens, Context.entries, Context.interior, inScope, andThen_assoc,
          skip_andThen, Block.leave, Entry.leave, Place.after]
        rw [operation_unknown, andThen_assoc]
        exact ⟨_, rfl⟩
      exact ⟨_, _, by rw [unfolds, andThen_of_done reached, andThen_of_failed fails]⟩

variable (pools : context.pools = ladderPools)

include pools

/-- A return frees the slots of its depth. -/
theorem ladder_returns (inside : depth < 5) :
    context.operation (some 0) .value (.giveBack (some (.integer 1)))
        (ladderAt body (depth + 1) first spent)
      = .returned (ladderReturned body depth first (freedOnce depth spent)) := by
  rw [operation_giveBack, operation_one _ _ pools]
  interval_cases depth <;> cbv

private theorem ladder_begins :
    (context.operation (some 0) .value (.integer 1)).andThen (perform (some 0) Action.endStatement)
        (ladderEntered body depth first spent)
      = .done (ladderAt body depth first spent) := by
  rw [operation_one _ _ pools]
  cases depth <;> rfl

end

/-- The number of statements up to the definition of a method. -/
def rungPosition : Nat → Nat
  | 0 => 3
  | level + 1 => 8 + 67 * level

/-- Labels of the ladder, with the numbers of the bodies that its methods have in a machine. -/
structure LadderLabels (label body : Nat → Nat) : Prop where
  labels : Labels ladder label
  named : ∀ level < 7, label (rungPosition level) = body level + 1

section

open Activity

variable {context : Context} (body : Nat → Nat) (spent : Nat → UInt32)
  (pools : context.pools = ladderPools)

include pools

private theorem ladder_ends_first (place : Place) :
    context.entries (rungBody 0) place false (ladderEntered body 6 none spent)
      = .returned (ladderReturned body 5 (some (spent 5)) (freedOnce 5 spent)) := by
  simp only [rungBody, Context.entries, Context.interior]
  rw [operation_assign, operation_assign, operation_boolean _ _ pools, operation_giveBack,
    operation_one _ _ pools]
  cbv

private theorem ladder_ends_again (generation : UInt32) (place : Place) :
    context.entries (rungBody 0) place false (ladderEntered body 6 (some generation) spent)
      = .returned (ladderReturned body 5 (some generation) (freedOnce 5 spent)) := by
  simp only [rungBody, Context.entries, Context.interior]
  rw [operation_assign, operation_assign, operation_boolean _ _ pools, operation_giveBack,
    operation_one _ _ pools]
  cbv

private theorem ladder_prepares :
    ((context.operation (some 0) .value (.assign (.name "c") (.boolean true))).andThen
      ((perform (some 0) Action.endStatement).andThen
      ((context.operation (some 0) .value (.assign (.name "g") (.integer 1))).andThen
      (perform (some 0) Action.endStatement)))) ladderStart
      = .done (ladderDefined body 0) := by
  rw [operation_assign, operation_boolean _ _ pools, operation_assign, operation_one _ _ pools]
  cbv

/-- The blocks in front of the calls make the slots of every depth. -/
theorem ladder_nests (place : Place) :
    (inScope (some 0) (some 0) (context.entries (nest 6) place false)).andThen
        ((context.operation (some 0) .value (.integer 1)).andThen
        (perform (some 0) Action.endStatement)) (ladderDefined body 7)
      = .done (ladderAt body 0 none fun _ => 1) := by
  simp only [nest, Context.entries, Context.interior, operation_add, operation_one _ _ pools]
  cbv

end

private theorem ladder_definitions : ladder.definitions
    = (List.range 7).map fun level => ⟨⟨some 0, rungPosition level⟩, rungBody level⟩ := by
  cbv

private theorem mem_ladder_definitions {level : Nat} (inside : level < 7) :
    (⟨⟨some 0, rungPosition level⟩, rungBody level⟩ : Definition) ∈ ladder.definitions := by
  rw [ladder_definitions]
  exact List.mem_map.mpr ⟨level, List.mem_range.mpr inside, rfl⟩

section

open Activity

variable {label body : Nat → Nat} (numbered : LadderLabels label body)

include numbered

private theorem entries_rungs {context : Context} (labelled : context.label = label) (rest : Block)
    {level count : Nat} (sum : level + count = 7) {place : Place} (line : place.line = some 0)
    (position : place.position + 1 = rungPosition level) :
    ∃ behind : Place, behind.line = some 0
      ∧ context.entries (rungs level count ++ rest) place false (ladderDefined body level)
        = context.entries rest behind false (ladderDefined body 7) := by
  induction count generalizing level place with
  | zero =>
    obtain rfl : level = 7 := by omega
    exact ⟨place, line, rfl⟩
  | succ count ih =>
    have inside : level < 7 := by omega
    have unfolds : context.entries (rungs level (count + 1) ++ rest) place false
        = (context.definition (some 0) (context.label (place.position + 1))
            (.define (.name (rungName level)) [])).andThen
          (context.entries (rungs (level + 1) count ++ rest)
            (Block.leave (place.after (.define (.name (rungName level)) [])) (rungBody level))
            false) := rfl
    rw [unfolds, labelled, position, numbered.named level inside,
      andThen_of_done (ladder_defines body inside)]
    by_cases last : level = 6
    · obtain rfl : count = 0 := by omega
      subst last
      exact ⟨_, rfl, rfl⟩
    · have more : level < 6 := by omega
      refine ih (by omega) ?_ ?_
      · clear * - more
        interval_cases level <;> rfl
      · clear * - more position
        obtain ⟨_, _⟩ := place
        interval_cases level <;> (simp only [rungPosition] at position; cases position; rfl)

private theorem ladder_methods {level : Nat} (inside : level < 7) (fuel : Nat) :
    ladder.methods label (fuel + 1) (body level + 1)
      = (ladder.context label fuel).body ⟨⟨some 0, rungPosition level⟩, rungBody level⟩ := by
  rw [← numbered.named level inside]
  exact Program.methods_label numbered.labels (mem_ladder_definitions inside) fuel

/-- When a method comes back, the slots of its depth have been freed once, and those of each depth below
64 times as often as those above them. -/
theorem ladder_method_returns {level depth : Nat} (sum : depth + level = 5) {fuel : Nat}
    (deep : level < fuel) (first : Option UInt32) (spent : Nat → UInt32) :
    ladder.methods label fuel (body level + 1) (ladderEntered body (depth + 1) first spent)
      = .returned (ladderReturned body depth (some (first.getD (spent 5))) (freedBy depth 1 spent)) := by
  obtain ⟨fuel, rfl⟩ := Nat.exists_eq_succ_of_ne_zero (Nat.ne_zero_of_lt deep)
  have pools : (ladder.context label fuel).pools = ladderPools := context_ladder label fuel
  induction level generalizing depth fuel first spent with
  | zero =>
    obtain rfl : depth = 5 := by omega
    have lowest : freedBy (5 + 1) 64 spent = spent := by
      funext index
      simp [freedBy]
    have once : freedOnce 5 spent = freedBy 5 1 spent := by
      rw [← freedOnce_freedBy spent (by decide), lowest]
    rw [ladder_methods numbered (by decide), Context.body]
    refine andThen_of_returned ?_ _
    cases first with
    | none => rw [ladder_ends_first body spent pools, once, Option.getD_none]
    | some generation => rw [ladder_ends_again body spent pools, once, Option.getD_some]
  | succ level ih =>
    obtain rfl : level = 5 - (depth + 1) := by omega
    obtain ⟨less, rfl⟩ : ∃ less, fuel = less + 1 := ⟨fuel - 1, by omega⟩
    have shape : rungBody (5 - (depth + 1) + 1) = .statement (.integer 1)
        :: (List.replicate 64 (.statement (.call none (rungName (5 - (depth + 1))) []))
          ++ [Entry.statement (.giveBack (some (.integer 1)))]) := by
      have shallow : depth < 5 := by omega
      clear * - shallow
      interval_cases depth <;> rfl
    -- The first of the calls settles what stands under the global name.
    let held : Nat → Option UInt32
      | 0 => first
      | _ + 1 => some (first.getD (spent 5))
    have round (index : Nat) : ((ladder.context label (less + 1)).operation (some 0) .value
          (.call none (rungName (5 - (depth + 1))) [])).andThen (perform (some 0) Action.endStatement)
          (ladderAt body (depth + 1) (held index) (freedBy (depth + 1) index spent))
        = .done (ladderAt body (depth + 1) (held (index + 1))
          (freedBy (depth + 1) (index + 1) spent)) := by
      have called := @ladder_calls (ladder.context label (less + 1)) body (depth + 1)
        (held index) (freedBy (depth + 1) index spent) (by omega)
      have comes := resume_of_returned (@ih (depth + 1) (by omega) (held index)
        (freedBy (depth + 1) index spent) less (by omega) (context_ladder label less))
      have settled : some ((held index).getD (freedBy (depth + 1) index spent 5))
          = held (index + 1) := by
        cases index with
        | zero => rw [freedBy_zero]
        | succ index => rfl
      rw [freedBy_add, settled] at comes
      rw [andThen_of_done (called.trans comes), ladder_takes]
    have begins : ((ladder.context label (less + 1)).operation (some (Operation.integer 1).line) .value
          (.integer 1)).andThen (perform (some (Operation.integer 1).line) Action.endStatement)
          (ladderEntered body (depth + 1) first spent)
        = .done (ladderAt body (depth + 1) first spent) :=
      ladder_begins body (depth + 1) first spent pools
    rw [ladder_methods numbered (by omega), Context.body]
    refine andThen_of_returned ?_ _
    obtain ⟨behind, repeated⟩ := (ladder.context label (less + 1)).entries_replicate
      (.call none (rungName (5 - (depth + 1))) []) rfl 64
      [.statement (.giveBack (some (.integer 1)))] rfl (fun index _ => round index)
      (Place.after ⟨some 0, rungPosition (5 - (depth + 1) + 1)⟩ (.integer 1))
    rw [freedBy_zero] at repeated
    rw [shape, Context.entries_apart _ _ rfl, ← andThen_assoc, andThen_of_done begins]
    refine repeated.trans ?_
    have returns := ladder_returns body depth (held 64) (freedBy (depth + 1) 64 spent) pools (by omega)
    rw [freedOnce_freedBy spent (by omega)] at returns
    rw [Context.entries_apart _ _ rfl]
    exact andThen_of_returned returns _

/-- The ladder is executed up to the name that is looked for along parents in a circle. -/
theorem ladder_endless : ∃ line machine,
    ladder.execute label 7 (Machine.boot {} [] ladderPools)
      = .failed line (.staleHandle .endless) machine := by
  let context := ladder.context label 7
  have pools : context.pools = ladderPools := context_ladder label 7
  let calls : Block := List.replicate 4 (.statement (.call none "f5" []))
    ++ [Entry.statement (.call none "lost" [])]
  obtain ⟨behind, line, defined⟩ := @entries_rungs label body numbered context rfl
    (.block (nest 6) :: .statement (.integer 1) :: calls) 0 7 rfl ⟨some 0, 2⟩ rfl rfl
  let held : Nat → Option UInt32
    | 0 => none
    | _ + 1 => some 1
  have round (index : Nat) : (context.operation (some 0) .value (.call none "f5" [])).andThen
        (perform (some 0) Action.endStatement)
        (ladderAt body 0 (held index) (freedBy 0 index fun _ => 1))
      = .done (ladderAt body 0 (held (index + 1)) (freedBy 0 (index + 1) fun _ => 1)) := by
    have called := @ladder_calls context body 0 (held index)
      (freedBy 0 index fun _ => 1) (by decide)
    have comes := resume_of_returned (@ladder_method_returns label body numbered 5 0 rfl 7
      (by decide) (held index) (freedBy 0 index fun _ => 1))
    have settled : some ((held index).getD (freedBy 0 index (fun _ => 1) 5)) = held (index + 1) := by
      cases index with
      | zero => rw [freedBy_zero]; rfl
      | succ index => rfl
    rw [freedBy_add, settled] at comes
    have returns := called.trans comes
    exact (andThen_of_done returns _).trans (ladder_takes body 0 _ _)
  obtain ⟨last, repeated⟩ := context.entries_replicate (.call none "f5" []) rfl 4
    [.statement (.call none "lost" [])] rfl (fun index _ => round index)
    (Place.after (Block.leave behind (nest 6)) (.integer 1))
  rw [freedBy_zero] at repeated
  obtain ⟨fault, machine, circles⟩ := @ladder_circles (ladder.context label 6) body
    (freedBy 0 4 fun _ => 1) 1 rfl ⟨some 0, rungPosition 6⟩
  have lost : context.operation (some 0) .value (.call none "lost" [])
      (ladderAt body 0 (some 1) (freedBy 0 4 fun _ => 1))
      = .failed fault (.staleHandle .endless) machine := by
    refine (ladder_calls_lost body (some 1) (freedBy 0 4 fun _ => 1)).trans (resume_of_failed ?_)
    show ladder.methods label 7 (body 6 + 1) _ = _
    rw [ladder_methods numbered (by decide), Context.body]
    exact andThen_of_failed circles _
  have opens : context.entries (.block (nest 6) :: .statement (.integer 1) :: calls) behind false
      = ((inScope (some 0) (some 0) (context.entries (nest 6) behind false)).andThen
          ((context.operation (some 0) .value (.integer 1)).andThen
          (perform (some 0) Action.endStatement))).andThen
        (context.entries calls (Place.after (Block.leave behind (nest 6)) (.integer 1)) false) := by
    have block : context.entries (.block (nest 6) :: .statement (.integer 1) :: calls) behind false
        = (inScope behind.line (some 0) (context.entries (nest 6) behind false)).andThen
          (context.entries (.statement (.integer 1) :: calls) (Block.leave behind (nest 6)) false) :=
      rfl
    rw [block, line, Context.entries_apart _ _ rfl, andThen_assoc, andThen_assoc]
    rfl
  have prepares : context.entries ladder.main {} false
      = ((context.operation (some 0) .value (.assign (.name "c") (.boolean true))).andThen
          ((perform (some 0) Action.endStatement).andThen
          ((context.operation (some 0) .value (.assign (.name "g") (.integer 1))).andThen
          (perform (some 0) Action.endStatement)))).andThen
        (context.entries (rungs 0 7 ++ Entry.block (nest 6) :: .statement (.integer 1) :: calls)
          ⟨some 0, 2⟩ false) := by
    rw [andThen_assoc, andThen_assoc, andThen_assoc]
    rfl
  have fails : context.entries ladder.main {} false ladderStart
      = .failed fault (.staleHandle .endless) machine := by
    rw [prepares, andThen_of_done (ladder_prepares body pools), defined, opens,
      andThen_of_done (ladder_nests body pools behind)]
    refine repeated.trans ?_
    rw [Context.entries_apart _ _ rfl]
    exact andThen_of_failed lost _
  refine ⟨fault, machine, ?_⟩
  rw [ladder_start, Program.execute, Context.body, andThen_of_failed fails]

end

set_option maxRecDepth 10000 in
private theorem ladder_valid : (Assembly.program ladder).valid ∧ size (image ladder) ≤ UInt64.size := by
  cbv

private theorem accepted_ladder : ∃ compiled, ladder.compile = .ok compiled := by
  have plain : Block.Each (fun _ operation _ => operation.kind.continuesIfChain = false) []
      ladder.main := by cbv
  exact Program.accepted_of_valid ladder_valid.1 (plain.mono fun {_ operation _} none continues =>
    absurd (none.symm.trans continues) Bool.false_ne_true)

private theorem addressable_ladder {compiled : Compiled} (accepted : ladder.compile = .ok compiled) :
    Addressable ladder compiled := by
  have nodes : ladder.nodes ≤ UInt64.size := by cbv
  have names : ladderPools.names.size ≤ UInt64.size := by cbv
  have constants : ladderPools.constants.size ≤ UInt64.size := by cbv
  rw [← ladder_pools] at names constants
  exact addressable_of_image accepted nodes ladder_valid.2 names constants

/-- Where a slot has been freed so often that its generations began anew, a search can go on
forever. -/
theorem ladder_runs_on :
    ¬ ∀ (program : Program) (compiled : Compiled), program.compile = .ok compiled →
      program.loopFree = true → Addressable program compiled →
      ∀ (config : Config) (input : List UInt8), ∃ fuel,
        (∃ result final, (Machine.boot config input compiled.pools).run compiled fuel
            = .finished result final)
          ∨ ∃ line fault final, (Machine.boot config input compiled.pools).run compiled fuel
              = .failed line fault final
            ∧ fault ≠ .staleHandle .endless := by
  intro ends
  obtain ⟨compiled, accepted⟩ := accepted_ladder
  have addressable := addressable_ladder accepted
  have shape : ladder.wellShaped = true := by cbv
  have free : ladder.loopFree = true := by cbv
  obtain ⟨pools, -, -, -⟩ := ladder.compile_ok accepted
  obtain ⟨label, labels, preserved⟩ := run_preserves accepted shape addressable
  have numbered : LadderLabels label fun level => label (rungPosition level) - 1 := by
    refine ⟨labels, fun level inside => ?_⟩
    have bound : label (rungPosition level) ≠ 0 := labels.bound _ (mem_ladder_definitions inside)
    omega
  obtain ⟨line, machine, circles⟩ := ladder_endless numbered
  rw [← ladder_pools, ← pools] at circles
  obtain ⟨steps, comes⟩ := (preserved {} [] (machine.ending (.error (line, .staleHandle .endless)))).mp
    ⟨7, by rw [circles]; rfl⟩
  have sooner (fuel : Nat) := ending_run comes (Nat.le_max_left steps fuel)
  obtain ⟨fuel, ⟨result, final, finished⟩ | ⟨_, fault, final, failed, other⟩⟩ :=
    ends ladder compiled accepted free addressable {} []
  · have later := ending_run (congrArg Progress.ending? finished) (Nat.le_max_right steps fuel)
    cases (sooner fuel).symm.trans later
  · have later := ending_run (congrArg Progress.ending? failed) (Nat.le_max_right steps fuel)
    cases congrArg (Option.map Ending.verdict) ((sooner fuel).symm.trans later)
    exact other rfl

end ScopeMachine
