import ScopeMachine.Proofs.Machine.Running
import ScopeMachine.Proofs.Structured.Commands

set_option autoImplicit false

/-!
# Following an execution

A run of the code follows a structured execution: whatever the execution comes to, the run comes to
the same, from the offset where its code starts to the one where it ends. An execution that runs out
of fuel is followed for at least as many steps.
-/

namespace ScopeMachine

open Assembly Activity

variable {α : Type}

/-! ## Machines without a position -/

/-- The veil over all that only code has: the offset, the collected operand, and where calls return
to. -/
def Veil.position : Veil :=
  ⟨0, 0, 0, fun address => min address 1⟩

/-- A machine without its position. -/
def Machine.mirror (machine : Machine) : Machine :=
  Veil.position.hide machine

/-- A machine looks like another one without its position. When the line is about to be set, it does
not count. -/
def Agrees (line : Option Nat) (machine mirror : Machine) : Prop :=
  mirror.onLine line = (machine.onLine line).mirror

private theorem agrees_mirror (line : Option Nat) (machine : Machine) : Agrees line machine machine.mirror :=
  rfl

/-- A line that is known stays known. -/
def Later (before after : Option Nat) : Prop :=
  before.isSome → after.isSome

theorem Agrees.later {before after : Option Nat} {machine mirror : Machine}
    (agrees : Agrees before machine mirror) (later : Later before after) :
    Agrees after machine mirror := by
  cases before with
  | none =>
    have same : mirror = machine.mirror := agrees
    subst same
    exact agrees_mirror after machine
  | some line =>
    cases after with
    | none => exact absurd (later rfl) (by simp)
    | some next => exact congrArg (·.onLine (some next)) agrees

/-! ## Following -/

/-- A machine stands at an offset with the frames of a call: where the call returns to, and the
frames below. -/
structure Stationed (limits : Limits) (offset back : Nat) (rest : List Frame) (machine : Machine) :
    Prop where
  ip : machine.registers.ip = offset
  clear : Clear machine.registers
  sound : Sound limits machine
  frames : ∃ frame, machine.frames = frame :: rest ∧ frame.returnAddress = back

/-- An offset and the line that is known there. -/
structure Spot where
  offset : Nat
  line : Option Nat

section

variable (compiled : Compiled) (limits : Limits) (least : Nat)

/-- A run comes to what an execution comes to. Without a spot to come to, the execution must not get
done. -/
def Meets (stop : Option Spot) (back : Nat) (rest : List Frame) (progress : Progress) :
    Outcome → Prop
  | .done mirror => ∃ spot steps machine, stop = some spot
    ∧ progress.run compiled steps = .running machine
    ∧ Stationed limits spot.offset back rest machine ∧ Agrees spot.line machine mirror
  | .returned mirror => ∃ steps machine, progress.run compiled steps = .running machine
    ∧ machine.registers.ip = back ∧ Clear machine.registers ∧ Sound limits machine
    ∧ machine.frames = rest ∧ rest ≠ [] ∧ mirror = machine.mirror
  | .finished result mirror => ∃ steps machine,
    progress.run compiled steps = .finished result machine ∧ mirror = machine.mirror
  | .failed line fault mirror => ∃ steps machine,
    progress.run compiled steps = .failed line fault machine ∧ mirror = machine.mirror
  | .exhausted => ∃ steps machine, least ≤ steps ∧ progress.run compiled steps = .running machine

/-- A run from a spot follows an execution. -/
def Follows (start : Spot) (stop : Option Spot) (execution : Activity) : Prop :=
  ∀ machine mirror back rest, Stationed limits start.offset back rest machine →
    Agrees start.line machine mirror →
    Meets compiled limits least stop back rest (.running machine) (execution mirror)

end

variable {compiled : Compiled} {limits : Limits} {least : Nat}

private theorem Progress.run_run (progress : Progress) (first second : Nat) :
    progress.run compiled (first + second) = (progress.run compiled first).run compiled second := by
  cases progress with
  | running machine => exact machine.run_add compiled first second
  | finished result machine => rfl
  | failed line fault machine => rfl

theorem Meets.earlier {stop : Option Spot} {back : Nat} {rest : List Frame} {progress : Progress}
    {outcome : Outcome} {taken : Nat}
    (meets : Meets compiled limits least stop back rest (progress.run compiled taken) outcome) :
    Meets compiled limits (taken + least) stop back rest progress outcome := by
  cases outcome with
  | done mirror =>
    obtain ⟨spot, steps, machine, here, comes, facts⟩ := meets
    exact ⟨spot, taken + steps, machine, here, by rw [progress.run_run, comes], facts⟩
  | returned mirror =>
    obtain ⟨steps, machine, comes, facts⟩ := meets
    exact ⟨taken + steps, machine, by rw [progress.run_run, comes], facts⟩
  | finished result mirror =>
    obtain ⟨steps, machine, comes, facts⟩ := meets
    exact ⟨taken + steps, machine, by rw [progress.run_run, comes], facts⟩
  | failed line fault mirror =>
    obtain ⟨steps, machine, comes, facts⟩ := meets
    exact ⟨taken + steps, machine, by rw [progress.run_run, comes], facts⟩
  | exhausted =>
    obtain ⟨steps, machine, enough, comes⟩ := meets
    exact ⟨taken + steps, machine, by omega, by rw [progress.run_run, comes]⟩

theorem Meets.fewer {stop : Option Spot} {back fewer : Nat} {rest : List Frame} {progress : Progress}
    {outcome : Outcome} (meets : Meets compiled limits least stop back rest progress outcome)
    (less : fewer ≤ least) : Meets compiled limits fewer stop back rest progress outcome := by
  cases outcome with
  | exhausted =>
    obtain ⟨steps, machine, enough, comes⟩ := meets
    exact ⟨steps, machine, by omega, comes⟩
  | _ => exact meets

theorem Meets.anywhere {back : Nat} {rest : List Frame} {progress : Progress} {outcome : Outcome}
    (meets : Meets compiled limits least none back rest progress outcome) (stop : Option Spot) :
    Meets compiled limits least stop back rest progress outcome := by
  cases outcome with
  | done mirror =>
    obtain ⟨spot, -, -, here, -⟩ := meets
    cases here
  | _ => exact meets

namespace Follows

variable {start middle : Spot} {stop : Option Spot} {first second : Activity}

theorem fewer {fewer : Nat} (follows : Follows compiled limits least start stop first)
    (less : fewer ≤ least) : Follows compiled limits fewer start stop first :=
  fun machine mirror back rest stationed agrees =>
    (follows machine mirror back rest stationed agrees).fewer less

theorem anywhere (follows : Follows compiled limits least start none first) (stop : Option Spot) :
    Follows compiled limits least start stop first :=
  fun machine mirror back rest stationed agrees =>
    (follows machine mirror back rest stationed agrees).anywhere stop

theorem later {before : Option Nat} (follows : Follows compiled limits least start stop first)
    (known : Later before start.line) :
    Follows compiled limits least ⟨start.offset, before⟩ stop first :=
  fun machine mirror back rest stationed agrees =>
    follows machine mirror back rest stationed (agrees.later known)

theorem skip (start : Spot) : Follows compiled limits least start (some start) Activity.skip :=
  fun machine _ _ _ stationed agrees => ⟨start, 0, machine, rfl, rfl, stationed, agrees⟩

theorem andThen (before : Follows compiled limits least start (some middle) first)
    (after : Follows compiled limits least middle stop second) :
    Follows compiled limits least start stop (first.andThen second) := by
  intro machine mirror back rest stationed agrees
  have met := before machine mirror back rest stationed agrees
  unfold Activity.andThen
  cases result : first mirror with
  | done mirror =>
    rw [result] at met
    obtain ⟨spot, steps, machine, here, comes, there, agrees⟩ := met
    cases here
    have goes := after machine mirror back rest there agrees
    rw [← comes] at goes
    exact goes.earlier.fewer (Nat.le_add_left _ _)
  | returned mirror => rw [result] at met; exact met
  | finished value mirror => rw [result] at met; exact met
  | failed line fault mirror => rw [result] at met; exact met
  | exhausted => rw [result] at met; exact met

end Follows

/-! ## Cells -/

section

variable {code : List Cell} (encodes : Encodes compiled code) {offset : Nat} {cell : Cell}
  (stands : Stands code offset cell)

include encodes stands

theorem Reading.run {index more : Nat} {machine : Machine}
    (reading : Reading offset cell index machine.registers)
    (left : extensionCount cell.command.operand = index + more) :
    machine.run compiled (more + 1)
      = Progress.after (offset + cell.command.width)
        (Action.step compiled.pools.names cell.command.opcode cell.command.operand
          (machine.ready offset cell)) := by
  induction more generalizing index machine with
  | zero =>
    rw [← reading.advance_instruction encodes stands (by omega)]
    unfold Machine.run
    cases machine.advance compiled <;> rfl
  | succ more ih =>
    obtain ⟨ip, extended, extensions, advanced, reads⟩ :=
      reading.advance_extension encodes stands (by omega)
    have passed := ih reads (by omega)
    unfold Machine.run
    simp only [advanced]
    exact passed

/-- A run passes a whole cell. -/
theorem Stationed.run {back : Nat} {rest : List Frame} {machine : Machine}
    (stationed : Stationed limits offset back rest machine) :
    machine.run compiled cell.command.width
      = Progress.after (offset + cell.command.width)
        (Action.step compiled.pools.names cell.command.opcode cell.command.operand
          (machine.ready offset cell)) := by
  have reading := reading_start offset cell stationed.ip stationed.clear
  exact reading.run encodes stands (by omega)

/-- A run follows the execution of an action by a cell, when it follows what comes after it. -/
theorem Stationed.meets {back : Nat} {rest : List Frame} {machine mirror : Machine}
    (stationed : Stationed limits offset back rest machine) {before : Option Nat}
    (agrees : Agrees before machine mirror) (later : Later before cell.line)
    {action : Action α} {veiled : α → α} {next : α → Activity} {go : α → Transfer}
    {stop : Option Spot}
    (steps : Action.step compiled.pools.names cell.command.opcode cell.command.operand
      (machine.ready offset cell) = (action >>= fun value => pure (go value)) (machine.ready offset cell))
    (blind : action (machine.ready offset cell).mirror
      = Veil.position.result veiled (action (machine.ready offset cell)))
    (goes : ∀ value after, action (machine.ready offset cell) = .ok value after →
      SamePosition after.registers (machine.ready offset cell).registers →
      Meets compiled limits least stop back rest
        (Progress.after (offset + cell.command.width) (.ok (go value) after))
        (next (veiled value) after.mirror)) :
    Meets compiled limits (least + 1) stop back rest (.running machine)
      (act cell.line action next mirror) := by
  have passes := stationed.run encodes stands
  have looks : mirror.onLine cell.line = (machine.ready offset cell).mirror := agrees.later later
  have position := Action.keepsPosition_step compiled.pools.names cell.command.opcode
    cell.command.operand (machine.ready offset cell)
  have wide := cell.command.width_pos
  unfold act
  rw [looks, blind]
  cases result : action (machine.ready offset cell) with
  | error fault after =>
    rw [steps, Action.bind_of_error result] at passes
    exact ⟨cell.command.width, _, passes, rfl⟩
  | ok value after =>
    rw [steps, Action.bind_of_ok result] at passes position
    have met := goes value after result position
    have passes : (Progress.running machine).run compiled cell.command.width
        = Progress.after (offset + cell.command.width) (.ok (go value) after) := passes
    rw [← passes] at met
    exact met.earlier.fewer (by omega)

end

/-! ## Instructions -/

theorem Sound.ready {machine : Machine} (sound : Sound limits machine) (offset : Nat) (cell : Cell) :
    Sound limits (machine.ready offset cell) :=
  ⟨sound.bodies, sound.names, sound.constants⟩

theorem Sound.goto {machine : Machine} (sound : Sound limits machine) (target : Nat) :
    Sound limits (machine.goto target) :=
  ⟨sound.bodies, sound.names, sound.constants⟩

/-- A machine that an instruction left is stationed where it goes on. -/
theorem stationed_goto {back : Nat} {rest : List Frame} {offset : Nat} {cell : Cell}
    {machine after : Machine} {frame : Frame} (sound : Sound limits after)
    (position : SamePosition after.registers (machine.ready offset cell).registers)
    (frames : after.frames = frame :: rest) (address : frame.returnAddress = back) (target : Nat) :
    Stationed limits target back rest (after.goto target) :=
  ⟨rfl, ⟨position.2.1, position.2.2⟩, sound.goto target, frame, frames, address⟩

section

variable {program : Program} (accepted : program.compile = .ok compiled)
  (addressable : Addressable program compiled) {offset : Nat} {cell : Cell}
  (stands : Stands (image program) offset cell) {before : Option Nat} (later : Later before cell.line)

include accepted addressable stands later

/-- An instruction that keeps the frames is executed and passed. -/
theorem follows_straight (evaluate : cell.command.opcode ≠ .evaluate)
    (returns : cell.command.opcode ≠ .return) (jump : cell.command.opcode ≠ .jump)
    (branch : cell.command.opcode ≠ .jumpIfFalse) (enter : cell.command.opcode ≠ .enterLocal)
    (leave : cell.command.opcode ≠ .leaveLocal) :
    Follows compiled (Assembly.limits program) least ⟨offset, before⟩
      (some ⟨offset + cell.command.width, cell.line⟩)
      (perform cell.line
        (Action.step compiled.pools.names cell.command.opcode cell.command.operand)) := by
  have encodes := encodes_image accepted addressable
  obtain ⟨pools, -, -, -⟩ := program.compile_ok accepted
  have shape : False → program.wellShaped = true := False.elim
  have effect := (flows_image accepted shape stands).effect evaluate returns jump branch enter leave
  rw [← pools] at effect
  have inPlace : cell.command.opcode ≠ .evaluateInPlace := by
    intro same
    have valid := validOperand_image accepted stands
    simp [ValidOperand, same] at valid
  intro machine mirror back rest stationed agrees
  have blind := Action.blind_step .position compiled.pools.names cell.command.operand evaluate inPlace
    returns (machine.ready offset cell)
  refine Meets.fewer (stationed.meets encodes stands agrees later
    (congrFun (bind_pure _).symm _) blind ?_) (Nat.le_succ least)
  intro transfer after result position
  obtain ⟨frame, frames, address⟩ := stationed.frames
  obtain ⟨fault, last, fails, -⟩ | ⟨value, last, gives, rfl, sound, same, -, -⟩ :=
    effect.split (stationed.sound.ready offset cell)
  · rw [fails] at result
    cases result
  · rw [gives] at result
    cases result
    exact ⟨_, 0, _, rfl, rfl, stationed_goto sound position (same.trans frames) address _,
      agrees_mirror _ _⟩

/-- A call runs the body of its method and comes back. -/
theorem follows_call (evaluates : cell.command.opcode = .evaluate) {methods : Nat → Activity}
    (bodies : ∀ target ∈ Assembly.bodies program,
      Follows compiled (Assembly.limits program) least ⟨target, none⟩ none (methods target)) :
    Follows compiled (Assembly.limits program) (least + 1) ⟨offset, before⟩
      (some ⟨offset + cell.command.width, cell.line⟩)
      (call methods cell.line cell.command.operand) := by
  have encodes := encodes_image accepted addressable
  intro machine mirror back rest stationed agrees
  obtain ⟨frame, frames, address⟩ := stationed.frames
  have blind : BlindAt .position (offset + extensionCount cell.command.operand)
      (Action.evaluate cell.command.operand) :=
    Action.blindAt_evaluate (by simp [Veil.position]) cell.command.operand
  have steps : Action.step compiled.pools.names cell.command.opcode cell.command.operand
        (machine.ready offset cell)
      = (Action.evaluate cell.command.operand >>= fun transfer => pure transfer)
        (machine.ready offset cell) := by
    rw [bind_pure, evaluates]
    rfl
  refine stationed.meets encodes stands agrees later steps (blind _ rfl) ?_
  intro transfer after result position
  obtain ⟨fault, last, fails, -⟩ | ⟨last, gives, sound, same, -⟩ |
    ⟨body, last, opened, gives, sound, member, bound, same, -, back', -⟩ :=
    Action.evaluate_spec (.head _) cell.command.operand (stationed.sound.ready offset cell)
  · rw [fails] at result
    cases result
  · rw [gives] at result
    cases result
    exact ⟨_, 0, _, rfl, rfl, stationed_goto sound position (same.trans frames) address _,
      agrees_mirror _ _⟩
  · rw [gives] at result
    cases result
    have listed : body ∈ Assembly.bodies program := by
      cases member with
      | head => exact absurd rfl bound
      | tail _ member => exact member
    have runs := bodies body listed (after.goto body) after.mirror _ _
      (stationed_goto sound position same back' body) (agrees_mirror none after)
    show Meets _ _ _ _ _ _ (.running (after.goto body)) (resume (methods body) after.mirror)
    unfold resume
    cases outcome : methods body after.mirror with
    | done mirror =>
      rw [outcome] at runs
      obtain ⟨spot, -, -, here, -⟩ := runs
      cases here
    | returned mirror =>
      rw [outcome] at runs
      obtain ⟨steps, final, comes, ip, clear, sound, level, -, rfl⟩ := runs
      refine ⟨_, steps, final, rfl, comes, ⟨ip, clear, sound, frame, ?_, address⟩,
        agrees_mirror _ _⟩
      exact level.trans frames
    | finished result mirror => rw [outcome] at runs; exact runs
    | failed line fault mirror => rw [outcome] at runs; exact runs
    | exhausted => rw [outcome] at runs; exact runs

/-- A return leaves the current call. -/
theorem follows_leave (returns : cell.command.opcode = .return) :
    Follows compiled (Assembly.limits program) least ⟨offset, before⟩ none
      (leave cell.line (cell.command.operand ≠ 0)) := by
  have encodes := encodes_image accepted addressable
  intro machine mirror back rest stationed agrees
  obtain ⟨frame, frames, address⟩ := stationed.frames
  have blind : Shows .position Veil.position.transfer _ _ :=
    Action.shows_returnFromFrame (decide (cell.command.operand ≠ 0))
  have steps : Action.step compiled.pools.names cell.command.opcode cell.command.operand
        (machine.ready offset cell)
      = (Action.returnFromFrame (decide (cell.command.operand ≠ 0)) >>= fun transfer => pure transfer)
        (machine.ready offset cell) := by
    rw [bind_pure, returns]
    rfl
  refine Meets.fewer (stationed.meets encodes stands agrees later steps (blind _) ?_)
    (Nat.le_succ least)
  intro transfer after result position
  obtain ⟨fault, last, fails, -⟩ | ⟨left, last, -, ⟨-, value, gives, -⟩ |
    ⟨more, id, gives, sound, same, -⟩⟩ :=
    Action.returnFromFrame_spec (decide (cell.command.operand ≠ 0))
      (stationed.sound.ready offset cell) frames
  · rw [fails] at result
    cases result
  · rw [gives] at result
    cases result
    exact ⟨0, _, rfl, rfl⟩
  · rw [gives] at result
    cases result
    exact ⟨0, _, rfl, address, ⟨position.2.1, position.2.2⟩, sound.goto _, same, more, rfl⟩

theorem follows_branch (branches : cell.command.opcode = .jumpIfFalse) {stop : Option Spot}
    {yes no : Activity}
    (passes : Follows compiled (Assembly.limits program) least
      ⟨offset + cell.command.width, cell.line⟩ stop yes)
    (jumps : Follows compiled (Assembly.limits program) least ⟨cell.command.operand, cell.line⟩ stop
      no) :
    Follows compiled (Assembly.limits program) (least + 1) ⟨offset, before⟩ stop
      (branch cell.line yes no) := by
  have encodes := encodes_image accepted addressable
  intro machine mirror back rest stationed agrees
  obtain ⟨frame, frames, address⟩ := stationed.frames
  have blind : Blind .position (Action.popBinding >>= Action.truthy) :=
    .of_built (Action.built_popBinding.bind fun _ => Action.built_truthy trivial _) _
  have effect : Effect (Assembly.limits program) [.value] [] (fun _ => True)
      (Action.popBinding >>= Action.truthy) :=
    (Action.effect_popBinding (by simp) _).bind fun _ _ => Action.calm_truthy _ _
  have steps : Action.step compiled.pools.names cell.command.opcode cell.command.operand
        (machine.ready offset cell)
      = ((Action.popBinding >>= Action.truthy) >>= fun holds =>
          pure (if holds then .next else .goto cell.command.operand))
        (machine.ready offset cell) := by
    rw [bind_assoc, branches]
    rfl
  refine stationed.meets encodes stands agrees later steps (blind _) ?_
  intro holds after result position
  obtain ⟨fault, last, fails, -⟩ | ⟨value, last, gives, -, sound, same, -, -⟩ :=
    effect.split (stationed.sound.ready offset cell)
  · rw [fails] at result
    cases result
  · rw [gives] at result
    cases result
    have stays (target : Nat) : Stationed (Assembly.limits program) target back rest
        (after.goto target) :=
      stationed_goto sound position (same.trans frames) address target
    cases holds with
    | true => exact passes _ _ back rest (stays _) (agrees_mirror _ _)
    | false => exact jumps _ _ back rest (stays _) (agrees_mirror _ _)

/-- A block is entered. -/
theorem follows_enter (enters : cell.command.opcode = .enterLocal) :
    Follows compiled (Assembly.limits program) least ⟨offset, before⟩
      (some ⟨offset + cell.command.width, cell.line⟩) (perform cell.line Action.enterLocal) := by
  have encodes := encodes_image accepted addressable
  intro machine mirror back rest stationed agrees
  obtain ⟨frame, frames, address⟩ := stationed.frames
  have steps : Action.step compiled.pools.names cell.command.opcode cell.command.operand
        (machine.ready offset cell)
      = (Action.enterLocal >>= fun _ => pure .next) (machine.ready offset cell) := by
    rw [enters]
    rfl
  refine Meets.fewer (stationed.meets encodes stands agrees later steps
    (Blind.of_built (Action.built_enterLocal trivial trivial) .position _) ?_) (Nat.le_succ least)
  intro value after result position
  obtain ⟨scope, last, gives, sound, same, -⟩ :=
    Action.enterLocal_spec (stationed.sound.ready offset cell) frames
  rw [gives] at result
  cases result
  exact ⟨_, 0, _, rfl, rfl, stationed_goto sound position same address _, agrees_mirror _ _⟩

/-- A block is left. -/
theorem follows_close (closes : cell.command.opcode = .leaveLocal) :
    Follows compiled (Assembly.limits program) least ⟨offset, before⟩
      (some ⟨offset + cell.command.width, cell.line⟩) (perform cell.line Action.leaveLocal) := by
  have encodes := encodes_image accepted addressable
  intro machine mirror back rest stationed agrees
  obtain ⟨frame, frames, address⟩ := stationed.frames
  have steps : Action.step compiled.pools.names cell.command.opcode cell.command.operand
        (machine.ready offset cell)
      = (Action.leaveLocal >>= fun _ => pure .next) (machine.ready offset cell) := by
    rw [closes]
    rfl
  refine Meets.fewer (stationed.meets encodes stands agrees later steps
    (Blind.of_built (Action.built_leaveLocal trivial trivial) .position _) ?_) (Nat.le_succ least)
  intro value after result position
  cases opened : frame.localScopes with
  | nil =>
    have ready : (machine.ready offset cell).frames = frame :: rest := frames
    rw [Action.leaveLocal_nil ready opened] at result
    cases result
  | cons scope scopes =>
    obtain ⟨fault, last, fails, -⟩ | ⟨last, gives, sound, same, -⟩ :=
      Action.leaveLocal_spec (stationed.sound.ready offset cell) frames opened
    · rw [fails] at result
      cases result
    · rw [gives] at result
      cases result
      exact ⟨_, 0, _, rfl, rfl, stationed_goto sound position same address _, agrees_mirror _ _⟩

/-- An instruction that only goes on does not count. -/
theorem follows_silent {target : Nat} {transfer : Transfer}
    (silent : ∀ machine, Action.step compiled.pools.names cell.command.opcode cell.command.operand
      machine = .ok transfer machine)
    (goes : ∀ machine, Progress.after (offset + cell.command.width) (.ok transfer machine)
      = .running (machine.goto target))
    {stop : Option Spot} {execution : Activity}
    (follows : Follows compiled (Assembly.limits program) least ⟨target, cell.line⟩ stop execution) :
    Follows compiled (Assembly.limits program) least ⟨offset, before⟩ stop execution := by
  intro machine mirror back rest stationed agrees
  obtain ⟨frame, frames, address⟩ := stationed.frames
  have passes := stationed.run (encodes_image accepted addressable) stands
  rw [silent, goes] at passes
  have looks : Agrees cell.line ((machine.ready offset cell).goto target) mirror := by
    have same : mirror.onLine cell.line = (machine.onLine cell.line).mirror := agrees.later later
    have again : cell.line.getD (cell.line.getD machine.line) = cell.line.getD machine.line := by
      cases cell.line <;> rfl
    rw [Agrees, same]
    simp [Machine.mirror, Veil.hide, Veil.registers, Machine.onLine, Machine.ready, Machine.moved,
      Machine.goto, again]
  have there : Stationed (Assembly.limits program) target back rest
      ((machine.ready offset cell).goto target) :=
    stationed_goto (stationed.sound.ready offset cell) ⟨rfl, rfl, rfl⟩ frames address target
  have met := follows _ _ back rest there looks
  have passes : (Progress.running machine).run compiled cell.command.width
      = .running ((machine.ready offset cell).goto target) := passes
  rw [← passes] at met
  exact met.earlier.fewer (Nat.le_add_left _ _)

end

end ScopeMachine
