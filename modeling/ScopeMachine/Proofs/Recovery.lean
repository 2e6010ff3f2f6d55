import ScopeMachine.Proofs.Machine.Outcomes
import ScopeMachine.Proofs.Machine.Steady

set_option autoImplicit false

/-!
# Recovery

A trouble found halfway through an instruction must not leave traces. Main result: an instruction that
has reported one and goes on has taken its operands off the stack and put nothing in place of its
result, and has changed nothing else. This holds from any machine, whether or not code can reach it.
-/

namespace ScopeMachine

variable {α β : Type}

/-! ## Actions that report nothing -/

/-- An action that reports nothing, whether it succeeds or not. -/
def Quiet (action : Action α) : Prop :=
  ∀ machine, (Action.final (action machine)).reports = machine.reports

namespace Quiet

variable {action : Action α} {next : α → Action β}

theorem pure (value : α) : Quiet (Pure.pure value : Action α) :=
  fun _ => rfl

theorem throw (fault : Fault) : Quiet (MonadExcept.throw fault : Action α) :=
  fun _ => rfl

theorem bind (first : Quiet action) (second : ∀ value, Quiet (next value)) :
    Quiet (action >>= next) := by
  intro machine
  have once := first machine
  cases step : action machine with
  | ok value middle =>
    rw [step] at once
    rw [Action.bind_of_ok step]
    exact (second value middle).trans once
  | error fault middle =>
    rw [step] at once
    rw [Action.bind_of_error step]
    exact once

private theorem reports_of_ok {machine after : Machine} {value : α} (quiet : Quiet action)
    (result : action machine = .ok value after) : after.reports = machine.reports := by
  have same := quiet machine
  rwa [result] at same

end Quiet

private theorem Action.quiet_attempt (f : Heap → Except Stale α × Heap) : Quiet (attempt f) := by
  intro machine
  simp only [attempt, Machine.withHeap]
  generalize f machine.heap = result
  obtain ⟨found, heap⟩ := result
  cases found <;> rfl

/-- What may not report is quiet. -/
theorem Built.quiet {may : Footprint} {action : Action α} (built : Built may action)
    (reports : ¬ may.reports) : Quiet action := by
  induction built with
  | pure value => exact .pure value
  | throw => exact .throw _
  | bind _ _ first second => exact first.bind second
  | get _ _ second => exact Quiet.bind (fun _ => rfl) second
  | inspect f | findInherited =>
    intro machine
    simp only [Action.findInherited, Action.inspect]
    split <;> rfl
  | declare | redeclare | copyScope => exact Action.quiet_attempt _
  | releaseScope | freeScope => exact (Action.quiet_attempt _).bind fun _ => .pure _
  | pop | peek | swap =>
    intro machine
    obtain ⟨_, _, stack, _⟩ := machine
    obtain _ | ⟨_, _ | ⟨_, _⟩⟩ := stack <;> rfl
  | readLine =>
    intro machine
    simp only [Machine.withConsole]
    obtain ⟨line, console⟩ := machine.console.readLine
    cases line <;> rfl
  | setLocalScopes | popFrame =>
    intro machine
    obtain ⟨_, _, _, frames, _⟩ := machine
    cases frames <;> rfl
  | report allowed => exact absurd allowed reports
  | _ => exact fun _ => rfl

theorem Quiet.of_built {action : Action α} (built : Built .silent action) : Quiet action :=
  built.quiet id

/-! ## Actions that report a trouble -/

/-- Where the action succeeds in spite of a trouble, it has taken a number of entries off the stack and
has reported the trouble. All that it has done otherwise is to settle the matter. -/
def SettlesTrouble (count : Nat) (settle : Machine → α × Machine) (action : Action α) : Prop :=
  ∀ machine value after, action machine = .ok value after → after.reports ≠ machine.reports →
    ∃ taken rest, ∃ trouble : Trouble, taken.length = count ∧ machine.stack = taken ++ rest
      ∧ (value, after)
        = settle ({ machine with stack := rest }.addReport .recoverable trouble.message)

/-- An action that changes nothing where it succeeds. -/
def Reads (action : Action α) : Prop :=
  ∀ machine value after, action machine = .ok value after → after = machine

namespace Reads

theorem pure (value : α) : Reads (Pure.pure value) := by
  rintro machine value after ⟨⟩
  rfl

theorem throw (fault : Fault) : Reads (MonadExcept.throw fault : Action α) := by
  rintro machine value after ⟨⟩

theorem inspect (f : Heap → Except Stale α) : Reads (Action.inspect f) :=
  fun _ _ _ result => (Action.ok_of_inspect result).2

theorem bind {action : Action α} {next : α → Action β} (first : Reads action)
    (second : ∀ value, Reads (next value)) : Reads (action >>= next) := by
  intro machine value after result
  obtain ⟨middle, passed, ran, goes⟩ := Action.ok_of_bind result
  exact (second middle passed value after goes).trans (first machine middle passed ran)

end Reads

namespace SettlesTrouble

variable {count : Nat} {settle : Machine → β × Machine} {action : Action α} {next : α → Action β}

private theorem of_quiet {action : Action β} (quiet : Quiet action) : SettlesTrouble count settle action :=
  fun _ _ _ result reports => absurd (quiet.reports_of_ok result) reports

/-- What has reported nothing may precede, where it has changed nothing or what follows is quiet. -/
theorem bind (quiet : Quiet action)
    (second : ∀ value, (∀ machine after, action machine = .ok value after → after = machine)
      ∧ SettlesTrouble count settle (next value) ∨ Quiet (next value)) :
    SettlesTrouble count settle (action >>= next) := by
  intro machine value after result reports
  obtain ⟨middle, passed, ran, goes⟩ := Action.ok_of_bind result
  obtain ⟨same, settles⟩ | silent := second middle
  · obtain rfl := same machine passed ran
    exact settles passed value after goes reports
  · exact absurd ((silent.reports_of_ok goes).trans (quiet.reports_of_ok ran)) reports

theorem read (reads : Reads action) (second : ∀ value, SettlesTrouble count settle (next value)) :
    SettlesTrouble count settle (action >>= next) := by
  intro machine value after result reports
  obtain ⟨middle, passed, ran, goes⟩ := Action.ok_of_bind result
  obtain rfl := reads machine middle passed ran
  exact second middle passed value after goes reports

theorem binding {id : BindingId} {next : Binding → Action β}
    (second : ∀ value, SettlesTrouble count settle (next value)) :
    SettlesTrouble count settle (Action.binding id >>= next) :=
  .read (.inspect _) second

theorem popArguments {size : Nat} {next : List BindingId → Action β}
    (second : ∀ arguments, SettlesTrouble count settle (next arguments)) :
    SettlesTrouble (size + count) settle (Action.popArguments size [] >>= next) := by
  intro machine value after result reports
  obtain ⟨arguments, _, pops, result⟩ := Action.ok_of_bind result
  obtain ⟨popped, below, length, -, stack, rfl⟩ := Action.ok_of_popArguments pops
  obtain ⟨taken, rest, trouble, more, lower, settled⟩ := second arguments _ value after result reports
  have lower : below = taken ++ rest := lower
  refine ⟨popped.reverse.map .binding ++ taken, rest, trouble, by simp [length, more], ?_, settled⟩
  rw [stack, lower, List.append_assoc]

theorem popBinding {next : BindingId → Action β} (second : ∀ id, SettlesTrouble count settle (next id)) :
    SettlesTrouble (count + 1) settle (Action.popBinding >>= next) := by
  intro machine value after result reports
  obtain ⟨id, _, pops, result⟩ := Action.ok_of_bind result
  obtain ⟨below, stack, rfl⟩ := Action.ok_of_popBinding pops
  obtain ⟨taken, rest, trouble, length, lower, settled⟩ := second id _ value after result reports
  have lower : below = taken ++ rest := lower
  exact ⟨.binding id :: taken, rest, trouble, by simp [length], by rw [stack, lower]; rfl, settled⟩

theorem popName {next : Nat → Action β} (second : ∀ index, SettlesTrouble count settle (next index)) :
    SettlesTrouble (count + 1) settle (Action.popName >>= next) := by
  intro machine value after result reports
  obtain ⟨index, _, pops, result⟩ := Action.ok_of_bind result
  obtain ⟨below, stack, rfl⟩ := Action.ok_of_popName pops
  obtain ⟨taken, rest, trouble, length, lower, settled⟩ := second index _ value after result reports
  have lower : below = taken ++ rest := lower
  exact ⟨.name index :: taken, rest, trouble, by simp [length], by rw [stack, lower]; rfl, settled⟩

theorem map {settle : Machine → α × Machine} (settles : SettlesTrouble count settle action) (f : α → β) :
    SettlesTrouble count (fun machine => (f (settle machine).1, (settle machine).2))
      (action >>= fun value => Pure.pure (f value)) := by
  intro machine value after result reports
  obtain ⟨middle, _, ran, returns⟩ := Action.ok_of_bind result
  cases returns
  obtain ⟨taken, rest, trouble, length, stack, settled⟩ := settles machine middle after ran reports
  exact ⟨taken, rest, trouble, length, stack, by simp only [← settled]⟩

theorem andNext {settle : Machine → Unit × Machine} {action : Action Unit}
    (settles : SettlesTrouble count settle action) :
    SettlesTrouble count (fun machine => (.next, (settle machine).2)) (Action.andNext action) :=
  settles.map fun _ => Transfer.next

end SettlesTrouble

namespace Machine

/-- Nothing stands for the result of a failed instruction. -/
def substituted (machine : Machine) : Unit × Machine :=
  ((), { machine with stack := .binding machine.nothing :: machine.stack })

/-- No relation holds between what could not be compared. -/
def incomparable (machine : Machine) : Unit × Machine :=
  ((), { machine with
    registers := { machine.registers with comparison := ComparisonBit.true.mask } })

end Machine

namespace Action

/-! ## Results -/

private theorem settlesTrouble_recover (trouble : Trouble) : SettlesTrouble 0 Machine.substituted (recover trouble) := by
  rintro machine value after ⟨⟩ -
  exact ⟨[], machine.stack, trouble, rfl, rfl, rfl⟩

private theorem settlesTrouble_pushResult (outcome : Except OperatorError Payload) :
    SettlesTrouble 0 Machine.substituted (pushResult outcome) := by
  cases outcome with
  | ok payload => exact .of_quiet (.of_built ((built_temporary payload).bind fun _ => built_push _))
  | error error => exact settlesTrouble_recover _

private theorem settlesTrouble_binary (operator : Binding → Binding → Except OperatorError Payload) :
    SettlesTrouble 2 Machine.substituted (binary operator) :=
  .popBinding fun _ => .popBinding fun _ => .binding fun _ => .binding fun _ => settlesTrouble_pushResult _

private theorem settlesTrouble_negate : SettlesTrouble 1 Machine.substituted negate :=
  .popBinding fun _ => .binding fun _ => settlesTrouble_pushResult _

private theorem settlesTrouble_assign : SettlesTrouble 2 Machine.substituted assign := by
  refine .popBinding fun value => .popBinding fun target => .binding fun current => ?_
  split
  · exact settlesTrouble_recover _
  · exact .of_quiet (.of_built ((built_binding value).bind fun _ =>
      (built_updateBinding target _).bind fun _ => built_push target))

private theorem reads_poolName (names : NamePool) (index : Nat) : Reads (poolName names index) := by
  unfold poolName
  split
  · exact .pure _
  · exact .throw _

/-- A member that is missing is declared; only what has no members at all is left as it is. -/
theorem settlesTrouble_resolveMember (names : NamePool) :
    SettlesTrouble 2 Machine.substituted (resolveMember names) := by
  have lacks (target : BindingId) (name : String) (machine after : Machine)
      (result : resolveScoped target name machine = .ok none after) : after = machine := by
    obtain ⟨value, _, found, goes⟩ := ok_of_bind result
    obtain ⟨-, rfl⟩ := ok_of_binding found
    cases refers : value.scope with
    | none =>
      rw [refers] at goes
      cases goes
      rfl
    | some scope =>
      rw [refers] at goes
      obtain ⟨member, _, -, goes⟩ := ok_of_bind goes
      cases member with
      | some id => cases goes
      | none =>
        obtain ⟨_, _, -, returns⟩ := ok_of_bind goes
        cases returns
  refine .popName fun index => .read (reads_poolName names index) fun name =>
    .popBinding fun target => .bind (.of_built (built_resolveScoped target name)) fun found => ?_
  cases found with
  | some id => exact .inr (.of_built (built_push id))
  | none => exact .inl ⟨lacks target name, .binding fun _ => settlesTrouble_recover _⟩

/-! ## Arrays -/

private theorem reads_arraySize (arguments : List BindingId) : Reads (arraySize arguments) := by
  unfold arraySize
  split
  · exact .bind (.inspect _) fun _ => .pure _
  · exact .pure _

private theorem settlesTrouble_constructArray (array : BindingId) (arguments : List BindingId) :
    SettlesTrouble 0 Machine.substituted (constructArray array arguments) := by
  refine .read (reads_arraySize arguments) fun size => ?_
  cases size with
  | none => exact settlesTrouble_recover _
  | some size =>
    exact .of_quiet (.of_built ((built_elementScope trivial array).bind fun scope =>
      (built_declareElements scope _ _).bind fun _ => (Built.declare scope _).bind fun _ =>
        built_push array))

private theorem reads_readSize (array : Binding) : Reads (readSize array) := by
  unfold readSize
  split
  · exact .throw _
  · refine .bind (.inspect _) fun found => ?_
    cases found with
    | none => exact .throw _
    | some id =>
      refine .bind (.inspect _) fun value => ?_
      split
      · exact .pure _
      · exact .throw _

private theorem settlesTrouble_arrayIndex : SettlesTrouble 2 Machine.substituted arrayIndex := by
  refine .popBinding fun position => .popBinding fun target => .binding fun index => ?_
  split
  · refine .binding fun array => .read (reads_readSize array) fun found => ?_
    dsimp only
    split
    · exact .of_quiet (.throw _)
    · refine .read (.inspect _) fun element => ?_
      cases element with
      | some id => exact .of_quiet (.of_built (built_push id))
      | none => exact settlesTrouble_recover _
  · exact .of_quiet (.throw _)

private theorem settlesTrouble_evaluate (count : Nat) :
    SettlesTrouble (count + 2) (fun machine => (.next, machine.substituted.2)) (evaluate count) := by
  refine .popArguments fun arguments => .popBinding fun method => .popBinding fun caller =>
    .binding fun target => ?_
  split
  · exact (settlesTrouble_constructArray method arguments).map fun _ => Transfer.next
  · exact .of_quiet (.of_built ((built_checkCall target _).bind fun _ =>
      (built_bindArguments target none arguments).bind fun _ =>
        built_enterFrame trivial trivial _ _ _ _))

/-! ## Comparisons and conditions -/

private theorem settlesTrouble_compare : SettlesTrouble 2 Machine.incomparable compare := by
  refine .popBinding fun _ => .popBinding fun _ => .binding fun left => .binding fun right => ?_
  split
  · exact .of_quiet (.of_built (.compared trivial _))
  · exact .of_quiet (.of_built (.compared trivial _))
  · rintro machine value after ⟨⟩ -
    exact ⟨[], machine.stack, .operator _, rfl, rfl, rfl⟩

private theorem settlesTrouble_truthy (condition : BindingId) :
    SettlesTrouble 0 (fun machine => (false, machine)) (truthy condition) := by
  refine .binding fun value => ?_
  split
  · exact .of_quiet (.pure _)
  · split
    · exact .of_quiet (.pure _)
    · rintro machine value after ⟨⟩ -
      exact ⟨[], machine.stack, .condition _, rfl, rfl, rfl⟩

end Action

/-! ## Instructions -/

/-- The register of a comparison that has failed holds no relation. -/
theorem ComparisonBit.true_and_mask (bit : ComparisonBit) (other : bit ≠ .true) :
    ComparisonBit.true.mask &&& bit.mask = 0 := by
  cases bit with
  | true => exact absurd rfl other
  | _ => decide

/-- How many operands an instruction takes off the stack, if it may report. -/
def Opcode.takes? (operand : Nat) : Opcode → Option Nat
  | .assign | .add | .subtract | .multiply | .divide | .and | .or | .compare | .resolveScoped
    | .arrayIndex => some 2
  | .not | .jumpIfFalse => some 1
  | .evaluate => some (operand + 2)
  | _ => none

/-- How an instruction settles a trouble. -/
def Opcode.settle (operand : Nat) (machine : Machine) : Opcode → Transfer × Machine
  | .compare => (.next, machine.incomparable.2)
  | .jumpIfFalse => (.goto operand, machine)
  | _ => (.next, machine.substituted.2)

namespace Action

private theorem settlesTrouble_jumpIfFalse (names : NamePool) (operand : Nat) :
    SettlesTrouble 1 (fun machine => (.goto operand, machine)) (step names .jumpIfFalse operand) :=
  .popBinding fun condition => (settlesTrouble_truthy condition).map fun holds =>
    if holds then Transfer.next else .goto operand

/-- An instruction that may report settles its troubles, and any other reports nothing. -/
theorem settlesTrouble_step (names : NamePool) (opcode : Opcode) (operand : Nat) :
    match opcode.takes? operand with
    | some count => SettlesTrouble count (opcode.settle operand) (step names opcode operand)
    | none => Quiet (step names opcode operand) := by
  cases opcode with
  | assign => exact settlesTrouble_assign.andNext
  | add | subtract | multiply | divide | and | or => exact (settlesTrouble_binary _).andNext
  | not => exact settlesTrouble_negate.andNext
  | compare => exact settlesTrouble_compare.andNext
  | resolveScoped => exact (settlesTrouble_resolveMember names).andNext
  | arrayIndex => exact settlesTrouble_arrayIndex.andNext
  | jumpIfFalse => exact settlesTrouble_jumpIfFalse names operand
  | evaluate => exact settlesTrouble_evaluate operand
  | _ => exact (built_step names _ operand).quiet (by decide)

end Action

/-- Whatever the machine, the instruction and its operand: where the instruction goes on and something
new has been reported, that is one recoverable report on the current line. The instruction has taken
its operands off the stack. If it was to yield a value, nothing has been pushed instead; a comparison
has cleared all relations, and a condition counts as one that does not hold. All else is as it was. -/
theorem troubles_leave_machine {names : NamePool} {opcode : Opcode} {operand : Nat}
    {machine after : Machine} {transfer : Transfer}
    (goes : Action.step names opcode operand machine = .ok transfer after)
    (reports : after.reports ≠ machine.reports) :
    ∃ taken rest, ∃ trouble : Trouble, opcode.takes? operand = some taken.length
      ∧ machine.stack = taken ++ rest
      ∧ let told : Machine := { machine with
          stack := rest
          reports := machine.reports.push ⟨.recoverable, machine.line, trouble.message⟩ }
        match opcode with
        | .compare =>
          transfer = .next
            ∧ (∃ comparison, after
                = { told with registers := { machine.registers with comparison } })
            ∧ ∀ bit : ComparisonBit, bit ≠ .true → after.registers.comparison &&& bit.mask = 0
        | .jumpIfFalse => transfer = .goto operand ∧ after = told
        | _ => transfer = .next ∧ after = { told with stack := .binding machine.nothing :: rest } := by
  have settles := Action.settlesTrouble_step names opcode operand
  cases takes : opcode.takes? operand with
  | none =>
    rw [takes] at settles
    exact absurd (settles.reports_of_ok goes) reports
  | some count =>
    rw [takes] at settles
    obtain ⟨taken, rest, trouble, rfl, stack, settled⟩ := settles machine transfer after goes reports
    refine ⟨taken, rest, trouble, rfl, stack, ?_⟩
    cases opcode with
    | compare =>
      cases settled
      exact ⟨rfl, ⟨_, rfl⟩, ComparisonBit.true_and_mask⟩
    | _ =>
      cases settled
      exact ⟨rfl, rfl⟩

/-- A machine with two operands that cannot be compared. -/
def Machine.unrelated : Machine :=
  let machine := Machine.fresh {} []
  { machine with stack := [.binding machine.nothing, .binding machine.nothing, .name 0] }

/-- A comparison of null with itself takes both operands and clears all relations. -/
theorem unrelated_recovers :
    ∃ after, Action.step {} .compare 0 Machine.unrelated = .ok .next after
      ∧ after.reports ≠ Machine.unrelated.reports ∧ after.stack = [.name 0]
      ∧ after.heap = Machine.unrelated.heap
      ∧ ∀ bit : ComparisonBit, bit ≠ .true → after.registers.comparison &&& bit.mask = 0 := by
  obtain ⟨after, goes, reports⟩ : ∃ after,
      Action.step {} .compare 0 Machine.unrelated = .ok .next after
        ∧ after.reports ≠ Machine.unrelated.reports := ⟨_, rfl, by decide⟩
  obtain ⟨taken, rest, trouble, takes, stack, -, ⟨comparison, rfl⟩, clear⟩ :=
    troubles_leave_machine goes reports
  have length : taken.length = 2 := (Option.some.inj takes).symm
  have rest_eq : rest = [.name 0] := by
    have below := congrArg (List.drop taken.length) stack
    rw [List.drop_left, length] at below
    exact below.symm
  exact ⟨_, goes, reports, rest_eq, rfl, clear⟩

end ScopeMachine
