import ScopeMachine.Proofs.Diagnostics
import ScopeMachine.Proofs.Isolation
import ScopeMachine.Proofs.StaleHandles

set_option autoImplicit false

/-!
# What a run tells

A run only ever adds to its output and to its reports. Main result: the output is what its prints have
written, in order, and no report is fatal but the last one of a run that a fault has stopped.
-/

namespace ScopeMachine

/-! ## Output -/

def asLines (texts : List String) : String :=
  String.join (texts.map (· ++ "\n"))

private theorem asLines_append (first second : List String) :
    asLines (first ++ second) = asLines first ++ asLines second := by
  rw [asLines, List.map_append, String.join_append]
  rfl

private theorem asLines_singleton (text : String) : asLines [text] = text ++ "\n" := by
  simp [asLines, String.join_cons]

/-- The text that a print writes now: that of the binding on top of the stack. -/
def Machine.topText? (machine : Machine) : Option String :=
  match machine.stack with
  | .binding id :: _ => (machine.heap.bindings.get? id).map Binding.display
  | _ => none

/-- Only a print changes what was written. -/
theorem Edit.output {licence : Licence} {before after : Machine} (edit : Edit licence before after)
    (silent : ¬ licence.writes) : after.console.output = before.console.output := by
  cases edit with
  | quiet same =>
    simp only [Machine.fixtures, Prod.mk.injEq] at same
    exact same.2.2.2.2.2.2.2.1
  | write text allowed => exact absurd allowed silent
  | _ => rfl

namespace Action

private theorem peekBinding_eq (machine : Machine) :
    peekBinding machine = match machine.stack with
      | .binding id :: _ => .ok id machine
      | .name _ :: _ => .error .expectedBinding machine
      | [] => .error .stackUnderflow machine := by
  obtain ⟨_, _, stack, _, _, _, _, _, _, _, _, _⟩ := machine
  match stack with
  | [] | .binding _ :: _ | .name _ :: _ => rfl

/-- A print writes the text on top of the stack as a line, if there is one. -/
theorem output_print (machine : Machine) :
    (final (print machine)).console.output
      = machine.console.output ++ asLines machine.topText?.toList := by
  have peeks := peekBinding_eq machine
  have unchanged : machine.console.output = machine.console.output ++ asLines [] := by simp [asLines]
  unfold Machine.topText?
  match items : machine.stack with
  | [] | .name _ :: _ =>
    simp only [items] at peeks
    rw [show print machine = .error _ machine from bind_of_error peeks]
    exact unchanged
  | .binding id :: rest =>
    simp only [items] at peeks
    cases found : machine.heap.bindings.get? id with
    | none =>
      rw [show print machine = .error _ machine from
        (bind_of_ok peeks).trans (bind_of_error (binding_of_none found))]
      simp only [found]
      exact unchanged
    | some value =>
      rw [show print machine = .ok () (machine.withConsole fun console =>
          ((), console.writeLine value.display)).2 from
        (bind_of_ok peeks).trans (bind_of_ok (binding_of_get? found))]
      simp only [found, Option.map_some, Option.toList_some, asLines_singleton,
        ← String.append_assoc]
      rfl

/-- A print is the only instruction that writes. -/
theorem output_step (names : NamePool) (opcode : Opcode) (operand : Nat) (machine : Machine) :
    (final (step names opcode operand machine)).console.output
      = machine.console.output ++ asLines (if opcode = .syscall
          ∧ Syscall.ofOperand? operand = some .print then machine.topText?.toList else []) := by
  split
  · next prints =>
    obtain ⟨rfl, prints⟩ := prints
    have steps : step names .syscall operand = andNext print := by
      simp only [step, syscall, prints]
    rw [steps, ← output_print, andNext]
    cases result : print machine with
    | ok value after => rw [bind_of_ok result]; rfl
    | error fault after => rw [bind_of_error result]; rfl
  · next silent =>
    let quiet : Licence := { Licence.free with writes := False }
    have editing : Editing quiet (step names opcode operand) :=
      editing_step names opcode operand (fun _ => trivial) (fun _ => trivial) (fun _ => trivial)
        (fun _ => trivial) (fun _ _ => trivial) (fun _ _ => trivial) (fun _ => trivial)
        (fun syscall print => silent ⟨syscall, print⟩) (fun _ => trivial) fun _ => trivial
    have same := (editing machine).keeps
      (fun edit (same : _ = machine.console.output) => (edit.output id).trans same) rfl
    rw [same]
    simp [asLines]

end Action

/-! ## Dispatches -/

/-- The text that a machine is about to write: that on top of the stack, if a print is next. -/
def Machine.nextText? (machine : Machine) (compiled : Compiled) : Option String :=
  if machine.nextOpcode? compiled = some .syscall
      ∧ (machine.nextOperand? compiled).bind Syscall.ofOperand? = some .print then
    machine.topText?
  else none

/-- What is reported of the end of a run. -/
def Progress.verdict : Progress → List Report
  | .failed line fault _ => [⟨.fatal, line, fault.message⟩]
  | .running _ | .finished _ _ => []

/-- What a dispatch adds to the output and to the reports of a machine. -/
structure Tells (text : String) (before : Machine) (progress : Progress) : Prop where
  output : progress.machine.console.output = before.console.output ++ text
  reports : ∃ more, progress.machine.reports.toList = before.reports.toList ++ more ++ progress.verdict
    ∧ ∀ report ∈ more, report.severity = .recoverable

private theorem tells_nothing {before : Machine} {progress : Progress}
    (output : progress.machine.console.output = before.console.output)
    (reports : progress.machine.reports.toList = before.reports.toList ++ progress.verdict) :
    Tells (asLines []) before progress :=
  ⟨by simpa [asLines] using output, [], by simpa using reports, by simp⟩

/-- A fault is reported when it stops a run. -/
theorem tells_stop (machine : Machine) (fault : Fault) :
    Tells (asLines []) machine (machine.stop fault) :=
  tells_nothing rfl Array.toList_push

private theorem tells_after {text : String} {before : Machine} (next : Nat)
    {result : EStateM.Result Fault Machine Transfer}
    (output : (Action.final result).console.output = before.console.output ++ text)
    (reported : Reported before.line .recoverable before (Action.final result)) :
    Tells text before (Progress.after next result) := by
  obtain ⟨same, more, added, severity⟩ := reported
  have mild : ∀ report ∈ more, report.severity = .recoverable :=
    fun report member => (severity report member).1
  match result with
  | .ok .next _ | .ok (.goto _) _ | .ok (.halt _) _ =>
    exact ⟨output, more, added.trans (List.append_nil _).symm, mild⟩
  | .error fault after =>
    refine ⟨output, more, ?_, mild⟩
    rw [← show after.reports.toList = before.reports.toList ++ more from added]
    exact Array.toList_push

/-- A dispatch writes the text that a print is about to write, and reports what is recoverable before
the fault that may end the run. -/
theorem tells_advance (compiled : Compiled) (machine : Machine) :
    Tells (asLines (machine.nextText? compiled).toList) machine (machine.advance compiled) := by
  cases found : compiled.code.instructions[machine.registers.ip]? with
  | none =>
    have silent : machine.nextText? compiled = none := by
      simp [Machine.nextText?, Machine.nextOpcode?, found]
    rw [silent, Machine.advance]
    simp only [found]
    exact tells_nothing rfl (List.append_nil _).symm
  | some instruction =>
    have opcode : machine.nextOpcode? compiled = some instruction.opcode := by
      simp [Machine.nextOpcode?, found]
    by_cases extends_ : instruction.opcode = .extendArgument
    · have silent : machine.nextText? compiled = none := by
        simp [Machine.nextText?, opcode, extends_]
      rw [silent, Machine.advance]
      simp only [found, if_pos extends_, Machine.extend]
      split
      · exact tells_stop machine _
      · exact tells_nothing rfl (List.append_nil _).symm
    · rw [Machine.advance_of_instruction found extends_]
      have texts : (machine.nextText? compiled).toList = if instruction.opcode = .syscall
          ∧ Syscall.ofOperand? (machine.registers.extended ||| instruction.operand.toNat) = some .print
          then machine.topText?.toList else [] := by
        have operand : machine.nextOperand? compiled
            = some (machine.registers.extended ||| instruction.operand.toNat) := by
          simp [Machine.nextOperand?, found]
        simp only [Machine.nextText?, opcode, operand, Option.some.injEq, Option.bind_some]
        split <;> rfl
      rw [texts]
      obtain ⟨output, reports⟩ := tells_after (machine.registers.ip + 1)
        (Action.output_step compiled.pools.names instruction.opcode
          (machine.registers.extended ||| instruction.operand.toNat) (machine.fetch compiled.code))
        (Action.reported_step _ _ _ (machine.fetch compiled.code))
      exact ⟨output, reports⟩

/-! ## Runs -/

/-- The texts that the prints among a number of dispatches write, in order. -/
def Machine.printed (compiled : Compiled) : Nat → Machine → List String
  | 0, _ => []
  | fuel + 1, machine =>
    (machine.nextText? compiled).toList ++
      match machine.advance compiled with
      | .running next => printed compiled fuel next
      | .finished _ _ | .failed _ _ _ => []

theorem Tells.trans {first second : String} {before middle : Machine} {progress : Progress}
    (once : Tells first before (.running middle)) (again : Tells second middle progress) :
    Tells (first ++ second) before progress := by
  obtain ⟨output, more, reports, mild⟩ := once
  obtain ⟨further, last, adds, recoverable⟩ := again
  refine ⟨?_, more ++ last, ?_, ?_⟩
  · rw [further, ← String.append_assoc]
    exact congrArg (· ++ second) output
  · have reports : middle.reports.toList = before.reports.toList ++ more :=
      reports.trans (List.append_nil _)
    rw [adds, reports, List.append_assoc before.reports.toList]
  · intro report member
    obtain member | member := List.mem_append.mp member
    · exact mild report member
    · exact recoverable report member

/-- A run writes what its prints write. -/
theorem tells_run (compiled : Compiled) (fuel : Nat) (machine : Machine) :
    Tells (asLines (machine.printed compiled fuel)) machine (machine.run compiled fuel) := by
  induction fuel generalizing machine with
  | zero => exact tells_nothing rfl (List.append_nil _).symm
  | succ fuel ih =>
    have first := tells_advance compiled machine
    unfold Machine.printed Machine.run
    cases advanced : machine.advance compiled with
    | running next =>
      rw [advanced] at first
      rw [asLines_append]
      exact first.trans (ih next)
    | finished result final | failed line fault final =>
      rw [advanced] at first
      simpa using first

/-- A longer run adds to what a shorter one has told. -/
theorem tells_more (compiled : Compiled) (machine : Machine) {earlier fuel : Nat}
    (less : earlier ≤ fuel) :
    (∃ text, (machine.run compiled fuel).machine.console.output
        = (machine.run compiled earlier).machine.console.output ++ text)
      ∧ ∃ more, (machine.run compiled fuel).machine.reports.toList
        = (machine.run compiled earlier).machine.reports.toList ++ more := by
  obtain ⟨rest, rfl⟩ := Nat.exists_eq_add_of_le less
  rw [machine.run_add]
  cases reached : machine.run compiled earlier with
  | running middle =>
    obtain ⟨output, more, reports, -⟩ := tells_run compiled rest middle
    exact ⟨⟨_, output⟩, more ++ (middle.run compiled rest).verdict,
      reports.trans (List.append_assoc _ _ _)⟩
  | finished result final | failed line fault final =>
    exact ⟨⟨"", String.append_empty.symm⟩, [], (List.append_nil _).symm⟩

/-- Whatever a machine has run before, an execution writes nothing but what its prints write, in order,
and only ever adds to its output and to its reports. Where it goes on or finishes, every report is
recoverable; where a fault has stopped it, exactly one report is fatal: it is the last, it carries the
line on which the run failed, and its message is the text of the fault. -/
theorem execution_tells (compiled : Compiled) (machine : Machine) (fuel : Nat) :
    (machine.execute compiled fuel).machine.console.output
        = asLines ((machine.reset compiled.pools).printed compiled fuel)
      ∧ (∀ earlier ≤ fuel,
        (∃ text, (machine.execute compiled fuel).machine.console.output
          = (machine.execute compiled earlier).machine.console.output ++ text)
        ∧ ∃ more, (machine.execute compiled fuel).machine.reports.toList
          = (machine.execute compiled earlier).machine.reports.toList ++ more)
      ∧ match machine.execute compiled fuel with
        | .running final | .finished _ final =>
          ∀ report ∈ final.reports.toList, report.severity = .recoverable
        | .failed line fault final =>
          ∃ before, final.reports.toList = before ++ [⟨.fatal, line, fault.message⟩]
            ∧ ∀ report ∈ before, report.severity = .recoverable := by
  have start : machine.reset compiled.pools
      = .boot machine.config machine.console.input compiled.pools := reset_eq_boot machine _
  obtain ⟨output, before, reports, mild⟩ := tells_run compiled fuel (machine.reset compiled.pools)
  have silent : (machine.reset compiled.pools).console.output = "" := by rw [start]; rfl
  have clean : (machine.reset compiled.pools).reports.toList = [] := by rw [start]; rfl
  rw [silent, String.empty_append] at output
  rw [clean, List.nil_append] at reports
  refine ⟨output, fun earlier less => tells_more compiled _ less, ?_⟩
  unfold Machine.execute
  cases reached : (machine.reset compiled.pools).run compiled fuel with
  | running final | finished result final =>
    rw [reached] at reports
    have reports : final.reports.toList = before := reports.trans (List.append_nil _)
    subst reports
    exact mild
  | failed line fault final =>
    rw [reached] at reports
    exact ⟨before, reports, mild⟩

end ScopeMachine
