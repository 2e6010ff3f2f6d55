import ScopeMachine.Proofs.ControlTransfer
import ScopeMachine.Proofs.Machine.Edits
import ScopeMachine.Proofs.SourceSpans

set_option autoImplicit false

/-!
# Diagnostics

Every report carries the line that the table gives for the instruction that raised it. Main result:
where the instruction belongs to a statement, this is the line of the statement, whatever jumps, calls
and returns led there.
-/

namespace ScopeMachine

open Assembly

/-! ## Reports -/

/-- All that was reported in between was reported on one line and is equally severe. -/
structure Reported (line : Nat) (severity : Severity) (before after : Machine) : Prop where
  still : after.line = before.line
  added : ∃ more, after.reports.toList = before.reports.toList ++ more
    ∧ ∀ report ∈ more, report.severity = severity ∧ report.line = line

theorem Reported.of_same {line : Nat} {severity : Severity} {before after : Machine}
    (still : after.line = before.line) (same : after.reports = before.reports) :
    Reported line severity before after :=
  ⟨still, [], by simp [same], by simp⟩

theorem Reported.trans {line : Nat} {severity : Severity} {first second third : Machine}
    (before : Reported line severity first second) (after : Reported line severity second third) :
    Reported line severity first third := by
  obtain ⟨same, more, added, lines⟩ := before
  obtain ⟨again, last, adds, further⟩ := after
  refine ⟨again.trans same, more ++ last, by rw [adds, added, List.append_assoc], ?_⟩
  intro report member
  obtain member | member := List.mem_append.mp member
  · exact lines report member
  · exact further report member

private theorem reported_addReport (machine : Machine) (severity : Severity) (message : String) :
    Reported machine.line severity machine (machine.addReport severity message) := by
  refine ⟨rfl, [⟨severity, machine.line, message⟩], ?_, by simp⟩
  exact Array.toList_push

/-- Every change reports on the current line, if at all, and nothing that ends a run. -/
theorem Edit.reported {licence : Licence} {before after : Machine} (edit : Edit licence before after) :
    Reported before.line .recoverable before after := by
  cases edit with
  | quiet same =>
    simp only [Machine.fixtures, Prod.mk.injEq] at same
    obtain ⟨-, -, -, -, -, reports, line, -⟩ := same
    exact .of_same line reports
  | report trouble => exact reported_addReport before _ _
  | _ => exact .of_same rfl rfl

theorem Edits.reported {licence : Licence} {before after : Machine}
    (edits : Edits licence before after) : Reported before.line .recoverable before after := by
  induction edits with
  | refl => exact .of_same rfl rfl
  | tail _ last ih =>
    have next := last.reported
    rw [ih.still] at next
    exact ih.trans next

theorem Action.reported_step (names : NamePool) (opcode : Opcode) (operand : Nat)
    (machine : Machine) :
    Reported machine.line .recoverable machine
      (Action.final (Action.step names opcode operand machine)) := by
  have editing : Editing .free (Action.step names opcode operand) :=
    Action.editing_step names opcode operand (fun _ => trivial) (fun _ => trivial) (fun _ => trivial)
      (fun _ => trivial) (fun _ _ => trivial) (fun _ _ => trivial) (fun _ => trivial)
      (fun _ _ => trivial) (fun _ => trivial) fun _ => trivial
  exact (editing machine).reported

/-! ## Dispatches -/

/-- The line that a dispatch reports on: that of the instruction, if the table knows one. -/
def Machine.nextLine (machine : Machine) (compiled : Compiled) : Nat :=
  (compiled.code.lineAt? machine.registers.ip).getD machine.line

/-- All reports of a dispatch carry the line of the instruction, and so does the fault that may end
the program. -/
structure Locates (compiled : Compiled) (machine : Machine) (progress : Progress) : Prop where
  reports : ∃ more, progress.machine.reports.toList = machine.reports.toList ++ more
    ∧ ∀ report ∈ more, report.line = machine.nextLine compiled
  fails : ∀ line fault after, progress = .failed line fault after → line = machine.nextLine compiled

private theorem locates_after {compiled : Compiled} {machine : Machine} (next : Nat)
    {result : EStateM.Result Fault Machine Transfer}
    (reported : Reported (machine.nextLine compiled) .recoverable (machine.fetch compiled.code)
      (Action.final result)) :
    Locates compiled machine (Progress.after next result) := by
  obtain ⟨same, more, added, lines⟩ := reported
  match result with
  | .ok .next _ | .ok (.goto _) _ | .ok (.halt _) _ =>
    exact ⟨⟨more, added, fun report member => (lines report member).2⟩, by rintro _ _ _ ⟨⟩⟩
  | .error fault after =>
    obtain ⟨-, last, adds, further⟩ := reported_addReport after .fatal fault.message
    refine ⟨⟨more ++ last, ?_, fun report member => ?_⟩, ?_⟩
    · exact adds.trans (by rw [show after.reports.toList = _ from added, List.append_assoc]; rfl)
    · obtain member | member := List.mem_append.mp member
      · exact (lines report member).2
      · exact (further report member).2.trans same
    · rintro _ _ _ ⟨⟩
      exact same

/-- A dispatch that does not read an extension reports on the line of its instruction. -/
theorem locates_instruction {compiled : Compiled} {machine : Machine} {instruction : Instruction}
    (found : compiled.code.instructions[machine.registers.ip]? = some instruction)
    (whole : instruction.opcode ≠ .extendArgument) :
    Locates compiled machine (machine.advance compiled) := by
  rw [Machine.advance_of_instruction found whole]
  exact locates_after _ (Action.reported_step _ _ _ (machine.fetch compiled.code))

section

variable {program : Program} {compiled : Compiled} (accepted : program.compile = .ok compiled)

include accepted

/-- Along every run, each dispatch reports on the line of its instruction. -/
theorem locates_run (addressable : Addressable program compiled) (config : Config)
    (input : List UInt8) (fuel : Nat) {machine : Machine}
    (running : (Machine.boot config input compiled.pools).run compiled fuel = .running machine) :
    Locates compiled machine (machine.advance compiled) := by
  have shape : False → program.wellShaped = true := False.elim
  have run := placed_run accepted shape addressable config input fuel
  have encodes := encodes_image accepted addressable
  rw [running] at run
  obtain ⟨offset, cell, index, stands, reading, -⟩ := run
  obtain more | last := Nat.lt_or_eq_of_le reading.inside
  · obtain ⟨ip, extended, extensions, extends_, -⟩ := reading.advance_extension encodes stands more
    rw [extends_]
    exact ⟨⟨[], by simp [Progress.machine, Machine.moved], by simp⟩, by rintro _ _ _ ⟨⟩⟩
  · have found := encodes.getElem?_instruction stands
    rw [← last, ← reading.ip] at found
    exact locates_instruction found (encodes.whole stands)

theorem spread_compiled : ∃ spans stop,
    compiled.code.Spread compiled.pools program.main 0 stop spans
      ∧ compiled.code.Holds stop compiled.code.size [⟨.return, 0⟩]
      ∧ compiled.code.marks.toList = spans.map Span.mark
      ∧ Snugs (image program) spans 0 (image program) := by
  obtain ⟨pools, image, marks, valid⟩ := program.compile_ok accepted
  have within := within_image program
  obtain ⟨spans, spread, listed, snugs⟩ := spreads image (Pools.sound_ofProgram program)
    program.main {} (fun _ => rfl) within.left valid
  rw [pools]
  refine ⟨spans, _, spread, within.right.holds image rfl ?_, marks.trans listed, snugs.append ?_⟩
  · rw [Code.size_eq_length, image, length_slots, Assembly.image, size_append, Nat.zero_add]
  · have last : Snugs (Assembly.image program) [] _ _ :=
      .cons within.right rfl (by simp [Command.gives]) (by simp) snugs_nil
    exact last.mono (List.nil_subset _)

end

/-- The line table of an accepted program is sorted. Each statement has a span of code of its own, for
which the table gives its line, while the program is being compiled and afterwards; outside of all
spans there is only what opens, closes and goes around blocks, and what returns from bodies. Along
every run, whatever a dispatch reports carries the line of the instruction, which is that of the
statement whose span it is in. -/
theorem diagnostics_located {program : Program} {compiled : Compiled}
    (accepted : program.compile = .ok compiled) :
    compiled.code.marks.toList.Pairwise (·.offset ≤ ·.offset)
      ∧ ∃ spans stop, compiled.code.Spread compiled.pools program.main 0 stop spans
        ∧ compiled.code.Tells spans
        ∧ (∀ offset < compiled.code.size,
          (∃ span ∈ spans, span.Contains offset) ∨ compiled.code.Bracket offset)
        ∧ (Addressable program compiled →
          ∀ (config : Config) (input : List UInt8) (fuel : Nat) (machine : Machine),
          (Machine.boot config input compiled.pools).run compiled fuel = .running machine →
          Locates compiled machine (machine.advance compiled)
            ∧ ∀ span ∈ spans, span.Contains machine.registers.ip →
              machine.nextLine compiled = span.operation.line) := by
  obtain ⟨spans, stop, spread, returns, marks, -⟩ := spread_compiled accepted
  have forward : ∀ span ∈ spans, span.start ≤ span.stop :=
    fun span member => (spread.bounds.2 span member).2.1
  have tells := Code.tells_of_marks marks spread.ordered forward
  refine ⟨marks ▸ sorted_spans spread.ordered forward, spans, stop, spread, tells,
    fun offset inside => ?_, fun addressable config input fuel machine running => ⟨?_, ?_⟩⟩
  · by_cases entries : offset < stop
    · exact spread.covers (Nat.zero_le _) entries
    · exact .inr (returns.bracket (by simp [Command.IsBracket]) (by omega) inside)
  · exact locates_run accepted addressable config input fuel running
  · intro span member contains
    have recorded : compiled.code.marks.size = spans.length := by
      rw [← Array.length_toList, marks, List.length_map]
    rw [Machine.nextLine, tells.lineAt? member contains (Nat.le_of_eq recorded.symm),
      Option.getD_some]

theorem alternateLines_located :
    ∃ compiled, alternateLines.compile = .ok compiled ∧ Addressable alternateLines compiled
      ∧ ∃ spans, compiled.code.Tells spans
        ∧ ∀ (config : Config) (input : List UInt8) (fuel : Nat) (machine : Machine),
          (Machine.boot config input compiled.pools).run compiled fuel = .running machine →
          Locates compiled machine (machine.advance compiled)
            ∧ ∀ span ∈ spans, span.Contains machine.registers.ip →
              machine.nextLine compiled = span.operation.line := by
  obtain ⟨compiled, accepted⟩ := accepted_alternateLines
  have addressable := addressable_alternateLines accepted
  obtain ⟨-, spans, stop, -, tells, -, runs⟩ := diagnostics_located accepted
  exact ⟨compiled, accepted, addressable, spans, tells, runs addressable⟩

end ScopeMachine
