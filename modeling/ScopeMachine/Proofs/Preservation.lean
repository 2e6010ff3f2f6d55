import ScopeMachine.Proofs.Structured.Labels

set_option autoImplicit false

/-!
# Compilation preserves meaning

The code of an accepted program does what the structured execution of the program does. One ends
exactly when the other does, with the same result, the same output and the same reports.
-/

namespace ScopeMachine

open Assembly Activity

/-- What can be seen of an execution that has ended: its result or its fault with the line, the heap
that the result lives in, the console, and the reports. -/
structure Ending where
  verdict : Except (Nat × Fault) (Option BindingId)
  heap : Heap
  console : Console
  reports : Array Report

def Machine.ending (machine : Machine) (verdict : Except (Nat × Fault) (Option BindingId)) : Ending :=
  ⟨verdict, machine.heap, machine.console, machine.reports⟩

def Progress.ending? : Progress → Option Ending
  | .running _ => none
  | .finished result machine => some (machine.ending (.ok result))
  | .failed line fault machine => some (machine.ending (.error (line, fault)))

/-- The end of a structured execution of a program, if it has ended. -/
def Outcome.ending? : Outcome → Option Ending
  | .finished result machine => some (machine.ending (.ok result))
  | .failed line fault machine => some (machine.ending (.error (line, fault)))
  | _ => none

/-! ## Bodies -/

section

variable {compiled : Compiled} {program : Program} (accepted : program.compile = .ok compiled)
  (addressable : Addressable program compiled)

include accepted addressable

private theorem follows_body {context : Context} (pools : context.pools = compiled.pools)
    (bodies : ∀ target ∈ Assembly.bodies program,
      Follows compiled (limits program) (context.fuel - 1) ⟨target, none⟩ none
        (context.methods target))
    {site : Site} {body : Block} (unowned : site.owner = none)
    (shape : Block.wellShaped body = true)
    (within : Within (image program) site.start ((entries context.pools body site).cells
      ++ [⟨⟨.return, 0⟩, (entries context.pools body site).line, 0, []⟩]))
    (valid : (entries context.pools body site).valid)
    (labels : ∀ method ∈ (entries context.pools body site).methods,
      context.label method.position = method.offset) :
    Follows compiled (limits program) context.fuel ⟨site.start, none⟩ none
      (context.body ⟨site.here, body⟩) := by
  have follows : Follows compiled (limits program) context.fuel ⟨site.start, none⟩ _ _ :=
    follows_entries accepted addressable pools (Nat.le_refl _) bodies body false (.inl unowned) shape
      within.left valid labels (by simp [Later])
  have returns : Follows compiled (limits program) context.fuel
      ⟨_, (entries context.pools body site).line⟩ none _ :=
    follows_leave accepted addressable within.right.head id rfl
  have behind := leave_entries context.pools body site
  unfold Context.body
  dsimp only
  rw [behind]
  exact follows.andThen returns

variable (shape : program.wellShaped = true)

include shape

private theorem follows_methods (fuel : Nat) :
    ∀ target ∈ Assembly.bodies program,
      Follows compiled (limits program) (fuel - 1) ⟨target, none⟩ none
        (program.methods (Assembly.label program) fuel target) := by
  obtain ⟨pools, -, -, valid⟩ := program.compile_ok accepted
  intro target member
  induction fuel generalizing target with
  | zero => exact fun machine _ _ _ _ _ => ⟨0, machine, Nat.le_refl _, rfl⟩
  | succ fuel ih =>
    obtain ⟨method, listed, rfl⟩ := List.mem_map.mp member
    have counts : True → program.wellShaped = true := fun _ => shape
    have laid := methods_image (.of counts) valid method listed
    have follows : Follows compiled (limits program)
        (program.context (Assembly.label program) fuel).fuel ⟨method.site.start, none⟩ none
        ((program.context (Assembly.label program) fuel).body ⟨method.site.here, method.body⟩) :=
      follows_body accepted addressable pools.symm ih rfl ((laid.suited trivial).shaped trivial) laid.within
        laid.valid fun inner member =>
          label_method valid (methods_inside _ _ _ method listed member)
    rw [Program.methods, find?_label valid listed]
    exact follows

private theorem follows_execute (fuel : Nat) :
    Follows compiled (limits program) fuel ⟨0, none⟩ none
      (program.execute (Assembly.label program) fuel) := by
  obtain ⟨pools, -, -, valid⟩ := program.compile_ok accepted
  have follows : Follows compiled (limits program)
      (program.context (Assembly.label program) fuel).fuel ⟨({} : Site).start, none⟩ none
      ((program.context (Assembly.label program) fuel).body ⟨({} : Site).here, program.main⟩) :=
    follows_body accepted addressable pools.symm (follows_methods accepted addressable shape fuel) rfl
      shape (within_image program) valid fun method member => label_method valid member
  exact follows

/-- Whatever fuel an execution gets, the run of the code ends as it does, or takes more steps than
the fuel. -/
theorem meets_execute (config : Config) (input : List UInt8) (fuel : Nat) :
    (∃ ending steps,
        (program.execute (Assembly.label program) fuel
          (Machine.boot config input compiled.pools)).ending? = some ending
        ∧ ((Machine.boot config input compiled.pools).run compiled steps).ending? = some ending)
      ∨ (program.execute (Assembly.label program) fuel
          (Machine.boot config input compiled.pools)).ending? = none
        ∧ ∃ steps machine, fuel ≤ steps
          ∧ (Machine.boot config input compiled.pools).run compiled steps = .running machine := by
  obtain ⟨pools, -, -, -⟩ := program.compile_ok accepted
  have sound := sound_boot program config input
  rw [← pools] at sound
  have met := follows_execute accepted addressable shape fuel
    (Machine.boot config input compiled.pools) (Machine.boot config input compiled.pools) 0 []
    ⟨rfl, ⟨rfl, rfl⟩, sound, _, rfl, rfl⟩ rfl
  cases outcome : program.execute (Assembly.label program) fuel
      (Machine.boot config input compiled.pools) with
  | done mirror =>
    rw [outcome] at met
    obtain ⟨spot, -, -, here, -⟩ := met
    cases here
  | returned mirror =>
    rw [outcome] at met
    obtain ⟨-, -, -, -, -, -, -, more, -⟩ := met
    exact absurd rfl more
  | finished result mirror =>
    rw [outcome] at met
    obtain ⟨steps, machine, comes, rfl⟩ := met
    have comes : (Machine.boot config input compiled.pools).run compiled steps = _ := comes
    exact .inl ⟨_, steps, rfl, by rw [comes]; rfl⟩
  | failed line fault mirror =>
    rw [outcome] at met
    obtain ⟨steps, machine, comes, rfl⟩ := met
    have comes : (Machine.boot config input compiled.pools).run compiled steps = _ := comes
    exact .inl ⟨_, steps, rfl, by rw [comes]; rfl⟩
  | exhausted =>
    rw [outcome] at met
    obtain ⟨steps, machine, enough, comes⟩ := met
    exact .inr ⟨rfl, steps, machine, enough, comes⟩

end

theorem ending_run {compiled : Compiled} {machine : Machine} {steps later : Nat} {ending : Ending}
    (ended : (machine.run compiled steps).ending? = some ending) (more : steps ≤ later) :
    (machine.run compiled later).ending? = some ending := by
  obtain ⟨rest, rfl⟩ := Nat.exists_eq_add_of_le more
  rw [machine.run_add]
  cases result : machine.run compiled steps with
  | running machine =>
    rw [result] at ended
    cases ended
  | finished value machine =>
    rw [result] at ended
    exact ended
  | failed line fault machine =>
    rw [result] at ended
    exact ended

/-- The code of a well-shaped program that is accepted does what its structured execution does. The
labels of the methods do not depend on the configuration or the input. -/
theorem run_preserves {program : Program} {compiled : Compiled}
    (accepted : program.compile = .ok compiled) (shape : program.wellShaped = true)
    (addressable : Addressable program compiled) :
    ∃ label, Labels program label ∧ ∀ (config : Config) (input : List UInt8) (ending : Ending),
      (∃ fuel, (program.execute label fuel
          (Machine.boot config input compiled.pools)).ending? = some ending)
        ↔ ∃ steps, ((Machine.boot config input compiled.pools).run compiled steps).ending?
          = some ending := by
  obtain ⟨-, -, -, valid⟩ := program.compile_ok accepted
  refine ⟨Assembly.label program, labels_program valid, fun config input ending => ⟨?_, ?_⟩⟩
  · rintro ⟨fuel, ended⟩
    obtain ⟨other, steps, same, comes⟩ | ⟨none, -⟩ :=
      meets_execute accepted addressable shape config input fuel
    · rw [ended] at same
      cases same
      exact ⟨steps, comes⟩
    · rw [ended] at none
      cases none
  · rintro ⟨steps, ended⟩
    obtain ⟨other, later, same, comes⟩ | ⟨-, later, machine, enough, comes⟩ :=
      meets_execute accepted addressable shape config input steps
    · have first := ending_run ended (Nat.le_max_left steps later)
      have second := ending_run comes (Nat.le_max_right steps later)
      rw [first] at second
      cases second
      exact ⟨steps, same⟩
    · have still := ending_run ended enough
      rw [comes] at still
      cases still

theorem alternateLines_preserved :
    ∃ compiled, alternateLines.compile = .ok compiled
      ∧ alternateLines.wellShaped = true
      ∧ Addressable alternateLines compiled
      ∧ ∃ label, Labels alternateLines label
        ∧ ∀ (config : Config) (input : List UInt8) (ending : Ending),
          (∃ fuel, (alternateLines.execute label fuel
              (Machine.boot config input compiled.pools)).ending? = some ending)
            ↔ ∃ steps, ((Machine.boot config input compiled.pools).run compiled steps).ending?
              = some ending := by
  obtain ⟨compiled, accepted⟩ := accepted_alternateLines
  have shape : alternateLines.wellShaped = true := by decide
  have addressable := addressable_alternateLines accepted
  exact ⟨compiled, accepted, shape, addressable, run_preserves accepted shape addressable⟩

end ScopeMachine
