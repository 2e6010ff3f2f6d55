import ScopeMachine.Proofs.Machine.Enclosing
import ScopeMachine.Proofs.Machine.Running

set_option autoImplicit false

/-!
# Slots that are used again

A slot that is freed has its generation moved on by one. Generations are words of 32 bits, so a handle
can come back only when the slot was freed 2 ^ 32 times. No dispatch frees the slot of a scope twice, so
this takes as many dispatches at least.
-/

namespace ScopeMachine

open Heap

/-! ## Dispatches -/

theorem Progress.heap_after (next : Nat) (result : EStateM.Result Fault Machine Transfer) :
    (Progress.after next result).machine.heap = (Action.final result).heap := by
  match result with
  | .ok .next _ | .ok (.goto _) _ | .ok (.halt _) _ | .error _ _ => rfl

/-- What a dispatch does to the heap, an instruction does, if anything. -/
theorem Machine.heap_advance (machine : Machine) (compiled : Compiled) :
    (machine.advance compiled).machine.heap = machine.heap
      ∨ ∃ opcode operand, machine.nextOpcode? compiled = some opcode
        ∧ machine.nextOperand? compiled = some operand
        ∧ (machine.advance compiled).machine.heap
          = (Action.final (Action.step compiled.pools.names opcode operand
              (machine.fetch compiled.code))).heap := by
  cases found : compiled.code.instructions[machine.registers.ip]? with
  | none =>
    refine .inl ?_
    simp only [Machine.advance, found, Progress.machine]
  | some instruction =>
    by_cases extends_ : instruction.opcode = .extendArgument
    · refine .inl ?_
      simp only [Machine.advance, found, if_pos extends_, Machine.extend]
      split <;> rfl
    · refine .inr ⟨_, _, by rw [Machine.nextOpcode?, found]; rfl, by rw [Machine.nextOperand?, found]; rfl,
        ?_⟩
      rw [Machine.advance_of_instruction found extends_, Progress.heap_after]

namespace Action

variable (names : NamePool) (opcode : Opcode) (operand : Nat) (machine : Machine)

/-- An instruction that frees scopes makes none. -/
theorem narrows_step (frees : opcode = .leaveLocal ∨ opcode = .return) :
    Narrows machine.heap (final (step names opcode operand machine)).heap := by
  have editing : Editing
      ⟨False, False, True, False, fun _ => True, fun _ => True, True, True, True, True⟩
      (step names opcode operand) :=
    editing_step names opcode operand (fun opens => by rcases frees with rfl | rfl <;> cases opens)
      (fun grows => by rcases frees with rfl | rfl <;> simp at grows) (fun _ => trivial)
      (fun marks => by rcases frees with rfl | rfl <;> simp at marks) (fun _ _ => trivial)
      (fun _ _ => trivial) (fun _ => trivial) (fun _ _ => trivial) (fun _ => trivial)
      fun _ => trivial
  exact (editing machine).keeps
    (fun edit (narrows : Narrows machine.heap _) => narrows.trans (edit.narrows id id))
    (Narrows.refl _)

/-- An instruction that frees no scope moves no generation on. -/
theorem generation_step_of_not_frees (frees : ¬ (opcode = .leaveLocal ∨ opcode = .return))
    (index : Nat) :
    (final (step names opcode operand machine)).heap.scopes.generation index
      = machine.heap.scopes.generation index := by
  by_cases enter : opcode = .enterLocal
  · subst enter
    rw [(enterLocal_opens names operand machine).1]
    exact machine.heap.scopes.generation_allocate _ index
  have editing : Editing
      ⟨False, True, False, True, fun _ => True, fun _ => True, True, True, True, True⟩
      (step names opcode operand) :=
    editing_step names opcode operand (fun opens => enter opens) (fun _ => trivial)
      (fun freed => frees freed) (fun _ => trivial) (fun _ _ => trivial) (fun _ _ => trivial)
      (fun _ => trivial) (fun _ _ => trivial) (fun _ => trivial) fun _ => trivial
  refine @Edits.keeps _ (fun after => after.heap.scopes.generation index
    = machine.heap.scopes.generation index) _ _ (editing machine) (fun edit same => ?_) rfl
  obtain still | ⟨made, -, -, -, still⟩ | ⟨freed, -⟩ := edit.scopes id
  · exact (still.generation index).trans same
  · exact ((still.generation index).trans (Arena.generation_allocate _ made index)).trans same
  · exact freed.elim

/-- No instruction moves a generation on by more than one. -/
theorem generation_step (index : Nat) :
    (final (step names opcode operand machine)).heap.scopes.generation index
        = machine.heap.scopes.generation index
      ∨ (final (step names opcode operand machine)).heap.scopes.generation index
        = machine.heap.scopes.generation index + 1 := by
  by_cases frees : opcode = .leaveLocal ∨ opcode = .return
  · have narrows := narrows_step names opcode operand machine frees
    refine (narrows.still index).imp_right ?_
    rintro ⟨scope, rfl, live, dead⟩
    obtain ⟨found, there⟩ := live
    rw [narrows.passed ⟨found, there⟩ dead, Arena.generation_of_get? _ there]
  · exact .inl (generation_step_of_not_frees names opcode operand machine frees index)

end Action

private theorem Machine.generation_advance (machine : Machine) (compiled : Compiled) (index : Nat) :
    (machine.advance compiled).machine.heap.scopes.generation index
        = machine.heap.scopes.generation index
      ∨ (machine.advance compiled).machine.heap.scopes.generation index
        = machine.heap.scopes.generation index + 1 := by
  obtain same | ⟨opcode, operand, -, -, same⟩ := machine.heap_advance compiled
  · exact .inl (by rw [same])
  · rw [same]
    exact Action.generation_step _ opcode operand (machine.fetch compiled.code) index

/-! ## Runs -/

section

variable {compiled : Compiled}

/-- How often the slot of a scope was freed within a number of dispatches. A release moves the
generation of its slot on by one, so it is read off the generations. -/
def Machine.scopeReuses (machine : Machine) (compiled : Compiled) (index : Nat) : Nat → Nat
  | 0 => 0
  | fuel + 1 => machine.scopeReuses compiled index fuel
    + ((machine.run compiled (fuel + 1)).machine.heap.scopes.generation index
      - (machine.run compiled fuel).machine.heap.scopes.generation index).toNat

/-- A slot that is freed seldom enough has the number of its releases as its generation. -/
theorem Machine.generation_run {machine : Machine} {index : Nat}
    (first : machine.heap.scopes.generation index = 0) {fuel : Nat}
    (few : machine.scopeReuses compiled index fuel < 2 ^ 32) :
    ((machine.run compiled fuel).machine.heap.scopes.generation index).toNat
      = machine.scopeReuses compiled index fuel := by
  induction fuel with
  | zero => exact congrArg UInt32.toNat first
  | succ fuel ih =>
    unfold Machine.scopeReuses at few ⊢
    have before := ih (by omega)
    have bound := ((machine.run compiled (fuel + 1)).machine.heap.scopes.generation index).toNat_lt
    rw [UInt32.toNat_sub] at few ⊢
    omega

theorem Machine.scopeReuses_mono (machine : Machine) (index : Nat) {fuel more : Nat}
    (less : fuel ≤ more) :
    machine.scopeReuses compiled index fuel ≤ machine.scopeReuses compiled index more := by
  induction more with
  | zero => exact Nat.le_of_eq (by rw [Nat.le_zero.mp less])
  | succ more ih =>
    obtain rfl | less := Nat.lt_or_eq_of_le less |>.symm
    · exact Nat.le_refl _
    · exact Nat.le_trans (ih (Nat.le_of_lt_succ less)) (Nat.le_add_right _ _)

/-- A slot is freed no more often than there are dispatches. -/
theorem Machine.scopeReuses_le (machine : Machine) (compiled : Compiled) (index fuel : Nat) :
    machine.scopeReuses compiled index fuel ≤ fuel := by
  induction fuel with
  | zero => exact Nat.le_refl 0
  | succ fuel ih =>
    refine Nat.add_le_add ih ?_
    rw [Machine.run_succ]
    cases machine.run compiled fuel with
    | running last =>
      change ((last.advance compiled).machine.heap.scopes.generation index
        - last.heap.scopes.generation index).toNat ≤ 1
      obtain same | next := last.generation_advance compiled index
      · rw [same, UInt32.sub_self]
        exact Nat.zero_le 1
      · rw [next, UInt32.add_comm, UInt32.add_sub_cancel]
        exact Nat.le_refl 1
    | finished | failed =>
      rw [UInt32.sub_self]
      exact Nat.zero_le 1

theorem Machine.scopeReuses_lt (machine : Machine) (compiled : Compiled) (index : Nat) {fuel : Nat}
    (short : fuel < 2 ^ 32) : machine.scopeReuses compiled index fuel < 2 ^ 32 :=
  Nat.lt_of_le_of_lt (machine.scopeReuses_le compiled index fuel) short

end

end ScopeMachine
