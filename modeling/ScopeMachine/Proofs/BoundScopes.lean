import ScopeMachine.Proofs.Machine.Enclosing
import ScopeMachine.Proofs.StaleHandles

set_option autoImplicit false

/-!
# Bound scopes

The scopes that bindings have their attributes in outlive blocks and inherit nothing, whatever code a
machine runs. So a block can be released without a binding that refers to it, and the search for a
name in the scope of the receiver is over after one level.
-/

namespace ScopeMachine

open Heap

/-! ## Dispatches -/

/-- A machine with a leveled heap, whose enclosing scopes were all given out. -/
structure Machine.Leveled (machine : Machine) : Prop where
  heap : ∃ rank, machine.heap.Leveled rank
  encloses : ∀ {scope}, machine.Encloses scope → machine.heap.Issued scope

def Machine.levels (machine : Machine) : Heap × List Frame × ScopeId × ScopeId :=
  (machine.heap, machine.frames, machine.registers.localScope, machine.programScope)

theorem Machine.Leveled.of_same {before after : Machine} (leveled : before.Leveled)
    (same : after.levels = before.levels) : after.Leveled := by
  simp only [Machine.levels, Prod.mk.injEq] at same
  obtain ⟨heap, frames, local_, program⟩ := same
  refine ⟨heap ▸ leveled.heap, fun encloses => ?_⟩
  unfold Machine.Encloses at encloses
  rw [program, local_, frames] at encloses
  rw [heap]
  exact leveled.encloses encloses

/-- A dispatch is that of an instruction, or leaves all levels as they are. -/
theorem Machine.levels_advance (machine : Machine) (compiled : Compiled) :
    (machine.advance compiled).machine.levels = machine.levels
      ∨ ∃ opcode operand, (machine.advance compiled).machine.levels
        = (Action.final (Action.step compiled.pools.names opcode operand
          (machine.fetch compiled.code))).levels := by
  unfold Machine.advance
  dsimp only
  split
  · exact .inl rfl
  · next instruction _ =>
    split
    · refine .inl ?_
      unfold Machine.extend
      split <;> rfl
    · refine .inr ⟨instruction.opcode,
        machine.registers.extended ||| instruction.operand.toNat, ?_⟩
      split <;> next result => rw [result]; rfl

namespace Action

variable (names : NamePool) (opcode : Opcode) (operand : Nat) {machine : Machine}

/-- An instruction makes scopes for attributes, frees scopes, or enters a block. -/
theorem levels_step (grounded : machine.heap.Grounded) :
    Widens machine.heap (final (step names opcode operand machine)).heap
      ∨ Narrows machine.heap (final (step names opcode operand machine)).heap
      ∨ opcode = .enterLocal := by
  by_cases enter : opcode = .enterLocal
  · exact .inr (.inr enter)
  by_cases frees : opcode = .leaveLocal ∨ opcode = .return
  · have editing : Editing
        ⟨False, False, True, False, fun _ => True, fun _ => True, True, True, True, True⟩
        (step names opcode operand) :=
      editing_step names opcode operand (fun opens => enter opens)
        (fun grows => by rcases frees with rfl | rfl <;> simp at grows) (fun _ => trivial)
        (fun marks => by rcases frees with rfl | rfl <;> simp at marks) (fun _ _ => trivial)
        (fun _ _ => trivial) (fun _ => trivial) (fun _ _ => trivial) (fun _ => trivial)
        fun _ => trivial
    exact .inr (.inl ((editing machine).keeps
      (fun edit (narrows : Narrows machine.heap _) => narrows.trans (edit.narrows id id))
      (Narrows.refl _)))
  · have editing : Editing
        ⟨False, True, False, True, fun _ => True, fun _ => True, True, True, True, True⟩
        (step names opcode operand) :=
      editing_step names opcode operand (fun opens => enter opens) (fun _ => trivial)
        (fun freed => frees freed) (fun _ => trivial) (fun _ _ => trivial) (fun _ _ => trivial)
        (fun _ => trivial) (fun _ _ => trivial) (fun _ => trivial) fun _ => trivial
    exact .inl ((editing machine).keeps
      (fun edit (widens : Widens machine.heap _) =>
        widens.trans (edit.widens id id (widens.grounded grounded))) (Widens.refl _))

/-- Every instruction keeps a machine leveled, as long as no generation begins anew. -/
theorem leveled_step (leveled : machine.Leveled)
    (onward : Onward machine.heap (final (step names opcode operand machine)).heap) :
    (final (step names opcode operand machine)).Leveled := by
  obtain ⟨rank, ranked⟩ := leveled.heap
  by_cases enter : opcode = .enterLocal
  · subst enter
    obtain ⟨heap, encloses⟩ := enterLocal_opens names operand machine
    refine ⟨heap ▸ ranked.opens (leveled.encloses (.inr (.inl rfl))), fun enclosing => ?_⟩
    rw [heap]
    obtain before | rfl := encloses enclosing
    · exact (leveled.encloses before).allocateScope _
    · exact .inl (liveScope_allocateScope.mpr (.inl rfl))
  · obtain ⟨after, issued⟩ : (final (step names opcode operand machine)).heap.Leveled rank
        ∧ ∀ {scope}, machine.heap.Issued scope →
          (final (step names opcode operand machine)).heap.Issued scope := by
      obtain widens | narrows | enters := levels_step names opcode operand ranked.grounded
      · exact ⟨ranked.widens onward widens, widens.issued onward⟩
      · exact ⟨ranked.narrows onward narrows, narrows.issued onward⟩
      · exact absurd enters enter
    refine ⟨⟨rank, after⟩, fun enclosing => ?_⟩
    obtain before | serves := focusing_step names operand enter machine enclosing
    · exact issued (leveled.encloses before)
    · exact after.served serves

/-- No instruction leaves a binding that refers to a block, be it still open or closed by it. -/
theorem unserved_step (grounded : machine.heap.Grounded) {scope : ScopeId}
    (fleeting : machine.heap.Fleeting scope) :
    ¬ (final (step names opcode operand machine)).heap.Serves scope := by
  obtain widens | narrows | rfl := levels_step names opcode operand grounded
  · exact (widens.grounded grounded).unserved (widens.fleeting fleeting)
  · exact fun serves => grounded.unserved fleeting (narrows.serves serves)
  · rintro ⟨id, refers⟩
    rw [(enterLocal_opens names operand machine).1] at refers
    exact grounded.unserved fleeting ⟨id, refers⟩

end Action

/-! ## Runs -/

private theorem Machine.leveled_boot (config : Config) (input : List UInt8) (pools : Pools) :
    (Machine.boot config input pools).Leveled := by
  have stocked := stocked_boot pools
  have lasts {scope : ScopeId} (serves : (storedConstants pools).2.1.Serves scope) :
      (storedConstants pools).2.1.Lasting scope := by
    obtain ⟨binding, refers⟩ := serves
    exact (stocked.guarded.refers refers).resolve_right id
  have level {scope parent : ScopeId}
      (inherits : (storedConstants pools).2.1.Inherits scope parent) : False := by
    obtain ⟨found, there, has⟩ := inherits
    cases (stocked.top there).symm.trans has
  rw [boot_eq]
  refine ⟨⟨fun _ => 0, fun scope serves _ => lasts serves, fun serves => .inl (lasts serves).liveScope,
    fun inherits => (level inherits).elim, fun inherits => (level inherits).elim⟩, ?_⟩
  rintro scope (rfl | rfl | ⟨frame, member, held⟩)
  · exact .inl stocked.program.liveScope
  · exact .inl stocked.program.liveScope
  · cases List.mem_singleton.mp member
    cases held

section

variable (compiled : Compiled) (config : Config) (input : List UInt8)

/-- As long as slots are freed seldom enough, their generations only grow. -/
theorem Machine.onward_run {fuel : Nat}
    (few : ∀ index, (Machine.boot config input compiled.pools).scopeReuses compiled index (fuel + 1)
      < 2 ^ 32) :
    Onward ((Machine.boot config input compiled.pools).run compiled fuel).machine.heap
      ((Machine.boot config input compiled.pools).run compiled (fuel + 1)).machine.heap := by
  intro index
  have first := generation_boot config input compiled.pools index
  have less : (Machine.boot config input compiled.pools).scopeReuses compiled index fuel
      ≤ (Machine.boot config input compiled.pools).scopeReuses compiled index (fuel + 1) :=
    Machine.scopeReuses_mono _ index (Nat.le_succ fuel)
  rw [UInt32.le_iff_toNat_le, Machine.generation_run first (few index),
    Machine.generation_run first (Nat.lt_of_le_of_lt less (few index))]
  exact less

theorem Machine.leveled_run (fuel : Nat)
    (few : ∀ index, (Machine.boot config input compiled.pools).scopeReuses compiled index fuel
      < 2 ^ 32) :
    ((Machine.boot config input compiled.pools).run compiled fuel).machine.Leveled := by
  induction fuel with
  | zero => exact Machine.leveled_boot config input compiled.pools
  | succ fuel ih =>
    have onward := Machine.onward_run compiled config input few
    have leveled := ih fun index => Nat.lt_of_le_of_lt
      ((Machine.boot config input compiled.pools).scopeReuses_mono index (Nat.le_succ fuel)) (few index)
    rw [Machine.run_succ] at onward ⊢
    cases reached : (Machine.boot config input compiled.pools).run compiled fuel with
    | finished result machine | failed line fault machine =>
      rw [reached] at leveled
      exact leveled
    | running machine =>
      rw [reached] at leveled onward
      obtain same | ⟨opcode, operand, same⟩ := machine.levels_advance compiled
      · exact leveled.of_same same
      · have ready : (machine.fetch compiled.code).Leveled := leveled.of_same rfl
        have heap : (machine.advance compiled).machine.heap = (Action.final (Action.step
            compiled.pools.names opcode operand (machine.fetch compiled.code))).heap :=
          congrArg Prod.fst same
        exact (Action.leveled_step _ opcode operand ready (heap ▸ onward)).of_same same

/-- In every state of every run, whatever the code: a scope that a binding refers to outlives blocks
and inherits nothing, if it is there, and the links to parents have no cycle. So no binding refers to
a block that is released, on its own or by a dispatch, and the search that starts at the receiver's
scope ends there, however many levels it may go up. -/
theorem bound_scopes_last (fuel : Nat)
    (few : ∀ index, (Machine.boot config input compiled.pools).scopeReuses compiled index fuel
      < 2 ^ 32) :
    let progress := (Machine.boot config input compiled.pools).run compiled fuel
    let machine := progress.machine
    (∀ id scope, machine.heap.Refers id scope → machine.heap.LiveScope scope →
        machine.heap.Lasting scope)
      ∧ (∀ scope, ¬ Relation.TransGen machine.heap.Inherits scope scope)
      ∧ (∀ scope, machine.heap.Fleeting scope →
        (∀ id, ¬ (machine.heap.releaseScope scope).2.Refers id scope)
          ∧ (progress = .running machine →
            ∀ id, ¬ (machine.advance compiled).machine.heap.Refers id scope))
      ∧ ∀ scope, machine.heap.Refers machine.registers.receiver scope →
        ∀ name, machine.heap.findInherited scope name = machine.heap.findImmediate scope name
          ∧ ∀ levels, machine.heap.findWithin name (levels + 1) scope
            = machine.heap.findImmediate scope name := by
  intro progress machine
  have leveled : machine.Leveled := Machine.leveled_run compiled config input fuel few
  obtain ⟨rank, ranked⟩ := leveled.heap
  refine ⟨fun id scope refers => ranked.grounded ⟨id, refers⟩, ranked.acyclic,
    fun scope fleeting => ⟨fun id refers => ?_, fun _ id refers => ?_⟩,
    fun scope refers name => ⟨ranked.findWithin ⟨_, refers⟩ name _, ranked.findWithin ⟨_, refers⟩ name⟩⟩
  · obtain ⟨count, after, releases, loses⟩ := releaseScope_of_fleeting fleeting
    rw [releases] at refers
    exact ranked.grounded.unserved fleeting ⟨id, (loses.refers_before refers).2⟩
  · obtain same | ⟨opcode, operand, same⟩ := machine.levels_advance compiled
    · have heap : (machine.advance compiled).machine.heap = machine.heap := congrArg Prod.fst same
      rw [heap] at refers
      exact ranked.grounded.unserved fleeting ⟨id, refers⟩
    · have heap : (machine.advance compiled).machine.heap = (Action.final (Action.step
          compiled.pools.names opcode operand (machine.fetch compiled.code))).heap :=
        congrArg Prod.fst same
      rw [heap] at refers
      have ready : (machine.fetch compiled.code).heap.Grounded := ranked.grounded
      exact Action.unserved_step _ opcode operand ready fleeting ⟨id, refers⟩

end

/-- In the method that a block has called, the block is still open. -/
theorem doubling_scopes_last :
    ∃ compiled, doubling.compile = .ok compiled
      ∧ (∀ index, (Machine.boot {} [] compiled.pools).scopeReuses compiled index 49 < 2 ^ 32)
      ∧ ∀ id scope, ((Machine.boot {} [] compiled.pools).run compiled 49).machine.heap.Refers id scope →
        ((Machine.boot {} [] compiled.pools).run compiled 49).machine.heap.LiveScope scope →
        ((Machine.boot {} [] compiled.pools).run compiled 49).machine.heap.Lasting scope := by
  obtain ⟨compiled, accepted⟩ := accepted_doubling
  have few (index : Nat) :
      (Machine.boot {} [] compiled.pools).scopeReuses compiled index 49 < 2 ^ 32 :=
    Machine.scopeReuses_lt _ compiled index (by decide)
  exact ⟨compiled, accepted, few, (bound_scopes_last compiled {} [] 49 few).1⟩

end ScopeMachine
