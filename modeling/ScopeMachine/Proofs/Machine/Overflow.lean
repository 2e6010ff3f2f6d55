import ScopeMachine.Proofs.Machine.Outcomes

set_option autoImplicit false

/-!
# Operands and searches without end

An operand is too long only while its extensions are read. What an instruction does with a whole
operand raises no fault about its length, whatever the machine holds. The only search that may have no
end is the one that starts in the scope of the receiver.
-/

namespace ScopeMachine

private theorem Fault.isUnbounded_staleHandle {stale : Stale} (ends : stale ≠ .endless) :
    (Fault.staleHandle stale).isUnbounded = false := by
  cases stale with
  | binding | scope => rfl
  | endless => exact absurd rfl ends

variable {α β : Type}

/-- No fault of the action is about the length of an operand or about parents without end. -/
def Measured (action : Action α) : Prop :=
  ∀ machine fault after, action machine = .error fault after → fault.isUnbounded = false

namespace Measured

variable {action : Action α} {next : α → Action β}

theorem pure (value : α) : Measured (Pure.pure value : Action α) := by
  rintro machine fault after ⟨⟩

theorem throw {fault : Fault} (other : fault.isUnbounded = false) :
    Measured (MonadExcept.throw fault : Action α) := by
  rintro machine fault after ⟨⟩
  exact other

theorem bind (first : Measured action) (second : ∀ value, Measured (next value)) :
    Measured (action >>= next) := by
  intro machine fault after result
  cases step : action machine with
  | ok value middle =>
    rw [Action.bind_of_ok step] at result
    exact second value middle fault after result
  | error raised middle =>
    rw [Action.bind_of_error step] at result
    cases result
    exact first machine fault after step

end Measured

section

variable {action : Action α} {next : α → Action β} {machine after : Machine} {fault : Fault}

private theorem Action.error_of_bind (result : (action >>= next) machine = .error fault after) :
    action machine = .error fault after
      ∨ ∃ value middle, action machine = .ok value middle ∧ next value middle = .error fault after := by
  cases first : action machine with
  | ok value middle => exact .inr ⟨value, middle, rfl, (bind_of_ok first).symm.trans result⟩
  | error raised last =>
    rw [bind_of_error first] at result
    cases result
    exact .inl rfl

/-- Behind what finds nothing too long, what is too long is found later. -/
theorem Measured.passes (measured : Measured action)
    (result : (action >>= next) machine = .error fault after) (unbounded : fault.isUnbounded = true) :
    ∃ value middle, action machine = .ok value middle ∧ next value middle = .error fault after := by
  obtain failed | passes := Action.error_of_bind result
  · cases (measured machine fault after failed).symm.trans unbounded
  · exact passes

end

/-! ## Instructions -/

namespace Action

private theorem measured_inspect {f : Heap → Except Stale α} (ends : ∀ heap, f heap ≠ .error .endless) :
    Measured (inspect f) := by
  intro machine fault after result
  have found := ends machine.heap
  unfold inspect at result
  split at result
  · cases result
  · next failed =>
    cases result
    rw [failed] at found
    exact Fault.isUnbounded_staleHandle (by simpa using found)

private theorem measured_attempt {f : Heap → Except Stale α × Heap}
    (ends : ∀ heap, (f heap).1 ≠ .error .endless) : Measured (attempt f) := by
  intro machine fault after result
  have found := ends machine.heap
  cases changes : f machine.heap with
  | mk outcome heap =>
    rw [changes] at found
    cases outcome with
    | ok value =>
      rw [attempt_of_ok changes] at result
      cases result
    | error stale =>
      rw [attempt_of_error changes] at result
      cases result
      exact Fault.isUnbounded_staleHandle (by simpa using found)

end Action

/-- What does not search along parents finds nothing too long. -/
theorem Built.measured {may : Footprint} {action : Action α} (built : Built may action)
    (climbs : ¬ may.climbs) : Measured action := by
  induction built with
  | pure value => exact .pure value
  | throw bounded => exact .throw bounded
  | bind _ _ first second => exact first.bind second
  | get _ _ second =>
    exact Measured.bind (by rintro machine fault after ⟨⟩) second
  | inspect ends => exact Action.measured_inspect ends
  | findInherited allowed => exact absurd allowed climbs
  | declare scope value => exact Action.measured_attempt fun _ => Heap.declare_ne_endless scope value
  | redeclare scope value =>
    exact Action.measured_attempt fun _ => Heap.redeclare_ne_endless scope value
  | copyScope _ source => exact Action.measured_attempt fun _ => Heap.copyScope_ne_endless source
  | releaseScope _ owner =>
    exact (Action.measured_attempt fun _ => Heap.releaseScope_ne_endless owner).bind fun _ => .pure _
  | freeScope _ owner =>
    exact (Action.measured_attempt fun _ => Heap.freeScope_ne_endless owner).bind fun _ => .pure _
  | pop | peek =>
    intro machine fault after result
    obtain ⟨_, _, stack, _⟩ := machine
    cases stack <;> cases result
    rfl
  | swap =>
    intro machine fault after result
    obtain ⟨_, _, stack, _⟩ := machine
    match stack with
    | [] | [_] =>
      cases result
      rfl
    | _ :: _ :: _ => cases result
  | readLine =>
    intro machine fault after result
    simp only [Machine.withConsole] at result
    split at result <;> cases result
    rfl
  | setLocalScopes | popFrame =>
    intro machine fault after result
    obtain ⟨_, _, _, frames, _⟩ := machine
    cases frames <;> cases result
    rfl
  | _ =>
    rintro machine fault after ⟨⟩

theorem Measured.of_built {action : Action α} (built : Built .shallow action) : Measured action :=
  built.measured id

namespace Action

/-- Instructions that do not look for a bare name find nothing too long. -/
theorem measured_step (names : NamePool) {opcode : Opcode} (operand : Nat)
    (other : opcode ≠ .resolveDirect) : Measured (step names opcode operand) :=
  (built_step names opcode operand).measured other

/-! ## Searches without end -/

section

variable {machine after : Machine} {fault : Fault}

private theorem resolveName_unbounded {name : String} (result : resolveName name machine = .error fault after)
    (unbounded : fault.isUnbounded = true) :
    fault = .staleHandle .endless ∧ ∃ scope, machine.heap.Refers machine.registers.receiver scope
      ∧ machine.heap.findInherited scope name = .error .endless := by
  obtain ⟨_, _, got, result⟩ := Measured.passes (.of_built (.view trivial)) result unbounded
  cases got
  obtain ⟨found, middle, searched, result⟩ := Measured.passes (.of_built (built_findImmediate _ _)) result unbounded
  obtain ⟨-, rfl⟩ := ok_of_inspect searched
  cases found with
  | some id => cases result
  | none =>
    obtain inherited | ⟨found, last, -, result⟩ := error_of_bind result
    · obtain ⟨value, middle, reads, climbs⟩ := Measured.passes (.of_built (built_binding _)) inherited unbounded
      obtain ⟨there, rfl⟩ := ok_of_binding reads
      cases refers : value.scope with
      | none =>
        rw [refers] at climbs
        cases climbs
      | some scope =>
        rw [refers] at climbs
        simp only [findInherited, inspect] at climbs
        split at climbs
        · cases climbs
        · next stale searches =>
          cases climbs
          cases stale with
          | binding | scope => cases unbounded
          | endless => exact ⟨rfl, scope, ⟨value, there, refers⟩, searches⟩
    · refine absurd unbounded (Bool.eq_false_iff.mp ?_)
      cases found with
      | some id => cases result
      | none => exact Measured.of_built (built_resolveFurther name middle) last fault after result

/-- An instruction finds nothing too long but the way along parents without end, from the scope of the
receiver. -/
theorem unbounded_step {names : NamePool} {opcode : Opcode} {operand : Nat}
    (result : step names opcode operand machine = .error fault after)
    (unbounded : fault.isUnbounded = true) :
    fault = .staleHandle .endless ∧ ∃ scope name,
      machine.heap.Refers machine.registers.receiver scope
        ∧ machine.heap.findInherited scope name = .error .endless := by
  by_cases search : opcode = .resolveDirect
  · subst search
    obtain fails | ⟨_, _, _, ends⟩ := error_of_bind result
    · obtain ⟨index, popped, pops, reads⟩ := Measured.passes (.of_built built_popName) fails unbounded
      obtain ⟨rest, -, rfl⟩ := ok_of_popName pops
      obtain ⟨name, middle, named, looks⟩ := Measured.passes (.of_built (built_poolName names index)) reads unbounded
      obtain rfl : middle = { machine with stack := rest } := by
        unfold poolName at named
        cases known : names.get? index <;> rw [known] at named <;> cases named
        rfl
      obtain resolves | ⟨_, _, _, pushes⟩ := error_of_bind looks
      · unfold resolveDirect at resolves
        cases word : Keyword.ofName? name with
        | some known =>
          simp only [word] at resolves
          cases (Measured.of_built (built_keyword known) _ _ _ resolves).symm.trans unbounded
        | none =>
          simp only [word] at resolves
          obtain ⟨same, scope, found⟩ := resolveName_unbounded resolves unbounded
          exact ⟨same, scope, name, found⟩
      · cases pushes
    · cases ends
  · cases (measured_step names operand search machine fault after result).symm.trans unbounded

end

end Action

end ScopeMachine
