import ScopeMachine.Proofs.Machine.Naming

set_option autoImplicit false

/-!
# Origins of stored values

Attributes, body and payload of a binding come from a binding that was stored before. Otherwise it has
no attributes and no body, or it is a method that was just made, or an array that just got attributes.
Only a copy, and the placing of a body, do more than that.
-/

namespace ScopeMachine

/-! ## Values -/

/-- Where a value comes from that is stored some changes after a heap. -/
inductive Binding.Origin (heap : Heap) (value : Binding) : Prop where
  | stored {source : Binding} (there : heap.Stored source) (scope : value.scope = source.scope)
      (body : value.body = source.body) (payload : value.payload = source.payload)
  | plain (scope : value.scope = none) (body : value.body = 0)
  | method (body : value.body = 0) (payload : value.payload = .absent)
  | array {target : Binding} (there : heap.Stored target) (tag : target.tag = .array)
      (bare : target.scope = none) (body : value.body = target.body)
      (payload : value.payload = target.payload)

/-- All values of the second heap come from the first one. -/
def Heap.Originates (before after : Heap) : Prop :=
  ∀ value, after.Stored value → value.Origin before

section

variable {start : Heap}

theorem Heap.Originates.refl (heap : Heap) : heap.Originates heap :=
  fun _ stored => .stored stored rfl rfl rfl

/-- The name, the type and constancy do not count. -/
private theorem Binding.Origin.of_same {value other : Binding} (origin : value.Origin start)
    (scope : other.scope = value.scope) (body : other.body = value.body)
    (payload : other.payload = value.payload) : other.Origin start := by
  cases origin with
  | stored there attributes section_ content =>
    exact .stored there (scope.trans attributes) (body.trans section_) (payload.trans content)
  | plain bare bodiless => exact .plain (scope.trans bare) (body.trans bodiless)
  | method bodiless empty => exact .method (body.trans bodiless) (payload.trans empty)
  | array there tag bare section_ content =>
    exact .array there tag bare (body.trans section_) (payload.trans content)

private theorem Heap.Originates.edit {licence : Licence} {before after : Machine}
    (ungrown : ¬ licence.grows) (unmarked : ¬ licence.marks) (edit : Edit licence before after)
    (originates : start.Originates before.heap) : start.Originates after.heap := by
  intro value found
  cases edit.stored found with
  | kept stored => exact originates _ stored
  | drawn drawn =>
    cases drawn with
    | plain scope body => exact .plain scope body
    | copy name stored => exact (originates _ stored).of_same rfl rfl rfl
    | furnished allowed => exact absurd allowed ungrown
    | method => exact .method rfl rfl
  | assigned there stored => exact (originates _ stored).of_same rfl rfl rfl
  | shared => exact .plain rfl rfl
  | furnished grows => exact absurd grows ungrown
  | marked allowed => exact absurd allowed unmarked

/-- All changes but those that make scopes for attributes, or change types and bodies. -/
def ungrown : Licence :=
  ⟨True, False, True, False, fun _ => True, fun _ => True, True, True, True, True⟩

private theorem Heap.Originates.editing {α : Type} {action : Action α} {machine : Machine}
    (originates : start.Originates machine.heap) (editing : Editing ungrown action) :
    start.Originates (Action.final (action machine)).heap := by
  have step {before after : Machine} (edit : Edit ungrown before after)
      (held : start.Originates before.heap) : start.Originates after.heap := held.edit id id edit
  exact (editing machine).keeps step originates

end

/-! ## Instructions -/

namespace Action

variable {α β : Type} {start : Heap} {machine : Machine}

private theorem originates_bind {action : Action α} {next : α → Action β}
    (first : start.Originates (final (action machine)).heap)
    (second : ∀ {value after}, action machine = .ok value after → start.Originates after.heap →
      start.Originates (final (next value after)).heap) :
    start.Originates (final ((action >>= next) machine)).heap := by
  cases result : action machine with
  | error fault after =>
    rw [bind_of_error result]
    rwa [result] at first
  | ok value after =>
    rw [bind_of_ok result]
    rw [result] at first
    exact second result first

private theorem originates_defineMethod (names : NamePool) (count : Nat) :
    machine.heap.Originates (final (defineMethod names count machine)).heap := by
  have popped := (Heap.Originates.refl machine.heap).editing (editing_popParameters names count [])
  apply originates_bind popped
  intro parameters after _ kept value stored
  rcases Heap.Stored.of_allocate stored with there | rfl
  · exact kept value there
  · exact .method rfl rfl

variable {array : BindingId} {target : Binding}

private theorem originates_elementScope (originates : start.Originates machine.heap)
    (there : machine.heap.bindings.get? array = some target) (stored : start.Stored target)
    (tag : target.tag = .array) : start.Originates (final (elementScope array machine)).heap := by
  unfold elementScope
  rw [bind_of_ok (binding_of_get? there)]
  cases attributes : target.scope with
  | some scope => exact originates
  | none =>
    let room := machine.heap.allocateScope { durable := true }
    let after : Machine := { machine with heap := room.2 }
    have opens : allocateScope { durable := true } machine = .ok room.1 after := rfl
    have found : after.heap.bindings.get? array = some target := there
    dsimp only
    rw [bind_of_ok opens, bind_of_ok (updateBinding_of_get? found _)]
    intro value kept
    rcases Heap.Stored.of_modifyBinding kept with known | ⟨source, known, rfl⟩
    · exact originates value known
    · cases found.symm.trans known
      exact .array stored tag attributes rfl rfl

private theorem originates_constructArray (originates : start.Originates machine.heap)
    (there : machine.heap.bindings.get? array = some target) (stored : start.Stored target)
    (tag : target.tag = .array) (arguments : List BindingId) :
    start.Originates (final (constructArray array arguments machine)).heap := by
  have reads := arraySize_reads arguments machine
  apply originates_bind (reads.symm ▸ originates)
  intro size after sized _
  rw [sized] at reads
  cases reads
  cases size with
  | none => exact originates.editing (editing_recover _)
  | some size =>
    apply originates_bind (originates_elementScope originates there stored tag)
    intro scope filled _ kept
    exact kept.editing ((editing_declareElements trivial trivial _ _).bind fun _ =>
      (editing_declare trivial trivial (drawn_ofPayload (.integer size) _)).bind
        fun _ => editing_push _)

private theorem originates_evaluate (count : Nat) :
    machine.heap.Originates (final (evaluate count machine)).heap := by
  have operands := (Heap.Originates.refl machine.heap).editing (editing_callOperands count)
  rw [evaluate_eq]
  apply originates_bind operands
  rintro ⟨caller, method, target, arguments⟩ after reads kept
  obtain ⟨-, -, there, same⟩ := callOperands_ok reads
  dsimp only
  split
  · next array =>
    rw [final_bind_pure]
    exact originates_constructArray kept (same ▸ there) ⟨method, there⟩ array arguments
  · exact kept.editing (editing_callMethod (fun _ => trivial) trivial caller method target arguments)

/-- Values come from before whatever the instruction is, unless it copies or sets a type or a body. -/
theorem originates_step (names : NamePool) {opcode : Opcode} (operand : Nat) (copies : opcode ≠ .copy)
    (types : opcode ≠ .bindType) (binds : opcode ≠ .bindSection) :
    machine.heap.Originates (final (step names opcode operand machine)).heap := by
  by_cases defines : opcode = .defineMethod
  · rw [defines, step, andNext, final_bind_pure]
    exact originates_defineMethod names operand
  by_cases calls : opcode = .evaluate
  · rw [calls]
    exact originates_evaluate operand
  apply (Heap.Originates.refl machine.heap).editing
  apply editing_step names opcode operand
  · intro _; trivial
  · rintro (copied | defined | called)
    · exact copies copied
    · exact defines defined
    · exact calls called
  · intro _; trivial
  · rintro (typed | bound)
    · exact types typed
    · exact binds bound
  all_goals intros; trivial

/-! ## Copies -/

/-- Attributes are copied with the parameters of the method that they are those of. -/
private theorem copyAttributes_ok {value : Binding} {scope : ScopeId} {after : Machine}
    (result : copyAttributes value machine = .ok scope after) :
    after.stack = machine.stack
      ∧ (∀ binding, after.heap.Stored binding → ∃ source, machine.heap.Stored source
        ∧ binding.scope = source.scope ∧ binding.body = source.body
        ∧ binding.payload = source.payload)
      ∧ ∀ source, value.scope = some source → ∃ found copied,
        machine.heap.scopes.get? source = some found ∧ after.heap.scopes.get? scope = some copied
          ∧ copied.parameters = found.parameters := by
  unfold copyAttributes at result
  cases attributes : value.scope with
  | none =>
    rw [attributes] at result
    cases result
    exact ⟨rfl, fun binding stored => ⟨binding, stored, rfl, rfl, rfl⟩, nofun⟩
  | some source =>
    rw [attributes] at result
    simp only [copyScope, attempt, Machine.withHeap] at result
    split at result
    · next made =>
      cases result
      obtain ⟨copy, rfl⟩ := Prod.mk.inj made
      refine ⟨rfl, fun binding stored => ?_, ?_⟩
      · rcases Heap.Stored.of_copyScope stored with there | ⟨source, there, rfl⟩
        · exact ⟨binding, there, rfl, rfl, rfl⟩
        · exact ⟨source, there, rfl, rfl, rfl⟩
      · rintro _ ⟨rfl⟩
        exact Heap.parameters_copyScope copy
    · cases result

/-- What a copy leaves: the copy in place of its source, and copies of attributes. -/
theorem step_copy_ok {names : NamePool} {operand : Nat} {transfer : Transfer} {after : Machine}
    (result : step names .copy operand machine = .ok transfer after) :
    ∃ source rest value copy scope, machine.stack = .binding source :: rest
      ∧ machine.heap.bindings.get? source = some value ∧ after.stack = .binding copy :: rest
      ∧ after.heap.bindings.get? copy = some { value with scope := some scope, constant := false }
      ∧ (∀ binding, after.heap.Stored binding →
        binding = { value with scope := some scope, constant := false } ∨ binding.Origin machine.heap)
      ∧ ∀ source, value.scope = some source → ∃ found copied,
        machine.heap.scopes.get? source = some found ∧ after.heap.scopes.get? scope = some copied
          ∧ copied.parameters = found.parameters := by
  simp only [step, andNext, bind_assoc] at result
  cases pops : popBinding machine with
  | error => rw [bind_of_error pops] at result; cases result
  | ok source popped =>
    rw [bind_of_ok pops] at result
    obtain ⟨stack, heap⟩ := popBinding_ok pops
    cases there : popped.heap.bindings.get? source with
    | none =>
      simp only [copyBinding, bind_assoc] at result
      rw [bind_of_error (binding_of_none there)] at result
      cases result
    | some value =>
      simp only [copyBinding, bind_assoc] at result
      rw [bind_of_ok (binding_of_get? there)] at result
      cases makes : copyAttributes value popped with
      | error => rw [bind_of_error makes] at result; cases result
      | ok scope made =>
        rw [bind_of_ok makes] at result
        obtain ⟨still, attributes, parameters⟩ := copyAttributes_ok makes
        cases result
        refine ⟨source, popped.stack, value, _, scope, stack, heap ▸ there,
          congrArg (_ :: ·) still, (Heap.get?_allocate _ _ _).trans (if_pos rfl), ?_, ?_⟩
        · intro binding stored
          rcases Heap.Stored.of_allocate stored with known | same
          · obtain ⟨origin, old, same, body, payload⟩ := attributes binding known
            exact .inr (.stored (heap ▸ old) same body payload)
          · exact .inl same
        · intro source refers
          obtain ⟨found, copied, held, copy, same⟩ := parameters source refers
          refine ⟨found, copied, heap ▸ held, ?_, same⟩
          exact (congrArg (·.get? scope) (Heap.scopes_allocate _ _)).trans copy

end Action

end ScopeMachine
