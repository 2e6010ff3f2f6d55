import ScopeMachine.Proofs.Diagnostics
import ScopeMachine.Proofs.Literals
import ScopeMachine.Proofs.Machine.Copied

set_option autoImplicit false

/-!
# Equality of integers

Equality compares two integers into a register and reads a bit of it. Inequality compares the bindings,
with the scopes of their attributes. The two disagree only about equal integers of which one is a copy,
or was made of one.
-/

namespace ScopeMachine

open Assembly

/-! ## Answers -/

private theorem Operator.equal_bit (order : Ordering) :
    (ComparisonBit.true.mask ||| comparisonMask order) &&& ComparisonBit.equal.mask ≠ 0
      ↔ order = .eq := by
  cases order <;> decide

theorem Binding.Coherent.integer {binding : Binding} (coherent : binding.Coherent) {number : Int64}
    (whole : binding.payload = .integer number) : binding.tag = .integer ∧ binding.body = 0 := by
  refine ⟨(coherent.payload (by simp [whole])).trans (congrArg Payload.tag whole), ?_⟩
  by_contra body
  have empty := (coherent.body body).2
  rw [whole] at empty
  cases empty

/-- Integers agree as bindings if they have the same value and the same scope. -/
theorem Binding.Coherent.same_integers {first second : Binding} (left : first.Coherent)
    (right : second.Coherent) {a b : Int64} (whole : first.payload = .integer a)
    (other : second.payload = .integer b) :
    first.same second = decide (a = b ∧ first.scope = second.scope) := by
  obtain ⟨tag, body⟩ := left.integer whole
  obtain ⟨otherTag, otherBody⟩ := right.integer other
  rw [Bool.eq_iff_iff, decide_eq_true_eq]
  simp only [Binding.same, tag, otherTag, body, otherBody, whole, other, Payload.same,
    Bool.and_eq_true, decide_eq_true_eq, beq_iff_eq, Payload.integer.injEq, true_and, and_true]
  exact and_comm

namespace Action

/-- A truth value is pushed as the constant that holds it. -/
theorem intern_boolean (machine : Machine)
    (found : ∀ {payload : Payload} {id : BindingId}, machine.interned[payload]? = some id →
      machine.heap.bindings.get? id = some payload.shared) (value : Bool) :
    ∃ id heap interned, intern (.boolean value) machine = .ok id { machine with heap, interned }
      ∧ heap.bindings.get? id = some (Payload.boolean value).shared := by
  have present : Payload.boolean value ≠ .absent := nofun
  cases known : machine.interned[Payload.boolean value]? with
  | some id =>
    refine ⟨id, machine.heap, machine.interned, ?_, found known⟩
    simp only [intern, Machine.withInterned, Machine.internIn_of_some present known]
  | none =>
    refine ⟨(machine.heap.allocate (Payload.boolean value).shared).1,
      (machine.heap.allocate (Payload.boolean value).shared).2,
      machine.interned.insert (.boolean value) (machine.heap.allocate (Payload.boolean value).shared).1,
      ?_, (Heap.get?_allocate _ _ _).trans (if_pos rfl)⟩
    simp only [intern, Machine.withInterned, Machine.internIn_of_none present known]

section

variable (machine : Machine) {left right : BindingId} {rest : List StackItem} {first second : Binding}
  (stack : machine.stack = .binding right :: .binding left :: rest)
  (there : machine.heap.bindings.get? left = some first)
  (other : machine.heap.bindings.get? right = some second)

include stack there other

/-- What two bindings are taken for continues with the bindings. -/
theorem operands_bind {α : Type} {next : Binding → Binding → Action α} :
    (do
      let right ← popBinding
      let left ← popBinding
      let left ← binding left
      let right ← binding right
      next left right) machine = next first second { machine with stack := rest } := by
  have pops {machine : Machine} {id : BindingId} {rest : List StackItem}
      (stack : machine.stack = .binding id :: rest) :
      popBinding machine = .ok id { machine with stack := rest } := by
    obtain ⟨_, _, _, _, _⟩ := machine
    cases stack
    rfl
  let taken : Machine := { machine with stack := rest }
  have reads : binding left taken = .ok first taken := binding_of_get? there
  have then_ : binding right taken = .ok second taken := binding_of_get? other
  have second : popBinding { machine with stack := .binding left :: rest } = .ok left taken :=
    pops rfl
  exact (bind_of_ok (pops stack)).trans ((bind_of_ok second).trans
    ((bind_of_ok reads).trans (bind_of_ok then_)))

private theorem equality_ok (found : ∀ {payload : Payload} {id : BindingId},
      machine.interned[payload]? = some id → machine.heap.bindings.get? id = some payload.shared)
    (wanted : Bool) :
    ∃ id heap interned, equality wanted machine
        = .ok () { machine with heap, interned, stack := .binding id :: rest }
      ∧ heap.bindings.get? id = some (Payload.boolean (first.same second == wanted)).shared := by
  obtain ⟨id, heap, interned, interns, holds⟩ :=
    intern_boolean { machine with stack := rest } found (first.same second == wanted)
  refine ⟨id, heap, interned, ?_, holds⟩
  rw [equality, operands_bind machine stack there other, bind_of_ok interns]
  rfl

private theorem compare_ok {a b : Int64} (whole : first.payload = .integer a)
    (integer : second.payload = .integer b) :
    compare machine = .ok () { machine with
      stack := rest
      registers := { machine.registers with comparison :=
        ComparisonBit.true.mask ||| Operator.comparisonMask (Ord.compare a.toInt b.toInt) } } := by
  rw [compare, operands_bind machine stack there other]
  simp only [Operator.compare, whole, integer]
  rfl

end

private theorem loadComparisonBit_ok (machine : Machine)
    (found : ∀ {payload : Payload} {id : BindingId}, machine.interned[payload]? = some id →
      machine.heap.bindings.get? id = some payload.shared) {operand : Nat} {bit : ComparisonBit}
    (selects : ComparisonBit.ofOperand? operand = some bit) :
    ∃ id heap interned, loadComparisonBit operand machine
        = .ok () { machine with heap, interned, stack := .binding id :: machine.stack }
      ∧ heap.bindings.get? id
        = some (Payload.boolean (machine.registers.comparison &&& bit.mask ≠ 0)).shared := by
  obtain ⟨id, heap, interned, interns, holds⟩ :=
    intern_boolean machine found (machine.registers.comparison &&& bit.mask ≠ 0)
  refine ⟨id, heap, interned, ?_, holds⟩
  have reads : registers machine = .ok machine.registers machine := rfl
  simp only [loadComparisonBit, selects]
  rw [bind_of_ok reads, bind_of_ok interns]
  rfl

end Action

/-- What a kind of operation does with two operands can come next. If it does, it puts a truth value in
place of the operands, without any report. -/
def Machine.Answers (machine : Machine) (compiled : Compiled) (kind : Kind) (rest : List StackItem)
    (holds : Prop) [Decidable holds] : Prop :=
  ∃ ending, kind.suffix? 2 = some ending
    ∧ (ending <+: compiled.code.instructions.toList.drop machine.registers.ip →
      ∃ answer after, machine.run compiled ending.length = .running after
        ∧ after.stack = .binding answer :: rest
        ∧ after.heap.bindings.get? answer = some (Payload.boolean (decide holds)).shared
        ∧ after.reports = machine.reports
        ∧ after.registers.ip = machine.registers.ip + ending.length)

private theorem instruction_of_next {compiled : Compiled} {ip index : Nat} {ending : List Instruction}
    (next : ending <+: compiled.code.instructions.toList.drop ip) (inside : index < ending.length) :
    compiled.code.instructions[ip + index]? = some ending[index] := by
  rw [← Array.getElem?_toList, ← List.getElem?_drop]
  exact List.prefix_iff_getElem?.mp next index inside

/-- A dispatch of an instruction that goes on with the next one. -/
theorem Machine.advance_of_ok {compiled : Compiled} {machine after : Machine} {instruction : Instruction}
    {action : Action Unit}
    (found : compiled.code.instructions[machine.registers.ip]? = some instruction)
    (whole : instruction.opcode ≠ .extendArgument)
    (does : Action.step compiled.pools.names instruction.opcode
      (machine.registers.extended ||| instruction.operand.toNat) = Action.andNext action)
    (result : action (machine.fetch compiled.code) = .ok () after) :
    machine.advance compiled = .running (after.goto (machine.registers.ip + 1)) := by
  rw [Machine.advance_of_instruction found whole, does, Action.andNext, Action.bind_of_ok result]
  rfl

section

variable {compiled : Compiled} {machine : Machine} {left right : BindingId} {rest : List StackItem}
  {first second : Binding} {a b : Int64}
  (shares : ∀ {payload : Payload} {id : BindingId}, machine.interned[payload]? = some id →
    machine.heap.bindings.get? id = some payload.shared)
  (stack : machine.stack = .binding right :: .binding left :: rest)
  (there : machine.heap.bindings.get? left = some first)
  (other : machine.heap.bindings.get? right = some second)
  (whole : first.payload = .integer a) (integer : second.payload = .integer b)

include shares stack there other whole integer

/-- Equality of two integers is that of their values. -/
theorem answers_isEqual : machine.Answers compiled .isEqual rest (a = b) := by
  have ending : Kind.suffix? .isEqual 2
      = some [{ opcode := .compare }, { opcode := .loadComparisonBit, operand := 2 }] := by
    decide +kernel
  refine ⟨_, ending, fun next => ?_⟩
  let fetched := machine.fetch compiled.code
  let bits := ComparisonBit.true.mask ||| Operator.comparisonMask (Ord.compare a.toInt b.toInt)
  let compared : Machine := Machine.goto
    { fetched with stack := rest, registers := { fetched.registers with comparison := bits } }
    (machine.registers.ip + 1)
  have compares : machine.advance compiled = .running compared :=
    Machine.advance_of_ok (instruction_of_next next Nat.two_pos) nofun rfl
      (Action.compare_ok fetched stack there other whole integer)
  have selects : ComparisonBit.ofOperand? (compared.registers.extended ||| (2 : UInt8).toNat)
      = some .equal := by
    rw [show compared.registers.extended = 0 from rfl]
    decide
  obtain ⟨id, heap, interned, loads, holds⟩ :=
    Action.loadComparisonBit_ok (compared.fetch compiled.code) shares selects
  have advances : compared.advance compiled = _ :=
    Machine.advance_of_ok (instruction_of_next next Nat.one_lt_two) nofun rfl loads
  have first : machine.run compiled 1 = .running compared :=
    (Machine.run_succ machine 0).trans compares
  have runs : machine.run compiled (1 + 1) = _ := (Machine.run_add compiled machine 1 1).trans
    ((congrArg (Progress.run compiled 1) first).trans ((Machine.run_succ compared 0).trans advances))
  refine ⟨id, _, runs, rfl, ?_, rfl, rfl⟩
  have equal : bits &&& ComparisonBit.equal.mask ≠ 0 ↔ a = b := by
    rw [Operator.equal_bit, compare_eq_iff_eq]
    exact Int64.toInt_inj
  exact holds.trans
    (congrArg (fun value => some (Payload.boolean value).shared) (decide_eq_decide.mpr equal))

/-- Inequality of two integers is that of their values and scopes. -/
theorem answers_isNotEqual (left : first.Coherent) (right : second.Coherent) :
    machine.Answers compiled .isNotEqual rest (a ≠ b ∨ first.scope ≠ second.scope) := by
  refine ⟨_, rfl, fun next => ?_⟩
  obtain ⟨id, heap, interned, answers, holds⟩ := Action.equality_ok
    (machine.fetch compiled.code) stack there other shares false
  have advances := Machine.advance_of_ok (instruction_of_next next Nat.one_pos) nofun rfl answers
  refine ⟨id, _, (Machine.run_succ machine 0).trans advances, rfl, ?_, rfl, rfl⟩
  have differ : (first.same second == false) = decide (a ≠ b ∨ first.scope ≠ second.scope) := by
    rw [left.same_integers right whole integer, Bool.eq_iff_iff]
    simp [← not_and_or]
  exact holds.trans (by rw [differ])

end

/-! ## Runs -/

/-- Along every run of a well-shaped program that is accepted, equality of two integers is true if they
have the same value. Inequality is true if they do not, and also if their attributes are in different
scopes. Neither reports anything. An integer has attributes only in a scope that an earlier dispatch
made for a copy of an integer. -/
theorem integers_compared {program : Program} {compiled : Compiled}
    (accepted : program.compile = .ok compiled) (shape : program.wellShaped = true)
    (addressable : Addressable program compiled) (config : Config) (input : List UInt8) (steps : Nat)
    {machine : Machine}
    (reached : (Machine.boot config input compiled.pools).run compiled steps = .running machine)
    {left right : BindingId} {rest : List StackItem} {first second : Binding} {a b : Int64}
    (stack : machine.stack = .binding right :: .binding left :: rest)
    (there : machine.heap.bindings.get? left = some first)
    (other : machine.heap.bindings.get? right = some second)
    (whole : first.payload = .integer a) (integer : second.payload = .integer b) :
    machine.Answers compiled .isEqual rest (a = b)
      ∧ machine.Answers compiled .isNotEqual rest (a ≠ b ∨ first.scope ≠ second.scope)
      ∧ ∀ scope, first.scope = some scope ∨ second.scope = some scope →
        ∃ earlier < steps, ∃ before,
          (Machine.boot config input compiled.pools).run compiled earlier = .running before
            ∧ before.CopiesInteger compiled scope := by
  obtain ⟨pools, -, -, valid⟩ := program.compile_ok accepted
  have start := abiding_boot shape valid config input
  rw [← pools] at start
  have retains := retains_run shape valid (encodes_image accepted addressable) pools start steps
  rw [reached] at retains
  obtain ⟨_, _, _, -, -, -, -, coherent⟩ := agreeing_run accepted addressable reached
  have confines := confines_run accepted addressable reached
  refine ⟨answers_isEqual retains.found stack there other whole integer,
    answers_isNotEqual retains.found stack there other whole integer (coherent _ ⟨left, there⟩)
      (coherent _ ⟨right, other⟩), fun scope refers => ?_⟩
  obtain refers | refers := refers
  · exact confines first ⟨left, there⟩ a scope whole refers
  · exact confines second ⟨right, other⟩ b scope integer refers

/-- Compares a copy of a number with the number in both ways. -/
def copiedNumber : Program where
  main := [
    .statement (.assign (.name "x") (.newObject (.integer 5))),
    .statement (.print (.binary .isEqual (.name "x") (.integer 5))),
    .statement (.print (.binary .isNotEqual (.name "x") (.integer 5)))]

private theorem addressable_copiedNumber {compiled : Compiled}
    (accepted : copiedNumber.compile = .ok compiled) : Addressable copiedNumber compiled := by
  have code : size (image copiedNumber) = 22 := by cbv
  have names : (Pools.ofProgram copiedNumber).names.size = 1 := by cbv
  have constants : (Pools.ofProgram copiedNumber).constants.size = 4 := by cbv
  refine addressable_of_image accepted (by decide) ?_ ?_ ?_
  · rw [code]
    decide
  · rw [names]
    decide
  · rw [constants]
    decide

/-- The operands of both comparisons: the number, and its copy with attributes of its own. -/
theorem copiedNumber_operands {compiled : Compiled} (accepted : copiedNumber.compile = .ok compiled)
    {steps : Nat} {opcode : Opcode} {machine : Machine}
    (reached : (Machine.boot {} [] compiled.pools).run compiled steps = .running machine)
    (shows : copiedNumber.operands? steps = some (some opcode, some 0,
      [.binding ⟨5, 0⟩, .binding ⟨6, 0⟩],
      [some { tag := .integer, payload := .integer 5, constant := true },
        some { name := some "x", tag := .integer, payload := .integer 5, scope := some ⟨4, 0⟩ }])) :
    ∃ first second, machine.nextOpcode? compiled = some opcode
      ∧ machine.stack = [.binding ⟨5, 0⟩, .binding ⟨6, 0⟩]
      ∧ machine.heap.bindings.get? ⟨6, 0⟩ = some first
      ∧ machine.heap.bindings.get? ⟨5, 0⟩ = some second
      ∧ first.payload = .integer 5 ∧ second.payload = .integer 5
      ∧ first.scope = some ⟨4, 0⟩ := by
  simp only [Program.operands?, accepted, reached, Progress.machine, Option.some.injEq,
    Prod.mk.injEq] at shows
  obtain ⟨next, -, stack, values⟩ := shows
  rw [stack] at values
  simp only [List.map_cons, List.cons.injEq] at values
  exact ⟨_, _, next, stack, values.2.1, values.1, rfl, rfl, rfl⟩

/-- The copy is equal to the number, and inequality is true as well. -/
theorem copiedNumber_differs :
    ∃ compiled machine after answer first second, copiedNumber.compile = .ok compiled
      ∧ copiedNumber.wellShaped = true ∧ Addressable copiedNumber compiled
      ∧ (Machine.boot {} [] compiled.pools).run compiled 18 = .running machine
      ∧ machine.nextOpcode? compiled = some .notEqual
      ∧ machine.stack = [.binding ⟨5, 0⟩, .binding ⟨6, 0⟩]
      ∧ machine.heap.bindings.get? ⟨6, 0⟩ = some first
      ∧ machine.heap.bindings.get? ⟨5, 0⟩ = some second
      ∧ first.payload = .integer 5 ∧ second.payload = .integer 5
      ∧ machine.advance compiled = .running after ∧ after.stack = [.binding answer]
      ∧ after.heap.bindings.get? answer = some (Payload.boolean true).shared := by
  have compares : copiedNumber.operands? 18 = some (some .notEqual, some 0,
      [.binding ⟨5, 0⟩, .binding ⟨6, 0⟩],
      [some { tag := .integer, payload := .integer 5, constant := true },
        some { name := some "x", tag := .integer, payload := .integer 5, scope := some ⟨4, 0⟩ }]) := by
    cbv
  have answers : (copiedNumber.dispatch? 18).map (fun step =>
      (step.2.stack, step.2.heap.bindings.get? ⟨8, 0⟩))
        = some ([.binding ⟨8, 0⟩], some (Payload.boolean true).shared) := by cbv
  cases accepted : copiedNumber.compile with
  | error => simp [Program.operands?, accepted] at compares
  | ok compiled =>
    simp only [Program.dispatch?, accepted] at answers
    cases reached : (Machine.boot {} [] compiled.pools).run compiled 18 with
    | finished | failed => simp [reached] at answers
    | running machine =>
      cases advances : machine.advance compiled with
      | finished | failed => simp [reached, advances] at answers
      | running after =>
        simp only [reached, advances, Option.map_some, Option.some.injEq, Prod.mk.injEq] at answers
        obtain ⟨first, second, next, stack, there, other, whole, integer, -⟩ :=
          copiedNumber_operands accepted reached compares
        exact ⟨compiled, machine, after, _, first, second, rfl, by decide,
          addressable_copiedNumber accepted, reached, next, stack, there, other, whole, integer,
          advances, answers.1, answers.2⟩

/-- The attributes of the copy were made for it. -/
theorem copiedNumber_compared :
    ∃ compiled machine first second, copiedNumber.compile = .ok compiled
      ∧ copiedNumber.wellShaped = true ∧ Addressable copiedNumber compiled
      ∧ (Machine.boot {} [] compiled.pools).run compiled 10 = .running machine
      ∧ machine.stack = [.binding ⟨5, 0⟩, .binding ⟨6, 0⟩]
      ∧ machine.heap.bindings.get? ⟨6, 0⟩ = some first
      ∧ machine.heap.bindings.get? ⟨5, 0⟩ = some second
      ∧ first.payload = .integer 5 ∧ second.payload = .integer 5
      ∧ machine.Answers compiled .isEqual [] ((5 : Int64) = 5)
      ∧ machine.Answers compiled .isNotEqual [] ((5 : Int64) ≠ 5 ∨ first.scope ≠ second.scope)
      ∧ ∃ earlier < 10, ∃ before,
        (Machine.boot {} [] compiled.pools).run compiled earlier = .running before
          ∧ before.CopiesInteger compiled ⟨4, 0⟩ := by
  have compares : copiedNumber.operands? 10 = some (some .compare, some 0,
      [.binding ⟨5, 0⟩, .binding ⟨6, 0⟩],
      [some { tag := .integer, payload := .integer 5, constant := true },
        some { name := some "x", tag := .integer, payload := .integer 5, scope := some ⟨4, 0⟩ }]) := by
    cbv
  have runs : (copiedNumber.dispatch? 10).isSome = true := by cbv
  cases accepted : copiedNumber.compile with
  | error => simp [Program.operands?, accepted] at compares
  | ok compiled =>
    have shape : copiedNumber.wellShaped = true := by decide
    have addressable := addressable_copiedNumber accepted
    simp only [Program.dispatch?, accepted] at runs
    cases reached : (Machine.boot {} [] compiled.pools).run compiled 10 with
    | finished | failed => simp [reached] at runs
    | running machine =>
      obtain ⟨first, second, -, stack, there, other, whole, integer, refers⟩ :=
        copiedNumber_operands accepted reached compares
      obtain ⟨equal, unequal, made⟩ := integers_compared accepted shape addressable {} [] 10 reached
        stack there other whole integer
      exact ⟨compiled, machine, first, second, rfl, shape, addressable, reached, stack, there, other,
        whole, integer, equal, unequal, made _ (.inl refers)⟩

end ScopeMachine
