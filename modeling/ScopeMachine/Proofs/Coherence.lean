import Mathlib
import ScopeMachine.Program.Construct
import ScopeMachine.Proofs.Machine.Defining

set_option autoImplicit false

/-!
# Coherence

The type, the payload and the body of every binding agree. Bindings are made of others by copying and
by assigning, which takes a payload over but may keep a type; only a method that was just defined gets
a body. Main result: along every run of an accepted program all bindings are coherent.
-/

namespace ScopeMachine

open Assembly

/-- A binding with a payload has the type of the payload, one with a body is a method without a
payload, and one of the null type has neither. -/
structure Binding.Coherent (binding : Binding) : Prop where
  payload : binding.payload ≠ .absent → binding.tag = binding.payload.tag
  body : binding.body ≠ 0 → binding.tag = .method ∧ binding.payload = .absent
  null : binding.tag = .null → binding.payload = .absent ∧ binding.body = 0

/-- All bindings of a machine are coherent. -/
def Machine.Coherent (machine : Machine) : Prop :=
  ∀ binding, machine.heap.Stored binding → binding.Coherent

private theorem Payload.tag_eq_null {payload : Payload} : payload.tag = .null ↔ payload = .absent := by
  cases payload <;> simp [tag]

namespace Binding

/-- The type of its payload suits a binding without a body. -/
theorem coherent_of_tag {binding : Binding} (tag : binding.tag = binding.payload.tag)
    (body : binding.body = 0) : binding.Coherent where
  payload _ := tag
  body some := absurd body some
  null same := ⟨Payload.tag_eq_null.mp (tag.symm.trans same), body⟩

/-- Names, attributes and constancy do not count. -/
theorem Coherent.of_same {binding other : Binding} (coherent : binding.Coherent)
    (tag : other.tag = binding.tag) (body : other.body = binding.body)
    (payload : other.payload = binding.payload) : other.Coherent := by
  obtain ⟨own, method, null⟩ := coherent
  exact ⟨by rwa [tag, payload], by rwa [tag, body, payload], by rwa [tag, body, payload]⟩

/-- A null-typed source empties its target under whatever type it has. Any other source brings its
type along. -/
theorem Coherent.assign {target source : Binding} (coherent : source.Coherent) :
    (target.assign source).Coherent := by
  by_cases keeps : source.isNull && !target.isNull
  · simp only [Bool.and_eq_true, Bool.not_eq_true', isNull, decide_eq_true_eq,
      decide_eq_false_iff_not] at keeps
    obtain ⟨null, typed⟩ := keeps
    obtain ⟨empty, none⟩ := coherent.null null
    have tag : (target.assign source).tag = target.tag := by simp [Binding.assign, isNull, null, typed]
    exact ⟨fun present => absurd empty present, fun some => absurd none some,
      fun same => absurd (tag.symm.trans same) typed⟩
  · refine coherent.of_same ?_ rfl rfl
    simp only [Binding.assign]
    rw [if_neg keeps]

theorem Initial.coherent {binding : Binding} (initial : binding.Initial) : binding.Coherent := by
  obtain ⟨body, empty | shares⟩ := initial
  · exact ⟨fun present => absurd empty present, fun some => absurd body some, fun _ => ⟨empty, body⟩⟩
  · exact coherent_of_tag (congrArg Binding.tag shares) body

end Binding

/-! ## Changes -/

section

variable {licence : Licence} {before after : Machine} (all : before.Coherent)

include all

theorem Heap.Drawn.coherent {grows : Prop} {value : Binding} (drawn : before.heap.Drawn grows value) :
    value.Coherent := by
  cases drawn with
  | plain scope body tag constant => exact Binding.coherent_of_tag tag body
  | copy name stored => exact (all _ stored).of_same rfl rfl rfl
  | furnished allowed stored => exact (all _ stored).of_same rfl rfl rfl
  | method => exact ⟨fun present => absurd rfl present, fun some => absurd rfl some, nofun⟩

/-- Every change keeps bindings coherent that gives no type or body to a binding by itself. -/
theorem Machine.Coherent.edit (unmarked : ¬ licence.marks) (edit : Edit licence before after) :
    after.Coherent := by
  intro value found
  cases edit.stored found with
  | kept stored => exact all _ stored
  | drawn drawn => exact drawn.coherent all
  | assigned there stored => exact (all _ stored).assign
  | shared => exact Binding.coherent_of_tag rfl rfl
  | furnished grows stored => exact (all _ stored).of_same rfl rfl rfl
  | marked allowed => exact absurd allowed unmarked

/-- A body is given to a method that has none. -/
theorem Machine.Coherent.binds (presents : before.Presents) (names : NamePool) (body : Nat) :
    (Action.final (Action.step names .bindSection body before)).Coherent := by
  obtain ⟨id, scope, found, steps⟩ := presents.binds names body
  rw [steps]
  intro value stored
  obtain kept | ⟨source, there, rfl⟩ := Heap.Stored.of_modifyBinding stored
  · exact all _ kept
  · rw [found] at there
    cases there
    exact ⟨fun present => absurd rfl present, fun _ => ⟨rfl, rfl⟩, nofun⟩

end

/-! ## Runs -/

/-- A machine at a cell of a program, with coherent bindings. -/
def Agreeing (source : Program) : Assertion := fun offset cell machine =>
  Placed False source offset cell machine ∧ Defining source offset cell machine ∧ machine.Coherent

/-- All changes but those of types and bodies. -/
def unmarked : Licence :=
  ⟨True, True, True, False, fun _ => True, fun _ => True, True, True, True, True⟩

section

variable {source : Program} (valid : (program source).valid)

include valid

/-- Every instruction of a program keeps bindings coherent. -/
theorem coherent_step {offset : Nat} {cell : Cell} {machine : Machine}
    (stands : Stands (image source) offset cell) (defining : Defining source offset cell machine)
    (coherent : machine.Coherent) :
    (Action.final (Action.step (Pools.ofProgram source).names cell.command.opcode
      cell.command.operand machine)).Coherent := by
  by_cases binds : cell.command.opcode = .bindSection
  · rw [binds]
    exact coherent.binds (defining.method binds) _ _
  · have flat : False → source.wellShaped = true := False.elim
    have legal := ((Rigor.Suits.of flat).flows valid stands).legal
    have editing : Editing unmarked (Action.step (Pools.ofProgram source).names cell.command.opcode
        cell.command.operand) := by
      refine Action.editing_step _ _ _ (fun _ => trivial) (fun _ => trivial) (fun _ => trivial) ?_
        (fun _ _ => trivial) (fun _ _ => trivial) (fun _ => trivial) (fun _ _ => trivial)
        (fun _ => trivial) fun _ => trivial
      rintro (types | same)
      · simp [Legal, Command.Straight, types] at legal
      · exact binds same
    exact (editing machine).keeps (fun edit held => Machine.Coherent.edit held id edit) coherent

/-- Bindings are coherent where a program runs. -/
theorem kept_coherent :
    Kept (Pools.ofProgram source).names (image source) (Agreeing source)
      (fun _ machine => machine.Coherent) (fun _ machine => machine.Coherent) where
  moved ip extended extensions line := fun ⟨placed, defining, coherent⟩ =>
    ⟨(kept_placed (.of False.elim) valid).moved ip extended extensions line placed,
      ⟨defining.method, defining.returns⟩, coherent⟩
  step stands := fun ⟨placed, defining, coherent⟩ here => by
    have flat : False → source.wellShaped = true := False.elim
    have kept := coherent_step valid stands defining coherent
    refine ((kept_placed (.of flat) valid).step stands placed here).imp
      (fun result goes there placed_after => ⟨placed_after,
        defining_step flat valid stands placed defining here result goes there, ?_⟩)
      (fun result _ => ?_) fun result _ => ?_
    all_goals
      rw [result] at kept
      exact kept

/-- Bindings are coherent where a program starts. -/
theorem agreeing_boot (config : Config) (input : List UInt8) :
    (Agreeing source).At (image source) (Machine.boot config input (Pools.ofProgram source)) := by
  have flat : False → source.wellShaped = true := False.elim
  obtain ⟨cell, stands, placed⟩ := Assertion.at_boot.mp (placed_boot flat valid config input)
  refine Assertion.at_boot.mpr ⟨cell, stands, placed, defining_boot valid config input stands, ?_⟩
  rw [boot_eq]
  intro binding stored
  exact ((stocked_boot (Pools.ofProgram source)).initial stored).coherent

end

/-- Along every run of an accepted program, whatever is assigned, copied, passed and returned, each
binding that holds a payload has its type, each that has a body is a method without a payload, and
each of the null type has neither. -/
theorem run_coherent {program : Program} {compiled : Compiled}
    (accepted : program.compile = .ok compiled) (addressable : Addressable program compiled)
    (config : Config) (input : List UInt8) (fuel : Nat) (id : BindingId) (binding : Binding)
    (found : ((Machine.boot config input compiled.pools).run compiled
      fuel).machine.heap.bindings.get? id = some binding) : binding.Coherent := by
  obtain ⟨pools, -, -, valid⟩ := program.compile_ok accepted
  have kept := kept_coherent valid
  have start := agreeing_boot valid config input
  rw [← pools] at kept start
  have along := kept.run (encodes_image accepted addressable) start fuel
  suffices all : ((Machine.boot config input compiled.pools).run compiled fuel).machine.Coherent from
    all binding ⟨id, found⟩
  cases reached : (Machine.boot config input compiled.pools).run compiled fuel with
  | running machine =>
    rw [reached] at along
    obtain ⟨_, _, _, -, -, -, -, coherent⟩ := along
    exact coherent
  | finished result machine =>
    rw [reached] at along
    exact along
  | failed line fault machine =>
    rw [reached] at along
    obtain ⟨before, coherent, -, rfl⟩ := along
    exact coherent

/-- Gives a name a number, and then nothing. -/
def emptied : Program where
  main := [.statement (.assign (.name "x") (.integer 5)), .statement (.assign (.name "x") .nothing)]

private theorem addressable_emptied {compiled : Compiled} (accepted : emptied.compile = .ok compiled) :
    Addressable emptied compiled := by
  have code : size (image emptied) = 11 := by cbv
  have names : (Pools.ofProgram emptied).names.size = 1 := by cbv
  have constants : (Pools.ofProgram emptied).constants.size = 4 := by cbv
  refine addressable_of_image accepted (by decide) ?_ ?_ ?_
  · rw [code]
    decide
  · rw [names]
    decide
  · rw [constants]
    decide

/-- The name keeps the type of the number. -/
theorem emptied_coherent :
    ∃ compiled binding, emptied.compile = .ok compiled ∧ Addressable emptied compiled
      ∧ ((Machine.boot {} [] compiled.pools).run compiled 10).machine.heap.bindings.get? ⟨6, 0⟩
        = some binding
      ∧ binding.tag = .integer ∧ binding.payload = .absent ∧ binding.Coherent := by
  have found : emptied.bindingAfter? 10 ⟨6, 0⟩ = some { name := some "x", tag := .integer } := by cbv
  cases accepted : emptied.compile with
  | error => simp [Program.bindingAfter?, accepted] at found
  | ok compiled =>
    simp only [Program.bindingAfter?, accepted] at found
    have addressable := addressable_emptied accepted
    exact ⟨compiled, _, rfl, addressable, found, rfl, rfl,
      run_coherent accepted addressable {} [] 10 _ _ found⟩

end ScopeMachine
