import ScopeMachine.Proofs.Assembly.Signatures
import ScopeMachine.Proofs.Machine.Defining

set_option autoImplicit false

/-!
# Parameters of methods

A method gets the names that were loaded in front of it as its parameters, in the order in which they
were loaded. No jump, call or return leads to a place between the first of these names and the place
where the method gets its body. So the method on top there has the parameters of its definition.
-/

namespace ScopeMachine

open Assembly

/-! ## Making a method -/

namespace Action

variable {names : NamePool} {machine after : Machine}

private theorem stack_loadName {index : Nat} {transfer : Transfer}
    (result : step names .loadName index machine = .ok transfer after) :
    after.stack = .name index :: machine.stack := by
  by_cases inside : index < names.size
  · simp only [step, andNext, if_pos inside] at result
    cases result
    rfl
  · simp only [step, andNext, if_neg inside] at result
    cases result

/-- The names on the stack become parameters, the lowest one first. -/
private theorem popParameters_names {indices : List Nat} {listed more : List String}
    {rest : List StackItem} (found : indices.map names.get? = listed.map some)
    (stack : machine.stack = indices.map .name ++ rest) :
    popParameters names indices.length more machine
      = .ok (listed.reverse ++ more) { machine with stack := rest } := by
  induction indices generalizing machine listed more with
  | nil =>
    obtain rfl : listed = [] := List.map_eq_nil_iff.mp found.symm
    obtain ⟨_, _, _, _, _⟩ := machine
    cases stack
    rfl
  | cons index indices ih =>
    cases listed with
    | nil => cases found
    | cons name listed =>
      obtain ⟨first, others⟩ := List.cons.inj found
      have pops : popName machine = .ok index { machine with stack := indices.map .name ++ rest } := by
        have popped : pop machine
            = .ok (.name index) { machine with stack := indices.map .name ++ rest } := by
          simp [pop, stack]
        rw [popName, bind_of_ok popped]
        rfl
      have reads : poolName names index { machine with stack := indices.map .name ++ rest }
          = .ok name { machine with stack := indices.map .name ++ rest } := by
        simp only [poolName, first]
        rfl
      rw [List.length_cons, popParameters, bind_of_ok pops, bind_of_ok reads, ih others rfl,
        List.reverse_cons, List.append_assoc]
      rfl

end Action

/-- The binding on top of the stack is a method without a body, and its parameters are such. -/
def Machine.PresentsWith (machine : Machine) (holds : List String → Prop) : Prop :=
  ∃ id rest scope declared, machine.stack = .binding id :: rest
    ∧ machine.heap.bindings.get? id = some { tag := .method, scope := some scope }
    ∧ machine.heap.scopes.get? scope = some declared ∧ holds declared.parameters

private theorem Action.defineMethod_parameters {names : NamePool} {indices : List Nat}
    {listed : List String} {machine after : Machine} {rest : List StackItem}
    (found : indices.map names.get? = listed.map some)
    (stack : machine.stack = indices.reverse.map .name ++ rest)
    (defines : Action.defineMethod names indices.length machine = .ok () after) :
    after.PresentsWith (· = listed) := by
  have reversed : indices.reverse.map names.get? = listed.reverse.map some := by
    rw [List.map_reverse, found, List.map_reverse]
  have pops : Action.popParameters names indices.reverse.length [] machine
      = .ok (listed.reverse.reverse ++ []) { machine with stack := rest } :=
    Action.popParameters_names reversed stack
  rw [List.length_reverse, List.reverse_reverse, List.append_nil] at pops
  rw [Action.defineMethod, Action.bind_of_ok pops] at defines
  cases defines
  let made : Scope := { parameters := listed, durable := true }
  have there : (machine.heap.allocateScope made).2.scopes.get? (machine.heap.allocateScope made).1
      = some made := (Heap.get?_allocateScope _ _ _).trans (if_pos rfl)
  rw [← Heap.scopes_allocate _ { tag := .method, scope := some (machine.heap.allocateScope made).1 }]
    at there
  exact ⟨_, _, _, made, rfl, (Heap.get?_allocate _ _ _).trans (if_pos rfl), there, rfl⟩

/-! ## Arrivals -/

/-- No name is loaded right in front of an offset. -/
def Unloaded (code : List Cell) (offset : Nat) : Prop :=
  ∀ place cell, Stands code place cell → place + cell.command.width = offset →
    cell.command.opcode ≠ .loadName

/-- What holds of a machine that comes to a cell: the names loaded in front of it are on the stack, and
where a body is given, the method on top has parameters that its definition lists. -/
structure ParametersLoaded (source : Program) (offset : Nat) (cell : Cell) (machine : Machine) :
    Prop where
  names : ∀ indices, Precedes (image source) (loads indices) offset →
    ∃ rest, machine.stack = indices.reverse.map .name ++ rest
  method : cell.command.opcode = .bindSection →
    machine.PresentsWith (source.Defines cell.command.operand)
  returns : ∀ frame ∈ machine.frames, Unloaded (image source) frame.returnAddress

section

variable {source : Program} {offset target : Nat} {cell found : Cell} {machine after : Machine}

private theorem Unloaded.empty (unloaded : Unloaded (image source) offset) {indices : List Nat}
    (precedes : Precedes (image source) (loads indices) offset) : indices = [] := by
  rcases List.eq_nil_or_concat indices with rfl | ⟨front, index, rfl⟩
  · rfl
  · rw [loads, List.concat_eq_append, List.map_append] at precedes
    obtain ⟨place, cell, stands, command, ends, -⟩ := precedes.last
    rw [← command] at ends
    exact absurd (congrArg Command.opcode command) (unloaded place cell stands ends)

/-- Nothing but the loading of a name is right behind it. -/
private theorem unloaded_behind (stands : Stands (image source) offset cell)
    (other : cell.command.opcode ≠ .loadName) :
    Unloaded (image source) (offset + cell.command.width) := by
  intro place before there ends
  cases stands.ends_unique there ends.symm
  exact other

/-- What is loaded is there also behind one more instruction. -/
private theorem names_next (stands : Stands (image source) offset cell)
    (loaded : ParametersLoaded source offset cell machine) {transfer : Transfer}
    (result : Action.step (Pools.ofProgram source).names cell.command.opcode cell.command.operand
      machine = .ok transfer after) {indices : List Nat}
    (precedes : Precedes (image source) (loads indices) (offset + cell.command.width)) :
    ∃ rest, after.stack = indices.reverse.map .name ++ rest := by
  rcases List.eq_nil_or_concat indices with rfl | ⟨front, index, rfl⟩
  · exact ⟨after.stack, rfl⟩
  · rw [loads, List.concat_eq_append, List.map_append] at precedes
    obtain ⟨place, last, there, command, ends, earlier⟩ := precedes.last
    rw [← command] at ends
    cases stands.ends_unique there ends.symm
    obtain rfl : place = offset := by omega
    obtain ⟨rest, stack⟩ := loaded.names front earlier
    rw [command] at result
    have pushed := Action.stack_loadName result
    rw [stack] at pushed
    exact ⟨rest, by simp [pushed]⟩

variable (valid : (program source).valid)

include valid

/-- The method that a definition makes has the parameters that the definition lists. -/
private theorem method_next (stands : Stands (image source) offset cell)
    (loaded : ParametersLoaded source offset cell machine) {transfer : Transfer}
    (result : Action.step (Pools.ofProgram source).names cell.command.opcode cell.command.operand
      machine = .ok transfer after)
    (there : Stands (image source) (offset + cell.command.width) found)
    (binds : found.command.opcode = .bindSection) :
    after.PresentsWith (source.Defines found.command.operand) := by
  obtain ⟨definition, member, introduces⟩ := introduces_image valid there binds
  obtain ⟨kind, own, known, precedes⟩ := introduces
  have defines : definition? (Pools.ofProgram source) definition = some own := by
    rwa [statement?, role_eq_definition.mpr kind] at known
  obtain ⟨front, indices, rfl, names⟩ := definition?_loads (Pools.sound_ofProgram source) defines
  obtain ⟨place, last, here, command, ends, earlier⟩ := precedes.last
  rw [← command] at ends
  cases stands.ends_unique here ends.symm
  obtain rfl : place = offset := by omega
  obtain ⟨rest, stack⟩ := loaded.names indices earlier.suffix
  rw [command, Action.step, Action.andNext] at result
  cases made : Action.defineMethod (Pools.ofProgram source).names indices.length machine with
  | error fault middle =>
    rw [Action.bind_of_error made] at result
    cases result
  | ok value middle =>
    rw [Action.bind_of_ok made] at result
    cases result
    obtain ⟨id, under, scope, declared, top, method, scopes, listed⟩ :=
      Action.defineMethod_parameters names stack made
    have command : found.command = ⟨.bindSection, found.command.operand⟩ := by rw [← binds]
    exact ⟨id, under, scope, declared, top, method, scopes, definition, member, listed.symm, _, found,
      ⟨kind, _, known, precedes⟩, there, command⟩

variable (shape : source.wellShaped = true)

include shape

/-- Where a stack is known to be empty, no name was loaded last. -/
private theorem unloaded_of_leads {depth : Nat}
    (leads : Leads (Rigor.of True) (image source) target depth []) : Unloaded (image source) target := by
  intro place before stands ends load
  have counts : True → source.wellShaped = true := fun _ => shape
  have flows := (Rigor.Suits.of counts).flows valid stands
  obtain ⟨next, there, -, covers⟩ := (flows.next (by simp [load]) (by simp [load])).covers trivial
  obtain ⟨other, again, -, empty⟩ := leads.covers trivial
  rw [ends] at there
  have wide := next.command.width_pos
  obtain ⟨-, rfl⟩ := there.unique again (Nat.le_refl _) (by omega)
  obtain ⟨⟨opcode, operand⟩, line, deep, kinds⟩ := before
  cases load
  obtain ⟨command, line, deep, upper⟩ := other
  cases upper with
  | nil => exact covers
  | cons => exact empty

/-- Every instruction of a program keeps this. -/
theorem parametersLoaded_step {transfer : Transfer} (stands : Stands (image source) offset cell)
    (placed : Placed True source offset cell machine) (defining : Defining source offset cell machine)
    (loaded : ParametersLoaded source offset cell machine)
    (here : machine.registers.ip = offset + extensionCount cell.command.operand)
    (result : Action.step (Pools.ofProgram source).names cell.command.opcode cell.command.operand
      machine = .ok transfer after)
    (goes : transfer = .next ∧ target = offset + cell.command.width ∨ transfer = .goto target)
    (there : Stands (image source) target found) : ParametersLoaded source target found after := by
  have counts : True → source.wellShaped = true := fun _ => shape
  have suits := Rigor.Suits.of counts
  have flows := suits.flows valid stands
  have returns := loaded.returns
  -- At a place that a jump, a call or a return leads to, nothing is loaded and no body is given.
  have arrives (unloaded : Unloaded (image source) target) (lands : Lands (image source) target)
      (frames : ∀ frame ∈ after.frames, Unloaded (image source) frame.returnAddress) :
      ParametersLoaded source target found after :=
    ⟨fun indices precedes => ⟨after.stack, by rw [unloaded.empty precedes]; rfl⟩,
      fun binds => absurd binds (lands found there), frames⟩
  cases moves_step flows placed result with
  | stays passes frames still =>
    have frames : ∀ frame ∈ after.frames, Unloaded (image source) frame.returnAddress := by
      rw [still]
      rw [frames] at returns
      exact List.forall_mem_cons.mpr (List.forall_mem_cons.mp returns)
    rcases passes with ⟨rfl, -⟩ | ⟨rfl, jumps⟩
    · rcases goes with ⟨-, rfl⟩ | wrong
      · exact ⟨fun indices precedes => names_next stands loaded result precedes,
          method_next valid stands loaded result there, frames⟩
      · cases wrong
    · rcases goes with ⟨wrong, -⟩ | same
      · cases wrong
      · cases same
        have leads := flows.target jumps
        rw [flows.level jumps trivial] at leads
        exact arrives (unloaded_of_leads valid shape leads) (lands_target valid stands jumps) frames
  | calls opcode room frames address =>
    have behind : Unloaded (image source) (machine.registers.ip + 1) := by
      rw [here, Nat.add_assoc]
      exact unloaded_behind stands (by simp [opcode])
    have frames : ∀ frame ∈ after.frames, Unloaded (image source) frame.returnAddress := by
      rw [frames]
      exact List.forall_mem_cons.mpr ⟨address ▸ behind, returns⟩
    rw [opcode] at result
    rcases Action.evaluate_spec (.head _) cell.command.operand placed.1 with
      ⟨_, _, ended, -⟩ | ⟨_, ended, -⟩ | ⟨body, _, _, ended, -, member, bound, -⟩
    · rw [Action.step, ended] at result
      cases result
    · rw [Action.step, ended] at result
      cases result
    · rw [Action.step, ended] at result
      cases result
      rcases goes with ⟨wrong, -⟩ | same
      · cases wrong
      · cases same
        exact arrives (unloaded_of_leads valid shape (leads_sections suits valid member bound))
          (lands_section valid member bound) frames
  | returns opcode frames back =>
    have lands := defining.returns
    rw [frames] at returns lands
    rcases goes with ⟨wrong, -⟩ | same
    · cases wrong
    · cases same
      exact arrives (returns _ (.head _)) (lands _ (.head _)) (back ▸ fun frame member =>
        returns frame (.tail _ member))
  | halts opcode =>
    rcases goes with ⟨wrong, -⟩ | wrong <;> cases wrong

omit shape in
/-- It holds where a program starts. -/
private theorem parametersLoaded_boot (config : Config) (input : List UInt8)
    (stands : Stands (image source) 0 cell) :
    ParametersLoaded source 0 cell (Machine.boot config input (Pools.ofProgram source)) := by
  have unloaded : Unloaded (image source) 0 := by
    intro place before there ends
    have wide := before.command.width_pos
    omega
  refine ⟨fun indices precedes => ?_, fun binds => absurd binds (lands_start valid cell stands), ?_⟩
  · rw [unloaded.empty precedes]
    exact ⟨_, rfl⟩
  · rw [boot_eq]
    exact List.forall_mem_singleton.mpr unloaded

/-- A machine at a cell of a well-shaped program, with what was loaded. -/
def Loaded (source : Program) : Assertion := fun offset cell machine =>
  Placed True source offset cell machine ∧ Defining source offset cell machine
    ∧ ParametersLoaded source offset cell machine

/-- What is loaded is on the stack wherever a program runs. -/
theorem kept_loaded :
    Kept (Pools.ofProgram source).names (image source) (Loaded source) (fun _ _ => True)
      (fun _ _ => True) where
  moved ip extended extensions line := fun ⟨placed, defining, loaded⟩ =>
    ⟨(kept_placed (.of fun _ => shape) valid).moved ip extended extensions line placed,
      ⟨defining.method, defining.returns⟩, loaded.names, loaded.method, loaded.returns⟩
  step stands := fun ⟨placed, defining, loaded⟩ here => by
    have counts : True → source.wellShaped = true := fun _ => shape
    refine ((kept_placed (.of counts) valid).step stands placed here).imp
      (fun result goes there placed_after => ⟨placed_after, ?_, ?_⟩) (fun _ _ => trivial)
      fun _ _ => trivial
    · exact defining_step counts valid stands placed defining here result goes there
    · exact parametersLoaded_step valid shape stands placed defining loaded here result goes there

theorem loaded_boot (config : Config) (input : List UInt8) :
    (Loaded source).At (image source) (Machine.boot config input (Pools.ofProgram source)) := by
  have counts : True → source.wellShaped = true := fun _ => shape
  obtain ⟨cell, stands, placed⟩ := Assertion.at_boot.mp (placed_boot counts valid config input)
  exact Assertion.at_boot.mpr ⟨cell, stands, placed, defining_boot valid config input stands,
    parametersLoaded_boot valid config input stands⟩

end

end ScopeMachine
