import ScopeMachine.Proofs.CallBracket
import ScopeMachine.Proofs.Reuses

set_option autoImplicit false

/-!
# Stale handles

A return frees the method copy that it leaves, with its scope. Where a binding that outlives the call
still refers to the scope, the scope is stranded. Only stranded scopes are ever found stale: all that
a running machine holds is there, and so is all that its scopes own.
-/

namespace ScopeMachine

open Assembly Heap

/-! ## Dispatches -/

/-- A dispatch strands a scope: it is the return from the method that the scope belongs to, and frees
the scope while a binding still refers to it. -/
structure Strands (compiled : Compiled) (before : Machine) (scope : ScopeId) : Prop where
  returns : before.nextOpcode? compiled = some .return
  own : ∃ frame, before.frames.head? = some frame ∧ frame.methodScope = some scope
  live : before.heap.LiveScope scope
  stranded : (before.advance compiled).machine.heap.Stranded scope

/-- What counts as lost after a dispatch is gone, and has all that was lost before and all that the
dispatch strands. -/
structure Losing (compiled : Compiled) (before : Machine) (lost more : ScopeId → Prop) : Prop where
  implies : ∀ {scope}, lost scope → more scope
  dead : ∀ {scope}, more scope → ¬ (before.advance compiled).machine.heap.LiveScope scope
  stranded : ∀ {scope}, Strands compiled before scope → more scope

/-- A machine at a cell of a well-shaped program, with all that it holds in order. -/
def PlacedInOrder (lost : ScopeId → Prop) (source : Program) : Assertion := fun offset cell machine =>
  Placed True source offset cell machine ∧ InOrderAtCell lost source offset cell machine

section

variable {lost more : ScopeId → Prop} {source : Program}

theorem InOrder.moved {kinds : Shape} {machine : Machine} (inOrder : InOrder lost kinds machine)
    (ip extended extensions line : Nat) :
    InOrder lost kinds (machine.moved ip extended extensions line) :=
  ⟨inOrder.fits, inOrder.order.rearranged inOrder.order.items fun _ _ => rfl, inOrder.values,
    ⟨inOrder.focused.caller, inOrder.focused.receiver, inOrder.focused.lastResult,
      inOrder.focused.localScope⟩, inOrder.attached⟩

theorem InOrderAtCell.moved {offset : Nat} {cell : Cell} {machine : Machine}
    (atCell : InOrderAtCell lost source offset cell machine) (ip extended extensions line : Nat) :
    InOrderAtCell lost source offset cell (machine.moved ip extended extensions line) := by
  obtain ⟨kinds, spans, inOrder⟩ := atCell
  exact ⟨kinds, spans, inOrder.moved ip extended extensions line⟩

theorem InOrderAtCell.mono {offset : Nat} {cell : Cell} {machine : Machine}
    (atCell : InOrderAtCell lost source offset cell machine)
    (implies : ∀ {scope}, lost scope → more scope)
    (dead : ∀ {scope}, more scope → ¬ machine.heap.LiveScope scope) :
    InOrderAtCell more source offset cell machine := by
  obtain ⟨kinds, spans, inOrder⟩ := atCell
  exact ⟨kinds, spans, inOrder.mono implies dead⟩

theorem Stopped.mono {fault : Fault} {machine : Machine} (stopped : Stopped lost fault machine)
    (implies : ∀ {scope}, lost scope → more scope) : Stopped more fault machine :=
  ⟨stopped.intact, stopped.lastResult, Excused.mono stopped.excused implies⟩

/-- More scopes may count as lost after an instruction, if they are gone. -/
theorem Upheld.mono {next : Nat} {result : EStateM.Result Fault Machine Transfer}
    (upheld : Upheld lost source next result) (implies : ∀ {scope}, lost scope → more scope)
    (dead : ∀ {scope}, more scope → ¬ (Action.final result).heap.LiveScope scope) :
    Upheld more source next result := by
  have arrives {offset : Nat} {machine : Machine}
      (dead : ∀ {scope}, more scope → ¬ machine.heap.LiveScope scope)
      (arrives : (InOrderAtCell lost source).Arrives (image source) offset machine) :
      (InOrderAtCell more source).Arrives (image source) offset machine := by
    obtain ⟨cell, stands, atCell⟩ := arrives
    exact ⟨cell, stands, atCell.mono implies dead⟩
  match result with
  | .ok .next machine | .ok (.goto _) machine => exact arrives dead upheld
  | .ok (.halt _) machine => exact upheld
  | .error _ machine => exact Stopped.mono upheld implies

/-- Two properties that arrive at an offset arrive there together. -/
theorem placedInOrder_arrives {offset : Nat} {machine : Machine}
    (placed : (Placed True source).Arrives (image source) offset machine)
    (atCell : (InOrderAtCell lost source).Arrives (image source) offset machine) :
    (PlacedInOrder lost source).Arrives (image source) offset machine := by
  obtain ⟨cell, stands, placed⟩ := placed
  obtain ⟨other, there, atCell⟩ := atCell
  have wide : 0 < cell.command.width := Nat.succ_pos _
  obtain ⟨-, rfl⟩ := stands.unique there (Nat.le_refl _) (by omega)
  exact ⟨other, stands, placed, atCell⟩

end

/-! ## Scopes that were stranded -/

section

variable {compiled : Compiled}

/-- A run has stranded a scope within a number of dispatches. -/
def Machine.HasStranded (machine : Machine) (compiled : Compiled) (fuel : Nat) (scope : ScopeId) :
    Prop :=
  ∃ steps before, steps < fuel ∧ machine.run compiled steps = .running before
    ∧ Strands compiled before scope

/-- A scope that was stranded is gone for good, as long as no slot is freed too often. -/
theorem Machine.HasStranded.dead {machine : Machine} {fuel : Nat} {scope : ScopeId}
    (first : machine.heap.scopes.generation scope.index = 0)
    (stranded : machine.HasStranded compiled fuel scope)
    (few : machine.scopeReuses compiled scope.index fuel < 2 ^ 32) :
    ¬ (machine.run compiled fuel).machine.heap.LiveScope scope := by
  rintro ⟨found, there⟩
  obtain ⟨steps, before, less, reached, strands⟩ := stranded
  obtain ⟨held, alive⟩ := strands.live
  have next : machine.run compiled (steps + 1) = before.advance compiled := by
    rw [Machine.run_succ, reached]
  have passed := strands.stranded.passed
  rw [← next] at passed
  have now := Arena.generation_of_get? _ there
  have then_ := Arena.generation_of_get? _ alive
  have here : ((machine.run compiled steps).machine.heap.scopes.generation scope.index).toNat
      = machine.scopeReuses compiled scope.index steps := by
    refine Machine.generation_run first (Nat.lt_of_le_of_lt (machine.scopeReuses_mono _ ?_) few)
    omega
  have after : ((machine.run compiled (steps + 1)).machine.heap.scopes.generation scope.index).toNat
      = machine.scopeReuses compiled scope.index (steps + 1) :=
    Machine.generation_run first (Nat.lt_of_le_of_lt (machine.scopeReuses_mono _ less) few)
  have last := Machine.generation_run first few
  have onward : machine.scopeReuses compiled scope.index steps
      ≤ machine.scopeReuses compiled scope.index (steps + 1) :=
    machine.scopeReuses_mono scope.index (Nat.le_succ steps)
  have later : machine.scopeReuses compiled scope.index (steps + 1)
      ≤ machine.scopeReuses compiled scope.index fuel := machine.scopeReuses_mono scope.index less
  have one : (1 : UInt32).toNat = 1 := rfl
  rw [reached, Progress.machine, then_] at here
  rw [passed, UInt32.toNat_add, one] at after
  rw [now] at last
  have bound := scope.generation.toNat_lt
  omega

/-- Whatever a run has stranded within a number of dispatches stays gone. Generations are words of 32
bits, so only a slot that is freed 2 ^ 32 times can bring a handle back. -/
def Machine.StrandsForGood (machine : Machine) (compiled : Compiled) (fuel : Nat) : Prop :=
  ∀ steps ≤ fuel, ∀ scope, machine.HasStranded compiled steps scope →
    ¬ (machine.run compiled steps).machine.heap.LiveScope scope

theorem Machine.StrandsForGood.mono {machine : Machine} {compiled : Compiled} {fuel less : Nat}
    (good : machine.StrandsForGood compiled fuel) (le : less ≤ fuel) :
    machine.StrandsForGood compiled less :=
  fun steps inside => good steps (Nat.le_trans inside le)

theorem Machine.HasStranded.mono {machine : Machine} {fuel more : Nat} {scope : ScopeId}
    (held : machine.HasStranded compiled fuel scope) (le : fuel ≤ more) :
    machine.HasStranded compiled more scope := by
  obtain ⟨steps, before, less, rest⟩ := held
  exact ⟨steps, before, Nat.lt_of_lt_of_le less le, rest⟩

theorem Machine.StrandsForGood.losing {machine before : Machine} {fuel steps : Nat}
    (good : machine.StrandsForGood compiled fuel) (less : steps < fuel)
    (reached : machine.run compiled steps = .running before) :
    Losing compiled before (machine.HasStranded compiled steps)
      (machine.HasStranded compiled (steps + 1)) := by
  have next : machine.run compiled (steps + 1) = before.advance compiled := by
    rw [Machine.run_succ, reached]
  refine ⟨fun held => held.mono (Nat.le_succ steps), fun held => ?_,
    fun strands => ⟨steps, before, Nat.lt_succ_self steps, reached, strands⟩⟩
  rw [← next]
  exact good (steps + 1) less _ held

/-- What strands nothing loses nothing. -/
theorem Machine.strandsForGood_of_none {machine : Machine} {fuel : Nat}
    (none : ∀ scope, ¬ machine.HasStranded compiled fuel scope) :
    machine.StrandsForGood compiled fuel := by
  rintro steps inside scope ⟨earlier, before, less, rest⟩
  exact absurd ⟨earlier, before, Nat.lt_of_lt_of_le less inside, rest⟩ (none scope)

/-- A slot that is freed seldom enough brings no handle back. -/
theorem Machine.strandsForGood_of_few {config : Config} {input : List UInt8} {fuel : Nat}
    (few : ∀ index,
      (Machine.boot config input compiled.pools).scopeReuses compiled index fuel < 2 ^ 32) :
    (Machine.boot config input compiled.pools).StrandsForGood compiled fuel :=
  fun _ inside scope held => held.dead (generation_boot _ _ _ _)
    (Nat.lt_of_le_of_lt (Machine.scopeReuses_mono _ _ inside) (few scope.index))

end

/-! ## Runs -/

theorem Machine.Intact.addReport {machine : Machine} (intact : machine.Intact) (severity : Severity)
    (message : String) : (machine.addReport severity message).Intact := by
  refine ⟨intact.tidy, fun held => intact.held ?_, intact.scopes⟩
  cases held with
  | root root => exact .root (root.same rfl rfl rfl)
  | item member => exact .item member
  | caller => exact .caller
  | receiver => exact .receiver
  | frame member held => exact .frame member held

section

variable {program : Program} {compiled : Compiled} (accepted : program.compile = .ok compiled)
  (shape : program.wellShaped = true) (addressable : Addressable program compiled)

include accepted shape

/-- Every instruction of a well-shaped program keeps a machine in order. -/
theorem inOrderAtCell_step {lost more : ScopeId → Prop} {offset : Nat} {cell : Cell} {machine : Machine}
    (stands : Stands (image program) offset cell)
    (placed : Placed True program offset cell machine)
    (atCell : InOrderAtCell lost program offset cell machine)
    (here : machine.registers.ip = offset + extensionCount cell.command.operand)
    (implies : ∀ {scope}, lost scope → more scope)
    (dead : ∀ {scope}, more scope → ¬ (Action.final (Action.step (Pools.ofProgram program).names
      cell.command.opcode cell.command.operand machine)).heap.LiveScope scope)
    (stranded : cell.command.opcode = .return → ∀ {frame scope}, machine.frames.head? = some frame →
      frame.methodScope = some scope → (Action.final (Action.step (Pools.ofProgram program).names
        cell.command.opcode cell.command.operand machine)).heap.Stranded scope → more scope) :
    Upheld more program (offset + cell.command.width)
      (Action.step (Pools.ofProgram program).names cell.command.opcode cell.command.operand
        machine) := by
  have counts : True → program.wellShaped = true := fun _ => shape
  obtain ⟨-, -, -, valid⟩ := program.compile_ok accepted
  have flows := flows_image accepted counts stands
  by_cases returns : cell.command.opcode = .return
  · exact inOrderAtCell_return flows atCell returns ⟨implies, dead, stranded returns⟩
  refine Upheld.mono ?_ implies dead
  by_cases call : cell.command.opcode = .evaluate
  · refine inOrderAtCell_call flows placed atCell (fun _ => leads_sections (.of counts) valid) call ?_
    rw [here, Nat.add_assoc, Command.width]
  by_cases enter : cell.command.opcode = .enterLocal
  · exact inOrderAtCell_enter flows atCell (fun held => dead (implies held)) enter
  by_cases leave : cell.command.opcode = .leaveLocal
  · exact inOrderAtCell_leave flows placed atCell leave
  by_cases copy : cell.command.opcode = .copy
  · exact inOrderAtCell_copy flows atCell (fun held => dead (implies held)) copy
  · exact inOrderAtCell_straight flows placed atCell (fun held => dead (implies held)) copy call returns
      enter leave

include addressable

/-- Every dispatch of a well-shaped program keeps a machine in order, if what counts as lost is gone
and has all that the dispatch strands. -/
theorem placedInOrder_advance {lost more : ScopeId → Prop} {machine : Machine}
    (at_ : (PlacedInOrder lost program).At (image program) machine)
    (losing : Losing compiled machine lost more) :
    (PlacedInOrder more program).Along (image program) Ended (Stopped more) (machine.advance compiled) := by
  have counts : True → program.wellShaped = true := fun _ => shape
  obtain ⟨pools, -, -, valid⟩ := program.compile_ok accepted
  have encodes := encodes_image accepted addressable
  have kept := kept_placed (.of counts) valid
  have moved {offset : Nat} {cell : Cell} {machine : Machine} {lost : ScopeId → Prop}
      (ip extended extensions line : Nat) (here : PlacedInOrder lost program offset cell machine) :
      PlacedInOrder lost program offset cell (machine.moved ip extended extensions line) :=
    ⟨kept.moved _ _ _ _ here.1, here.2.moved _ _ _ _⟩
  refine at_.advance encodes moved (fun ip extended extensions here advanced => ?_)
    fun {offset cell} stands here position advanced => ?_
  · have dead := @losing.dead
    rw [advanced] at dead
    obtain ⟨placed, atCell⟩ := moved ip extended extensions machine.line here
    exact ⟨placed, atCell.mono losing.implies dead⟩
  · obtain ⟨placed, atCell⟩ := moved (offset + extensionCount cell.command.operand) 0 0
      (cell.line.getD machine.line) here
    have heap := (congrArg (·.machine.heap) advanced).trans (Progress.heap_after _ _)
    have placed_after := kept.step stands placed rfl
    rw [pools] at heap ⊢
    have upheld := inOrderAtCell_step accepted shape stands placed atCell rfl losing.implies
      (fun held live => losing.dead held (heap ▸ live)) fun returns {frame scope} current own left => by
        refine losing.stranded ⟨?_, ⟨frame, current, own⟩, ?_, heap ▸ left⟩
        · rw [nextOpcode?_of_stands accepted addressable stands position, returns]
        · obtain ⟨kinds, spans, inOrder⟩ := here.2
          exact inOrder.order.estates.liveScope (List.mem_of_mem_head? current)
            (List.mem_append_right _ (Option.mem_toList.mpr own))
    change (PlacedInOrder more program).After _ _ _ _ (Action.step _ _ _ (machine.moved _ _ _ _))
    match result : Action.step (Pools.ofProgram program).names cell.command.opcode
        cell.command.operand (machine.moved (offset + extensionCount cell.command.operand) 0 0
          (cell.line.getD machine.line)) with
    | .ok .next after | .ok (.goto target) after =>
      rw [result] at upheld placed_after
      exact placedInOrder_arrives placed_after upheld
    | .ok (.halt value) after | .error fault after =>
      rw [result] at upheld
      exact upheld

omit addressable in
/-- A machine is in order where its program starts. -/
theorem placedInOrder_boot (config : Config) (input : List UInt8) {lost : ScopeId → Prop}
    (none : ∀ scope, ¬ lost scope) :
    (PlacedInOrder lost program).At (image program) (Machine.boot config input (Pools.ofProgram program)) := by
  have counts : True → program.wellShaped = true := fun _ => shape
  obtain ⟨-, -, -, valid⟩ := program.compile_ok accepted
  have spans : Spans (image program) [] (Machine.boot config input (Pools.ofProgram program)).frames
      [] := ⟨[], rfl, rfl, fun _ => ⟨rfl, rfl⟩, fun more => absurd rfl more⟩
  have inOrder : InOrder lost [] (Machine.boot config input (Pools.ofProgram program)) :=
    (inOrder_boot config input (Pools.ofProgram program)).mono nofun fun held => absurd held (none _)
  obtain ⟨offset, cell, index, stands, reading, placed⟩ := placed_boot counts valid config input
  obtain ⟨other, there, atCell⟩ := inOrder.arrives spans (leads_image (.of counts) valid)
  have ip : 0 = offset + index := reading.ip
  obtain ⟨rfl, rfl⟩ : offset = 0 ∧ index = 0 := by omega
  have wide : 0 < cell.command.width := Nat.succ_pos _
  obtain ⟨-, rfl⟩ := stands.unique there (Nat.le_refl _) (by omega)
  exact ⟨0, other, 0, stands, reading, placed, atCell⟩

/-- Along a run everything is in order, if what counts as lost at each dispatch is gone then and has
all that was stranded. -/
theorem placedInOrder_run (config : Config) (input : List UInt8) (fuel : Nat)
    (lost : Nat → ScopeId → Prop) (none : ∀ scope, ¬ lost 0 scope)
    (grows : ∀ {steps scope}, lost steps scope → lost (steps + 1) scope)
    (losing : ∀ {steps machine}, steps < fuel →
      (Machine.boot config input compiled.pools).run compiled steps = .running machine →
      Losing compiled machine (lost steps) (lost (steps + 1))) :
    (PlacedInOrder (lost fuel) program).Along (image program) Ended (Stopped (lost fuel))
      ((Machine.boot config input compiled.pools).run compiled fuel) := by
  induction fuel with
  | zero =>
    obtain ⟨pools, -, -, -⟩ := program.compile_ok accepted
    rw [pools]
    exact placedInOrder_boot accepted shape config input none
  | succ fuel ih =>
    have before := ih fun less => losing (Nat.lt_succ_of_lt less)
    rw [Machine.run_succ]
    cases reached : (Machine.boot config input compiled.pools).run compiled fuel with
    | running machine =>
      rw [reached] at before
      exact placedInOrder_advance accepted shape addressable before (losing (Nat.lt_succ_self fuel) reached)
    | finished result machine =>
      rw [reached] at before
      exact before
    | failed line fault machine =>
      rw [reached] at before
      obtain ⟨last, stopped, where_, report⟩ := before
      exact ⟨last, stopped.mono grows, where_, report⟩

/-- Along a run everything is in order, as long as what was stranded stays gone. -/
theorem placedInOrder_run_good (config : Config) (input : List UInt8) {fuel : Nat}
    (good : (Machine.boot config input compiled.pools).StrandsForGood compiled fuel) :
    (PlacedInOrder ((Machine.boot config input compiled.pools).HasStranded compiled fuel) program).Along
      (image program) Ended (Stopped ((Machine.boot config input compiled.pools).HasStranded compiled
        fuel)) ((Machine.boot config input compiled.pools).run compiled fuel) := by
  refine placedInOrder_run accepted shape addressable config input fuel
    ((Machine.boot config input compiled.pools).HasStranded compiled) ?_ (fun held => ?_)
    fun less reached => good.losing less reached
  · rintro scope ⟨_, _, less, -⟩
    omega
  · exact held.mono (Nat.le_succ _)

/-- Along a run in which no slot of a scope is freed too often, everything is in order, and only
scopes that were stranded are lost. -/
theorem placedInOrder_run_stranded (config : Config) (input : List UInt8) (fuel : Nat)
    (few : ∀ index,
      (Machine.boot config input compiled.pools).scopeReuses compiled index fuel < 2 ^ 32) :
    (PlacedInOrder ((Machine.boot config input compiled.pools).HasStranded compiled fuel) program).Along
      (image program) Ended (Stopped ((Machine.boot config input compiled.pools).HasStranded compiled
        fuel)) ((Machine.boot config input compiled.pools).run compiled fuel) :=
  placedInOrder_run_good accepted shape addressable config input (Machine.strandsForGood_of_few few)

/-- A run of a well-shaped program ends with a stale handle only after a return has freed the scope
of the method copy that it left while a binding still referred to it. If no slot is freed too often,
the handle is that of a scope which was stranded in this way. -/
theorem stale_only_after_stranding (config : Config) (input : List UInt8) (fuel : Nat) {line : Nat}
    {stale : Stale} {machine : Machine}
    (failed : (Machine.boot config input compiled.pools).run compiled fuel
      = .failed line (.staleHandle stale) machine) :
    (∃ scope, (Machine.boot config input compiled.pools).HasStranded compiled fuel scope)
      ∧ ((∀ index, (Machine.boot config input compiled.pools).scopeReuses compiled index fuel < 2 ^ 32) →
        ∃ scope, stale = .scope scope
          ∧ (Machine.boot config input compiled.pools).HasStranded compiled fuel scope) := by
  refine ⟨?_, fun few => ?_⟩
  · refine Classical.byContradiction fun kept => ?_
    have along := placedInOrder_run accepted shape addressable config input fuel (fun _ => noneLost)
      nofun nofun fun {steps machine} less reached => ⟨nofun, nofun, fun {scope} strands =>
        kept ⟨scope, steps, machine, less, reached, strands⟩⟩
    rw [failed] at along
    obtain ⟨before, stopped, -⟩ := along
    obtain ⟨_, -, lost⟩ := stopped.excused rfl
    exact lost
  · have along := placedInOrder_run_stranded accepted shape addressable config input fuel few
    rw [failed] at along
    obtain ⟨before, stopped, -⟩ := along
    exact stopped.excused rfl

/-- Along every run of a well-shaped program in which no slot of a scope is freed too often, scopes
own live bindings, each once and no two of them the same, all bindings and scopes that the machine
holds are live, and so is the result of the program. So no fault is about the handle of a binding, and
the search for a name fails only in a scope that is stale itself. -/
theorem run_intact (config : Config) (input : List UInt8) (fuel : Nat)
    (few : ∀ index,
      (Machine.boot config input compiled.pools).scopeReuses compiled index fuel < 2 ^ 32) :
    ((Machine.boot config input compiled.pools).run compiled fuel).machine.Intact
      ∧ (∀ scope name stale, ((Machine.boot config input compiled.pools).run compiled
          fuel).machine.heap.findImmediate scope name = .error stale →
        stale = .scope scope ∧ ¬ ((Machine.boot config input compiled.pools).run compiled
          fuel).machine.heap.LiveScope scope)
      ∧ match (Machine.boot config input compiled.pools).run compiled fuel with
        | .running machine => ∀ id ∈ machine.registers.lastResult, machine.heap.Live id
        | .finished result machine => ∀ id ∈ result, machine.heap.Live id
        | .failed _ fault machine =>
          (∀ id ∈ machine.registers.lastResult, machine.heap.Live id)
            ∧ ∀ id, fault ≠ .staleHandle (.binding id) := by
  have along := placedInOrder_run_stranded accepted shape addressable config input fuel few
  have finds {machine : Machine} (intact : machine.Intact) (scope : ScopeId) (name : String)
      (stale : Stale) (fails : machine.heap.findImmediate scope name = .error stale) :
      stale = .scope scope ∧ ¬ machine.heap.LiveScope scope := by
    obtain ⟨found, finds, -⟩ | ⟨missing, dead⟩ := intact.tidy.findImmediate scope name
    · rw [finds] at fails
      cases fails
    · rw [missing] at fails
      cases fails
      exact ⟨rfl, dead⟩
  cases reached : (Machine.boot config input compiled.pools).run compiled fuel with
  | running machine =>
    rw [reached] at along
    obtain ⟨_, _, _, -, -, -, _, -, inOrder⟩ := along
    obtain ⟨intact, last⟩ := inOrder.intact
    exact ⟨intact, finds intact, last⟩
  | finished result machine =>
    rw [reached] at along
    exact ⟨along.intact, finds along.intact, along.result⟩
  | failed line fault machine =>
    rw [reached] at along
    obtain ⟨before, stopped, -, rfl⟩ := along
    have intact := stopped.intact.addReport .fatal fault.message
    refine ⟨intact, finds intact, stopped.lastResult, ?_⟩
    rintro id rfl
    obtain ⟨scope, named, -⟩ := stopped.excused rfl
    cases named

end

/-! ## A method that keeps itself -/

/-- Calls a method that assigns its own copy to a name that outlives the call, and then asks for a
member through the name. -/
def keepSelf : Program where
  main := [.statement (.define (.name "method") []),
    .block [.statement (.assign (.name Machine.arrayName) (.name "self")),
      .statement (.giveBack (some (.integer 1)))],
    .statement (.call none "method" []),
    .statement (.member (.name Machine.arrayName) "member")]

private theorem keepSelf_fails :
    ∃ compiled line machine, keepSelf.compile = .ok compiled
      ∧ (Machine.boot {} [] compiled.pools).run compiled 28
        = .failed line (.staleHandle (.scope ⟨5, 0⟩)) machine :=
  Program.fails_of_faultAfter (by cbv)

/-- Not every well-shaped program is free of stale handles. -/
theorem stale_handle_reached :
    ¬ ∀ (program : Program) (compiled : Compiled), program.compile = .ok compiled →
      program.wellShaped = true → ∀ (config : Config) (input : List UInt8) (fuel line : Nat)
        (stale : Stale) (machine : Machine),
        (Machine.boot config input compiled.pools).run compiled fuel
          ≠ .failed line (.staleHandle stale) machine := by
  intro never
  obtain ⟨compiled, line, machine, accepted, failed⟩ := keepSelf_fails
  exact never keepSelf compiled accepted (by decide) {} [] 28 line _ machine failed

private theorem addressable_keepSelf {compiled : Compiled} (accepted : keepSelf.compile = .ok compiled) :
    Addressable keepSelf compiled := by
  obtain ⟨pools, -, -, -⟩ := keepSelf.compile_ok accepted
  have code : size (image keepSelf) = 34 := by cbv
  have names : (Pools.ofProgram keepSelf).names.size = 4 := by cbv
  have constants : (Pools.ofProgram keepSelf).constants.size = 4 := by cbv
  refine ⟨by decide, ?_, ?_, ?_⟩
  · rw [size_image accepted, code]
    decide
  · rw [pools, names]
    decide
  · rw [pools, constants]
    decide

theorem keepSelf_stranded :
    ∃ compiled line machine, keepSelf.compile = .ok compiled ∧ keepSelf.wellShaped = true
      ∧ Addressable keepSelf compiled
      ∧ (Machine.boot {} [] compiled.pools).run compiled 28
        = .failed line (.staleHandle (.scope ⟨5, 0⟩)) machine
      ∧ ∃ scope, (Machine.boot {} [] compiled.pools).HasStranded compiled 28 scope := by
  obtain ⟨compiled, line, machine, accepted, failed⟩ := keepSelf_fails
  have shape : keepSelf.wellShaped = true := by decide
  have addressable := addressable_keepSelf accepted
  exact ⟨compiled, line, machine, accepted, shape, addressable, failed,
    (stale_only_after_stranding accepted shape addressable {} [] 28 failed).1⟩

/-! ## A result that is forgotten -/

/-- Assigns to a name that is new in a block, and returns from inside the block. -/
def forgetful : Program where
  main := [.block [.statement (.assign (.name "x") (.integer 1)),
    .statement (.giveBack (some (.integer 5)))]]

private theorem addressable_forgetful {compiled : Compiled} (accepted : forgetful.compile = .ok compiled) :
    Addressable forgetful compiled := by
  obtain ⟨pools, -, -, -⟩ := forgetful.compile_ok accepted
  have code : size (image forgetful) = 11 := by cbv
  have names : (Pools.ofProgram forgetful).names.size = 1 := by cbv
  have constants : (Pools.ofProgram forgetful).constants.size = 5 := by cbv
  refine ⟨by decide, ?_, ?_, ?_⟩
  · rw [size_image accepted, code]
    decide
  · rw [pools, names]
    decide
  · rw [pools, constants]
    decide

/-- The register of the last result outlives its binding, once the program has returned from inside a
block. -/
theorem last_result_forgotten :
    ¬ ∀ (program : Program) (compiled : Compiled), program.compile = .ok compiled →
      program.wellShaped = true → Addressable program compiled →
      ∀ (config : Config) (input : List UInt8) (fuel : Nat),
        (∀ index,
          (Machine.boot config input compiled.pools).scopeReuses compiled index fuel < 2 ^ 32) →
        ∀ id ∈ ((Machine.boot config input compiled.pools).run compiled
            fuel).machine.registers.lastResult,
          ((Machine.boot config input compiled.pools).run compiled fuel).machine.heap.Live id := by
  intro always
  have last : forgetful.inspect? 8 (fun machine =>
      machine.registers.lastResult.map machine.heap.bindings.get?) = some (some none) := by cbv
  obtain ⟨compiled, accepted, seen⟩ := Program.inspect?_spec last
  obtain ⟨id, held, gone⟩ := Option.map_eq_some_iff.mp seen
  obtain ⟨value, there⟩ := always forgetful compiled accepted (by decide)
    (addressable_forgetful accepted) {} [] 8
    (fun index => Machine.scopeReuses_lt _ compiled index (by decide)) id held
  cases there.symm.trans gone

/-! ## A method that a block calls -/

/-- Keeps what a method makes of a number, and compares it in a block with what the method makes of
it. -/
def doubling : Program where
  main := [.statement ((Operation.define (.name "double") ["number"]).atLine 1),
    .block [.statement (.giveBack (some (.binary .add (.name "number") (.name "number"))))],
    .statement (.assign (.name "kept") (.call none "double" [.integer 2])),
    .block [.statement (.assign (.name "same")
      (.binary .isEqual (.name "kept") (.call none "double" [.name "kept"])))]]

theorem accepted_doubling : ∃ compiled, doubling.compile = .ok compiled :=
  ⟨_, by cbv⟩

theorem addressable_doubling {compiled : Compiled} (accepted : doubling.compile = .ok compiled) :
    Addressable doubling compiled := by
  obtain ⟨pools, -, -, -⟩ := doubling.compile_ok accepted
  have code : size (image doubling) = 52 := by cbv
  have names : (Pools.ofProgram doubling).names.size = 4 := by cbv
  have constants : (Pools.ofProgram doubling).constants.size = 4 := by cbv
  refine ⟨by decide, ?_, ?_, ?_⟩
  · rw [size_image accepted, code]
    decide
  · rw [pools, names]
    decide
  · rw [pools, constants]
    decide

/-- The machine is inside the method that the block has called, with both operands of the sum and the
target of the assignment on its stack. -/
theorem doubling_intact :
    ∃ compiled, doubling.compile = .ok compiled ∧ doubling.wellShaped = true
      ∧ Addressable doubling compiled
      ∧ (∀ index, (Machine.boot {} [] compiled.pools).scopeReuses compiled index 49 < 2 ^ 32)
      ∧ ((Machine.boot {} [] compiled.pools).run compiled 49).machine.frames.length = 2
      ∧ ((Machine.boot {} [] compiled.pools).run compiled 49).machine.stack.length = 4
      ∧ ((Machine.boot {} [] compiled.pools).run compiled 49).machine.Intact := by
  have seen : doubling.inspect? 49 (fun machine => (machine.frames.length, machine.stack.length))
      = some (2, 4) := by cbv
  obtain ⟨compiled, accepted, depths⟩ := Program.inspect?_spec seen
  obtain ⟨frames, stack⟩ := Prod.mk.inj depths
  have shape : doubling.wellShaped = true := by decide
  have addressable := addressable_doubling accepted
  have few (index : Nat) :
      (Machine.boot {} [] compiled.pools).scopeReuses compiled index 49 < 2 ^ 32 :=
    Machine.scopeReuses_lt _ compiled index (by decide)
  exact ⟨compiled, accepted, shape, addressable, few, frames, stack,
    (run_intact accepted shape addressable {} [] 49 few).1⟩

end ScopeMachine
