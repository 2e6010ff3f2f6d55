import ScopeMachine.Proofs.CallEntry
import ScopeMachine.Proofs.Diagnostics
import ScopeMachine.Proofs.Machine.Outcomes

set_option autoImplicit false

/-!
# Calls in place

A call in place binds its parameters in the scope of the current receiver, in which the arguments may lie
themselves. The parameters are bound one after the other. So an argument that is the binding of an
earlier parameter has the value of that parameter by the time it is read, and every other argument
still has its own. Nothing is asked of the machine but that the call begins.
-/

namespace ScopeMachine

open Heap

namespace Heap

variable {heap after : Heap} {owner : ScopeId} {name : String} {value : Binding} {id : BindingId}

/-! ## One parameter -/

/-- A heap in which a name of a scope is given a value. The binding that a search for the name finds
there gets it, or else a new one does. All other names lead to what they led to before, stale handles
included. -/
structure Redeclares (owner : ScopeId) (name : String) (id : BindingId) (value : Binding)
    (before after : Heap) : Prop where
  found : after.findImmediate owner name = .ok (some id)
  holds : after.bindings.get? id = some value
  others : ∀ other, other ≠ name →
    after.findImmediate owner other = before.findImmediate owner other
  kept : ∀ other, before.Live other → other ≠ id →
    after.bindings.get? other = before.bindings.get? other
  place : before.findImmediate owner name = .ok (some id)
    ∨ before.findImmediate owner name = .ok none ∧ ¬ before.Live id

/-- A search depends on which bindings are there and on their names. -/
theorem findAmong_congr_names {ids : List BindingId} (same : ∀ id ∈ ids,
      (after.bindings.get? id).map (·.name) = (heap.bindings.get? id).map (·.name)) :
    after.findAmong name ids = heap.findAmong name ids := by
  induction ids with
  | nil => rfl
  | cons id rest ih =>
    have later := ih fun other member => same other (.tail _ member)
    have here := same id (.head _)
    unfold findAmong Heap.binding
    rw [later]
    cases there : heap.bindings.get? id <;> cases then_ : after.bindings.get? id <;>
      simp_all

/-- A search that fails to find a name has seen that everything is there. -/
theorem live_of_findAmong_none {ids : List BindingId} (searched : heap.findAmong name ids = .ok none) :
    ∀ id ∈ ids, heap.Live id := by
  induction ids with
  | nil => simp
  | cons first rest ih =>
    simp only [findAmong] at searched
    split at searched
    · cases searched
    · next value reads =>
      split at searched
      · cases searched
      · intro id member
        obtain rfl | member := List.mem_cons.mp member
        · exact ⟨value, get?_of_binding reads⟩
        · exact ih searched id member

private theorem live_of_findImmediate_none (searched : heap.findImmediate owner name = .ok none) :
    ∀ id, heap.Owns owner id → heap.Live id := by
  rintro id ⟨scope, there, member⟩
  have reads : heap.scope owner = .ok scope := by simp [Heap.scope, there]
  rw [findImmediate, reads] at searched
  exact live_of_findAmong_none searched id member

private theorem redeclares_modifyBinding (named : value.name = some name)
    (found : heap.findImmediate owner name = .ok (some id)) :
    Redeclares owner name id value heap (heap.modifyBinding id fun _ => value) := by
  have called : heap.nameOf id = some name := findImmediate_some found
  obtain ⟨old, there⟩ := live_of_nameOf called
  have reads : (heap.modifyBinding id fun _ => value).bindings.get? id = some value := by
    rw [modifyBinding, Arena.get?_modify, if_pos rfl, there, Option.map_some]
  have names (other : BindingId) : ((heap.modifyBinding id fun _ => value).bindings.get? other).map
      (·.name) = (heap.bindings.get? other).map (·.name) := by
    by_cases same : other = id
    · have own : old.name = some name := by rwa [nameOf, there] at called
      rw [same, reads, there, Option.map_some, Option.map_some, named, own]
    · rw [get?_modifyBinding_ne same]
  have searches (other : String) : (heap.modifyBinding id fun _ => value).findImmediate owner other
      = heap.findImmediate owner other := by
    unfold findImmediate
    rw [show (heap.modifyBinding id fun _ => value).scope owner = heap.scope owner from rfl]
    cases heap.scope owner with
    | error stale => rfl
    | ok scope => exact findAmong_congr_names fun other _ => names other
  exact ⟨(searches name).trans found, reads, fun other _ => searches other,
    fun _ _ ne => get?_modifyBinding_ne ne, .inl found⟩

private theorem redeclares_declared (named : value.name = some name) (live : heap.LiveScope owner)
    (missing : heap.findImmediate owner name = .ok none) :
    Redeclares owner name (heap.allocate value).1 value heap (heap.declared owner value) := by
  have declares := declares_declared live value
  have own := live_of_findImmediate_none missing
  obtain ⟨scope, there, larger⟩ := declares.own
  have before (other : String) : heap.findImmediate owner other = .ok (heap.first owner other) :=
    findImmediate_eq there own
  have then_ (other : String) : (heap.declared owner value).findImmediate owner other
      = .ok ((heap.declared owner value).first owner other) :=
    findImmediate_eq larger (declares.own_live own)
  have none : heap.first owner name = none := by
    rw [before] at missing
    exact Except.ok.inj missing
  refine ⟨?_, declares.holds (_, value) (by simp), fun other ne => ?_,
    fun _ alive _ => declares.get?_of_live alive, .inr ⟨missing, heap.not_live_allocate value⟩⟩
  · rw [then_, declares.first_eq own, none]
    simp [named]
  · have other_name : ¬ value.name = some other := by
      rw [named]
      exact fun same => ne (Option.some.inj same).symm
    rw [then_, before, declares.first_eq own]
    simp [other_name]

private theorem redeclares_of_ok (named : value.name = some name)
    (declared : heap.redeclare owner value = (.ok id, after)) :
    Redeclares owner name id value heap after := by
  unfold Heap.redeclare at declared
  rw [named] at declared
  dsimp only at declared
  split at declared
  · cases declared
  · next found =>
    cases declared
    exact redeclares_modifyBinding named found
  · next missing =>
    by_cases live : heap.LiveScope owner
    · rw [declare_of_live live] at declared
      cases declared
      exact redeclares_declared named live missing
    · rw [declare_of_dead live] at declared
      cases declared

/-! ## All parameters -/

def parametersOf (heap : Heap) (target : Binding) : List String :=
  match target.scope.bind heap.scopes.get? with
  | some scope => scope.parameters
  | none => []

/-- A parameter leads to a binding with a value that was taken from its argument: the one that the
argument had to begin with, or, where the argument is the binding of an earlier parameter, the one that
this parameter has now. -/
structure BoundInTurn (owner : ScopeId) (earlier : List (String × BindingId)) (parameter : String)
    (argument : BindingId) (before after : Heap) (value : Binding) : Prop where
  found : ∃ id, after.findImmediate owner parameter = .ok (some id)
    ∧ after.bindings.get? id = some (value.asParameter parameter)
  apart : (∀ other ∈ earlier, before.findImmediate owner other.1 ≠ .ok (some argument)) →
    ∀ own, before.bindings.get? argument = some own → value = own
  taken : ∀ other ∈ earlier, before.findImmediate owner other.1 = .ok (some argument) →
    after.bindings.get? argument = some value

/-- A heap in which parameters were bound to arguments in a scope, one after the other. -/
structure BindsInTurn (owner : ScopeId) (pairs : List (String × BindingId)) (before after : Heap) :
    Prop where
  bound : (pairs.map Prod.fst).Nodup → ∀ index parameter argument,
    pairs[index]? = some (parameter, argument) →
    ∃ value, BoundInTurn owner (pairs.take index) parameter argument before after value
  old : ∀ name id, name ∉ pairs.map Prod.fst → before.findImmediate owner name = .ok (some id) →
    after.findImmediate owner name = .ok (some id)
      ∧ after.bindings.get? id = before.bindings.get? id

variable {parameter : String} {argument : BindingId} {pairs : List (String × BindingId)}
  {before middle : Heap}

/-- Different names of a scope lead to different bindings. -/
theorem name_eq_of_findImmediate {other : String} (found : heap.findImmediate owner name = .ok (some id))
    (again : heap.findImmediate owner other = .ok (some id)) : name = other :=
  Option.some.inj ((findImmediate_some found).symm.trans (findImmediate_some again))

theorem BindsInTurn.cons (given : before.bindings.get? argument = some value)
    (first : Redeclares owner parameter id (value.asParameter parameter) before middle)
    (rest : BindsInTurn owner pairs middle after) :
    BindsInTurn owner ((parameter, argument) :: pairs) before after where
  old := by
    intro name held absent found
    obtain ⟨other, absent⟩ : name ≠ parameter ∧ name ∉ pairs.map Prod.fst := by simpa using absent
    have still : middle.findImmediate owner name = .ok (some held) :=
      (first.others name other).trans found
    have ne : held ≠ id := by
      rintro rfl
      exact other (name_eq_of_findImmediate still first.found)
    obtain ⟨last, same⟩ := rest.old name held absent still
    exact ⟨last, same.trans (first.kept held (live_of_nameOf (findImmediate_some found)) ne)⟩
  bound := by
    intro once index name source at_
    obtain ⟨absent, once⟩ := List.nodup_cons.mp once
    obtain ⟨last, unchanged⟩ := rest.old parameter id absent first.found
    cases index with
    | zero =>
      cases at_
      refine ⟨value, ⟨id, last, unchanged.trans first.holds⟩, fun _ own there => ?_, by simp⟩
      exact Option.some.inj (given.symm.trans there)
    | succ index =>
      obtain ⟨held, found, apart, taken⟩ := rest.bound once index name source at_
      -- Among the later parameters a search finds now what it found in the beginning.
      have still (other : String × BindingId) (member : other ∈ pairs.take index) :
          middle.findImmediate owner other.1 = before.findImmediate owner other.1 := by
        refine first.others other.1 fun same => absent ?_
        rw [← same]
        exact List.mem_map.mpr ⟨other, List.mem_of_mem_take member, rfl⟩
      refine ⟨held, found, fun free own there => ?_, fun other member leads => ?_⟩
      · have ne : source ≠ id := by
          rintro rfl
          obtain leads | ⟨-, dead⟩ := first.place
          · exact free (parameter, argument) (by simp) leads
          · exact dead ⟨own, there⟩
        refine apart (fun other member => ?_) own ((first.kept source ⟨own, there⟩ ne).trans there)
        rw [still other member]
        exact free other (by simp [member])
      · obtain rfl | member := List.mem_cons.mp (List.take_succ_cons ▸ member)
        · obtain same | ⟨none, -⟩ := first.place
          · cases leads.symm.trans same
            -- The argument is what the first parameter was bound to, and no later one changes it.
            have free : ∀ other ∈ pairs.take index,
                middle.findImmediate owner other.1 ≠ .ok (some id) := by
              intro other member again
              refine absent ?_
              rw [name_eq_of_findImmediate first.found again]
              exact List.mem_map.mpr ⟨other, List.mem_of_mem_take member, rfl⟩
            rw [apart free _ first.holds, unchanged, first.holds]
          · cases leads.symm.trans none
        · exact taken other member ((still other member).trans leads)

end Heap

namespace Action

variable {machine after : Machine} {owner : ScopeId}

private theorem bindsInTurn_of_ok {pairs : List (String × BindingId)}
    (result : bindParameters owner pairs machine = .ok () after) :
    ∃ heap, after = { machine with heap } ∧ BindsInTurn owner pairs machine.heap heap := by
  induction pairs generalizing machine with
  | nil =>
    cases result
    exact ⟨_, rfl, by simp, fun _ _ _ found => ⟨found, rfl⟩⟩
  | cons pair rest ih =>
    obtain ⟨parameter, argument⟩ := pair
    obtain ⟨value, _, reads, redeclares⟩ := ok_of_bind result
    obtain ⟨there, rfl⟩ := ok_of_binding reads
    rw [Binding.assign_unassigned] at redeclares
    obtain ⟨id, _, redeclares, others⟩ := ok_of_bind redeclares
    obtain ⟨middle, declared, rfl⟩ := ok_of_attempt redeclares
    obtain ⟨heap, rfl, binds⟩ := ih others
    exact ⟨heap, rfl, .cons there (redeclares_of_ok rfl declared) binds⟩

private theorem ok_of_receiverScope {place : ScopeId} (result : receiverScope machine = .ok place after) :
    ∃ receiver, machine.heap.bindings.get? machine.registers.receiver = some receiver
      ∧ place = receiver.scope.getD machine.programScope ∧ after = machine := by
  obtain ⟨_, _, reads, found⟩ := ok_of_bind result
  cases reads
  obtain ⟨receiver, _, there, scope⟩ := ok_of_bind found
  obtain ⟨there, rfl⟩ := ok_of_binding there
  cases scope
  exact ⟨receiver, there, rfl, rfl⟩

private theorem ok_of_parameterCount {target : Binding} {declared : Nat}
    (result : parameterCount target machine = .ok declared after) :
    declared = (machine.heap.parametersOf target).length ∧ after = machine := by
  unfold parameterCount at result
  unfold Heap.parametersOf
  cases refers : target.scope with
  | none =>
    rw [refers] at result
    cases result
    exact ⟨rfl, rfl⟩
  | some scope =>
    rw [refers] at result
    obtain ⟨level, _, reads, returns⟩ := ok_of_bind result
    obtain ⟨there, rfl⟩ := ok_of_scope reads
    cases returns
    simp [there]

private theorem ok_of_checkCall {target : Binding} {supplied : Nat}
    (result : checkCall target supplied machine = .ok () after) :
    (machine.heap.parametersOf target).length = supplied ∧ after = machine := by
  unfold checkCall at result
  split at result
  · obtain ⟨declared, _, counts, checks⟩ := ok_of_bind result
    obtain ⟨rfl, rfl⟩ := ok_of_parameterCount counts
    split at checks
    · cases checks
    · next agree =>
      cases checks
      exact ⟨not_not.mp agree, rfl⟩
  · cases result

private theorem ok_of_bindArguments {target : Binding} {arguments : List BindingId}
    (result : bindArguments target (some owner) arguments machine = .ok () after) :
    ∃ heap, after = { machine with heap }
      ∧ BindsInTurn owner ((machine.heap.parametersOf target).zip arguments) machine.heap heap := by
  unfold bindArguments at result
  unfold Heap.parametersOf
  cases refers : target.scope with
  | none =>
    rw [refers] at result
    exact bindsInTurn_of_ok result
  | some scope =>
    rw [refers] at result
    obtain ⟨level, _, reads, binds⟩ := ok_of_bind result
    obtain ⟨there, rfl⟩ := ok_of_scope reads
    simpa [there] using bindsInTurn_of_ok binds

/-- A call that begins opens one frame, and leaves the heap and the stack. -/
theorem ok_of_enterFrame {caller receiver : BindingId} {body : Nat} {methodScope : Option ScopeId}
    {transfer : Transfer}
    (result : enterFrame caller receiver body methodScope machine = .ok transfer after) :
    transfer = .goto body ∧ after.heap = machine.heap ∧ after.stack = machine.stack
      ∧ after.frames = newFrame caller receiver methodScope machine :: machine.frames := by
  rw [enterFrame_eq] at result
  split at result
  · obtain ⟨⟨⟩, _, refocuses, goes⟩ := ok_of_bind result
    obtain ⟨scope, passed, focuses, sets⟩ := ok_of_bind refocuses
    have same : passed = opened caller receiver methodScope machine := by
      unfold currentLocalScope at focuses
      obtain ⟨_, _, reads, innermost⟩ := ok_of_bind focuses
      cases reads
      obtain ⟨_, -, -, same⟩ := ok_of_receiverScope innermost
      exact same
    subst same
    cases sets
    cases goes
    exact ⟨rfl, rfl, rfl, rfl⟩
  · cases result

end Action

/-! ## Calls -/

/-- A call in place has begun, with parameters paired with arguments from the stack. There is a new frame
with the receiver and the caller of the one below, which owns no scope. If no parameter comes twice,
each has been bound in the receiver's scope, in turn. -/
structure Machine.BeginsInPlace (before : Machine) (pairs : List (String × BindingId)) (target : Binding)
    (place : ScopeId) (after : Machine) : Prop where
  operands : ∃ method, before.heap.bindings.get? method = some target
    ∧ before.stack = (pairs.map Prod.snd).reverse.map .binding ++ .binding method :: after.stack
  parameters : pairs.map Prod.fst = before.heap.parametersOf target
  receiver : ∃ receiver, before.heap.bindings.get? before.registers.receiver = some receiver
    ∧ place = receiver.scope.getD before.programScope
  frames : ∃ frame, after.frames = frame :: before.frames ∧ frame.methodScope = none
    ∧ frame.receiver = before.registers.receiver ∧ frame.caller = before.registers.caller
  bound : (pairs.map Prod.fst).Nodup → ∀ index parameter argument,
    pairs[index]? = some (parameter, argument) →
    ∃ value, BoundInTurn place (pairs.take index) parameter argument before.heap after.heap value

/-- A call in place that succeeds has begun, and goes to the body. -/
theorem Action.ok_of_evaluateInPlace {machine after : Machine} {count : Nat} {transfer : Transfer}
    (result : evaluateInPlace count machine = .ok transfer after) :
    ∃ pairs target place, pairs.length = count ∧ transfer = .goto target.body
      ∧ machine.BeginsInPlace pairs target place after := by
  obtain ⟨arguments, _, pops, result⟩ := ok_of_bind result
  obtain ⟨taken, below, length, rfl, stack, rfl⟩ := ok_of_popArguments pops
  obtain ⟨method, _, top, result⟩ := ok_of_bind result
  obtain ⟨rest, lower, rfl⟩ := ok_of_popBinding top
  obtain ⟨target, _, reads, result⟩ := ok_of_bind result
  obtain ⟨known, rfl⟩ := ok_of_binding reads
  obtain ⟨⟨⟩, _, checks, result⟩ := ok_of_bind result
  obtain ⟨agrees, rfl⟩ := ok_of_checkCall checks
  obtain ⟨place, _, finds, result⟩ := ok_of_bind result
  obtain ⟨receiver, current, rfl, rfl⟩ := ok_of_receiverScope finds
  obtain ⟨⟨⟩, _, declares, result⟩ := ok_of_bind result
  obtain ⟨heap, rfl, binds⟩ := ok_of_bindArguments declares
  obtain ⟨_, _, registers, result⟩ := ok_of_bind result
  cases registers
  obtain ⟨rfl, sameHeap, sameStack, frames⟩ := ok_of_enterFrame result
  rw [List.append_nil] at agrees binds
  have binds : BindsInTurn _ ((machine.heap.parametersOf target).zip taken) machine.heap heap := binds
  have names : ((machine.heap.parametersOf target).zip taken).map Prod.fst
      = machine.heap.parametersOf target := List.map_fst_zip (Nat.le_of_eq agrees)
  have values : ((machine.heap.parametersOf target).zip taken).map Prod.snd = taken :=
    List.map_snd_zip (Nat.le_of_eq agrees.symm)
  have lower : below = .binding method :: rest := lower
  have sameStack : after.stack = rest := sameStack
  have sameHeap : after.heap = heap := sameHeap
  refine ⟨(machine.heap.parametersOf target).zip taken, target, _, ?_, rfl,
    ⟨method, known, ?_⟩, names, ⟨receiver, current, rfl⟩, ⟨_, frames, rfl, rfl, rfl⟩, sameHeap ▸ binds.bound⟩
  · rw [← List.length_map Prod.snd, values, length]
  · rw [values, stack, lower, sameStack]

/-- Whatever the machine and the code, a call in place that begins binds its parameters in the scope of
the receiver, or else of the program, in turn: each gets the value that its argument had before the
call, except that an argument that is the binding of an earlier parameter counts with the value of that
parameter. -/
theorem in_place_calls_bind {compiled : Compiled} {before after : Machine} {count : Nat}
    (next : before.nextOpcode? compiled = some .evaluateInPlace)
    (given : before.nextOperand? compiled = some count)
    (begins : before.advance compiled = .running after) :
    ∃ pairs target place, pairs.length = count ∧ after.registers.ip = target.body
      ∧ before.BeginsInPlace pairs target place after := by
  obtain ⟨instruction, there, opcode⟩ := Option.map_eq_some_iff.mp next
  have operand : before.registers.extended ||| instruction.operand.toNat = count := by
    simpa [Machine.nextOperand?, there] using given
  rw [Machine.advance_of_instruction there (by simp [opcode]), opcode, operand] at begins
  cases result : Action.evaluateInPlace count (before.fetch compiled.code) with
  | error fault last =>
    rw [show Action.step compiled.pools.names .evaluateInPlace count (before.fetch compiled.code)
      = .error fault last from result] at begins
    cases begins
  | ok transfer last =>
    obtain ⟨pairs, target, place, length, rfl, operands, parameters, receiver, frames, bound⟩ :=
      Action.ok_of_evaluateInPlace result
    rw [show Action.step compiled.pools.names .evaluateInPlace count (before.fetch compiled.code)
      = .ok (.goto target.body) last from result] at begins
    cases begins
    exact ⟨pairs, target, place, length, rfl, operands, parameters, receiver, frames, bound⟩

/-! ## Swapped parameters -/

/-- Calls a method with the parameters `x` and `y` in place, on the globals `y` and `x`. -/
def swapped : Compiled where
  code :=
    { instructions :=
        #[⟨.loadName, 0⟩, ⟨.resolveDirect, 0⟩, ⟨.loadLiteral, 3⟩, ⟨.assign, 0⟩, ⟨.endStatement, 0⟩,
          ⟨.loadName, 1⟩, ⟨.resolveDirect, 0⟩, ⟨.loadLiteral, 4⟩, ⟨.assign, 0⟩, ⟨.endStatement, 0⟩,
          ⟨.loadName, 0⟩, ⟨.loadName, 1⟩, ⟨.defineMethod, 2⟩, ⟨.bindSection, 19⟩,
          ⟨.loadName, 1⟩, ⟨.resolveDirect, 0⟩, ⟨.loadName, 0⟩, ⟨.resolveDirect, 0⟩,
          ⟨.evaluateInPlace, 2⟩, ⟨.return, 0⟩] }
  pools := [.name "x", .name "y", .constant (.primitive (.integer 1)),
    .constant (.primitive (.integer 2))].foldl Pools.addEntity {}

/-- The payloads of the two globals. -/
def Machine.coordinates (machine : Machine) : Option Payload × Option Payload :=
  ((machine.global? "x").map (·.payload), (machine.global? "y").map (·.payload))

/-- The two are not swapped: the second parameter gets the value that the first one has just got. -/
theorem swapped_bound_in_turn :
    ∃ before after, (Machine.boot {} [] swapped.pools).run swapped 18 = .running before
      ∧ before.nextOpcode? swapped = some .evaluateInPlace ∧ before.nextOperand? swapped = some 2
      ∧ before.advance swapped = .running after
      ∧ (∃ pairs target place, pairs.length = 2 ∧ after.registers.ip = target.body
        ∧ before.BeginsInPlace pairs target place after)
      ∧ before.coordinates = (some (.integer 1), some (.integer 2))
      ∧ after.coordinates = (some (.integer 2), some (.integer 2)) := by
  have next : ((Machine.boot {} [] swapped.pools).run swapped 18).machine.nextOpcode? swapped
      = some .evaluateInPlace := by cbv
  have given : ((Machine.boot {} [] swapped.pools).run swapped 18).machine.nextOperand? swapped
      = some 2 := by cbv
  have values : ((Machine.boot {} [] swapped.pools).run swapped 18).machine.coordinates
      = (some (.integer 1), some (.integer 2)) := by cbv
  obtain ⟨after, begins⟩ : ∃ after,
      (Machine.boot {} [] swapped.pools).run swapped 19 = .running after := ⟨_, by cbv⟩
  have results : ((Machine.boot {} [] swapped.pools).run swapped 19).machine.coordinates
      = (some (.integer 2), some (.integer 2)) := by cbv
  rw [begins] at results
  rw [Machine.run_succ] at begins
  cases reached : (Machine.boot {} [] swapped.pools).run swapped 18 with
  | finished | failed =>
    rw [reached] at begins
    cases begins
  | running before =>
    rw [reached] at next given values begins
    exact ⟨before, after, rfl, next, given, begins, in_place_calls_bind next given begins, values, results⟩

end ScopeMachine
