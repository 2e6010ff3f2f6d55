import ScopeMachine.Proofs.Diagnostics
import ScopeMachine.Proofs.Machine.Naming
import ScopeMachine.Proofs.StaleHandles
import ScopeMachine.Proofs.Store.Census

set_option autoImplicit false

/-!
# Unique names

No step of any code doubles a name in a scope, unless it fills an array whose scope has names already.
The code need not come from a program. What carries this along a run are tallies: as long as no slot of
a binding is freed so often that its generations begin anew, scopes list no handle that is still to be
given out.
-/

namespace ScopeMachine

open Heap

/-! ## Scopes with names -/

/-- The scope owns a live binding with a name. -/
def Heap.HasNames (heap : Heap) (owner : ScopeId) : Prop :=
  ∃ id name, heap.Owns owner id ∧ heap.nameOf id = some name

private theorem Heap.entries_of_nameless {heap : Heap} {owner : ScopeId} (nameless : ¬ heap.HasNames owner) :
    heap.entries owner = [] := by
  refine List.eq_nil_iff_forall_not_mem.mpr fun entry member => ?_
  obtain ⟨owns, named⟩ := mem_entries.mp member
  exact nameless ⟨_, _, owns, named⟩

private theorem Heap.distinct_of_handles {heap : Heap}
    (each : ∀ owner ∈ heap.scopes.handles, ((heap.entries owner).map Prod.snd).Nodup) : heap.Distinct := by
  intro owner
  cases there : heap.scopes.get? owner with
  | none => simp [entries, there]
  | some scope => exact each owner (Arena.mem_handles.mpr ⟨scope, there⟩)

/-- The next instruction constructs an array in the scope. -/
def Machine.ConstructsIn (machine : Machine) (compiled : Compiled) (scope : ScopeId) : Prop :=
  machine.nextOpcode? compiled = some .evaluate
    ∧ ∃ count ∈ machine.nextOperand? compiled, machine.Fills count scope

/-- The next instruction constructs an array in a scope that has names. -/
def Machine.Refills (machine : Machine) (compiled : Compiled) : Prop :=
  ∃ scope, machine.ConstructsIn compiled scope ∧ machine.heap.HasNames scope

/-! ## The start -/

section

variable (config : Config) (input : List UInt8) (pools : Pools)

/-- At the start only the array constructor has an owner. -/
theorem owns_boot {owner : ScopeId} {id : BindingId}
    (owns : (Machine.boot config input pools).heap.Owns owner id) : id = ⟨2, 0⟩ := by
  refine Machine.boot_keeps (fun heap => heap.Owns owner id → id = ⟨2, 0⟩) (fun owns => ?_)
    (fun _ before owns => before owns) (fun before owns => before ((owns_allocateScope rfl).mp owns))
    config input pools owns
  obtain owns | ⟨-, rfl, -⟩ := owns_adopt.mp owns
  · have program : (Heap.newScope {} none true).2.Owns owner id := (owns_allocateScope rfl).mp owns
    obtain ⟨_, there, -⟩ := (owns_allocateScope rfl).mp program
    cases there
  · rfl

private theorem tallied_boot : (Machine.boot config input pools).heap.Tallied fun _ => 0 :=
  ⟨generation_bindings_boot config input pools, fun owns => .inl ((tidy_boot config input pools).live owns)⟩

private theorem once_boot : (Machine.boot config input pools).heap.Once :=
  (tidy_boot config input pools).once

private theorem unique_boot : (Machine.boot config input pools).heap.NamesUnique := by
  intro owner first second name owns again _ _
  rw [owns_boot config input pools owns, owns_boot config input pools again]

end

/-! ## Dispatches -/

section

variable {compiled : Compiled} {machine : Machine}

private theorem Machine.once_advance (settled : machine.heap.Settled) (once : machine.heap.Once) :
    (machine.advance compiled).machine.heap.Once := by
  obtain same | ⟨opcode, operand, -, -, same⟩ := machine.heap_advance compiled
  · rwa [same]
  · rw [same]
    exact @Action.once_step _ opcode operand (machine.fetch compiled.code) settled once

/-- A dispatch that does not refill an array keeps names unique. -/
theorem Machine.unique_advance (settled : machine.heap.Settled) (once : machine.heap.Once)
    (unique : machine.heap.NamesUnique) (fresh : ¬ machine.Refills compiled) :
    (machine.advance compiled).machine.heap.NamesUnique := by
  obtain same | ⟨opcode, operand, next, given, same⟩ := machine.heap_advance compiled
  · rwa [same]
  · rw [same]
    have bare (call : opcode = .evaluate) (scope : ScopeId)
        (fills : (machine.fetch compiled.code).Fills operand scope) : machine.heap.entries scope = [] :=
      entries_of_nameless fun names => fresh ⟨scope, ⟨call ▸ next, operand, given, fills⟩, names⟩
    exact (@Action.distinct_step _ opcode operand (machine.fetch compiled.code) settled
      (once.distinct unique) bare).unique

private theorem Machine.tallied_advance (machine : Machine) (compiled : Compiled) :
    ∃ spent : Nat → Nat, (∀ index, spent index ≤ machine.heap.scopes.occupied)
      ∧ ∀ count, machine.heap.Tallied count →
        (machine.advance compiled).machine.heap.Tallied fun index => count index + spent index := by
  obtain same | ⟨opcode, operand, -, -, same⟩ := machine.heap_advance compiled
  · exact ⟨fun _ => 0, fun _ => Nat.zero_le _, fun count tallied => same ▸ tallied⟩
  · rw [same]
    exact Action.tallied_step _ opcode operand (machine.fetch compiled.code)

end

/-! ## Runs -/

section

variable {compiled : Compiled}

/-- How often the slot of a binding was freed within a number of dispatches. A release moves the
generation of its slot on by one, so it is read off the generations. -/
def Machine.bindingReuses (machine : Machine) (compiled : Compiled) (index : Nat) : Nat → Nat
  | 0 => 0
  | fuel + 1 => machine.bindingReuses compiled index fuel
    + ((machine.run compiled (fuel + 1)).machine.heap.bindings.generation index
      - (machine.run compiled fuel).machine.heap.bindings.generation index).toNat

/-- No dispatch frees more scopes than slots can be numbered. -/
theorem Machine.tallied_run {machine : Machine} (start : machine.heap.Tallied fun _ => 0) (fuel : Nat)
    (roomy : ∀ earlier < fuel, (machine.run compiled earlier).machine.heap.scopes.slots.size < 2 ^ 32) :
    (machine.run compiled fuel).machine.heap.Tallied fun index =>
      machine.bindingReuses compiled index fuel := by
  induction fuel with
  | zero => exact start
  | succ fuel ih =>
    have before := ih fun earlier less => roomy earlier (Nat.lt_succ_of_lt less)
    obtain ⟨spent, less, after⟩ : ∃ spent : Nat → Nat,
        (∀ index, spent index ≤ (machine.run compiled fuel).machine.heap.scopes.occupied)
          ∧ (machine.run compiled (fuel + 1)).machine.heap.Tallied fun index =>
            machine.bindingReuses compiled index fuel + spent index := by
      rw [Machine.run_succ]
      cases reached : machine.run compiled fuel with
      | running last =>
        rw [reached] at before
        obtain ⟨spent, less, tallies⟩ := last.tallied_advance compiled
        exact ⟨spent, less, tallies _ before⟩
      | finished | failed =>
        rw [reached] at before
        exact ⟨fun _ => 0, fun _ => Nat.zero_le _, before⟩
    have same (index : Nat) : machine.bindingReuses compiled index (fuel + 1)
        = machine.bindingReuses compiled index fuel + spent index := by
      have few : spent index < 2 ^ 32 :=
        (less index).trans_lt ((Arena.occupied_le_size _).trans_lt (roomy fuel (Nat.lt_succ_self fuel)))
      rw [Machine.bindingReuses, after.generation, before.generation, UInt32.ofNat_add,
        UInt32.add_comm, UInt32.add_sub_cancel, UInt32.toNat_ofNat_of_lt' few]
    simpa only [same] using after

private theorem Machine.bindingReuses_mono (machine : Machine) (index : Nat) {fuel more : Nat}
    (less : fuel ≤ more) :
    machine.bindingReuses compiled index fuel ≤ machine.bindingReuses compiled index more :=
  monotone_nat_of_le_succ (fun _ => Nat.le_add_right _ _) less

variable (config : Config) (input : List UInt8)

/-- The machine has room for its scopes at every point of a run, and no slot of a binding is freed so
often within it that its generations begin anew. -/
structure Machine.Roomy (machine : Machine) (compiled : Compiled) (fuel : Nat) : Prop where
  scopes : ∀ earlier < fuel,
    (machine.run compiled earlier).machine.heap.scopes.slots.size < 2 ^ 32
  bindings : ∀ index, machine.bindingReuses compiled index fuel < 2 ^ 32

theorem Machine.Roomy.mono {machine : Machine} {fuel more : Nat} (roomy : machine.Roomy compiled more)
    (less : fuel ≤ more) : machine.Roomy compiled fuel :=
  ⟨fun earlier inside => roomy.scopes earlier (Nat.lt_of_lt_of_le inside less), fun index =>
    Nat.lt_of_le_of_lt (machine.bindingReuses_mono index less) (roomy.bindings index)⟩

/-- Along a run of any code, scopes list only handles that were given out, and none with a name
twice. -/
theorem once_run (fuel : Nat) (roomy : (Machine.boot config input compiled.pools).Roomy compiled fuel) :
    ((Machine.boot config input compiled.pools).run compiled fuel).machine.heap.Settled
      ∧ ((Machine.boot config input compiled.pools).run compiled fuel).machine.heap.Once := by
  have settled {fuel : Nat} (roomy : (Machine.boot config input compiled.pools).Roomy compiled fuel) :
      ((Machine.boot config input compiled.pools).run compiled fuel).machine.heap.Settled :=
    (Machine.tallied_run (tallied_boot config input compiled.pools) fuel roomy.scopes).settled
      roomy.bindings
  refine ⟨settled roomy, ?_⟩
  induction fuel with
  | zero => exact once_boot config input compiled.pools
  | succ fuel ih =>
    have earlier := roomy.mono (Nat.le_succ fuel)
    have before := ih earlier
    have lists := settled earlier
    rw [Machine.run_succ]
    cases reached : (Machine.boot config input compiled.pools).run compiled fuel with
    | running last =>
      rw [reached] at before lists
      exact last.once_advance lists before
    | finished | failed =>
      rw [reached] at before
      exact before

/-- A run that refills no array keeps names unique from its start on. -/
theorem names_unique_run (fuel : Nat)
    (roomy : (Machine.boot config input compiled.pools).Roomy compiled fuel)
    (fresh : ∀ earlier < fuel, ∀ before,
      (Machine.boot config input compiled.pools).run compiled earlier = .running before →
      ¬ before.Refills compiled) :
    ((Machine.boot config input compiled.pools).run compiled fuel).machine.heap.NamesUnique := by
  induction fuel with
  | zero => exact unique_boot config input compiled.pools
  | succ fuel ih =>
    have earlier := roomy.mono (Nat.le_succ fuel)
    have before := ih earlier fun steps less => fresh steps (Nat.lt_succ_of_lt less)
    obtain ⟨settled, once⟩ := once_run config input fuel earlier
    rw [Machine.run_succ]
    cases reached : (Machine.boot config input compiled.pools).run compiled fuel with
    | running last =>
      rw [reached] at before settled once
      exact Machine.unique_advance settled once before (fresh fuel (Nat.lt_succ_self fuel) last reached)
    | finished | failed =>
      rw [reached] at before
      exact before

/-- Every dispatch of every run of any code keeps the names of scopes unique, unless it constructs an
array in a scope that has names already: if no scope owned two live bindings with the same name, none
does afterwards. -/
theorem step_keeps_names_unique (steps : Nat) {before : Machine}
    (reached : (Machine.boot config input compiled.pools).run compiled steps = .running before)
    (roomy : (Machine.boot config input compiled.pools).Roomy compiled steps)
    (unique : before.heap.NamesUnique) (fresh : ¬ before.Refills compiled) :
    (before.advance compiled).machine.heap.NamesUnique := by
  obtain ⟨settled, once⟩ := once_run config input steps roomy
  rw [reached] at settled once
  exact Machine.unique_advance settled once unique fresh

end

/-! ## Generations that begin anew -/

/-- Frees a binding that the program scope lists, and then calls a method with a parameter without end.
The method is called as it is, not as a copy, so it is freed with its scope and its parameter each
time. -/
def recycled : Compiled where
  code :=
    { instructions :=
        #[ -- y
          ⟨.loadName, 0⟩, ⟨.resolveDirect, 0⟩, ⟨.dropTop, 0⟩,
          -- a method that is not called before the next one
          ⟨.loadLiteral, 2⟩, ⟨.defineMethod, 0⟩, ⟨.bindSection, 27⟩,
          -- x = a method, which is freed when it returns
          ⟨.loadName, 1⟩, ⟨.resolveDirect, 0⟩, ⟨.defineMethod, 0⟩, ⟨.bindSection, 27⟩, ⟨.assign, 0⟩,
          ⟨.dropTop, 0⟩, ⟨.loadLiteral, 2⟩, ⟨.loadName, 1⟩, ⟨.resolveDirect, 0⟩, ⟨.evaluate, 0⟩,
          ⟨.dropTop, 0⟩, ⟨.evaluate, 0⟩, ⟨.dropTop, 0⟩,
          -- the loop: a method with the parameter y is made and called
          ⟨.loadLiteral, 2⟩, ⟨.loadName, 0⟩, ⟨.defineMethod, 1⟩, ⟨.bindSection, 27⟩, ⟨.loadLiteral, 2⟩,
          ⟨.evaluate, 1⟩, ⟨.dropTop, 0⟩, ⟨.jump, 19⟩,
          -- the body of all methods
          ⟨.loadLiteral, 2⟩, ⟨.return, 1⟩] }
  pools := (Pools.addEntity {} (.name "y")).addEntity (.name "x")

/-- The machine at the start of the loop. The slot that the program scope still lists has been freed once
for each turn. -/
def recycledAt (generation : UInt32) : Machine :=
  let start := Machine.boot {} [] recycled.pools
  { start with
    heap :=
      { bindings :=
          { slots := start.heap.bindings.slots ++ #[.occupied 0 (.unassigned "y"),
              .vacant generation (some 7), .vacant generation none,
              .occupied 0 { tag := .method, body := 27, scope := some ⟨5, 0⟩ }]
            freeHead := some 6
            size := 7 }
        scopes :=
          { slots := #[.occupied 0 { own := #[⟨2, 0⟩, ⟨5, 0⟩, ⟨7, 0⟩], durable := true },
              .occupied 0 { durable := true }, .occupied 0 { durable := true },
              .occupied 0 { durable := true }, .vacant generation (some 5), .vacant 1 none]
            freeHead := some 4
            size := 4 } }
    registers := { start.registers with ip := 19 } }

private theorem recycledAt_turns (turns : Nat) :
    (Machine.boot {} [] recycled.pools).run recycled (23 + turns * 10)
      = .running (recycledAt (1 + UInt32.ofNat turns)) := by
  have start : (Machine.boot {} [] recycled.pools).run recycled 23 = .running (recycledAt 1) := by cbv
  have turn (generation : UInt32) :
      (recycledAt generation).run recycled 10 = .running (recycledAt (generation + 1)) := by cbv
  rw [Machine.run_add, start]
  refine @Machine.run_turns recycled (fun turns => recycledAt (1 + UInt32.ofNat turns)) 10 turns
    fun turns _ => ?_
  rw [UInt32.ofNat_add, ← UInt32.add_assoc]
  exact turn _

/-- The machine in front of the call, with generations that have begun anew. -/
def recycledLast : Machine :=
  ((recycledAt 0).run recycled 5).machine

private theorem recycledLast_distinct : recycledLast.heap.Distinct := by
  refine distinct_of_handles fun owner member => ?_
  have handles : recycledLast.heap.scopes.handles = [⟨0, 0⟩, ⟨1, 0⟩, ⟨2, 0⟩, ⟨3, 0⟩, ⟨4, 0⟩] := by cbv
  have program : recycledLast.heap.entries ⟨0, 0⟩ = [(⟨2, 0⟩, "Array"), (⟨5, 0⟩, "y")] := by cbv
  have others : ∀ owner ∈ [(⟨1, 0⟩ : ScopeId), ⟨2, 0⟩, ⟨3, 0⟩, ⟨4, 0⟩],
      recycledLast.heap.entries owner = [] := by
    intro owner member
    fin_cases member <;> cbv
  rw [handles] at member
  obtain rfl | member := List.mem_cons.mp member
  · rw [program]
    decide
  · rw [others owner member]
    exact List.nodup_nil

private theorem recycledLast_fresh : ¬ recycledLast.Refills recycled := by
  rintro ⟨owner, ⟨-, count, -, argument, method, caller, rest, value, target, size, -, top, -, -, -,
    there, array, -⟩, -⟩
  have stack : recycledLast.stack = [.binding ⟨1, 0⟩, .binding ⟨6, 0⟩, .binding ⟨1, 0⟩] := by cbv
  have held : recycledLast.heap.bindings.get? ⟨6, 0⟩
      = some { tag := .method, body := 27, scope := some ⟨4, 0⟩ } := by cbv
  cases stack.symm.trans top
  cases held.symm.trans there
  cases array

/-- Where the generations of a slot have begun anew, a parameter has the handle of the binding that was
freed first. So the program scope owns two bindings with the name. -/
theorem recycled_doubles_name :
    ¬ ∀ (compiled : Compiled) (config : Config) (input : List UInt8) (steps : Nat) (before : Machine),
      (Machine.boot config input compiled.pools).run compiled steps = .running before →
      before.heap.NamesUnique → ¬ before.Refills compiled →
      (before.advance compiled).machine.heap.NamesUnique := by
  intro keeps
  have last : (recycledAt 0).run recycled 5 = .running recycledLast := by cbv
  have reached : (Machine.boot {} [] recycled.pools).run recycled (23 + (2 ^ 32 - 1) * 10 + 5)
      = .running recycledLast := by
    rw [Machine.run_add, recycledAt_turns]
    exact last
  have doubled : (recycledLast.advance recycled).machine.heap.entries ⟨0, 0⟩
      = [(⟨2, 0⟩, "Array"), (⟨5, 0⟩, "y"), (⟨7, 0⟩, "y")] := by cbv
  have unique := keeps recycled {} [] _ _ reached recycledLast_distinct.unique recycledLast_fresh
  have listed {id : BindingId} (member : (id, "y") ∈ [(⟨2, 0⟩, "Array"), (⟨5, 0⟩, "y"), (⟨7, 0⟩, "y")]) :=
    mem_entries.mp (doubled.symm ▸ member)
  obtain ⟨owns, named⟩ := @listed ⟨5, 0⟩ (by simp)
  obtain ⟨again, called⟩ := @listed ⟨7, 0⟩ (by simp)
  cases unique ⟨0, 0⟩ _ _ "y" owns again named called

/-! ## An array -/

/-- Makes an array of two elements out of the array constructor. -/
def pair : Compiled where
  code :=
    { instructions :=
        #[⟨.loadLiteral, 0⟩, ⟨.loadName, 0⟩, ⟨.resolveDirect, 0⟩, ⟨.loadLiteral, 3⟩, ⟨.evaluate, 1⟩] }
  pools := (Pools.addEntity {} (.name Machine.arrayName)).addEntity (.constant (.primitive (.integer 2)))

def pairRun (steps : Nat) : Progress :=
  (Machine.boot {} [] pair.pools).run pair steps

private theorem pairRun_slots {steps : Nat} (less : steps ≤ 4) :
    (pairRun steps).machine.heap.scopes.slots.size = 4
      ∧ (pairRun steps).machine.heap.bindings.slots = (pairRun 0).machine.heap.bindings.slots := by
  interval_cases steps <;> exact ⟨by cbv, by cbv⟩

private theorem roomy_pair : (Machine.boot {} [] pair.pools).Roomy pair 4 := by
  refine ⟨fun earlier less => ?_, fun index => ?_⟩
  · rw [← pairRun, (pairRun_slots (Nat.le_of_lt less)).1]
    decide
  · have same {steps : Nat} (less : steps ≤ 4) : (pairRun steps).machine.heap.bindings.generation index
        = (pairRun 0).machine.heap.bindings.generation index := by
      simp only [Arena.generation, (pairRun_slots less).2]
    have none {steps : Nat} (less : steps ≤ 4) :
        (Machine.boot {} [] pair.pools).bindingReuses pair index steps = 0 := by
      induction steps with
      | zero => rfl
      | succ steps ih =>
        have here := same (Nat.le_of_lt less)
        have next := same less
        unfold pairRun at here next
        rw [Machine.bindingReuses, ih (Nat.le_of_lt less), next, here, UInt32.sub_self]
        rfl
    rw [none (Nat.le_refl 4)]
    decide

/-- The only array is made in a scope without names. -/
theorem pair_fresh {steps : Nat} (less : steps ≤ 4) {before : Machine}
    (reached : pairRun steps = .running before) : ¬ before.Refills pair := by
  rintro ⟨owner, ⟨next, count, -, argument, method, caller, rest, value, target, size, -, top, -, -, -,
    there, -, refers⟩, id, name, ⟨found, lists, member⟩, -⟩
  obtain rfl | earlier := Nat.eq_or_lt_of_le less
  · have stack : (pairRun 4).machine.stack = [.binding ⟨5, 0⟩, .binding ⟨2, 0⟩, .binding ⟨3, 0⟩] := by
      cbv
    have array : (pairRun 4).machine.heap.bindings.get? ⟨2, 0⟩
        = some { name := some Machine.arrayName, tag := .array, scope := some ⟨1, 0⟩ } := by cbv
    have scope : (pairRun 4).machine.heap.scopes.get? ⟨1, 0⟩ = some { durable := true } := by cbv
    rw [reached] at stack array scope
    cases stack.symm.trans top
    cases array.symm.trans there
    cases refers
    cases scope.symm.trans lists
    cases member
  · have other : ((pairRun steps).machine.nextOpcode? pair == some .evaluate) = false := by
      interval_cases steps <;> cbv
    rw [reached, Progress.machine, next] at other
    cases other

theorem pair_keeps_names_unique :
    ∃ before, pairRun 4 = .running before ∧ (Machine.boot {} [] pair.pools).Roomy pair 4
      ∧ before.heap.NamesUnique ∧ ¬ before.Refills pair
      ∧ (before.advance pair).machine.heap.NamesUnique := by
  obtain ⟨before, reached⟩ : ∃ before, pairRun 4 = .running before := ⟨_, by cbv⟩
  have unique : before.heap.NamesUnique := by
    have run := names_unique_run {} [] 4 roomy_pair fun earlier less passed => pair_fresh (Nat.le_of_lt less)
    rw [← pairRun, reached] at run
    exact run
  have fresh := pair_fresh (Nat.le_refl 4) reached
  exact ⟨before, reached, roomy_pair, unique, fresh,
    step_keeps_names_unique {} [] 4 reached roomy_pair unique fresh⟩

end ScopeMachine
