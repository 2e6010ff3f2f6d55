import Mathlib
import ScopeMachine.Program.Construct
import ScopeMachine.Proofs.Machine.Sparing

set_option autoImplicit false

/-!
# Literals

Literals are shared: every use of a constant of a program, and every use of a value that was shared
once, is the same binding. Main result: along every run of a well-shaped program no literal is ever
changed or freed, so that all of them hold what they stand for.
-/

namespace ScopeMachine

open Assembly Heap

/-- The literals of a machine that has run a program from its start. -/
structure Machine.KeepsLiterals (start machine : Machine) (pools : Pools) : Prop where
  /-- The table of constants has the binding of each constant of the pool in its place. -/
  table : machine.constants.size = pools.constants.entries.size ∧
    ∀ (index : Nat) (constant : Constant), pools.constants.entries[index]? = some constant →
      ∃ id binding, machine.constants[index]? = some id
        ∧ machine.heap.bindings.get? id = some binding ∧ binding.constant = true
        ∧ constant.Stored start.heap binding
  /-- The table of shared values has a constant for each of them. -/
  shared : ∀ (payload : Payload) (id : BindingId), machine.interned[payload]? = some id →
    machine.heap.bindings.get? id = some payload.shared
  /-- To share a value always leads to a constant that holds it. -/
  shares : ∀ payload, ∃ id after binding, Action.intern payload machine = .ok id after
    ∧ after.heap.bindings.get? id = some binding ∧ binding.payload = payload
    ∧ binding.constant = true
  nothing : machine.heap.bindings.get? machine.nothing
    = some { name := some nothingName, constant := true }
  object : machine.heap.bindings.get? ⟨0, 0⟩
    = some { tag := .object, scope := some machine.programScope, constant := true }
  /-- There are no other constants. -/
  known : ∀ (id : BindingId) (binding : Binding), machine.heap.bindings.get? id = some binding →
    binding.constant = true → id = ⟨0, 0⟩ ∨ id = machine.nothing ∨ id ∈ machine.constants
      ∨ ∃ payload : Payload, machine.interned[payload]? = some id

/-! ## Machines that keep their own literals -/

section

variable {base machine : Machine} {spare : List BindingId}

theorem Machine.Retains.addReport (retains : base.Retains machine) (severity : Severity)
    (message : String) : base.Retains (machine.addReport severity message) := by
  obtain ⟨constants, nothing, programScope, shared, literals⟩ := retains
  exact ⟨constants, nothing, programScope, shared, literals⟩

theorem Sheltered.moved (sheltered : Sheltered base spare machine)
    (ip extended extensions line : Nat) :
    Sheltered base spare (machine.moved ip extended extensions line) := by
  obtain ⟨shielded, constants, nothing, programScope, shared, literals⟩ := sheltered
  exact ⟨shielded, constants, nothing, programScope, shared, literals⟩

/-- A machine whose shared values are found has the literals of itself. -/
theorem Machine.retains_self (found : ∀ {payload : Payload} {id : BindingId},
      machine.interned[payload]? = some id → machine.heap.bindings.get? id = some payload.shared) :
    machine.Retains machine := by
  refine ⟨rfl, rfl, rfl, fun known => known, fun id binding constant => ⟨.inl, ?_⟩⟩
  rintro (there | ⟨payload, known, rfl⟩)
  · exact there
  · exact found known

/-- What a sheltered machine has may count as the literals from now on. -/
theorem Sheltered.rebase (sheltered : Sheltered base spare machine) :
    Sheltered machine spare machine :=
  ⟨sheltered.shielded, Machine.retains_self sheltered.retains.found⟩

private theorem Preserving.rebase {source : Program} {offset : Nat} {cell : Cell}
    (preserving : Preserving base source offset cell machine) :
    Preserving machine source offset cell machine := by
  obtain ⟨kinds, spans, fits, sheltered⟩ := preserving
  exact ⟨kinds, spans, fits, sheltered.rebase⟩

/-- To share a value leads to a constant that holds it. -/
theorem Machine.Retains.interns (retains : base.Retains machine)
    (nothing : ∃ binding, machine.heap.bindings.get? machine.nothing = some binding
      ∧ binding.payload = .absent ∧ binding.constant = true) (payload : Payload) :
    ∃ id after binding, Action.intern payload machine = .ok id after
      ∧ after.heap.bindings.get? id = some binding ∧ binding.payload = payload
      ∧ binding.constant = true := by
  by_cases absent : payload = .absent
  · subst absent
    obtain ⟨binding, there, holds⟩ := nothing
    exact ⟨machine.nothing, machine, binding, rfl, there, holds⟩
  · cases known : machine.interned[payload]? with
    | some id =>
      refine ⟨id, machine, payload.shared, ?_, retains.found known, rfl, rfl⟩
      simp only [Action.intern, Machine.withInterned, Machine.internIn_of_some absent known]
    | none =>
      refine ⟨(machine.heap.allocate payload.shared).1, { machine with
        heap := (machine.heap.allocate payload.shared).2
        interned := machine.interned.insert payload (machine.heap.allocate payload.shared).1 },
        payload.shared, ?_, (get?_allocate _ _ _).trans (if_pos rfl), rfl, rfl⟩
      simp only [Action.intern, Machine.withInterned, Machine.internIn_of_none absent known]

end

/-! ## Runs -/

/-- A machine at a cell of a well-shaped program, with the literals of an earlier one. -/
def Abiding (base : Machine) (source : Program) : Assertion := fun offset cell machine =>
  Placed True source offset cell machine ∧ Defining source offset cell machine
    ∧ Preserving base source offset cell machine

section

variable {source : Program} (shape : source.wellShaped = true) (valid : (program source).valid)

include shape valid

/-- Literals are kept where a program runs. -/
theorem kept_abiding (base : Machine) :
    Kept (Pools.ofProgram source).names (image source) (Abiding base source)
      (fun _ machine => base.Retains machine) (fun _ machine => base.Retains machine) where
  moved ip extended extensions line := fun ⟨placed, defining, kinds, spans, fits, sheltered⟩ =>
    ⟨(kept_placed (.of fun _ => shape) valid).moved ip extended extensions line placed,
      ⟨defining.method, defining.returns⟩, kinds, spans, fits,
      sheltered.moved ip extended extensions line⟩
  step stands := fun ⟨placed, defining, preserving⟩ here => by
    have counts : True → source.wellShaped = true := fun _ => shape
    have after := ((kept_placed (.of counts) valid).step stands placed here).and
      (preserving_step shape valid stands placed defining preserving here)
    refine after.imp (fun result goes there both => ⟨both.1, ?_, both.2⟩) (fun _ retains => retains)
      fun _ retains => retains
    exact defining_step counts valid stands placed defining here result goes there

/-- A machine that is ready to run has the literals of itself. -/
theorem abiding_boot (config : Config) (input : List UInt8) :
    (Abiding (Machine.boot config input (Pools.ofProgram source)) source).At (image source)
      (Machine.boot config input (Pools.ofProgram source)) := by
  have counts : True → source.wellShaped = true := fun _ => shape
  have stocked := stocked_boot (Pools.ofProgram source)
  obtain ⟨cell, stands, placed⟩ := Assertion.at_boot.mp (placed_boot counts valid config input)
  have spans : Spans (image source) [] (Machine.boot config input (Pools.ofProgram source)).frames
      [] := ⟨[], rfl, rfl, fun _ => ⟨rfl, rfl⟩, fun more => absurd rfl more⟩
  have sparing : Sparing (Machine.boot config input (Pools.ofProgram source)) []
      (Machine.boot config input (Pools.ofProgram source)) := by
    rw [boot_eq]
    exact ⟨trivial, ⟨stocked.guarded.tidy, stocked.owned, nofun, nofun, .nil⟩,
      Machine.retains_self fun known => (stocked.interned known).2⟩
  obtain ⟨other, there, preserving⟩ := sparing.arrives spans (leads_image (.of counts) valid)
  have wide := cell.command.width_pos
  obtain ⟨-, rfl⟩ := stands.unique there (Nat.le_refl _) (by omega)
  exact Assertion.at_boot.mpr
    ⟨_, stands, placed, defining_boot valid config input stands, preserving⟩

/-- A machine that runs on keeps the literals that it has. -/
theorem retains_run {compiled : Compiled} (encodes : Encodes compiled (image source))
    (pools : compiled.pools = Pools.ofProgram source) {base machine : Machine}
    (at_ : (Abiding base source).At (image source) machine) (steps : Nat) :
    base.Retains (machine.run compiled steps).machine := by
  have kept := kept_abiding shape valid base
  rw [← pools] at kept
  have along := kept.run encodes at_ steps
  cases reached : machine.run compiled steps with
  | running last =>
    rw [reached] at along
    obtain ⟨_, _, _, -, -, -, -, kinds, -, -, sheltered⟩ := along
    exact sheltered.retains
  | finished result last =>
    rw [reached] at along
    exact along
  | failed line fault last =>
    rw [reached] at along
    obtain ⟨before, retains, -, rfl⟩ := along
    exact retains.addReport _ _

end

/-- The literals of the start are those of every later machine. -/
theorem Machine.Retains.keepsLiterals {config : Config} {input : List UInt8} {pools : Pools}
    {machine : Machine} (retains : (Machine.boot config input pools).Retains machine) :
    (Machine.boot config input pools).KeepsLiterals machine pools := by
  have stocked := stocked_boot pools
  rw [boot_eq] at retains ⊢
  have nothing : machine.heap.bindings.get? machine.nothing
      = some { name := some nothingName, constant := true } :=
    retains.nothing ▸ retains.keeps rfl stocked.nothing
  have object := retains.keeps rfl stocked.object
  refine
    { table := ⟨?_, fun index constant member => ?_⟩
      shared := fun payload id => retains.found
      shares := retains.interns ⟨_, nothing, rfl, rfl⟩
      nothing
      object := by rw [retains.programScope, object]
      known := fun id binding there constant => ?_ }
  · rw [retains.constants]
    exact stocked.size
  · rw [← Array.getElem?_toList] at member
    obtain ⟨id, binding, listed, there, stored⟩ := stocked.table member
    exact ⟨id, binding, retains.constants ▸ listed, retains.keeps stored.constant there,
      stored.constant, stored⟩
  · obtain before | ⟨payload, shared, -⟩ := (retains.literals id binding constant).mp there
    · rw [retains.constants, retains.nothing]
      exact (stocked.listed before constant).imp_right (·.imp_right .inl)
    · exact .inr (.inr (.inr ⟨payload, shared⟩))

/-- Along every run of a well-shaped program the table of constants has the binding of every constant
in its place, the table of shared values has a constant for each of them with just this value, and
sharing a value leads to such a constant. These are all constants that there are, apart from nothing
and the program object, and no step changes or frees any of them. -/
theorem run_keeps_literals {program : Program} {compiled : Compiled}
    (accepted : program.compile = .ok compiled) (shape : program.wellShaped = true)
    (addressable : Addressable program compiled) (config : Config) (input : List UInt8)
    (fuel : Nat) :
    (Machine.boot config input compiled.pools).KeepsLiterals
        ((Machine.boot config input compiled.pools).run compiled fuel).machine compiled.pools
      ∧ ∀ (more : Nat) (id : BindingId) (binding : Binding), binding.constant = true →
        ((Machine.boot config input compiled.pools).run compiled
          fuel).machine.heap.bindings.get? id = some binding →
        ((Machine.boot config input compiled.pools).run compiled
          (fuel + more)).machine.heap.bindings.get? id = some binding := by
  obtain ⟨pools, -, -, valid⟩ := program.compile_ok accepted
  have encodes := encodes_image accepted addressable
  have start := abiding_boot shape valid config input
  rw [← pools] at start
  refine ⟨(retains_run shape valid encodes pools start fuel).keepsLiterals,
    fun more id binding constant there => ?_⟩
  have kept := kept_abiding shape valid (Machine.boot config input compiled.pools)
  rw [← pools] at kept
  have along := kept.run encodes start fuel
  rw [Machine.run_add]
  -- From here on, what the machine has counts as its literals.
  cases reached : (Machine.boot config input compiled.pools).run compiled fuel with
  | running machine =>
    rw [reached] at along there
    obtain ⟨offset, cell, index, stands, reading, placed, defining, preserving⟩ := along
    have now : (Abiding machine program).At (image program) machine :=
      ⟨offset, cell, index, stands, reading, placed, defining, preserving.rebase⟩
    exact (retains_run shape valid encodes pools now more).keeps constant there
  | finished | failed =>
    rw [reached] at there
    exact there

/-- Prints whether two numbers are equal. -/
def unequal : Program where
  main := [.statement (.print (.binary .isEqual (.integer 1) (.integer 2)))]

private theorem addressable_unequal {compiled : Compiled} (accepted : unequal.compile = .ok compiled) :
    Addressable unequal compiled := by
  have code : size (image unequal) = 7 := by cbv
  have names : (Pools.ofProgram unequal).names.size = 0 := by cbv
  have constants : (Pools.ofProgram unequal).constants.size = 5 := by cbv
  refine addressable_of_image accepted (by decide) ?_ ?_ ?_
  · rw [code]
    decide
  · rw [names]
    decide
  · rw [constants]
    decide

/-- The answer is shared, and stays what it is. -/
theorem unequal_keeps_literals :
    ∃ compiled, unequal.compile = .ok compiled ∧ unequal.wellShaped = true
      ∧ Addressable unequal compiled
      ∧ (Machine.boot {} [] compiled.pools).KeepsLiterals
        ((Machine.boot {} [] compiled.pools).run compiled 4).machine compiled.pools
      ∧ ∀ more, ((Machine.boot {} [] compiled.pools).run compiled
        (4 + more)).machine.heap.bindings.get? ⟨7, 0⟩ = some (Payload.boolean false).shared := by
  have found : unequal.bindingAfter? 4 ⟨7, 0⟩ = some (Payload.boolean false).shared := by cbv
  have shape : unequal.wellShaped = true := by decide
  cases accepted : unequal.compile with
  | error => simp [Program.bindingAfter?, accepted] at found
  | ok compiled =>
    simp only [Program.bindingAfter?, accepted] at found
    have addressable := addressable_unequal accepted
    obtain ⟨keeps, stays⟩ := run_keeps_literals accepted shape addressable {} [] 4
    exact ⟨compiled, rfl, shape, addressable, keeps, fun more => stays more _ _ rfl found⟩

end ScopeMachine
