import ScopeMachine.Proofs.Assembly.Landing
import ScopeMachine.Proofs.Assembly.Lines

set_option autoImplicit false

/-!
# Signatures

The names of its parameters are loaded right in front of the place where a method is made, in the order
in which the definition lists them. Behind this place the method gets its body, and it gets one nowhere
else.
-/

namespace ScopeMachine

/-- The names that a method definition lists. -/
def Operation.parameterNames : Operation → List String
  | ⟨_, [_, list], _, _⟩ => list.parameterList.filterMap leafName?
  | _ => []

namespace Assembly

/-- The commands that load some names. -/
def loads (indices : List Nat) : List Command :=
  indices.map (⟨.loadName, ·⟩)

/-- Commands stand in the code right in front of an offset. -/
def Precedes (code : List Cell) (commands : List Command) (offset : Nat) : Prop :=
  ∃ start cells, Within code start cells ∧ cells.map (·.command) = commands
    ∧ start + size cells = offset

section

variable {code : List Cell} {front behind : List Command} {command : Command} {offset : Nat}

/-- The last command that precedes an offset ends there. -/
theorem Precedes.last (precedes : Precedes code (front ++ [command]) offset) :
    ∃ place cell, Stands code place cell ∧ cell.command = command ∧ place + command.width = offset
      ∧ Precedes code front place := by
  rcases precedes with ⟨start, cells, within, commands, rfl⟩
  rcases List.map_eq_append_iff.mp commands with ⟨before, last, rfl, earlier, own⟩
  rcases List.map_eq_singleton_iff.mp own with ⟨cell, rfl, rfl⟩
  exact ⟨start + size before, cell, within.right, rfl, by simp [Nat.add_assoc],
    start, before, within.left, earlier, rfl⟩

theorem Precedes.suffix (precedes : Precedes code (front ++ behind) offset) :
    Precedes code behind offset := by
  rcases precedes with ⟨start, cells, within, commands, rfl⟩
  rcases List.map_eq_append_iff.mp commands with ⟨before, last, rfl, -, own⟩
  exact ⟨start + size before, last, within.right, own, by simp [Nat.add_assoc]⟩

end

/-! ## Parameters -/

private theorem parameters?_loads {pools : Pools} (sound : pools.Sound) {parameters : List Operation}
    {commands : List Command} (known : parameters? pools parameters = some commands) :
    ∃ indices, commands = loads indices ∧ indices.length = parameters.length
      ∧ indices.map pools.names.get? = (parameters.filterMap Operation.leafName?).map some := by
  induction parameters generalizing commands with
  | nil =>
    cases known
    exact ⟨[], rfl, rfl, rfl⟩
  | cons parameter rest ih =>
    obtain ⟨index, own, known⟩ := Option.bind_eq_some_iff.mp known
    obtain ⟨others, listed, known⟩ := Option.bind_eq_some_iff.mp known
    obtain ⟨name, leaf, there⟩ := Option.bind_eq_some_iff.mp own
    obtain ⟨entry, found, rfl⟩ := sound.names _ _ there
    obtain ⟨indices, rfl, length, names⟩ := ih listed
    cases known
    refine ⟨index :: indices, rfl, congrArg (· + 1) length, ?_⟩
    rw [List.filterMap_cons_some leaf, List.map_cons, List.map_cons, found, names]
    rfl

/-- A definition loads the names that it lists, and makes a method with as many parameters. -/
theorem definition?_loads {pools : Pools} (sound : pools.Sound) {operation : Operation}
    {commands : List Command} (known : definition? pools operation = some commands) :
    ∃ front indices, commands = front ++ loads indices ++ [⟨.defineMethod, indices.length⟩]
      ∧ indices.map pools.names.get? = operation.parameterNames.map some := by
  unfold definition? at known
  split at known
  · obtain ⟨first, -, known⟩ := Option.bind_eq_some_iff.mp known
    cases known
    exact ⟨first, [], by simp [loads], rfl⟩
  · obtain ⟨first, -, known⟩ := Option.bind_eq_some_iff.mp known
    obtain ⟨names, listed, known⟩ := Option.bind_eq_some_iff.mp known
    obtain ⟨indices, rfl, length, names⟩ := parameters?_loads sound listed
    cases known
    exact ⟨first, indices, by rw [length], names⟩
  · cases known

/-! ## Places of bodies -/

/-- A definition makes its method right in front of an offset. -/
def Introduces (pools : Pools) (code : List Cell) (definition : Operation) (offset : Nat) : Prop :=
  definition.kind = .defineMethod
    ∧ ∃ own, statement? pools definition = some own ∧ Precedes code own offset

/-- Every place in some cells where a method gets a body belongs to one of some statements. -/
def Introducing (pools : Pools) (code : List Cell) (statements : List Operation) (start : Nat)
    (cells : List Cell) : Prop :=
  ∀ ⦃place cell⦄, Stands cells place cell → cell.command.opcode = .bindSection →
    ∃ definition ∈ statements, Introduces pools code definition (start + place)

section

variable {pools : Pools} {code first second : List Cell} {statements : List Operation} {start : Nat}

private theorem Introducing.append (front : Introducing pools code statements start first)
    (behind : Introducing pools code statements (start + size first) second) :
    Introducing pools code statements start (first ++ second) := by
  intro place cell stands binds
  obtain inside | ⟨rest, rfl, inside⟩ := stands.of_append
  · exact front inside binds
  · rw [← Nat.add_assoc]
    exact behind inside binds

private theorem Introducing.mono {more : List Operation}
    (introducing : Introducing pools code statements start first) (fewer : statements ⊆ more) : Introducing pools code more start first := by
  intro place cell stands binds
  obtain ⟨definition, member, introduces⟩ := introducing stands binds
  exact ⟨definition, fewer member, introduces⟩

private theorem introducing_of_none (none : ∀ cell ∈ first, cell.command.opcode ≠ .bindSection) :
    Introducing pools code statements start first := by
  rintro place cell ⟨before, after, rfl, -⟩ binds
  exact absurd binds (none cell (by simp))

variable {line : Option Nat} {depth : Nat} {shape : Shape} {commands : List Command}

private theorem opcode_ne_annotate (none : ∀ command ∈ commands, command.opcode ≠ .bindSection) :
    ∀ cell ∈ annotate line depth shape commands, cell.command.opcode ≠ .bindSection := by
  intro cell member
  apply none
  rw [← map_command_annotate line depth shape commands]
  exact List.mem_map_of_mem member

private theorem opcode_ne_padding {target offset : Nat} :
    ∀ command ∈ padding target offset, command.opcode ≠ .bindSection := by
  intro command member
  obtain rfl := List.eq_of_mem_replicate member
  simp

private theorem opcode_ne_hole {target offset : Nat} {opcode : Opcode} (other : opcode ≠ .bindSection) :
    ∀ cell ∈ annotate line depth shape (hole opcode target offset),
      cell.command.opcode ≠ .bindSection :=
  opcode_ne_annotate (List.forall_mem_cons.mpr ⟨other, opcode_ne_padding⟩)

variable {operation : Operation} {site : Site} {tail segment : Segment}

private theorem StatementLaid.introducing (sound : pools.Sound) (known : statement? pools operation = some commands)
    (laid : StatementLaid code operation site commands tail segment) :
    Introducing pools code [operation] site.start
      (annotate (some operation.line) site.depth []
        (commands ++ (role operation.kind).suffix tail (site.place commands))) := by
  have own : Introducing pools code [operation] site.start
      (annotate (some operation.line) site.depth [] commands) :=
    introducing_of_none (opcode_ne_annotate fun command member => (Straight.opcode_ne
      (straight_statement sound (Nat.le_refl operation.nodes) known command member)).2.2.2.2)
  rw [annotate_append]
  refine own.append ?_
  rw [size_annotate]
  cases kind : role operation.kind with
  | condition => exact introducing_of_none (opcode_ne_hole (by simp))
  | bare => exact introducing_of_none (opcode_ne_annotate (by simp [Role.suffix]))
  | plain => exact introducing_of_none (opcode_ne_annotate (by simp [Role.suffix]))
  | definition =>
    have rest : Introducing pools code [operation]
        (site.start + extent commands + (Command.mk .bindSection tail.body).width)
        (annotate (some operation.line) site.depth
          ((Command.mk .bindSection tail.body).shapeAfter (shapes [] commands))
          (padding tail.body (site.place commands) ++ [⟨.assign, 0⟩, ⟨.endStatement, 0⟩])) :=
      introducing_of_none (opcode_ne_annotate (List.forall_mem_append.mpr ⟨opcode_ne_padding, by simp⟩))
    -- The place itself stands right behind the own commands of the definition.
    have place : Introducing pools code [operation] (site.start + extent commands)
        [⟨⟨.bindSection, tail.body⟩, some operation.line, site.depth, shapes [] commands⟩] := by
      rintro place cell ⟨before, after, parts, rfl⟩ -
      obtain rfl : before = [] := by
        cases before with
        | nil => rfl
        | cons => simp at parts
      refine ⟨operation, .head _, role_eq_definition.mp kind, commands, known, site.start, _, laid.own,
        map_command_annotate .., ?_⟩
      rw [size_annotate]
      rfl
    exact place.append rest

private theorem introducing_entries (sound : pools.Sound) (block : Block) {site : Site}
    (within : Within code site.start (entries pools block site).cells)
    (valid : (entries pools block site).valid) :
    Introducing pools code (Block.statements block) site.start (entries pools block site).cells := by
  induction block using Block.induction generalizing site with
  | nil => exact introducing_of_none nofun
  | statement operation rest ih =>
    simp only [entries, entry] at within valid ⊢
    obtain ⟨commands, known, laid⟩ := statementLaid within valid
    have own := laid.introducing sound known
    have stop := laid.stop
    have later := ih laid.rest laid.valid
    rw [laid.equal] at stop ⊢
    simp only [Segment.statement, size_append] at stop ⊢
    have begins : (site.next operation commands).start = site.start
        + size (annotate (some operation.line) site.depth []
          (commands ++ (role operation.kind).suffix
            (entries pools rest (site.next operation commands)) (site.place commands))) := by omega
    rw [begins] at later
    exact (own.mono (by simp [Block.statements, Entry.statements])).append
      (later.mono (by simp [Block.statements]))
  | block body rest inner later =>
    simp only [entries, entry, Assembly.block] at within valid ⊢
    -- In every setting no method gets a body where the block is opened or closed.
    have parts {front behind : List Cell} {first depth leave last : Nat} {segment : Segment}
        (laid : BlockLaid code site front first (entries pools body (site.inside first depth)) leave
          behind last (entries pools rest
            (site.past (entries pools body (site.inside first depth)) last)) segment)
        (opening : ∀ cell ∈ front, cell.command.opcode ≠ .bindSection)
        (closing : ∀ cell ∈ behind, cell.command.opcode ≠ .bindSection) :
        Introducing pools code (Block.statements (.block body :: rest)) site.start segment.cells := by
      have inside := (inner laid.entries laid.inside).mono
        (List.subset_append_left _ (Block.statements rest))
      have past := (later laid.rest laid.follows).mono
        (List.subset_append_right (Block.statements body) _)
      rw [laid.cells]
      refine (introducing_of_none opening).append (Introducing.append ?_ (Introducing.append
        (introducing_of_none closing) ?_))
      · rw [laid.first_eq]
        exact inside
      · rw [laid.first_eq, laid.leave_eq, laid.stop_eq]
        exact past
    cases kind : setting site.owner with
    | loop condition =>
      simp only [kind] at within valid ⊢
      obtain ⟨_, _, _, _, _, rfl, rfl, rfl, rfl, rfl, -, laid⟩ := loop_laid within valid
      refine parts laid (List.forall_mem_append.mpr ⟨opcode_ne_hole (by simp), by simp [Site.cell]⟩) ?_
      simp
    | method =>
      simp only [kind] at within valid ⊢
      obtain ⟨_, _, _, _, _, rfl, rfl, rfl, rfl, rfl, -, laid⟩ := method_laid within valid
      refine parts laid (List.forall_mem_cons.mpr ⟨by simp [Site.cell], opcode_ne_annotate ?_⟩) (by simp)
      exact opcode_ne_padding
    | arm =>
      simp only [kind] at within valid ⊢
      obtain ⟨_, _, _, rfl, rfl, rfl, -, laid⟩ := arm_laid within valid
      exact parts laid (by simp [Site.cell])
        (List.forall_mem_cons.mpr ⟨by simp, opcode_ne_hole (by simp)⟩)
    | last | free =>
      simp only [kind] at within valid ⊢
      obtain ⟨_, _, _, rfl, rfl, rfl, laid⟩ := nested_laid within valid
      exact parts laid (by simp [Site.cell]) (by simp)

end

/-! ## Programs -/

/-- Every place where a method gets a body belongs to a definition of the program. -/
theorem introduces_image {source : Program} (valid : (program source).valid) {offset : Nat} {cell : Cell}
    (stands : Stands (image source) offset cell) (binds : cell.command.opcode = .bindSection) :
    ∃ definition ∈ Block.statements source.main,
      Introduces (Pools.ofProgram source) (image source) definition offset := by
  have all : Introducing (Pools.ofProgram source) (image source) (Block.statements source.main) 0
      (image source) :=
    Introducing.append (@introducing_entries _ _ (Pools.sound_ofProgram source) source.main {}
      (within_image source).left valid) (introducing_of_none (by simp))
  obtain ⟨definition, member, introduces⟩ := all stands binds
  rw [Nat.zero_add] at introduces
  exact ⟨definition, member, introduces⟩

end Assembly

open Assembly

/-- One of the definitions of a program lists the parameters, and gives the body to its method. -/
def Program.Defines (program : Program) (body : Nat) (parameters : List String) : Prop :=
  ∃ definition ∈ Block.statements program.main, definition.parameterNames = parameters
    ∧ ∃ offset cell, Introduces (Pools.ofProgram program) (image program) definition offset
      ∧ Stands (image program) offset cell ∧ cell.command = ⟨.bindSection, body⟩

end ScopeMachine
