import ScopeMachine.Proofs.Assembly.Command

set_option autoImplicit false

/-!
# Segments

The finished code of a block, read off its entries from left to right. A segment knows the offsets
that jumps into it wait for, so that no command is written twice: the start of the next clause, the
end of the chain and the body of a method are asked from the segment of the entries that follow.
-/

namespace ScopeMachine.Assembly

/-- A command in its place: the line of the statement it belongs to, the number of blocks open
around it within its method, and the shape of the stack in front of it. -/
structure Cell where
  command : Command
  line : Option Nat
  depth : Nat
  shape : Shape
deriving DecidableEq, Repr

namespace Cell

/-- The number of slots of a cell. -/
def width (cell : Cell) : Nat :=
  cell.command.width

/-- The slots of a cell. -/
def slots (cell : Cell) : List Instruction :=
  cell.command.slots

end Cell

/-- The number of slots of cells. -/
def size : List Cell → Nat
  | [] => 0
  | cell :: rest => cell.width + size rest

/-- The slots of cells in order. -/
def slots (cells : List Cell) : List Instruction :=
  cells.flatMap Cell.slots

/-- The number of slots of commands. -/
def extent : List Command → Nat
  | [] => 0
  | command :: rest => command.width + extent rest

@[simp] theorem extent_nil : extent [] = 0 :=
  rfl

@[simp] theorem extent_cons (command : Command) (rest : List Command) :
    extent (command :: rest) = command.width + extent rest :=
  rfl

@[simp] theorem extent_append (first second : List Command) :
    extent (first ++ second) = extent first + extent second := by
  induction first with
  | nil => simp
  | cons command rest ih => simp [ih, Nat.add_assoc]

theorem length_flatMap_slots (commands : List Command) :
    (commands.flatMap Command.slots).length = extent commands := by
  induction commands with
  | nil => rfl
  | cons command rest ih =>
    rw [List.flatMap_cons, List.length_append, ih, Command.length_slots, extent_cons]

/-- Annotates commands, each with the shape that it meets. -/
def annotate (line : Option Nat) (depth : Nat) : Shape → List Command → List Cell
  | _, [] => []
  | shape, command :: rest =>
    ⟨command, line, depth, shape⟩ :: annotate line depth (command.shapeAfter shape) rest

/-- The rest of a placeholder at an offset behind a jump to a target, which stays empty. -/
def padding (target offset : Nat) : List Command :=
  List.replicate (placeholderWidth offset - (extensionCount target + 1)) ⟨.nop, 0⟩

/-- A jump in a placeholder at an offset. -/
def hole (opcode : Opcode) (target offset : Nat) : List Command :=
  ⟨opcode, target⟩ :: padding target offset

/-- The placeholder at an offset has room for a target. -/
def Fits (target offset : Nat) : Prop :=
  extensionCount target + 1 ≤ placeholderWidth offset

/-! ## Attributes -/

/-- Where the assembly of entries stands: the offset, the open blocks, the statement that owns the
next block with its start, the line in force, and the number of statements passed. -/
structure Site where
  start : Nat := 0
  depth : Nat := 0
  owner : Option (Kind × Nat) := none
  line : Option Nat := none
  position : Nat := 0

/-- A method definition: the number of statements up to it, its line, its body and the offset of
the body. -/
structure Method where
  position : Nat
  line : Option Nat
  body : Block
  offset : Nat

/-- The code of entries up to the end of their block. -/
structure Segment where
  cells : List Cell := []
  marks : List LineMark := []
  methods : List Method := []
  /-- The line in force at the end. -/
  line : Option Nat
  /-- The number of statements passed at the end. -/
  position : Nat
  /-- Where a false branch that waits in front of the segment goes. -/
  branch : Nat
  /-- Where the exits of arms that wait in front of the segment go. -/
  exit : Nat
  /-- The body of the method whose definition stands in front of the segment. -/
  body : Nat := 0
  /-- All operations are well formed, all placeholders have room for their targets, and all methods
  have bodies. -/
  valid : Prop := True

namespace Site

/-- The site after a statement, which owns a block that follows it. -/
def after (site : Site) (operation : Operation) (start : Nat) : Site :=
  { site with
    start
    owner := some (operation.kind, site.start)
    line := some operation.line
    position := site.position + 1 }

/-- The site of the entries of a block inside. -/
def inside (site : Site) (start depth : Nat) : Site :=
  { site with start, depth, owner := none }

/-- The site after a block inside. -/
def past (site : Site) (block : Segment) (start : Nat) : Site :=
  { site with start, owner := none, line := block.line, position := block.position }

/-- A command that belongs to no statement. -/
def cell (site : Site) (opcode : Opcode) (operand : Nat) : Cell :=
  ⟨⟨opcode, operand⟩, site.line, site.depth, []⟩

end Site

/-! ## Roles -/

/-- What stands after the operands of a statement. -/
inductive Role where
  /-- The false branch of a condition. -/
  | condition
  /-- Nothing at all. -/
  | bare
  /-- The place of a method's body. -/
  | definition
  /-- The end of the statement, which pops its result. -/
  | plain
deriving DecidableEq, Repr

/-- The role of a statement by its kind. -/
def role : Kind → Role
  | .if | .elseIf => .condition
  | .else | .while => .bare
  | .defineMethod => .definition
  | _ => .plain

theorem role_eq_condition {kind : Kind} : role kind = .condition ↔ kind = .if ∨ kind = .elseIf := by
  cases kind <;> simp [role]

theorem role_eq_bare {kind : Kind} : role kind = .bare ↔ kind = .else ∨ kind = .while := by
  cases kind <;> simp [role]

theorem role_eq_definition {kind : Kind} : role kind = .definition ↔ kind = .defineMethod := by
  cases kind <;> simp [role]

theorem role_eq_plain {kind : Kind} :
    role kind = .plain ↔ kind.isConditionalJump = false ∧ kind ≠ .defineMethod := by
  cases kind <;> simp [role, Kind.isConditionalJump]

/-- How a block is connected to the statement before it. -/
inductive Setting where
  /-- The body of a loop whose condition starts at an offset. -/
  | loop (condition : Nat)
  /-- The body of a method. -/
  | method
  /-- An arm of a chain, left by an exit. -/
  | arm
  /-- The last arm of a chain. -/
  | last
  /-- A block of its own. -/
  | free
deriving DecidableEq, Repr

/-- The setting of a block by its owner. -/
def setting : Option (Kind × Nat) → Setting
  | some (.while, start) => .loop start
  | some (.defineMethod, _) => .method
  | some (.if, _) | some (.elseIf, _) => .arm
  | some (.else, _) => .last
  | _ => .free

/-! ## Assembly -/

/-- Puts the commands of a statement in front of what follows it. -/
def Segment.statement (tail : Segment) (site : Site) (operation : Operation)
    (commands : List Command) (valid : Prop) : Segment :=
  { tail with
    cells := annotate (some operation.line) site.depth [] commands ++ tail.cells
    marks := ⟨site.start, operation.line⟩ :: tail.marks
    branch := site.start
    exit := if operation.kind.continuesIfChain then tail.exit else site.start
    body := 0
    valid := valid ∧ tail.valid }

/-- The commands of a statement up to what its role adds to them. -/
def statement? (pools : Pools) (operation : Operation) : Option (List Command) :=
  match role operation.kind with
  | .definition => definition? pools operation
  | _ => operation? pools .value operation

/-- What a role adds to the commands of a statement, given the code that follows and the offset. -/
def Role.suffix (tail : Segment) (place : Nat) : Role → List Command
  | .condition => hole .jumpIfFalse tail.branch place
  | .bare => []
  | .definition => hole .bindSection tail.body place ++ [⟨.assign, 0⟩, ⟨.endStatement, 0⟩]
  | .plain => [⟨.endStatement, 0⟩]

/-- The number of slots that a role adds at an offset. -/
def Role.gap (place : Nat) : Role → Nat
  | .condition => placeholderWidth place
  | .bare => 0
  | .definition => placeholderWidth place + 2
  | .plain => 1

/-- The placeholder of a role has room for its target, and a definition has a body. -/
def Role.Fits (tail : Segment) (place : Nat) : Role → Prop
  | .condition => Assembly.Fits tail.branch place
  | .definition => Assembly.Fits tail.body place ∧ tail.body ≠ 0
  | .bare | .plain => True

/-- The segment of a statement and what follows it. -/
def statement (pools : Pools) (operation : Operation) (site : Site) (rest : Site → Segment) :
    Segment :=
  let own := (statement? pools operation).getD []
  let place := site.start + extent own
  let kind := role operation.kind
  let tail := rest (site.after operation (place + kind.gap place))
  tail.statement site operation (own ++ kind.suffix tail place)
    ((statement? pools operation).isSome ∧ kind.Fits tail place)

/-- Puts cells around a block in front of what follows it. -/
def Segment.around (tail block : Segment) (before after : List Cell) (branch exit : Nat)
    (valid : Prop) : Segment :=
  { tail with
    cells := before ++ (block.cells ++ (after ++ tail.cells))
    marks := block.marks ++ tail.marks
    methods := block.methods ++ tail.methods
    branch
    exit
    body := 0
    valid := valid ∧ block.valid ∧ tail.valid }

/-- The segment of the body of a loop, whose condition starts at an offset. -/
def loop (condition : Nat) (inner : Site → Segment) (site : Site) (rest : Site → Segment) :
    Segment :=
  let enter := site.start + placeholderWidth site.start
  let block := inner (site.inside (enter + 1) (site.depth + 1))
  let leave := enter + 1 + size block.cells
  let stop := leave + 1 + (Command.mk .jump condition).width
  let tail := rest (site.past block stop)
  tail.around block
    (annotate site.line site.depth [.value] (hole .jumpIfFalse stop site.start)
      ++ [site.cell .enterLocal 0])
    [⟨⟨.leaveLocal, 0⟩, block.line, site.depth + 1, []⟩,
      ⟨⟨.jump, condition⟩, block.line, site.depth, []⟩]
    site.start site.start (Fits stop site.start)

/-- The segment of the body of a method. The rest of the jump around it counts as a part of it. -/
def method (body : Block) (inner : Site → Segment) (site : Site) (rest : Site → Segment) :
    Segment :=
  let first := site.start + placeholderWidth site.start
  let block := inner (site.inside first 0)
  let stop := first + size block.cells + 1
  let tail := rest (site.past block stop)
  let segment := tail.around block
    (site.cell .jump stop :: annotate site.line 0 [] (padding stop site.start))
    [⟨⟨.return, 0⟩, block.line, 0, []⟩] site.start site.start (Fits stop site.start)
  { segment with
    body := first
    methods := ⟨site.position, site.line, body, first⟩ :: segment.methods }

/-- The segment of an arm of a chain, which keeps what waits in front of it. -/
def arm (inner : Site → Segment) (site : Site) (rest : Site → Segment) : Segment :=
  let block := inner (site.inside (site.start + 1) (site.depth + 1))
  let leave := site.start + 1 + size block.cells
  let tail := rest (site.past block (leave + 1 + placeholderWidth (leave + 1)))
  tail.around block [site.cell .enterLocal 0]
    (⟨⟨.leaveLocal, 0⟩, block.line, site.depth + 1, []⟩ ::
      annotate block.line site.depth [] (hole .jump tail.exit (leave + 1)))
    tail.branch tail.exit (Fits tail.exit (leave + 1))

/-- The segment of a block that is followed by the entries after it. The last arm of a chain keeps
the exits that wait in front of it; in front of a free block nothing waits. -/
def nested (keeps : Bool) (inner : Site → Segment) (site : Site) (rest : Site → Segment) :
    Segment :=
  let block := inner (site.inside (site.start + 1) (site.depth + 1))
  let leave := site.start + 1 + size block.cells
  let tail := rest (site.past block (leave + 1))
  tail.around block [site.cell .enterLocal 0]
    [⟨⟨.leaveLocal, 0⟩, block.line, site.depth + 1, []⟩]
    (if keeps then tail.branch else site.start) (if keeps then tail.exit else site.start) True

/-- The segment of a block and what follows it, as its setting asks. -/
def block (body : Block) (inner : Site → Segment) (site : Site) (rest : Site → Segment) : Segment :=
  match setting site.owner with
  | .loop condition => loop condition inner site rest
  | .method => method body inner site rest
  | .arm => arm inner site rest
  | .last => nested true inner site rest
  | .free => nested false inner site rest

mutual

/-- The segment of an entry and what follows it. -/
def entry (pools : Pools) : Entry → Site → (Site → Segment) → Segment
  | .statement operation, site, rest => statement pools operation site rest
  | .block body, site, rest => block body (entries pools body) site rest
termination_by structural entry => entry

/-- The segment of the entries up to the end of their block. -/
def entries (pools : Pools) : List Entry → Site → Segment
  | [], site =>
    { line := site.line, position := site.position, branch := site.start, exit := site.start }
  | first :: rest, site => entry pools first site (entries pools rest)
termination_by structural entries => entries

end

/-- The segment of a whole program, without its return. -/
def program (program : Program) : Segment :=
  entries (Pools.ofProgram program) program.main {}

/-- The finished code of a program. -/
def image (source : Program) : List Cell :=
  (program source).cells ++ [⟨⟨.return, 0⟩, (program source).line, 0, []⟩]

end ScopeMachine.Assembly
