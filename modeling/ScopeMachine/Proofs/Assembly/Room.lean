import ScopeMachine.Proofs.Assembly.Flow
import ScopeMachine.Proofs.Grammar

set_option autoImplicit false

/-!
# Room for targets

A command that refers to a place in the code stands in a run of instructions that was reserved
before the place was known. The segment of a block is valid exactly if its statements have commands,
its method definitions have bodies, and every run has room for its target.
-/

namespace ScopeMachine

/-- The operand of the instruction is an offset into the code. -/
def Opcode.refersToCode : Opcode → Bool
  | .jump | .jumpIfFalse | .bindSection => true
  | _ => false

private theorem extensionCount_mono {small large : Nat} (le : small ≤ large) :
    extensionCount small ≤ extensionCount large := by
  induction large using Nat.strongRecOn generalizing small with
  | ind large ih =>
    have rest : large / 256 ≠ 0 → extensionCount (small / 256) ≤ extensionCount (large / 256) :=
      fun high => ih (large / 256) (by omega) (by omega)
    rw [extensionCount_eq small, extensionCount_eq large]
    split <;> split <;> omega

namespace Assembly

/-- Behind its target a command has room for it in any case. -/
theorem fits_of_le {target offset : Nat} (le : target ≤ offset) : Fits target offset := by
  have fewer := extensionCount_mono le
  unfold Fits placeholderWidth
  omega

/-- Consecutive cells that refer to the code have room for their targets, where a run is reserved at
the offset of each. -/
def Roomy : Nat → List Cell → Prop
  | _, [] => True
  | offset, cell :: rest =>
    (cell.command.opcode.refersToCode → Fits cell.command.operand offset)
      ∧ Roomy (offset + cell.command.width) rest

theorem roomy_append (offset : Nat) (first second : List Cell) :
    Roomy offset (first ++ second) ↔ Roomy offset first ∧ Roomy (offset + size first) second := by
  induction first generalizing offset with
  | nil => simp [Roomy]
  | cons cell rest ih => simp only [List.cons_append, Roomy, ih, size_cons, Nat.add_assoc, and_assoc]

theorem roomy_iff_stands (offset : Nat) (cells : List Cell) :
    Roomy offset cells ↔ ∀ place cell, Stands cells place cell → cell.command.opcode.refersToCode →
      Fits cell.command.operand (offset + place) := by
  constructor
  · rintro roomy place cell ⟨before, after, rfl, rfl⟩
    rw [roomy_append] at roomy
    exact roomy.2.1
  · intro each
    induction cells generalizing offset with
    | nil => trivial
    | cons first rest ih =>
      refine ⟨each 0 first ⟨[], rest, rfl, rfl⟩, ih _ fun place cell stands => ?_⟩
      obtain ⟨before, after, rfl, rfl⟩ := stands
      rw [Nat.add_assoc]
      exact each _ cell ⟨first :: before, after, rfl, rfl⟩

section

variable {pools : Pools} {limit : Nat}

private theorem roomy_straight {line : Option Nat} {depth offset : Nat} {shape : Shape}
    {commands : List Command} (straight : ∀ command ∈ commands, command.Straight pools limit) :
    Roomy offset (annotate line depth shape commands) := by
  induction commands generalizing offset shape with
  | nil => trivial
  | cons command rest ih =>
    refine ⟨fun refers => ?_, ih fun other member => straight other (.tail _ member)⟩
    have own := straight command (.head _)
    obtain ⟨opcode, operand⟩ := command
    cases opcode <;> first | cases refers; done | cases own

private theorem roomy_padding {line : Option Nat} {target depth offset start : Nat} {shape : Shape} :
    Roomy start (annotate line depth shape (padding target offset)) := by
  have straight : ∀ command ∈ padding target offset, command.Straight {} 0 :=
    straight_padding target offset
  exact roomy_straight straight

private theorem roomy_hole {line : Option Nat} {opcode : Opcode} {target depth offset : Nat} {shape : Shape}
    (refers : opcode.refersToCode = true) :
    Roomy offset (annotate line depth shape (hole opcode target offset)) ↔ Fits target offset :=
  ⟨fun roomy => roomy.1 refers, fun fits => ⟨fun _ => fits, roomy_padding⟩⟩

/-- A loop jumps back to a condition in front of its body. -/
def Site.Grounded (site : Site) : Prop :=
  ∀ condition, setting site.owner = .loop condition → condition ≤ site.start

theorem Site.grounded_free {site : Site} (owner : site.owner = none) : site.Grounded := by
  intro condition loops
  rw [owner] at loops
  cases loops

private theorem Site.grounded_after {site : Site} {operation : Operation} {start : Nat}
    (le : site.start ≤ start) : (site.after operation start).Grounded := by
  intro condition loops
  obtain ⟨kind, operands, value, line⟩ := operation
  cases kind <;> cases loops
  exact le

/-- The code behind a definition has a body for it if it starts with a block. -/
theorem body_ne_zero_iff {block : Block} {site : Site} (owner : setting site.owner = .method) :
    (entries pools block site).body ≠ 0 ↔ Block.startsWithBlock block = true := by
  match block with
  | [] => simp [entries, Block.startsWithBlock]
  | .statement operation :: rest =>
    simp [entries, entry, statement, Segment.statement, Block.startsWithBlock]
  | .block body :: rest =>
    simp [entries, entry, Assembly.block, owner, method, Block.startsWithBlock, placeholderWidth]

/-- The commands that the role of a statement adds have room for what they refer to. -/
theorem Role.roomy_suffix {kind : Role} {tail : Segment} {line : Option Nat} {depth place : Nat}
    {shape : Shape} (bound : kind = .definition → tail.body ≠ 0) :
    Roomy place (annotate line depth shape (kind.suffix tail place)) ↔ kind.Fits tail place := by
  cases kind with
  | condition => exact roomy_hole rfl
  | bare => simp [suffix, annotate, Roomy, Role.Fits]
  | definition =>
    have refers : Opcode.bindSection.refersToCode = true := rfl
    simp only [suffix, annotate_append, roomy_append, roomy_hole refers,
      Role.Fits, bound rfl, ne_eq, not_false_eq_true, and_true, and_iff_left_iff_imp]
    exact fun _ => by simp [annotate, Roomy, Opcode.refersToCode]
  | plain => simp [suffix, annotate, Roomy, Role.Fits, Opcode.refersToCode]

end

/-- What the segment of a block needs of a statement and the entries after it. -/
def Complete (pools : Pools) (operation : Operation) (after : Block) : Prop :=
  (statement? pools operation).isSome
    ∧ (operation.kind = .defineMethod → Block.startsWithBlock after = true)

section

variable {pools : Pools} {site : Site}

/-- The segment of a statement is valid if the statement has commands, its target has room, and the
entries behind it are valid. -/
theorem statement_valid_iff (sound : pools.Sound) {operation : Operation} {rest : Block}
    {before : Block}
    (later : ∀ {next : Site}, next.Grounded → ((entries pools rest next).valid ↔
      Block.Each (fun _ => Complete pools) (before ++ [Entry.statement operation]) rest
        ∧ Roomy next.start (entries pools rest next).cells)) :
    (statement pools operation site (entries pools rest)).valid ↔
      (Complete pools operation rest
          ∧ Block.Each (fun _ => Complete pools) (before ++ [Entry.statement operation]) rest)
        ∧ Roomy site.start (statement pools operation site (entries pools rest)).cells := by
  cases known : statement? pools operation with
  | none => simp [statement, Segment.statement, known, Complete]
  | some own =>
    have straight := straight_statement sound (Nat.le_refl _) known
    simp only [statement, known, Option.getD_some, Segment.statement, Complete, Option.isSome_some,
      true_and, annotate_append, roomy_append, size_append, size_annotate,
      roomy_straight straight]
    generalize place : site.start + extent own = offset
    rw [later (site.grounded_after (by omega))]
    have body : role operation.kind = .definition →
        ((entries pools rest (site.after operation (offset + (role operation.kind).gap offset))).body
          ≠ 0 ↔ Block.startsWithBlock rest = true) := fun kind =>
      body_ne_zero_iff (by simp [Site.after, role_eq_definition.mp kind, setting])
    generalize entries pools rest (site.after operation _) = tail at body ⊢
    constructor
    · rintro ⟨fits, each, roomy⟩
      have bound : role operation.kind = .definition → tail.body ≠ 0 := fun kind =>
        (show Role.Fits tail offset .definition from kind ▸ fits).2
      refine ⟨⟨fun defines => ?_, each⟩, (Role.roomy_suffix bound).mpr fits, ?_⟩
      · have kind := role_eq_definition.mpr defines
        exact (body kind).mp (bound kind)
      · rwa [Role.extent_suffix fits, ← Nat.add_assoc, place]
    · rintro ⟨⟨starts, each⟩, own, roomy⟩
      have fits : (role operation.kind).Fits tail offset := (Role.roomy_suffix fun kind =>
        (body kind).mpr (starts (role_eq_definition.mp kind))).mp own
      rw [Role.extent_suffix fits, ← Nat.add_assoc, place] at roomy
      exact ⟨fits, each, roomy⟩

/-- A segment with a block in front is valid if what opens and closes the block has room, and the
entries inside and behind it are valid. -/
theorem around_valid_iff {segment tail block : Segment} {front behind : List Cell}
    {fits inner later : Prop} {start first leave stop : Nat}
    (valid : segment.valid ↔ fits ∧ block.valid ∧ tail.valid)
    (cells : segment.cells = front ++ (block.cells ++ (behind ++ tail.cells)))
    (inside : block.valid ↔ inner ∧ Roomy first block.cells)
    (follows : tail.valid ↔ later ∧ Roomy stop tail.cells)
    (room : fits ↔ Roomy start front ∧ Roomy leave behind)
    (opens : Roomy start front → start + size front = first)
    (ends : first + size block.cells = leave)
    (closes : Roomy leave behind → leave + size behind = stop) :
    segment.valid ↔ (inner ∧ later) ∧ Roomy start segment.cells := by
  simp only [valid, cells, roomy_append, inside, follows, room]
  constructor
  · rintro ⟨⟨opening, closing⟩, ⟨inner, block⟩, later, tail⟩
    rw [opens opening, ends, closes closing]
    exact ⟨⟨inner, later⟩, opening, block, closing, tail⟩
  · rintro ⟨⟨inner, later⟩, opening, block, closing, tail⟩
    rw [opens opening, ends] at closing tail
    rw [opens opening] at block
    rw [closes closing] at tail
    exact ⟨⟨opening, closing⟩, ⟨inner, block⟩, later, tail⟩

private theorem roomy_leave {offset depth : Nat} {line : Option Nat} {rest : List Cell} :
    Roomy offset (⟨⟨.leaveLocal, 0⟩, line, depth, []⟩ :: rest) ↔ Roomy (offset + 1) rest := by
  simp [Roomy, Opcode.refersToCode]

/-- A command that refers to nothing has room in any case. -/
theorem roomy_bare {offset : Nat} {cell : Cell}
    (bare : cell.command.opcode.refersToCode = false) : Roomy offset [cell] :=
  ⟨fun refers => absurd (bare.symm.trans refers) Bool.false_ne_true, trivial⟩

private theorem roomy_enter {offset : Nat} : Roomy offset [site.cell .enterLocal 0] :=
  roomy_bare rfl

/-- The segment of a block is valid exactly if its statements have commands, its method definitions
have bodies, and every reference has room for its target. -/
theorem valid_iff (sound : pools.Sound) (block : Block) {site : Site} (grounded : site.Grounded)
    (before : Block) :
    (entries pools block site).valid ↔
      Block.Each (fun _ => Complete pools) before block
        ∧ Roomy site.start (entries pools block site).cells := by
  induction block using Block.induction generalizing site before with
  | nil => exact ⟨fun _ => ⟨trivial, trivial⟩, fun _ => trivial⟩
  | statement operation rest ih =>
    simp only [entries, entry, Block.Each, Entry.Each]
    exact statement_valid_iff sound fun grounded => ih grounded _
  | block body rest inner later =>
    have inside (start depth : Nat) : (entries pools body (site.inside start depth)).valid ↔
        Block.Each (fun _ => Complete pools) [] body
          ∧ Roomy start (entries pools body (site.inside start depth)).cells :=
      inner (Site.grounded_free rfl) []
    have follows (block : Segment) (start : Nat) :
        (entries pools rest (site.past block start)).valid ↔
          Block.Each (fun _ => Complete pools) (before ++ [Entry.block body]) rest
            ∧ Roomy start (entries pools rest (site.past block start)).cells :=
      later (Site.grounded_free rfl) _
    simp only [entries, entry, Assembly.block, Block.Each, Entry.Each]
    cases kind : setting site.owner with
    | loop condition =>
      refine around_valid_iff .rfl rfl (inside _ _) (follows _ _) ?_ ?_ rfl ?_
      · rw [roomy_append, roomy_hole rfl, roomy_leave]
        have back : condition ≤ site.start := grounded condition kind
        refine ⟨fun fits => ⟨⟨fits, roomy_enter⟩, fun _ => ?_, trivial⟩, fun room => room.1.1⟩
        exact fits_of_le (by simp only; omega)
      · intro room
        rw [roomy_append, roomy_hole rfl] at room
        rw [size_append, size_annotate, extent_hole room.1]
        simp [Site.cell, Nat.add_assoc]
      · simp [Nat.add_assoc]
    | method =>
      refine around_valid_iff .rfl rfl (inside _ _) (follows _ _) ?_ ?_ rfl ?_
      · refine ⟨fun fits => ⟨⟨fun _ => fits, roomy_padding⟩, roomy_bare rfl⟩, fun room => ?_⟩
        exact room.1.1 rfl
      · intro room
        have full : extent (hole .jump _ site.start) = _ := extent_hole (room.1 rfl)
        rw [hole, extent_cons] at full
        simp only [size_cons, size_annotate, Site.cell] at full ⊢
        omega
      · simp [Nat.add_assoc]
    | arm =>
      refine around_valid_iff .rfl rfl (inside _ _) (follows _ _) ?_ ?_ rfl ?_
      · rw [roomy_leave]
        exact ⟨fun fits => ⟨roomy_enter, (roomy_hole rfl).mpr fits⟩,
          fun room => (roomy_hole rfl).mp room.2⟩
      · simp [Site.cell]
      · intro room
        rw [roomy_leave] at room
        have fits := (roomy_hole rfl).mp room
        rw [size_cons, size_annotate, extent_hole fits]
        simp [Nat.add_assoc]
    | last | free =>
      refine around_valid_iff .rfl rfl (inside _ _) (follows _ _) ?_ ?_ rfl ?_
      · exact ⟨fun _ => ⟨roomy_enter, roomy_bare rfl⟩, fun _ => trivial⟩
      · simp [Site.cell]
      · simp

end

end Assembly

end ScopeMachine
