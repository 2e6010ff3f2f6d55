import ScopeMachine.Proofs.Assembly.Flow

set_option autoImplicit false

/-!
# Landing

A body is given to a method by a cell that only the definition of the method leads to. Jumps land
elsewhere, and so do calls and returns, whether or not a program is well-shaped.
-/

namespace ScopeMachine.Assembly

/-- What stands at an offset does not give a body to a method. -/
def Lands (code : List Cell) (offset : Nat) : Prop :=
  ∀ cell, Stands code offset cell → cell.command.opcode ≠ .bindSection

/-- All jumps among some cells land. -/
def Jumping (code cells : List Cell) : Prop :=
  ∀ cell ∈ cells, cell.command.opcode = .jump ∨ cell.command.opcode = .jumpIfFalse →
    Lands code cell.command.operand

/-- Jumps in front of a segment land, wherever in it they lead. -/
structure Landed (code : List Cell) (site : Site) (segment : Segment) : Prop where
  start : Lands code site.start
  branch : Lands code segment.branch
  exit : Lands code segment.exit

section

variable {code : List Cell} {offset : Nat} {cell : Cell}

theorem Stands.lands (stands : Stands code offset cell)
    (other : cell.command.opcode ≠ .bindSection) : Lands code offset := by
  intro found there
  have wide := cell.command.width_pos
  obtain ⟨-, rfl⟩ := stands.unique there (Nat.le_refl _) (by omega)
  exact other

theorem Stands.ends_unique {other : Cell} {place : Nat} (stands : Stands code offset cell)
    (there : Stands code place other)
    (ends : offset + cell.command.width = place + other.command.width) : other = cell := by
  have wide := cell.command.width_pos
  have breadth := other.command.width_pos
  obtain behind | before := Nat.le_total offset place
  · exact (stands.unique there behind (by omega)).2
  · exact (there.unique stands before (by omega)).2.symm

theorem Stands.lands_behind (stands : Stands code offset cell)
    (defined : ∀ {offset cell}, Stands code offset cell → cell.command.opcode = .bindSection →
      Defined code offset)
    (other : cell.command.opcode ≠ .defineMethod) : Lands code (offset + cell.command.width) := by
  intro found there binds
  obtain ⟨place, before, stood, defines, ends⟩ := defined there binds
  cases stands.ends_unique stood ends.symm
  exact other defines

theorem Jumping.append {first second : List Cell} (before : Jumping code first)
    (behind : Jumping code second) : Jumping code (first ++ second) := by
  intro cell member
  obtain member | member := List.mem_append.mp member
  · exact before cell member
  · exact behind cell member

theorem Jumping.cons {rest : List Cell}
    (own : cell.command.opcode = .jump ∨ cell.command.opcode = .jumpIfFalse →
      Lands code cell.command.operand)
    (behind : Jumping code rest) : Jumping code (cell :: rest) :=
  List.forall_mem_cons.mpr ⟨own, behind⟩

private theorem jumping_annotate {line : Option Nat} {depth : Nat} {shape : Shape} {commands : List Command}
    (lands : ∀ command ∈ commands, command.opcode = .jump ∨ command.opcode = .jumpIfFalse →
      Lands code command.operand) :
    Jumping code (annotate line depth shape commands) := by
  intro cell member
  refine lands cell.command ?_
  rw [← map_command_annotate line depth shape commands]
  exact List.mem_map_of_mem member

private theorem jumping_padding {line : Option Nat} {depth target : Nat} {shape : Shape} :
    Jumping code (annotate line depth shape (padding target offset)) := by
  refine jumping_annotate fun command member jumps => ?_
  obtain rfl := List.eq_of_mem_replicate member
  simp at jumps

private theorem jumping_hole {line : Option Nat} {depth target : Nat} {shape : Shape} {opcode : Opcode}
    (lands : opcode = .jump ∨ opcode = .jumpIfFalse → Lands code target) :
    Jumping code (annotate line depth shape (hole opcode target offset)) :=
  Jumping.cons lands jumping_padding

variable {pools : Pools} {operation : Operation} {site : Site} {commands : List Command}
  {tail segment : Segment} (sound : pools.Sound)
  (known : statement? pools operation = some commands)
  (laid : StatementLaid code operation site commands tail segment)

include sound known laid

/-- A statement does not begin with the place of a body: a definition comes first. -/
theorem StatementLaid.lands (next : Lands code (site.next operation commands).start) :
    Lands code site.start := by
  cases commands with
  | cons command rest =>
    have straight := straight_statement sound (Nat.le_refl operation.nodes) known command (.head _)
    exact laid.own.head.lands (Straight.opcode_ne straight).2.2.2.2
  | nil =>
    have suffix := laid.suffix
    cases kind : role operation.kind with
    | condition | plain =>
      rw [kind] at suffix
      exact suffix.head.lands (by simp)
    | bare => simpa [Site.next, Site.after, kind, Role.gap, Site.place] using next
    | definition =>
      simp only [statement?, kind] at known
      obtain ⟨front, count, ends⟩ := definition?_ends known
      simp at ends

omit laid in
private theorem jumping_statement (branch : Lands code tail.branch) :
    Jumping code (annotate (some operation.line) site.depth []
      (commands ++ (role operation.kind).suffix tail (site.place commands))) := by
  rw [annotate_append]
  refine Jumping.append (jumping_annotate fun command member jumps => ?_) ?_
  · have straight := straight_statement sound (Nat.le_refl operation.nodes) known command member
    obtain ⟨jump, jumpIfFalse, -⟩ := Straight.opcode_ne straight
    simp [jump, jumpIfFalse] at jumps
  · cases role operation.kind with
    | condition => exact jumping_hole fun _ => branch
    | bare => exact jumping_annotate (by simp [Role.suffix])
    | plain => exact jumping_annotate (by simp [Role.suffix])
    | definition =>
      rw [Role.suffix, annotate_append]
      exact (jumping_hole (by simp)).append (jumping_annotate (by simp))

end

section

variable {pools : Pools} {code : List Cell}

/-- Jumps to entries land, when jumps to their end do. -/
theorem landed_entries (sound : pools.Sound) (block : Block) {site : Site}
    (within : Within code site.start (entries pools block site).cells)
    (valid : (entries pools block site).valid)
    (stop : Lands code (site.start + size (entries pools block site).cells)) :
    Landed code site (entries pools block site) := by
  induction block using Block.induction generalizing site with
  | nil => exact ⟨stop, stop, stop⟩
  | statement operation rest ih =>
    simp only [entries, entry] at within valid stop ⊢
    obtain ⟨commands, known, laid⟩ := statementLaid within valid
    have landed := ih laid.rest laid.valid (laid.stop ▸ stop)
    have start := laid.lands sound known landed.start
    refine ⟨start, ?_, ?_⟩
    · rw [laid.equal]
      exact start
    · rw [laid.exit_eq]
      split
      · exact landed.exit
      · exact start
  | block body rest inner later =>
    simp only [entries, entry, Assembly.block] at within valid stop ⊢
    cases kind : setting site.owner with
    | loop condition =>
      simp only [kind] at within valid ⊢
      obtain ⟨_, _, _, _, _, -, -, -, -, -, -, laid⟩ := loop_laid within valid
      have start : Lands code site.start := laid.opening.head.lands (by simp)
      exact ⟨start, start, start⟩
    | method =>
      simp only [kind] at within valid ⊢
      obtain ⟨_, _, _, _, _, -, -, -, -, -, -, laid⟩ := method_laid within valid
      have start : Lands code site.start := laid.opening.head.lands (by simp [Site.cell])
      exact ⟨start, start, start⟩
    | arm =>
      simp only [kind] at within valid stop ⊢
      obtain ⟨_, _, _, rfl, rfl, rfl, -, laid⟩ := arm_laid within valid
      have landed := later laid.rest laid.follows (laid.ends ▸ stop)
      exact ⟨laid.opening.head.lands (by simp [Site.cell]), landed.branch, landed.exit⟩
    | last =>
      simp only [kind] at within valid stop ⊢
      obtain ⟨_, _, _, rfl, rfl, rfl, laid⟩ := nested_laid within valid
      have landed := later laid.rest laid.follows (laid.ends ▸ stop)
      exact ⟨laid.opening.head.lands (by simp [Site.cell]), landed.branch, landed.exit⟩
    | free =>
      simp only [kind] at within valid ⊢
      obtain ⟨_, _, _, -, -, -, laid⟩ := nested_laid within valid
      have start : Lands code site.start := laid.opening.head.lands (by simp [Site.cell])
      exact ⟨start, start, start⟩

private theorem jumping_entries (sound : pools.Sound) (block : Block) {site : Site}
    (within : Within code site.start (entries pools block site).cells)
    (valid : (entries pools block site).valid)
    (loops : ∀ condition, setting site.owner = .loop condition → Lands code condition)
    (stop : Lands code (site.start + size (entries pools block site).cells)) :
    Jumping code (entries pools block site).cells := by
  induction block using Block.induction generalizing site with
  | nil =>
    intro cell member
    cases member
  | statement operation rest ih =>
    have start := (landed_entries sound (.statement operation :: rest) within valid stop).start
    simp only [entries, entry] at within valid stop ⊢
    obtain ⟨commands, known, laid⟩ := statementLaid within valid
    have end_ : Lands code ((site.next operation commands).start
      + size (entries pools rest (site.next operation commands)).cells) := laid.stop ▸ stop
    have landed := landed_entries sound rest laid.rest laid.valid end_
    rw [laid.equal]
    refine (jumping_statement sound known landed.branch).append (ih laid.rest laid.valid ?_ end_)
    intro condition loop
    obtain ⟨kind, operands, value, line⟩ := operation
    cases kind <;> cases loop
    exact start
  | block body rest inner later =>
    simp only [entries, entry, Assembly.block] at within valid stop ⊢
    -- In every setting only the jumps of the code that opens and closes the block are left.
    have parts {front behind : List Cell} {first depth leave last : Nat} {segment : Segment}
        (laid : BlockLaid code site front first (entries pools body (site.inside first depth)) leave
          behind last (entries pools rest
            (site.past (entries pools body (site.inside first depth)) last)) segment)
        (stop : Lands code (site.start + size segment.cells)) (leaves : Lands code leave)
        (opening : Lands code last → Jumping code front)
        (closing : Landed code (site.past (entries pools body (site.inside first depth)) last)
            (entries pools rest (site.past (entries pools body (site.inside first depth)) last)) →
          Jumping code behind) : Jumping code segment.cells := by
      rw [← laid.leave_eq] at leaves
      rw [laid.ends] at stop
      have landed := landed_entries sound rest laid.rest laid.follows stop
      rw [laid.cells]
      have here := inner laid.entries laid.inside (fun condition loop => by cases loop) leaves
      have past := later laid.rest laid.follows (fun condition loop => by cases loop) stop
      exact (opening landed.start).append (here.append ((closing landed).append past))
    cases kind : setting site.owner with
    | loop condition =>
      simp only [kind] at within valid stop ⊢
      obtain ⟨_, _, _, _, _, rfl, rfl, rfl, rfl, rfl, -, laid⟩ := loop_laid within valid
      refine parts laid stop (laid.closing.head.lands (by simp)) (fun last => ?_) fun _ => ?_
      · exact (jumping_hole fun _ => last).append (by simp [Jumping, Site.cell])
      · have back := loops condition kind
        simp [Jumping, back]
    | method =>
      simp only [kind] at within valid stop ⊢
      obtain ⟨_, _, _, _, _, rfl, rfl, rfl, rfl, rfl, -, laid⟩ := method_laid within valid
      refine parts laid stop (laid.closing.head.lands (by simp)) (fun last => ?_)
        fun _ => by simp [Jumping]
      exact Jumping.cons (fun _ => last) jumping_padding
    | arm =>
      simp only [kind] at within valid stop ⊢
      obtain ⟨_, _, _, rfl, rfl, rfl, -, laid⟩ := arm_laid within valid
      refine parts laid stop (laid.closing.head.lands (by simp))
        (fun _ => by simp [Jumping, Site.cell]) fun landed => ?_
      exact Jumping.cons (by simp) (jumping_hole fun _ => landed.exit)
    | last | free =>
      simp only [kind] at within valid stop ⊢
      obtain ⟨_, _, _, rfl, rfl, rfl, laid⟩ := nested_laid within valid
      exact parts laid stop (laid.closing.head.lands (by simp))
        (fun _ => by simp [Jumping, Site.cell]) fun _ => by simp [Jumping]

end

/-! ## Programs -/

section

variable {source : Program} (valid : (program source).valid)

include valid

/-- A program starts where control lands. -/
theorem lands_start : Lands (image source) 0 :=
  (@landed_entries _ _ (Pools.sound_ofProgram source) source.main {} (within_image source).left valid
    ((within_image source).right.head.lands (by simp))).start

theorem lands_target {offset : Nat} {cell : Cell} (stands : Stands (image source) offset cell)
    (jumps : cell.command.opcode = .jump ∨ cell.command.opcode = .jumpIfFalse) :
    Lands (image source) cell.command.operand := by
  have all : Jumping (image source) (image source) :=
    Jumping.append (@jumping_entries _ _ (Pools.sound_ofProgram source) source.main {}
      (within_image source).left valid nofun ((within_image source).right.head.lands (by simp)))
      (by simp [Jumping])
  refine all cell ?_ jumps
  obtain ⟨before, after, same, -⟩ := stands
  rw [same]
  simp

/-- Control lands at the body of every method. -/
theorem lands_section {body : Nat} (member : body ∈ sections source) (bound : body ≠ 0) :
    Lands (image source) body := by
  cases member with
  | head => contradiction
  | tail _ member =>
    obtain ⟨method, listed, rfl⟩ := List.mem_map.mp member
    have shape : False → source.wellShaped = true := False.elim
    have laid := methods_image (.of shape) valid method listed
    exact (@landed_entries _ _ (Pools.sound_ofProgram source) method.body method.site
      laid.within.left laid.valid (laid.within.right.head.lands (by simp))).start

end

end ScopeMachine.Assembly
