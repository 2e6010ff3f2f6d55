import ScopeMachine.Proofs.Assembly.Flow

set_option autoImplicit false

/-!
# Code without loops

In the code of a program without loops every jump goes forward, past its own placeholder.
-/

namespace ScopeMachine

mutual

def Entry.loopFree : Entry → Bool
  | .statement operation => operation.kind != .while
  | .block body => Block.loopFree body
termination_by structural entry => entry

def Block.loopFree : List Entry → Bool
  | [] => true
  | entry :: rest => Entry.loopFree entry && Block.loopFree rest
termination_by structural entries => entries

end

/-- No statement of the program is a loop. A loop that is an operand is no more than its
condition. -/
def Program.loopFree (program : Program) : Bool :=
  Block.loopFree program.main

namespace Assembly

/-- Jumps among consecutive cells go to offsets behind them. -/
def Forward : Nat → List Cell → Prop
  | _, [] => True
  | offset, cell :: rest =>
    (cell.command.opcode = .jump ∨ cell.command.opcode = .jumpIfFalse →
        offset + cell.command.width ≤ cell.command.operand)
      ∧ Forward (offset + cell.command.width) rest

theorem Forward.append {offset : Nat} {first second : List Cell} (before : Forward offset first)
    (next : Forward (offset + size first) second) : Forward offset (first ++ second) := by
  induction first generalizing offset with
  | nil => exact next
  | cons cell rest ih =>
    refine ⟨before.1, ih before.2 ?_⟩
    rwa [Nat.add_assoc, ← size_cons]

theorem Forward.stands {offset place : Nat} {cell : Cell} {cells : List Cell}
    (forward : Forward offset cells) (stands : Stands cells place cell)
    (jump : cell.command.opcode = .jump ∨ cell.command.opcode = .jumpIfFalse) :
    offset + place + cell.command.width ≤ cell.command.operand := by
  obtain ⟨before, after, rfl, rfl⟩ := stands
  induction before generalizing offset with
  | nil => exact forward.1 jump
  | cons first rest ih =>
    have later := ih forward.2
    rw [size_cons]
    omega

section

variable {pools : Pools} {limit : Nat}

private theorem forward_straight {line : Option Nat} {depth offset : Nat} {shape : Shape}
    {commands : List Command} (straight : ∀ command ∈ commands, command.Straight pools limit) :
    Forward offset (annotate line depth shape commands) := by
  induction commands generalizing offset shape with
  | nil => trivial
  | cons command rest ih =>
    obtain ⟨jump, branch, -⟩ := Straight.opcode_ne (straight command (.head _))
    refine ⟨fun either => ?_, ih fun other member => straight other (.tail _ member)⟩
    cases either <;> contradiction

private theorem forward_padding {line : Option Nat} {target depth offset start : Nat} {shape : Shape} :
    Forward start (annotate line depth shape (padding target offset)) := by
  have straight : ∀ command ∈ padding target offset, command.Straight {} 0 :=
    straight_padding target offset
  exact forward_straight straight

private theorem forward_hole {line : Option Nat} {opcode : Opcode} {target depth offset : Nat}
    {shape : Shape} (fits : Fits target offset)
    (ahead : opcode = .jump ∨ opcode = .jumpIfFalse → offset + placeholderWidth offset ≤ target) :
    Forward offset (annotate line depth shape (hole opcode target offset)) := by
  refine ⟨fun jump => ?_, forward_padding⟩
  have wide : extensionCount target + 1 ≤ placeholderWidth offset := fits
  have room := ahead jump
  simp only [Command.width]
  omega

/-- Jumps that wait in front of entries go to their start or behind it. -/
theorem le_branch_exit (pools : Pools) (block : Block) (site : Site) :
    site.start ≤ (entries pools block site).branch ∧ site.start ≤ (entries pools block site).exit := by
  induction block using Block.induction generalizing site with
  | nil => exact ⟨Nat.le_refl _, Nat.le_refl _⟩
  | statement operation rest ih =>
    simp only [entries, entry, statement, Segment.statement]
    refine ⟨Nat.le_refl _, ?_⟩
    split
    · refine Nat.le_trans ?_ (ih _).2
      simp only [Site.after]
      omega
    · exact Nat.le_refl _
  | block body rest inner later =>
    simp only [entries, entry, Assembly.block]
    cases setting site.owner with
    | loop condition => exact ⟨Nat.le_refl _, Nat.le_refl _⟩
    | method => exact ⟨Nat.le_refl _, Nat.le_refl _⟩
    | arm =>
      constructor
      · refine Nat.le_trans ?_ (later _).1
        simp only [Site.past]
        omega
      · refine Nat.le_trans ?_ (later _).2
        simp only [Site.past]
        omega
    | last =>
      constructor
      · refine Nat.le_trans ?_ (later _).1
        simp only [Site.past]
        omega
      · refine Nat.le_trans ?_ (later _).2
        simp only [Site.past]
        omega
    | free => exact ⟨Nat.le_refl _, Nat.le_refl _⟩

/-- The statement in front of entries is no loop. -/
def Site.Unlooped (site : Site) : Prop :=
  ∀ condition, setting site.owner ≠ .loop condition

private theorem Site.unlooped_next {site : Site} {operation : Operation} {commands : List Command}
    (free : operation.kind ≠ .while) : (site.next operation commands).Unlooped := by
  intro condition loop
  obtain ⟨kind, operands, value, line⟩ := operation
  cases kind <;> cases loop
  contradiction

variable {code : List Cell}

theorem StatementLaid.forward {operation : Operation} {site : Site} {commands : List Command}
    {tail segment : Segment} (laid : StatementLaid code operation site commands tail segment)
    (straight : ∀ command ∈ commands, command.Straight pools limit)
    (ahead : (site.next operation commands).start ≤ tail.branch) :
    Forward site.start (annotate (some operation.line) site.depth []
      (commands ++ (role operation.kind).suffix tail (site.place commands))) := by
  have fits := laid.fits
  rw [annotate_append]
  refine (forward_straight straight).append ?_
  rw [size_annotate]
  show Forward (site.place commands) _
  simp only [Site.next, Site.after] at ahead
  cases kind : role operation.kind with
  | condition =>
    rw [kind] at fits ahead
    exact forward_hole fits fun _ => ahead
  | bare => trivial
  | definition =>
    rw [kind] at fits
    simp only [Role.suffix, annotate_append]
    refine (forward_hole fits.1 (by simp)).append ?_
    have rest : ∀ command ∈ [Command.mk .assign 0, ⟨.endStatement, 0⟩], command.Straight {} 0 := by
      simp [Command.Straight]
    exact forward_straight rest
  | plain => exact ⟨by simp, trivial⟩

theorem BlockLaid.forward {site : Site} {front behind : List Cell} {block tail segment : Segment}
    {first leave stop : Nat}
    (laid : BlockLaid code site front first block leave behind stop tail segment)
    (opening : Forward site.start front) (inside : Forward first block.cells)
    (closing : Forward leave behind) (follows : Forward stop tail.cells) :
    Forward site.start segment.cells := by
  rw [laid.cells]
  refine opening.append ?_
  rw [laid.first_eq]
  refine inside.append ?_
  rw [laid.leave_eq]
  refine closing.append ?_
  rwa [laid.stop_eq]

/-- Jumps of entries without loops go forward. -/
theorem forward_entries (sound : pools.Sound) (block : Block) {site : Site}
    (free : Block.loopFree block = true) (unlooped : site.Unlooped)
    (within : Within code site.start (entries pools block site).cells)
    (valid : (entries pools block site).valid) :
    Forward site.start (entries pools block site).cells := by
  induction block using Block.induction generalizing site with
  | nil => trivial
  | statement operation rest ih =>
    simp only [entries, entry] at within valid ⊢
    simp only [Block.loopFree, Entry.loopFree, Bool.and_eq_true, bne_iff_ne] at free
    obtain ⟨commands, known, laid⟩ := statementLaid within valid
    have later := ih free.2 (Site.unlooped_next free.1) laid.rest laid.valid
    have own := laid.forward (straight_statement sound (Nat.le_refl _) known)
      (le_branch_exit pools rest _).1
    have gap := Role.extent_suffix laid.fits
    rw [laid.equal]
    refine own.append ?_
    rw [size_annotate, extent_append, gap, ← Nat.add_assoc]
    exact later
  | block body rest inner later =>
    simp only [entries, entry, Assembly.block] at within valid ⊢
    simp only [Block.loopFree, Entry.loopFree, Bool.and_eq_true] at free
    have parts {front behind : List Cell} {first depth leave last : Nat} {segment : Segment}
        (laid : BlockLaid code site front first (entries pools body (site.inside first depth)) leave
          behind last (entries pools rest
            (site.past (entries pools body (site.inside first depth)) last)) segment)
        (opening : Forward site.start front) (closing : Forward leave behind) :
        Forward site.start segment.cells :=
      laid.forward opening (inner free.1 (fun _ loop => by cases loop) laid.entries laid.inside)
        closing (later free.2 (fun _ loop => by cases loop) laid.rest laid.follows)
    cases kind : setting site.owner with
    | loop condition => exact absurd kind (unlooped condition)
    | method =>
      simp only [kind] at within valid ⊢
      obtain ⟨_, _, _, _, _, rfl, rfl, rfl, rfl, rfl, fits, laid⟩ := method_laid within valid
      refine parts laid ?_ ⟨by simp, trivial⟩
      have jump : Forward site.start (annotate site.line 0 [] (hole .jump _ site.start)) :=
        forward_hole fits fun _ => by omega
      exact ⟨jump.1, forward_padding⟩
    | arm =>
      simp only [kind] at within valid ⊢
      obtain ⟨_, _, _, rfl, rfl, rfl, fits, laid⟩ := arm_laid within valid
      refine parts laid ⟨by simp [Site.cell], trivial⟩ ⟨by simp, ?_⟩
      rw [Command.width_zero]
      exact forward_hole fits fun _ => (le_branch_exit pools rest (site.past _ _)).2
    | last | free =>
      simp only [kind] at within valid ⊢
      obtain ⟨_, _, _, rfl, rfl, rfl, laid⟩ := nested_laid within valid
      exact parts laid ⟨by simp [Site.cell], trivial⟩ ⟨by simp, trivial⟩

end

/-- In the code of a program without loops every jump goes forward. -/
theorem forward_image {source : Program} (free : source.loopFree = true)
    (valid : (program source).valid) : Forward 0 (image source) :=
  (forward_entries (Pools.sound_ofProgram source) source.main free (fun _ loop => by cases loop)
    (within_image source).left valid).append ⟨by simp, trivial⟩

end Assembly

end ScopeMachine
