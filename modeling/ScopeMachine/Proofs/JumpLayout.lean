import ScopeMachine.Program.Construct
import ScopeMachine.Proofs.Assembly.Flow
import ScopeMachine.Proofs.Assembly.Blocks
import ScopeMachine.Proofs.Assembly.Placeholders
import ScopeMachine.Proofs.Assembly.Room

set_option autoImplicit false

/-!
# Where jumps lead

The layout of finished code, read off the entries of a program. Every jump belongs to a clause, a
loop or a method, and its operand is an offset that the layout names. Main result: the code of every
program that compiles is laid out so, and each placeholder in it was filled exactly once.
-/

namespace ScopeMachine

open Assembly (hole role statement? extent)

namespace Code

/-- The commands stand in the code between two offsets. -/
def Holds (code : Code) (start stop : Nat) (commands : List Command) : Prop :=
  ∃ before after, code.instructions.toList = before ++ (commands.flatMap Command.slots ++ after)
    ∧ before.length = start ∧ start + extent commands = stop

theorem Holds.append {code : Code} {start middle stop : Nat} {first second : List Command}
    (front : code.Holds start middle first) (back : code.Holds middle stop second) :
    code.Holds start stop (first ++ second) := by
  obtain ⟨before, after, list, rfl, rfl⟩ := front
  obtain ⟨before', after', list', length, rfl⟩ := back
  rw [list, ← List.append_assoc] at list'
  obtain ⟨rfl, rfl⟩ := List.append_inj list' (by
    rw [length, List.length_append, Assembly.length_flatMap_slots])
  exact ⟨before, after', by simpa using list, rfl, by simp [Nat.add_assoc]⟩

/-- The own commands of a statement stand between two offsets. None of them jumps, and none names
the body of a method. -/
def Own (code : Code) (pools : Pools) (operation : Operation) (start stop : Nat) : Prop :=
  ∃ commands, statement? pools operation = some commands ∧ code.Holds start stop commands
    ∧ ∀ command ∈ commands, command.opcode ≠ .jump ∧ command.opcode ≠ .jumpIfFalse
      ∧ command.opcode ≠ .bindSection

/-- Where the chain ends that a statement continues, given where it ends behind the statement. A
statement that continues none is itself what stands behind the chain before it. -/
def chainEnd (operation : Operation) (start past : Nat) : Nat :=
  if operation.kind.continuesIfChain then past else start

/-- The code of entries from `start` to `stop`. Where the first of them continues a chain, `past` is
the first offset behind that chain, and otherwise it is the start. -/
inductive Laid (code : Code) (pools : Pools) : Block → Nat → Nat → Nat → Prop
  | nil {start : Nat} : Laid code pools [] start start start
  /-- A false branch goes to the next clause, or behind the chain if there is none; the exit goes
  behind the chain in any case. -/
  | arm {operation : Operation} {body rest : Block}
    {start place first leave next stop other past : Nat}
    (kind : operation.kind = .if ∨ operation.kind = .elseIf)
    (own : code.Own pools operation start place)
    (branch : code.Holds place first (hole .jumpIfFalse next place ++ [⟨.enterLocal, 0⟩]))
    (inside : Laid code pools body first leave other)
    (exit : code.Holds leave next (⟨.leaveLocal, 0⟩ :: hole .jump past (leave + 1)))
    (behind : Laid code pools rest next stop past) :
    Laid code pools (.statement operation :: .block body :: rest) start stop
      (chainEnd operation start past)
  | otherwise {operation : Operation} {body rest : Block}
    {start first leave next stop other past : Nat} (kind : operation.kind = .else)
    (enter : code.Holds start first [⟨.enterLocal, 0⟩])
    (inside : Laid code pools body first leave other)
    (exit : code.Holds leave next [⟨.leaveLocal, 0⟩])
    (behind : Laid code pools rest next stop past) :
    Laid code pools (.statement operation :: .block body :: rest) start stop past
  /-- The false branch goes behind the back jump, and the back jump to the condition. -/
  | loop {operation : Operation} {body rest : Block}
    {start place first leave next stop other past : Nat} (kind : operation.kind = .while)
    (own : code.Own pools operation start place)
    (branch : code.Holds place first (hole .jumpIfFalse next place ++ [⟨.enterLocal, 0⟩]))
    (inside : Laid code pools body first leave other)
    (back : code.Holds leave next [⟨.leaveLocal, 0⟩, ⟨.jump, start⟩])
    (behind : Laid code pools rest next stop past) :
    Laid code pools (.statement operation :: .block body :: rest) start stop start
  /-- The definition names the first instruction of the body behind it, and the jump in front of the
  body goes behind its return. -/
  | method {operation : Operation} {body rest : Block}
    {start place skip first leave next stop other past : Nat}
    (kind : operation.kind = .defineMethod)
    (own : code.Own pools operation start place)
    (binds : code.Holds place skip
      (hole .bindSection first place ++ [⟨.assign, 0⟩, ⟨.endStatement, 0⟩]))
    (bound : first ≠ 0)
    (around : code.Holds skip first (hole .jump next skip))
    (inside : Laid code pools body first leave other)
    (returns : code.Holds leave next [⟨.return, 0⟩])
    (behind : Laid code pools rest next stop past) :
    Laid code pools (.statement operation :: .block body :: rest) start stop start
  /-- A condition without a body goes on at the next entry in any case. -/
  | condition {operation : Operation} {rest : Block} {start place next stop past : Nat}
    (kind : operation.kind = .if ∨ operation.kind = .elseIf)
    (alone : Block.startsWithBlock rest = false)
    (own : code.Own pools operation start place)
    (branch : code.Holds place next (hole .jumpIfFalse next place))
    (behind : Laid code pools rest next stop past) :
    Laid code pools (.statement operation :: rest) start stop (chainEnd operation start past)
  | bare {operation : Operation} {rest : Block} {start next stop past : Nat}
    (kind : operation.kind = .else ∨ operation.kind = .while)
    (alone : Block.startsWithBlock rest = false)
    (own : code.Own pools operation start next)
    (behind : Laid code pools rest next stop past) :
    Laid code pools (.statement operation :: rest) start stop (chainEnd operation start past)
  | plain {operation : Operation} {rest : Block} {start place next stop past : Nat}
    (kind : role operation.kind = .plain) (own : code.Own pools operation start place)
    (ending : code.Holds place next [⟨.endStatement, 0⟩])
    (behind : Laid code pools rest next stop past) :
    Laid code pools (.statement operation :: rest) start stop start
  | free {body rest : Block} {start first leave next stop other past : Nat}
    (enter : code.Holds start first [⟨.enterLocal, 0⟩])
    (inside : Laid code pools body first leave other)
    (exit : code.Holds leave next [⟨.leaveLocal, 0⟩])
    (behind : Laid code pools rest next stop past) :
    Laid code pools (.block body :: rest) start stop start

end Code

theorem Block.pairInduction {motive : Block → Prop} (nil : motive [])
    (alone : ∀ operation rest, Block.startsWithBlock rest = false → motive rest →
      motive (.statement operation :: rest))
    (owned : ∀ operation body rest, motive body → motive rest →
      motive (.statement operation :: .block body :: rest))
    (free : ∀ body rest, motive body → motive rest → motive (.block body :: rest))
    (block : Block) : motive block := by
  have both : motive block ∧ ∀ operation, motive (.statement operation :: block) := by
    induction block using Block.induction with
    | nil => exact ⟨nil, fun operation => alone operation [] rfl nil⟩
    | statement operation rest ih =>
      exact ⟨ih.2 operation, fun other => alone other _ rfl (ih.2 operation)⟩
    | block body rest inner later =>
      exact ⟨free body rest inner.1 later.1,
        fun operation => owned operation body rest inner.1 later.1⟩
  exact both.1

namespace Assembly

private theorem continues_of_plain {kind : Kind} (plain : role kind = .plain) :
    ¬kind.continuesIfChain = true := by
  cases kind <;> first | simp [Kind.continuesIfChain]; done | cases plain

private theorem slots_eq_flatMap (cells : List Cell) :
    slots cells = (cells.map (·.command)).flatMap Command.slots := by
  induction cells with
  | nil => rfl
  | cons cell rest ih => simp [ih]

private theorem size_eq_extent (cells : List Cell) : size cells = extent (cells.map (·.command)) := by
  induction cells with
  | nil => rfl
  | cons cell rest ih => simp [ih]

section

variable {pools : Pools} {code : Code} {cells : List Cell}
  (image : code.instructions.toList = slots cells)

include image

/-- Cells that stand in the image of code are held by the code. -/
theorem Within.holds {start stop : Nat} {part : List Cell} {commands : List Command}
    (within : Within cells start part) (same : part.map (·.command) = commands)
    (stops : start + size part = stop) : code.Holds start stop commands := by
  obtain ⟨before, after, rfl, rfl⟩ := within
  refine ⟨slots before, slots after, ?_, length_slots before, ?_⟩
  · rw [image, slots_append, slots_append, slots_eq_flatMap part, same]
  · rw [← stops, size_eq_extent part, same]

theorem StatementLaid.holds {operation : Operation} {site : Site} {commands : List Command}
    {tail segment : Segment} (laid : StatementLaid cells operation site commands tail segment) :
    code.Holds (site.place commands) (site.next operation commands).start
      ((role operation.kind).suffix tail (site.place commands)) := by
  refine laid.suffix.holds image (map_command_annotate ..) ?_
  rw [size_annotate, Role.extent_suffix laid.fits]
  rfl

theorem StatementLaid.own_holds (sound : pools.Sound) {operation : Operation} {site : Site}
    {commands : List Command} {tail segment : Segment}
    (laid : StatementLaid cells operation site commands tail segment)
    (known : statement? pools operation = some commands) :
    code.Own pools operation site.start (site.place commands) := by
  refine ⟨commands, known, laid.own.holds image (map_command_annotate ..) ?_, ?_⟩
  · rw [size_annotate]
    rfl
  · intro command member
    have straight := straight_statement sound (Nat.le_refl operation.nodes) known command member
    refine ⟨?_, ?_, ?_⟩ <;> intro same <;> simp [Command.Straight, same] at straight

/-- The entries are laid out wherever their segment stands, unless another statement owns the first
of them. -/
def Lays (pools : Pools) (code : Code) (cells : List Cell) (block : Block) : Prop :=
  ∀ site : Site, (Block.startsWithBlock block = true → setting site.owner = .free) →
    Within cells site.start (entries pools block site).cells → (entries pools block site).valid →
    code.Laid pools block site.start (site.start + size (entries pools block site).cells)
      (entries pools block site).exit

variable {operation : Operation} {body rest : Block} {site : Site}

private theorem laid_free (inner : Lays pools code cells body) (later : Lays pools code cells rest)
    (owner : setting site.owner = .free)
    (within : Within cells site.start (entries pools (.block body :: rest) site).cells)
    (valid : (entries pools (.block body :: rest) site).valid) :
    code.Laid pools (.block body :: rest) site.start
      (site.start + size (entries pools (.block body :: rest) site).cells) site.start := by
  simp only [entries, entry, Assembly.block, owner] at within valid ⊢
  obtain ⟨block, leave, tail, rfl, rfl, rfl, laid⟩ := nested_laid within valid
  rw [laid.ends]
  exact .free (laid.opening.holds image rfl laid.first_eq)
    (inner _ (fun _ => rfl) laid.entries laid.inside)
    (laid.closing.holds image rfl laid.stop_eq) (later _ (fun _ => rfl) laid.rest laid.follows)

/-! ### Statements with a block -/

section

variable {commands : List Command} {segment : Segment} (sound : pools.Sound)
  (inner : Lays pools code cells body) (later : Lays pools code cells rest)
  (known : statement? pools operation = some commands)
  (laid : StatementLaid cells operation site commands
    (Assembly.block body (entries pools body) (site.next operation commands) (entries pools rest))
    segment)

include inner later known laid

private theorem laid_otherwise (kind : operation.kind = .else) :
    code.Laid pools (.statement operation :: .block body :: rest) site.start
      (site.start + size segment.cells) segment.exit := by
  have follows := laid.rest
  have valid := laid.valid
  have owner : setting (site.next operation commands).owner = .last := by
    simp [Site.next, Site.after, kind, setting]
  have begins : (site.next operation commands).start = site.start := by
    obtain rfl : commands = [] := by
      obtain ⟨_, operands, value, line⟩ := operation
      cases kind
      simpa [statement?, role, operation?] using known.symm
    simp [Site.next, Site.after, Site.place, role_eq_bare.mpr (.inl kind), Role.gap]
  rw [laid.stop, laid.exit_eq]
  simp only [Assembly.block, owner] at follows valid ⊢
  obtain ⟨block, leave, tail, rfl, rfl, rfl, parts⟩ := nested_laid follows valid
  have enter := parts.opening.holds image rfl parts.first_eq
  rw [parts.ends]
  simp only [kind]
  exact .otherwise kind (by rwa [← begins]) (inner _ (fun _ => rfl) parts.entries parts.inside)
    (parts.closing.holds image rfl parts.stop_eq)
    (later _ (fun _ => rfl) parts.rest parts.follows)

include sound

private theorem laid_arm (kind : operation.kind = .if ∨ operation.kind = .elseIf) :
    code.Laid pools (.statement operation :: .block body :: rest) site.start
      (site.start + size segment.cells) segment.exit := by
  have own := laid.own_holds image sound known
  have branch := laid.holds image
  have follows := laid.rest
  have valid := laid.valid
  have owner : setting (site.next operation commands).owner = .arm := by
    obtain kind | kind := kind <;> simp [Site.next, Site.after, kind, setting]
  rw [laid.stop, laid.exit_eq]
  simp only [Assembly.block, owner, role_eq_condition.mpr kind, Role.suffix]
    at branch follows valid ⊢
  have next : (arm (entries pools body) (site.next operation commands) (entries pools rest)).branch
      = _ := branch_entries (fun _ => rfl)
  obtain ⟨block, leave, tail, rfl, rfl, rfl, -, parts⟩ := arm_laid follows valid
  rw [next] at branch
  rw [parts.ends]
  exact .arm kind own (branch.append (parts.opening.holds image rfl parts.first_eq))
    (inner _ (fun _ => rfl) parts.entries parts.inside)
    (parts.closing.holds image (congrArg (List.cons _) (map_command_annotate ..)) parts.stop_eq)
    (later _ (fun _ => rfl) parts.rest parts.follows)

private theorem laid_loop (kind : operation.kind = .while) :
    code.Laid pools (.statement operation :: .block body :: rest) site.start
      (site.start + size segment.cells) segment.exit := by
  have own := laid.own_holds image sound known
  have follows := laid.rest
  have valid := laid.valid
  have owner : setting (site.next operation commands).owner = .loop site.start := by
    simp [Site.next, Site.after, kind, setting]
  have begins : (site.next operation commands).start = site.place commands := by
    simp [Site.next, Site.after, role_eq_bare.mpr (.inr kind), Role.gap]
  rw [laid.stop, laid.exit_eq]
  simp only [Assembly.block, owner] at follows valid ⊢
  obtain ⟨enter, block, leave, stop, tail, rfl, rfl, rfl, stops, rfl, -, parts⟩ :=
    loop_laid follows valid
  have branch := parts.opening.holds image
    (by rw [List.map_append, map_command_annotate]) parts.first_eq
  rw [parts.ends]
  simp only [kind]
  exact .loop kind own (by rwa [← begins])
    (inner _ (fun _ => rfl) parts.entries parts.inside)
    (parts.closing.holds image rfl parts.stop_eq)
    (later _ (fun _ => rfl) parts.rest parts.follows)

private theorem laid_method (kind : operation.kind = .defineMethod) :
    code.Laid pools (.statement operation :: .block body :: rest) site.start
      (site.start + size segment.cells) segment.exit := by
  have own := laid.own_holds image sound known
  have binds := laid.holds image
  have follows := laid.rest
  have valid := laid.valid
  have fits := laid.fits
  have owner : setting (site.next operation commands).owner = .method := by
    simp [Site.next, Site.after, kind, setting]
  rw [laid.stop, laid.exit_eq]
  simp only [Assembly.block, owner, role_eq_definition.mpr kind, Role.suffix, Role.Fits]
    at binds follows valid fits ⊢
  obtain ⟨first, block, leave, stop, tail, rfl, rfl, rfl, rfl, rfl, -, parts⟩ :=
    method_laid follows valid
  rw [parts.ends]
  simp only [kind]
  exact .method kind own binds fits.2
    (parts.opening.holds image (congrArg (List.cons _) (map_command_annotate ..)) parts.first_eq)
    (inner _ (fun _ => rfl) parts.entries parts.inside)
    (parts.closing.holds image rfl parts.stop_eq)
    (later _ (fun _ => rfl) parts.rest parts.follows)

/-- A statement together with the block behind it, which it owns unless it is a plain one. -/
theorem laid_owned : code.Laid pools (.statement operation :: .block body :: rest) site.start
    (site.start + size segment.cells) segment.exit := by
  cases kind : role operation.kind with
  | condition => exact laid_arm image sound inner later known laid (role_eq_condition.mp kind)
  | bare =>
    obtain kind | kind := role_eq_bare.mp kind
    · exact laid_otherwise image inner later known laid kind
    · exact laid_loop image sound inner later known laid kind
  | definition => exact laid_method image sound inner later known laid (role_eq_definition.mp kind)
  | plain =>
    have own := laid.own_holds image sound known
    have ending := laid.holds image
    have owner : setting (site.next operation commands).owner = .free := by
      obtain ⟨kind', operands, value, line⟩ := operation
      cases kind' <;> first | rfl | cases kind
    rw [kind] at ending
    rw [laid.stop, laid.exit_eq, if_neg (continues_of_plain kind)]
    exact .plain kind own ending (laid_free image inner later owner laid.rest laid.valid)

end

/-! ### Statements without a block -/

private theorem laid_alone {commands : List Command} {segment : Segment} (sound : pools.Sound)
    (later : Lays pools code cells rest) (alone : Block.startsWithBlock rest = false)
    (known : statement? pools operation = some commands)
    (laid : StatementLaid cells operation site commands
      (entries pools rest (site.next operation commands)) segment) :
    code.Laid pools (.statement operation :: rest) site.start (site.start + size segment.cells)
      segment.exit := by
  have own := laid.own_holds image sound known
  have suffix := laid.holds image
  have fits := laid.fits
  have behind := later _ (by simp [alone]) laid.rest laid.valid
  rw [laid.stop, laid.exit_eq]
  cases kind : role operation.kind with
  | condition =>
    rw [kind, Role.suffix, branch_entries (by simp [alone])] at suffix
    exact .condition (role_eq_condition.mp kind) alone own suffix behind
  | bare =>
    have begins : (site.next operation commands).start = site.place commands := by
      simp [Site.next, Site.after, kind, Role.gap]
    exact .bare (role_eq_bare.mp kind) alone (by rwa [begins]) behind
  | definition =>
    have owner : setting (site.next operation commands).owner = .method := by
      simp [Site.next, Site.after, role_eq_definition.mp kind, setting]
    rw [kind] at fits
    exact absurd ((body_ne_zero_iff owner).mp fits.2) (by simp [alone])
  | plain =>
    rw [kind] at suffix
    rw [if_neg (continues_of_plain kind)]
    exact .plain kind own suffix behind

/-- The entries of a block are laid out wherever their segment stands. -/
theorem lays (sound : pools.Sound) (block : Block) : Lays pools code cells block := by
  induction block using Block.pairInduction with
  | nil => exact fun _ _ _ _ => .nil
  | alone operation rest alone ih =>
    intro site _ within valid
    obtain ⟨commands, known, laid⟩ := statementLaid within valid
    exact laid_alone image sound ih alone known laid
  | owned operation body rest inner later =>
    intro site _ within valid
    obtain ⟨commands, known, laid⟩ := statementLaid within valid
    exact laid_owned image sound inner later known laid
  | free body rest inner later =>
    intro site free within valid
    have exit : (entries pools (.block body :: rest) site).exit = site.start := by
      simp [entries, entry, Assembly.block, free rfl, nested, Segment.around]
    rw [exit]
    exact laid_free image inner later (free rfl) within valid

end

end Assembly

/-- While a program compiles, every placeholder is reserved once and filled once. Its code is laid
out as its entries are, up to the return behind them. -/
theorem jumps_laid {program : Program} {compiled : Compiled}
    (accepted : program.compile = .ok compiled) :
    (∃ events, program.recorder [] = .ok (compiled, events) ∧ ∀ placeholder,
      events.count (.reserved placeholder) ≤ 1
        ∧ events.count (.patched placeholder) = events.count (.reserved placeholder))
      ∧ ∃ stop past, compiled.code.Laid compiled.pools program.main 0 stop past
        ∧ compiled.code.Holds stop compiled.code.size [⟨.return, 0⟩] := by
  refine ⟨program.recorded accepted, ?_⟩
  obtain ⟨pools, image, -, valid⟩ := program.compile_ok accepted
  have within := Assembly.within_image program
  have laid := Assembly.lays image (Pools.sound_ofProgram program) program.main {} (fun _ => rfl)
    within.left valid
  rw [pools]
  refine ⟨_, _, laid, within.right.holds image rfl ?_⟩
  rw [Code.size_eq_length, image, Assembly.length_slots, Assembly.image, Assembly.size_append,
    Nat.zero_add]

/-- A method with a loop, and a chain of three clauses. -/
def crossroads : Program where
  main := [.statement (.define (.name "f") ["n"]),
    .block [.statement (.whileLoop (.name "n")), .block [.statement (.giveBack none)]],
    .statement (.ifClause (.boolean false)), .block [.statement (.print (.integer 1))],
    .statement (.elseIfClause (.boolean true)), .block [.statement (.print (.integer 2))],
    .statement .elseClause, .block [.statement (.print (.integer 3))]]

theorem crossroads_laid : ∃ compiled, crossroads.compile = .ok compiled
    ∧ (∃ events, crossroads.recorder [] = .ok (compiled, events) ∧ ∀ placeholder,
      events.count (.reserved placeholder) ≤ 1
        ∧ events.count (.patched placeholder) = events.count (.reserved placeholder))
    ∧ ∃ stop past, compiled.code.Laid compiled.pools crossroads.main 0 stop past
      ∧ compiled.code.Holds stop compiled.code.size [⟨.return, 0⟩] := by
  have accepted : ∃ compiled, crossroads.compile = .ok compiled := ⟨_, by cbv⟩
  obtain ⟨compiled, accepted⟩ := accepted
  exact ⟨compiled, accepted, jumps_laid accepted⟩

end ScopeMachine
