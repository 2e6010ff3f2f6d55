import ScopeMachine.Proofs.Structured.Simulation

set_option autoImplicit false

/-!
# Following blocks

The code of the entries of a block follows their structured execution. Where an earlier clause of a
chain was taken, the run stands at the exit of the chain.
-/

namespace ScopeMachine

open Assembly Activity

/-- An induction over blocks that takes a statement together with a block right behind it. -/
theorem Block.pairing {motive : List Entry → Prop} (nil : motive [])
    (owner : ∀ operation body rest, motive body → motive rest →
      motive (.statement operation :: .block body :: rest))
    (statement : ∀ operation rest, Block.startsWithBlock rest = false → motive rest →
      motive (.statement operation :: rest))
    (block : ∀ body rest, motive body → motive rest → motive (.block body :: rest))
    (entries : List Entry) : motive entries := by
  have both : motive entries ∧ ∀ operation, motive (.statement operation :: entries) := by
    induction entries using Block.induction with
    | nil => exact ⟨nil, fun operation => statement operation [] rfl nil⟩
    | statement first rest ih =>
      exact ⟨ih.2 first, fun operation => statement operation _ rfl (ih.2 first)⟩
    | block body rest inner later =>
      exact ⟨block body rest inner.1 later.1, fun operation =>
        owner operation body rest inner.1 later.1⟩
  exact both.1

theorem Block.apart_cases {block : List Entry} (apart : Block.startsWithBlock block = false) :
    block = [] ∨ ∃ operation rest, block = .statement operation :: rest := by
  cases block with
  | nil => exact .inl rfl
  | cons entry rest =>
    cases entry with
    | statement operation => exact .inr ⟨operation, rest, rfl⟩
    | block body => cases apart

/-! ## Statements -/

/-- A statement that owns no block is executed for its result. -/
theorem Context.entries_apart (context : Context) (operation : Operation) {rest : Block}
    (apart : Block.startsWithBlock rest = false) (place : Place) (taken : Bool) :
    context.entries (.statement operation :: rest) place taken
      = (context.operation (some operation.line) .value operation).andThen
        ((perform (some operation.line) Action.endStatement).andThen
        (context.entries rest (place.after operation) false)) := by
  obtain rfl | ⟨_, _, rfl⟩ := Block.apart_cases apart <;> rfl

/-- A statement that is repeated leads from state to state. -/
theorem Context.entries_replicate (context : Context) (operation : Operation) {line : Nat}
    (on : operation.line = line) (count : Nat) (rest : Block)
    (apart : Block.startsWithBlock rest = false) {state : Nat → Machine}
    (round : ∀ index < count, (context.operation (some line) .value operation).andThen
      (perform (some line) Action.endStatement) (state index) = .done (state (index + 1)))
    (place : Place) :
    ∃ behind, context.entries (List.replicate count (.statement operation) ++ rest) place false
      (state 0) = context.entries rest behind false (state count) := by
  subst on
  induction count generalizing state place with
  | zero => exact ⟨place, rfl⟩
  | succ count ih =>
    have more : Block.startsWithBlock (List.replicate count (.statement operation) ++ rest)
        = false := by
      cases count with
      | zero => exact apart
      | succ count => rfl
    obtain ⟨behind, later⟩ := @ih (fun index => state (index + 1)) (place.after operation)
      fun index less => round (index + 1) (by omega)
    refine ⟨behind, ?_⟩
    rw [List.replicate_succ, List.cons_append, context.entries_apart operation more, ← andThen_assoc,
      andThen_of_done (round 0 (by omega))]
    exact later

/-! ## Places -/

def Assembly.Site.here (site : Site) : Place :=
  ⟨site.line, site.position⟩

/-- The segment of entries knows the place behind them. -/
theorem leave_entries (pools : Pools) (block : Block) (site : Site) :
    Block.leave site.here block
      = ⟨(entries pools block site).line, (entries pools block site).position⟩ := by
  induction block using Block.induction generalizing site with
  | nil => rfl
  | statement operation rest ih =>
    simp only [entries, entry, Assembly.statement, Segment.statement]
    rw [← ih]
    rfl
  | block body rest inner later =>
    have through (start depth stop : Nat) : Block.leave site.here (.block body :: rest)
        = ⟨(entries pools rest (site.past (entries pools body (site.inside start depth)) stop)).line,
          (entries pools rest
            (site.past (entries pools body (site.inside start depth)) stop)).position⟩ := by
      have first : Block.leave site.here body = _ := inner (site.inside start depth)
      rw [← later]
      exact congrArg (Block.leave · rest) first
    simp only [entries, entry, Assembly.block]
    cases setting site.owner with
    | loop | method | arm | last | free => exact through _ _ _

private theorem line_leave (pools : Pools) (block : Block) (site : Site) (start depth : Nat) :
    (Block.leave site.here block).line = (entries pools block (site.inside start depth)).line :=
  congrArg Place.line (leave_entries pools block (site.inside start depth))

private theorem later_of_eq {before after : Option Nat} (same : before = after) : Later before after := by
  rw [same]
  exact id

/-- The line of a place stays known behind entries. -/
theorem later_leave (place : Place) (block : Block) : Later place.line (Block.leave place block).line := by
  induction block using Block.induction generalizing place with
  | nil => exact id
  | statement operation rest ih => exact fun _ => ih _ rfl
  | block body rest inner later => exact fun known => later _ (inner _ known)

section

variable {code : List Cell} {operation : Operation} {site : Site} {commands : List Command}
  {tail segment : Segment} (laid : StatementLaid code operation site commands tail segment)

include laid

private theorem Assembly.StatementLaid.line_eq : segment.line = tail.line := by
  rw [laid.equal]
  rfl

theorem Assembly.StatementLaid.methods_eq : segment.methods = tail.methods := by
  rw [laid.equal]
  rfl

end

/-! ## Straight code -/

private theorem sound_context {compiled : Compiled} {program : Program}
    (accepted : program.compile = .ok compiled) {context : Context}
    (pools : context.pools = compiled.pools) : context.pools.Sound := by
  rw [pools, (program.compile_ok accepted).1]
  exact Pools.sound_ofProgram program

section

variable {compiled : Compiled} {program : Program} (accepted : program.compile = .ok compiled)
  (addressable : Addressable program compiled) {least : Nat}

include accepted addressable

/-- The rest of a placeholder is passed. -/
theorem follows_padding {target place offset depth : Nat} {line before : Option Nat} {shape : Shape}
    (within : Within (image program) offset (annotate line depth shape (padding target place)))
    (later : Later before line) {stop : Option Spot} {execution : Activity}
    (follows : Follows compiled (limits program) least
      ⟨offset + extent (padding target place), line⟩ stop execution) :
    Follows compiled (limits program) least ⟨offset, before⟩ stop execution := by
  unfold padding at within follows
  generalize placeholderWidth place - (extensionCount target + 1) = count at within follows
  induction count generalizing offset shape before with
  | zero => exact follows.later later
  | succ count ih =>
    rw [List.replicate_succ] at within follows
    have behind : Follows compiled (limits program) least
        ⟨offset + (Command.mk .nop 0).width + extent (List.replicate count ⟨.nop, 0⟩), line⟩ stop
        execution := by
      rwa [Nat.add_assoc, ← extent_cons]
    exact follows_silent accepted addressable within.head later (fun _ => rfl) (fun _ => rfl)
      (ih id within.tail behind)

private theorem follows_test {target place depth : Nat} {line before : Option Nat} {shape : Shape}
    (fits : Fits target place)
    (within : Within (image program) place
      (annotate line depth shape (hole .jumpIfFalse target place)))
    (later : Later before line) {stop : Option Spot} {yes no : Activity}
    (passes : Follows compiled (limits program) least ⟨place + placeholderWidth place, line⟩ stop
      yes)
    (jumps : Follows compiled (limits program) least ⟨target, line⟩ stop no) :
    Follows compiled (limits program) (least + 1) ⟨place, before⟩ stop (branch line yes no) := by
  have full : (Command.mk .jumpIfFalse target).width + extent (padding target place)
      = placeholderWidth place := extent_hole fits
  rw [← full, ← Nat.add_assoc] at passes
  exact follows_branch accepted addressable within.head later rfl
    (follows_padding accepted addressable within.tail id passes) jumps

private theorem follows_jump {target offset depth : Nat} {line before : Option Nat} {shape : Shape}
    (stands : Stands (image program) offset ⟨⟨.jump, target⟩, line, depth, shape⟩)
    (later : Later before line) {stop : Option Spot} {execution : Activity}
    (follows : Follows compiled (limits program) least ⟨target, line⟩ stop execution) :
    Follows compiled (limits program) least ⟨offset, before⟩ stop execution :=
  follows_silent accepted addressable stands later (fun _ => rfl) (fun _ => rfl) follows

variable {context : Context} (pools : context.pools = compiled.pools)
  (bodies : ∀ target ∈ Assembly.bodies program,
    Follows compiled (limits program) (least - 1) ⟨target, none⟩ none (context.methods target))

include pools bodies

/-- Commands without control flow are followed one after the other. -/
theorem follows_commands {commands : List Command} {offset depth : Nat} {line before : Option Nat}
    {shape : Shape} (within : Within (image program) offset (annotate line depth shape commands))
    (plain : ∀ command ∈ commands, command.opcode ≠ .jump ∧ command.opcode ≠ .jumpIfFalse
      ∧ command.opcode ≠ .enterLocal ∧ command.opcode ≠ .leaveLocal)
    (later : Later before line) :
    Follows compiled (limits program) least ⟨offset, before⟩
      (some ⟨offset + extent commands, line⟩) (context.commands line commands) := by
  induction commands generalizing offset shape before with
  | nil => exact (Follows.skip ⟨offset, line⟩).later later
  | cons command rest ih =>
    have stands := within.head
    obtain ⟨jump, branch, enter, leave⟩ := plain command (.head _)
    have behind := ih within.tail (fun other member => plain other (.tail _ member)) id
    rw [Nat.add_assoc, ← extent_cons] at behind
    refine Follows.andThen ?_ behind
    obtain ⟨opcode, operand⟩ := command
    by_cases evaluate : opcode = .evaluate
    · subst evaluate
      exact (follows_call accepted addressable stands later rfl bodies).fewer (by omega)
    · by_cases returns : opcode = .return
      · subst returns
        exact (follows_leave accepted addressable stands later rfl).anywhere _
      · rw [context.command_of_ne line operand evaluate returns, pools]
        exact follows_straight accepted addressable stands later evaluate returns jump branch enter
          leave

private theorem follows_own {operation : Operation} {site : Site} {commands : List Command}
    {tail segment : Segment} {before : Option Nat}
    (known : statement? context.pools operation = some commands)
    (laid : StatementLaid (image program) operation site commands tail segment) :
    Follows compiled (limits program) least ⟨site.start, before⟩
      (some ⟨site.place commands, some operation.line⟩)
      (context.commands (some operation.line) commands) := by
  have sound := sound_context accepted pools
  refine follows_commands accepted addressable pools bodies laid.own (fun command member => ?_)
    (fun _ => rfl)
  have straight := straight_statement sound (Nat.le_refl _) known command member
  refine ⟨?_, ?_, ?_, ?_⟩ <;> intro same <;> simp [Command.Straight, same] at straight

/-- The condition of a clause or a loop is followed. -/
theorem follows_condition {operation : Operation} {site : Site} {commands : List Command}
    {tail segment : Segment} {before : Option Nat}
    (condition : operation.kind = .if ∨ operation.kind = .elseIf ∨ operation.kind = .while)
    (known : statement? context.pools operation = some commands)
    (laid : StatementLaid (image program) operation site commands tail segment) :
    Follows compiled (limits program) least ⟨site.start, before⟩
      (some ⟨site.place commands, some operation.line⟩)
      (context.operations (some operation.line) operation.operands) := by
  have sound := sound_context accepted pools
  have own : Follows compiled (limits program) least ⟨site.start, before⟩ _ _ :=
    follows_own accepted addressable pools bodies known laid
  obtain ⟨kind, operands, value, line⟩ := operation
  have plain : operation? context.pools .value ⟨kind, operands, value, line⟩ = some commands := by
    obtain rfl | rfl | rfl := condition <;> exact known
  have same : context.operation (some line) .value ⟨kind, operands, value, line⟩
      = (context.operations (some line) operands).andThen skip := by
    obtain rfl | rfl | rfl := condition <;> rfl
  rwa [Context.commands_operation sound _ plain, same, andThen_skip] at own

omit pools bodies in
/-- A block is followed when its entries are. -/
theorem follows_scope {site : Site} {enter leave : Nat} {behind before : Option Nat}
    (opening : Stands (image program) enter (site.cell .enterLocal 0))
    (closing : Stands (image program) leave ⟨⟨.leaveLocal, 0⟩, behind, site.depth + 1, []⟩)
    (later : Later before site.line) {inner : Activity}
    (inside : Follows compiled (limits program) least ⟨enter + 1, site.line⟩
      (some ⟨leave, behind⟩) inner) :
    Follows compiled (limits program) least ⟨enter, before⟩ (some ⟨leave + 1, behind⟩)
      (inScope site.line behind inner) := by
  have enters : Follows compiled (limits program) least ⟨enter, before⟩
      (some ⟨enter + 1, site.line⟩) (perform site.line Action.enterLocal) := by
    have enters : Follows compiled (limits program) least ⟨enter, before⟩ _ _ :=
      follows_enter accepted addressable opening later rfl
    simpa [Site.cell] using enters
  have leaves : Follows compiled (limits program) least ⟨leave, behind⟩
      (some ⟨leave + 1, behind⟩) (perform behind Action.leaveLocal) := by
    have leaves : Follows compiled (limits program) least ⟨leave, behind⟩ _ _ :=
      follows_close accepted addressable closing id rfl
    simpa using leaves
  exact enters.andThen (inside.andThen leaves)

end

/-! ## Blocks -/

/-- The code of entries follows their execution wherever it stands. -/
def Followed (program : Program) (compiled : Compiled) (least : Nat) (context : Context)
    (block : Block) : Prop :=
  ∀ {site : Site} (taken : Bool) {before : Option Nat},
    (site.owner = none ∨ Block.startsWithBlock block = false) →
    Block.wellShaped block = true →
    Within (image program) site.start (entries context.pools block site).cells →
    (entries context.pools block site).valid →
    (∀ method ∈ (entries context.pools block site).methods,
      context.label method.position = method.offset) →
    Later before site.line →
    Follows compiled (limits program) least
      ⟨if taken then (entries context.pools block site).exit else site.start, before⟩
      (some ⟨site.start + size (entries context.pools block site).cells,
        (entries context.pools block site).line⟩)
      (context.entries block site.here taken)

section

variable {compiled : Compiled} {program : Program} {context : Context} {least : Nat}
  {site : Site} {body rest : Block} {first depth stop leave : Nat} {before : Option Nat}

theorem Followed.past (followed : Followed program compiled least context rest) (taken : Bool)
    (shape : Block.wellShaped rest = true)
    (within : Within (image program) stop (entries context.pools rest
      (site.past (entries context.pools body (site.inside first depth)) stop)).cells)
    (valid : (entries context.pools rest
      (site.past (entries context.pools body (site.inside first depth)) stop)).valid)
    (labels : ∀ method ∈ (entries context.pools rest
      (site.past (entries context.pools body (site.inside first depth)) stop)).methods,
      context.label method.position = method.offset)
    (later : Later before (Block.leave site.here body).line) :
    Follows compiled (limits program) least
      ⟨if taken then (entries context.pools rest
        (site.past (entries context.pools body (site.inside first depth)) stop)).exit else stop, before⟩
      (some ⟨stop + size (entries context.pools rest
          (site.past (entries context.pools body (site.inside first depth)) stop)).cells,
        (entries context.pools rest
          (site.past (entries context.pools body (site.inside first depth)) stop)).line⟩)
      (context.entries rest (Block.leave site.here body) taken) := by
  have behind := leave_entries context.pools body (site.inside first depth)
  have here : (site.inside first depth).here = site.here := rfl
  rw [here] at behind
  rw [behind] at later ⊢
  exact followed taken (.inl rfl) shape within valid labels later

theorem Followed.scope (followed : Followed program compiled least context body)
    (accepted : program.compile = .ok compiled) (addressable : Addressable program compiled)
    (shape : Block.wellShaped body = true)
    (opening : Stands (image program) first (site.cell .enterLocal 0))
    (within : Within (image program) (first + 1)
      (entries context.pools body (site.inside (first + 1) (site.depth + 1))).cells)
    (valid : (entries context.pools body (site.inside (first + 1) (site.depth + 1))).valid)
    (labels : ∀ method ∈
      (entries context.pools body (site.inside (first + 1) (site.depth + 1))).methods,
      context.label method.position = method.offset)
    (ends : first + 1
      + size (entries context.pools body (site.inside (first + 1) (site.depth + 1))).cells = leave)
    (closing : Stands (image program) leave ⟨⟨.leaveLocal, 0⟩,
      (entries context.pools body (site.inside (first + 1) (site.depth + 1))).line,
      site.depth + 1, []⟩)
    (later : Later before site.line) :
    Follows compiled (limits program) least ⟨first, before⟩
      (some ⟨leave + 1, (Block.leave site.here body).line⟩)
      (inScope site.line (Block.leave site.here body).line
        (context.entries body site.here false)) := by
  have behind := leave_entries context.pools body (site.inside (first + 1) (site.depth + 1))
  have here : (site.inside (first + 1) (site.depth + 1)).here = site.here := rfl
  rw [here] at behind
  have inside := followed false (.inl rfl) shape within valid labels (id : Later site.line site.line)
  rw [here] at inside
  rw [behind]
  refine follows_scope accepted addressable opening closing later ?_
  rw [← ends]
  exact inside

end

/-- A block that is no body of a clause, a loop or a method runs once. -/
theorem follows_nested {compiled : Compiled} {program : Program}
    (accepted : program.compile = .ok compiled) (addressable : Addressable program compiled)
    {least : Nat} {context : Context} {body rest : Block} {site : Site} {before : Option Nat}
    (inner : Followed program compiled least context body)
    (outer : Followed program compiled least context rest)
    (inside : Block.wellShaped body = true) (outside : Block.wellShaped rest = true)
    (once : setting site.owner = .last ∨ setting site.owner = .free)
    (cells : Within (image program) site.start (entries context.pools (.block body :: rest) site).cells)
    (valid : (entries context.pools (.block body :: rest) site).valid)
    (labels : ∀ method ∈ (entries context.pools (.block body :: rest) site).methods,
      context.label method.position = method.offset)
    (later : Later before site.line) :
    Follows compiled (limits program) least ⟨site.start, before⟩
      (some ⟨site.start + size (entries context.pools (.block body :: rest) site).cells,
        (entries context.pools (.block body :: rest) site).line⟩)
      ((inScope site.line (Block.leave site.here body).line
        (context.entries body site.here false)).andThen
        (context.entries rest (Block.leave site.here body) false)) := by
  have nests : ∃ keeps, entries context.pools (.block body :: rest) site
      = nested keeps (entries context.pools body) site (entries context.pools rest) := by
    simp only [entries, entry, Assembly.block]
    obtain same | same := once <;> rw [same] <;> exact ⟨_, rfl⟩
  obtain ⟨keeps, same⟩ := nests
  rw [same] at cells valid labels ⊢
  obtain ⟨_, _, _, rfl, rfl, rfl, block⟩ := nested_laid cells valid
  have scope := inner.scope accepted addressable inside block.opening.head block.entries
    block.inside (fun method member => labels method (List.mem_append_left _ member)) rfl
    block.closing.head later
  have follows := outer.past false outside block.rest block.follows
    (fun method member => labels method (List.mem_append_right _ member)) id
  rw [block.ends]
  exact scope.andThen follows

/-- Each round of a loop takes at least one step, so the rounds left bound the steps from below. -/
theorem follows_rounds {compiled : Compiled} {limits : Limits} {least start place enter leave : Nat}
    {line behind : Option Nat} {condition block : Activity}
    (tests : ∀ {before : Option Nat}, Follows compiled limits least ⟨start, before⟩
      (some ⟨place, line⟩) condition)
    (branches : ∀ {fewer : Nat} {stop : Option Spot} {yes no : Activity},
      Follows compiled limits fewer ⟨enter, line⟩ stop yes →
      Follows compiled limits fewer ⟨leave, line⟩ stop no →
      Follows compiled limits (fewer + 1) ⟨place, line⟩ stop (branch line yes no))
    (runs : ∀ {fewer : Nat} {stop : Option Spot} {next : Activity}, fewer ≤ least →
      Follows compiled limits fewer ⟨start, behind⟩ stop next →
      Follows compiled limits fewer ⟨enter, line⟩ stop (block.andThen next))
    (count : Nat) {before : Option Nat} :
    Follows compiled limits (min count least) ⟨start, before⟩ (some ⟨leave, line⟩)
      (loop (fun yes no => condition.andThen (branch line yes no)) block count) := by
  induction count generalizing before with
  | zero => exact fun machine _ _ _ _ _ => ⟨0, machine, by omega, rfl⟩
  | succ count ih =>
    have round := branches (runs (Nat.min_le_right count least) ih) (Follows.skip _)
    exact (tests.fewer (Nat.min_le_right _ _)).andThen (round.fewer (by omega))

/-! ## Statements with a block -/

section

variable {compiled : Compiled} {program : Program} (accepted : program.compile = .ok compiled)
  (addressable : Addressable program compiled) {least : Nat} {context : Context}
  (pools : context.pools = compiled.pools)
  (bodies : ∀ target ∈ Assembly.bodies program,
    Follows compiled (limits program) (least - 1) ⟨target, none⟩ none (context.methods target))
  {operation : Operation} {body rest : Block} {site : Site} {commands : List Command}
  {segment : Segment} {before : Option Nat}
  (known : statement? context.pools operation = some commands)
  (laid : StatementLaid (image program) operation site commands
    (entries context.pools (.block body :: rest) (site.next operation commands)) segment)
  (inner : Followed program compiled least context body)
  (outer : Followed program compiled least context rest)
  (inside : Block.wellShaped body = true) (outside : Block.wellShaped rest = true)
  (labels : ∀ method ∈
    (entries context.pools (.block body :: rest) (site.next operation commands)).methods,
    context.label method.position = method.offset)

include accepted addressable pools bodies known laid inner outer inside outside labels

/-- A clause tests its condition, and runs its body or goes on with the next clause. -/
theorem follows_clause (kind : operation.kind = .if ∨ operation.kind = .elseIf) :
    Follows compiled (limits program) least ⟨site.start, before⟩
      (some ⟨(site.next operation commands).start
          + size (entries context.pools (.block body :: rest) (site.next operation commands)).cells,
        (entries context.pools (.block body :: rest) (site.next operation commands)).line⟩)
      ((context.operations (some operation.line) operation.operands).andThen
        (branch (some operation.line)
          ((inScope (some operation.line) (Block.leave (site.here.after operation) body).line
            (context.entries body (site.here.after operation) false)).andThen
            (context.entries rest (Block.leave (site.here.after operation) body) true))
          (context.entries rest (Block.leave (site.here.after operation) body) false))) := by
  have condition : operation.kind = .if ∨ operation.kind = .elseIf ∨ operation.kind = .while := by
    obtain same | same := kind <;> simp [same]
  have tests : Follows compiled (limits program) least ⟨site.start, before⟩ _ _ :=
    follows_condition accepted addressable pools bodies condition known laid
  have role_eq : role operation.kind = .condition := role_eq_condition.mpr kind
  have arms : setting (site.next operation commands).owner = .arm := by
    obtain ⟨_, _, _, _⟩ := operation
    obtain rfl | rfl := kind <;> rfl
  have start : (site.next operation commands).start
      = site.place commands + placeholderWidth (site.place commands) := by
    simp [Site.next, Site.after, role_eq, Role.gap]
  have fits := laid.fits
  have suffix := laid.suffix
  have cells := laid.rest
  have valid := laid.valid
  rw [role_eq] at fits suffix
  simp only [entries, entry, Assembly.block, arms] at cells valid labels fits suffix ⊢
  obtain ⟨_, _, _, rfl, rfl, rfl, exits, block⟩ := arm_laid cells valid
  have known : Later (some operation.line) (Block.leave (site.here.after operation) body).line :=
    later_leave (site.here.after operation) body
  have follows (taken : Bool) {before : Option Nat}
      (later : Later before (Block.leave (site.here.after operation) body).line) :=
    outer.past taken outside block.rest block.follows
      (fun method member => labels method (List.mem_append_right _ member)) later
  rw [block.ends]
  refine tests.andThen ((follows_test accepted addressable fits suffix id ?_ ?_).fewer
    (Nat.le_succ _))
  · have scope := inner.scope accepted addressable inside block.opening.head block.entries
      block.inside (fun method member => labels method (List.mem_append_left _ member)) rfl
      block.closing.head (id : Later (some operation.line) (some operation.line))
    rw [← start]
    exact scope.andThen (follows_jump accepted addressable block.closing.step.head
      (later_of_eq (line_leave _ _ _ _ _)) (follows true (later_of_eq (line_leave _ _ _ _ _).symm)))
  · have branch : (arm (entries context.pools body) (site.next operation commands)
        (entries context.pools rest)).branch = _ := branch_entries fun _ => rfl
    rw [branch]
    exact follows false known

omit accepted addressable pools bodies known inner inside in
/-- Behind a clause that was taken, the other clauses of the chain are passed over. -/
theorem follows_skipped (kind : operation.kind = .elseIf ∨ operation.kind = .else) :
    Follows compiled (limits program) least
      ⟨(entries context.pools (.block body :: rest) (site.next operation commands)).exit, before⟩
      (some ⟨(site.next operation commands).start
          + size (entries context.pools (.block body :: rest) (site.next operation commands)).cells,
        (entries context.pools (.block body :: rest) (site.next operation commands)).line⟩)
      (context.entries rest (Block.leave (site.here.after operation) body) true) := by
  have later : Later before (Block.leave (site.here.after operation) body).line :=
    fun _ => later_leave (site.here.after operation) body rfl
  have settings : setting (site.next operation commands).owner = .arm
      ∨ setting (site.next operation commands).owner = .last := by
    obtain ⟨_, _, _, _⟩ := operation
    obtain rfl | rfl := kind
    · exact .inl rfl
    · exact .inr rfl
  have cells := laid.rest
  have valid := laid.valid
  obtain arms | last := settings
  · simp only [entries, entry, Assembly.block, arms] at cells valid labels ⊢
    obtain ⟨_, _, _, rfl, rfl, rfl, -, block⟩ := arm_laid cells valid
    rw [block.ends]
    exact outer.past true outside block.rest block.follows
      (fun method member => labels method (List.mem_append_right _ member)) later
  · simp only [entries, entry, Assembly.block, last] at cells valid labels ⊢
    obtain ⟨_, _, _, rfl, rfl, rfl, block⟩ := nested_laid cells valid
    rw [block.ends]
    exact outer.past true outside block.rest block.follows
      (fun method member => labels method (List.mem_append_right _ member)) later

omit known laid in
/-- A loop tests its condition in front of every round. -/
theorem follows_loop (kind : operation.kind = .while) (fuel : least ≤ context.fuel)
    (known : statement? context.pools operation = some commands)
    (laid : StatementLaid (image program) operation site commands
      (entries context.pools (.block body :: rest) (site.next operation commands)) segment) :
    Follows compiled (limits program) least ⟨site.start, before⟩
      (some ⟨(site.next operation commands).start
          + size (entries context.pools (.block body :: rest) (site.next operation commands)).cells,
        (entries context.pools (.block body :: rest) (site.next operation commands)).line⟩)
      ((loop (fun yes no => (context.operations (some operation.line) operation.operands).andThen
          (branch (some operation.line) yes no))
        (inScope (some operation.line) (Block.leave (site.here.after operation) body).line
          (context.entries body (site.here.after operation) false)) context.fuel).andThen
        (context.entries rest (Block.leave (site.here.after operation) body) false)) := by
  have tests {before : Option Nat} : Follows compiled (limits program) least ⟨site.start, before⟩
      (some ⟨site.place commands, some operation.line⟩) _ :=
    follows_condition accepted addressable pools bodies (.inr (.inr kind)) known laid
  have loops : setting (site.next operation commands).owner = .loop site.start := by
    obtain ⟨_, _, _, _⟩ := operation
    cases kind
    rfl
  have start : (site.next operation commands).start = site.place commands := by
    simp [Site.next, Site.after, kind, role, Role.gap]
  have cells := laid.rest
  have valid := laid.valid
  simp only [entries, entry, Assembly.block, loops] at cells valid labels ⊢
  obtain ⟨_, _, _, _, _, rfl, rfl, rfl, rfl, rfl, fits, block⟩ := loop_laid cells valid
  have opening := block.opening.right.head
  rw [size_annotate, extent_hole fits] at opening
  have scope : Follows compiled (limits program) least _ _ _ :=
    inner.scope accepted addressable inside opening block.entries block.inside
      (fun method member => labels method (List.mem_append_left _ member)) rfl block.closing.head
      (id : Later (some operation.line) (some operation.line))
  have follows := outer.past false outside block.rest block.follows
    (fun method member => labels method (List.mem_append_right _ member))
    (later_leave (site.here.after operation) body)
  rw [block.ends]
  have rounds : Follows compiled (limits program) (min context.fuel least) ⟨site.start, before⟩ _ _ :=
    follows_rounds tests
      (fun passes jumps => start ▸ follows_test accepted addressable fits block.opening.left id passes
        jumps)
      (fun fewer next => (scope.fewer fewer).andThen (follows_jump accepted addressable
        block.closing.step.head (later_of_eq (line_leave _ _ _ _ _)) next)) context.fuel
  exact (rounds.fewer (by omega)).andThen follows

omit accepted addressable pools bodies known laid inner outer inside outside labels in
private theorem plain_definition {tail : Segment} {place : Nat} {command : Command}
    (member : command ∈ Role.suffix tail place .definition) :
    command.opcode ≠ .jump ∧ command.opcode ≠ .jumpIfFalse ∧ command.opcode ≠ .enterLocal
      ∧ command.opcode ≠ .leaveLocal := by
  simp only [Role.suffix, hole, padding, List.mem_append, List.mem_cons, List.mem_replicate,
    List.not_mem_nil, or_false] at member
  obtain (rfl | ⟨-, rfl⟩) | rfl | rfl := member <;> simp

omit inner inside in
/-- A definition makes a method whose body is passed over. -/
theorem follows_definition (kind : operation.kind = .defineMethod) :
    Follows compiled (limits program) least ⟨site.start, before⟩
      (some ⟨(site.next operation commands).start
          + size (entries context.pools (.block body :: rest) (site.next operation commands)).cells,
        (entries context.pools (.block body :: rest) (site.next operation commands)).line⟩)
      ((context.definition (some operation.line)
          (context.label (site.here.after operation).position) operation).andThen
        (context.entries rest (Block.leave (site.here.after operation) body) false)) := by
  have sound := sound_context accepted pools
  have own : Follows compiled (limits program) least ⟨site.start, before⟩ _ _ :=
    follows_own accepted addressable pools bodies known laid
  have role_eq : role operation.kind = .definition := role_eq_definition.mpr kind
  have defines : definition? context.pools operation = some commands := by
    simpa [statement?, role_eq] using known
  have methods : setting (site.next operation commands).owner = .method := by
    obtain ⟨_, _, _, _⟩ := operation
    cases kind
    rfl
  have extent := Role.extent_suffix laid.fits
  have start : (site.next operation commands).start = site.place commands
      + (role operation.kind).gap (site.place commands) := rfl
  have suffix := laid.suffix
  have cells := laid.rest
  have valid := laid.valid
  rw [role_eq] at suffix extent start
  simp only [entries, entry, Assembly.block, methods] at cells valid labels suffix extent ⊢
  have label : context.label (site.here.after operation).position
      = (Assembly.method body (entries context.pools body) (site.next operation commands)
        (entries context.pools rest)).body := labels _ (.head _)
  obtain ⟨_, _, _, _, _, rfl, rfl, rfl, rfl, rfl, fits, block⟩ := method_laid cells valid
  have binds : Follows compiled (limits program) least _ _ _ :=
    follows_commands accepted addressable pools bodies suffix (fun _ => plain_definition)
      (id : Later (some operation.line) (some operation.line))
  have follows := outer.past false outside block.rest block.follows
    (fun method member => labels method (.tail _ (List.mem_append_right _ member)))
    (later_leave (site.here.after operation) body)
  rw [block.ends, label, ← Context.commands_definition sound defines _ (site.place commands),
    Context.commands_append, andThen_assoc]
  refine own.andThen (binds.andThen ?_)
  rw [extent, ← start]
  exact follows_jump accepted addressable block.opening.head
    (id : Later (some operation.line) (some operation.line)) follows

end

/-! ## Entries -/

section

variable {compiled : Compiled} {program : Program} (accepted : program.compile = .ok compiled)
  (addressable : Addressable program compiled) {least : Nat} {context : Context}
  (pools : context.pools = compiled.pools) (fuel : least ≤ context.fuel)
  (bodies : ∀ target ∈ Assembly.bodies program,
    Follows compiled (limits program) (least - 1) ⟨target, none⟩ none (context.methods target))

include accepted addressable pools bodies

/-- A plain statement is an expression whose result is taken. -/
theorem follows_plain {operation : Operation} {site : Site} {commands : List Command}
    {tail segment : Segment} {before : Option Nat} (plain : role operation.kind = .plain)
    (known : statement? context.pools operation = some commands)
    (laid : StatementLaid (image program) operation site commands tail segment) :
    Follows compiled (limits program) least ⟨site.start, before⟩
      (some ⟨(site.next operation commands).start, some operation.line⟩)
      ((context.operation (some operation.line) .value operation).andThen
        (perform (some operation.line) Action.endStatement)) := by
  have sound := sound_context accepted pools
  have own : Follows compiled (limits program) least ⟨site.start, before⟩ _ _ :=
    follows_own accepted addressable pools bodies known laid
  have suffix := laid.suffix
  have expression : operation? context.pools .value operation = some commands := by
    simpa [statement?, plain] using known
  have start : (site.next operation commands).start = site.place commands + 1 := by
    simp [Site.next, Site.after, plain, Role.gap]
  rw [plain] at suffix
  rw [Context.commands_operation sound operation expression] at own
  have ends : Follows compiled (limits program) least ⟨site.place commands, some operation.line⟩ _ _ :=
    follows_commands accepted addressable pools bodies suffix
      (by simp [Role.suffix]) (id : Later (some operation.line) (some operation.line))
  rw [start]
  refine own.andThen ?_
  simpa [Role.suffix, Context.command, Action.step, perform_andNext, Action.endStatement] using ends

include fuel

/-- The code of entries follows their execution. -/
theorem follows_entries (block : Block) : Followed program compiled least context block := by
  induction block using Block.pairing with
  | nil =>
    intro site taken before owner shape within valid labels later
    have stays : Follows compiled (limits program) least ⟨site.start, before⟩
        (some ⟨site.start, site.line⟩) skip := (Follows.skip ⟨site.start, site.line⟩).later later
    simpa [entries, Context.entries] using stays
  | statement operation rest apart ih =>
    intro site taken before owner shape within valid labels later
    simp only [Block.wellShaped, apart, Bool.and_eq_true, Bool.or_false, Bool.not_eq_true'] at shape
    have continues : operation.kind.continuesIfChain = false := by
      have plain := shape.1.2
      cases kind : operation.kind <;> simp_all [Kind.isConditionalJump, Kind.continuesIfChain]
    simp only [entries, entry] at within valid labels ⊢
    obtain ⟨commands, known, laid⟩ := statementLaid within valid
    have plain : role operation.kind = .plain := by
      refine role_eq_plain.mpr ⟨shape.1.2, fun kind => ?_⟩
      have fits := laid.fits
      rw [role_eq_definition.mpr kind] at fits
      refine fits.2 ?_
      obtain rfl | ⟨_, _, rfl⟩ := Block.apart_cases apart <;> rfl
    rw [laid.methods_eq] at labels
    have start : (if taken then (statement context.pools operation site
        (entries context.pools rest)).exit else site.start) = site.start := by
      simp [laid.exit_eq, continues]
    have follows := ih false (.inr apart) shape.2 laid.rest laid.valid labels
      (id : Later (some operation.line) (some operation.line))
    rw [context.entries_apart operation apart, start, ← andThen_assoc, laid.stop, laid.line_eq]
    exact (follows_plain accepted addressable pools bodies plain known laid).andThen follows
  | owner operation body rest inner outer =>
    intro site taken before owner shape within valid labels later
    simp only [Block.wellShaped, Entry.wellShaped, Bool.and_eq_true] at shape
    obtain ⟨-, inside, outside⟩ := shape
    have split : entries context.pools (.statement operation :: .block body :: rest) site
        = statement context.pools operation site (entries context.pools (.block body :: rest)) := by
      simp only [entries, entry]
    rw [split] at within valid labels ⊢
    obtain ⟨commands, known, laid⟩ := statementLaid within valid
    rw [laid.methods_eq] at labels
    rw [laid.stop, laid.line_eq, laid.exit_eq, Context.entries]
    simp only [Context.interior]
    cases kind : operation.kind with
    | «if» =>
      have clause : Follows compiled (limits program) least ⟨site.start, before⟩ _ _ :=
        follows_clause accepted addressable pools bodies known laid inner outer inside outside labels
          (.inl kind)
      cases taken <;> exact clause
    | elseIf =>
      cases taken with
      | true =>
        exact follows_skipped laid outer outside labels (.inl kind)
      | false =>
        exact follows_clause accepted addressable pools bodies known laid inner outer inside outside
          labels (.inr kind)
    | «else» =>
      cases taken with
      | true => exact follows_skipped laid outer outside labels (.inr kind)
      | false =>
        have empty : commands = [] := by
          obtain ⟨_, _, _, _⟩ := operation
          cases kind
          cases known
          rfl
        have start : (site.next operation commands).start = site.start := by
          simp [Site.next, Site.after, Site.place, kind, role, Role.gap, empty]
        have last : setting (site.next operation commands).owner = .last := by
          simp [Site.next, Site.after, kind, setting]
        have follows : Follows compiled (limits program) least
            ⟨(site.next operation commands).start, before⟩ _ _ :=
          follows_nested accepted addressable inner outer inside outside (.inl last) laid.rest
            laid.valid labels fun _ => rfl
        exact start ▸ follows
    | «while» =>
      have loop : Follows compiled (limits program) least ⟨site.start, before⟩ _ _ :=
        follows_loop accepted addressable pools bodies inner outer inside outside labels kind fuel
          known laid
      cases taken <;> exact loop
    | defineMethod =>
      have defined : Follows compiled (limits program) least ⟨site.start, before⟩ _ _ :=
        follows_definition accepted addressable pools bodies known laid outer outside labels kind
      cases taken <;> exact defined
    | _ =>
      have plain : role operation.kind = .plain := by rw [kind]; rfl
      have free : setting (site.next operation commands).owner = .free := by
        simp [Site.next, Site.after, kind, setting]
      have first : Follows compiled (limits program) least ⟨site.start, before⟩ _ _ :=
        follows_plain accepted addressable pools bodies plain known laid
      have follows := first.andThen (follows_nested accepted addressable inner outer inside outside
        (.inr free) laid.rest laid.valid labels fun _ => rfl)
      rw [andThen_assoc] at follows
      cases taken <;> exact follows
  | block body rest inner outer =>
    intro site taken before owner shape within valid labels later
    simp only [Block.wellShaped, Entry.wellShaped, Bool.and_eq_true] at shape
    have unowned : site.owner = none := by simpa [Block.startsWithBlock] using owner
    have free : setting site.owner = .free := by rw [unowned]; rfl
    have start : (if taken then (entries context.pools (.block body :: rest) site).exit
        else site.start) = site.start := by
      simp only [entries, entry, Assembly.block, free]
      split <;> rfl
    rw [start]
    exact follows_nested accepted addressable inner outer shape.1 shape.2 (.inr free) within valid
      labels later

end

end ScopeMachine
