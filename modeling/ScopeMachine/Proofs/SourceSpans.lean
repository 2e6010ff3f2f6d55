import ScopeMachine.Proofs.Assembly.Tight
import ScopeMachine.Proofs.JumpLayout

set_option autoImplicit false

/-!
# Spans of statements

Which part of finished code belongs to which statement. The spans of all statements follow each other
in the order of the program, and the line table lists their starts. So the table gives every offset
in a span the line of its statement, from the moment that the statement is entered in it.
-/

namespace ScopeMachine

open Assembly (hole role)

/-- The code of a statement itself, without that of blocks behind it. -/
structure Span where
  operation : Operation
  start : Nat
  stop : Nat

namespace Span

/-- The entry of a statement in the line table. -/
def mark (span : Span) : LineMark :=
  ⟨span.start, span.operation.line⟩

/-- An offset lies in a span. -/
def Contains (span : Span) (offset : Nat) : Prop :=
  span.start ≤ offset ∧ offset < span.stop

end Span

/-- A command that belongs to no statement: it opens or closes a block, goes around one, or returns
from a body. -/
def Command.IsBracket (command : Command) : Prop :=
  command.opcode = .enterLocal ∨ command.opcode = .leaveLocal ∨ command.opcode = .jump
    ∨ command.opcode = .return ∨ command.opcode = .nop

namespace Code

/-- The code of entries from `start` to `stop`, with the spans of all statements in it, also of those
in blocks inside. The span of a loop has the branch out of it, which stands in front of its body. -/
inductive Spread (code : Code) (pools : Pools) : Block → Nat → Nat → List Span → Prop
  | nil {start : Nat} : Spread code pools [] start start []
  | statement {operation : Operation} {rest : Block} {tail : Assembly.Segment}
    {start place next stop : Nat} {spans : List Span}
    (alone : operation.kind = .while → Block.startsWithBlock rest = false)
    (own : code.Own pools operation start place)
    (ending : code.Holds place next ((role operation.kind).suffix tail place))
    (behind : Spread code pools rest next stop spans) :
    Spread code pools (.statement operation :: rest) start stop (⟨operation, start, next⟩ :: spans)
  | loop {operation : Operation} {body rest : Block} {start place enter first leave next stop : Nat}
    {inner spans : List Span} (kind : operation.kind = .while)
    (own : code.Own pools operation start place)
    (exit : code.Holds place enter (hole .jumpIfFalse next place))
    (opening : code.Holds enter first [⟨.enterLocal, 0⟩])
    (inside : Spread code pools body first leave inner)
    (closing : code.Holds leave next [⟨.leaveLocal, 0⟩, ⟨.jump, start⟩])
    (behind : Spread code pools rest next stop spans) :
    Spread code pools (.statement operation :: .block body :: rest) start stop
      (⟨operation, start, enter⟩ :: (inner ++ spans))
  | block {body rest : Block} {front back : List Command} {start first leave next stop : Nat}
    {inner spans : List Span} (brackets : ∀ command ∈ front ++ back, command.IsBracket)
    (opening : code.Holds start first front)
    (inside : Spread code pools body first leave inner)
    (closing : code.Holds leave next back)
    (behind : Spread code pools rest next stop spans) :
    Spread code pools (.block body :: rest) start stop (inner ++ spans)

section

variable {code : Code} {pools : Pools} {block : Block} {start stop : Nat} {spans : List Span}

theorem Holds.le {commands : List Command} (holds : code.Holds start stop commands) :
    start ≤ stop := by
  obtain ⟨-, -, -, -, rfl⟩ := holds
  exact Nat.le_add_right _ _

theorem Own.le {operation : Operation} (own : code.Own pools operation start stop) :
    start ≤ stop := by
  obtain ⟨commands, known, holds, straight⟩ := own
  exact holds.le

/-! ## Order -/

/-- Spans lie inside the code of their entries. -/
theorem Spread.bounds (spread : code.Spread pools block start stop spans) :
    start ≤ stop ∧ ∀ span ∈ spans, start ≤ span.start ∧ span.start ≤ span.stop
      ∧ span.stop ≤ stop := by
  induction spread with
  | nil => exact ⟨Nat.le_refl _, by simp⟩
  | statement _ own ending _ ih =>
    have := own.le
    have := ending.le
    refine ⟨by omega, fun span member => ?_⟩
    cases member with
    | head =>
      dsimp only
      omega
    | tail _ member =>
      have := ih.2 span member
      omega
  | loop _ own exit opening _ closing _ inner later =>
    have := own.le
    have := exit.le
    have := opening.le
    have := closing.le
    refine ⟨by omega, fun span member => ?_⟩
    cases member with
    | head =>
      dsimp only
      omega
    | tail _ member =>
      obtain member | member := List.mem_append.mp member
      · have := inner.2 span member
        omega
      · have := later.2 span member
        omega
  | block _ opening _ closing _ inner later =>
    have := opening.le
    have := closing.le
    refine ⟨by omega, fun span member => ?_⟩
    obtain member | member := List.mem_append.mp member
    · have := inner.2 span member
      omega
    · have := later.2 span member
      omega

/-- Spans of two parts of the code, one behind the other. -/
theorem ordered_append {middle next : Nat} {first second : List Span}
    (front : first.Pairwise (·.stop ≤ ·.start)) (back : second.Pairwise (·.stop ≤ ·.start))
    (before : ∀ span ∈ first, span.stop ≤ middle) (between : middle ≤ next)
    (after : ∀ span ∈ second, next ≤ span.start) :
    (first ++ second).Pairwise (·.stop ≤ ·.start) := by
  refine List.pairwise_append.mpr ⟨front, back, fun span member other later => ?_⟩
  have := before span member
  have := after other later
  omega

/-- Spans follow each other. -/
theorem Spread.ordered (spread : code.Spread pools block start stop spans) :
    spans.Pairwise (·.stop ≤ ·.start) := by
  induction spread with
  | nil => exact .nil
  | statement _ _ _ behind ih =>
    exact List.pairwise_cons.mpr ⟨fun span member => (behind.bounds.2 span member).1, ih⟩
  | loop _ _ _ opening inside closing behind inner later =>
    refine List.pairwise_cons.mpr ⟨fun span member => ?_, ?_⟩
    · have := opening.le
      have := closing.le
      have := inside.bounds.1
      obtain member | member := List.mem_append.mp member
      · have := (inside.bounds.2 span member).1
        dsimp only
        omega
      · have := (behind.bounds.2 span member).1
        dsimp only
        omega
    · exact ordered_append inner later (fun span member => (inside.bounds.2 span member).2.2)
        closing.le fun span member => (behind.bounds.2 span member).1
  | block _ _ inside closing behind inner later =>
    exact ordered_append inner later (fun span member => (inside.bounds.2 span member).2.2)
      closing.le fun span member => (behind.bounds.2 span member).1

/-! ## Cover -/

/-- A command that belongs to no statement stands at an offset. -/
def Bracket (code : Code) (offset : Nat) : Prop :=
  ∃ command place, command.IsBracket ∧ code.Holds place (place + command.width) [command]
    ∧ place ≤ offset ∧ offset < place + command.width

/-- Every offset within commands is within one of them. -/
theorem Holds.bracket {commands : List Command} (holds : code.Holds start stop commands)
    (brackets : ∀ command ∈ commands, command.IsBracket) {offset : Nat} (begins : start ≤ offset)
    (ends : offset < stop) : code.Bracket offset := by
  induction commands generalizing start with
  | nil =>
    obtain ⟨-, -, -, -, rfl⟩ := holds
    rw [Assembly.extent_nil] at ends
    omega
  | cons command rest ih =>
    obtain ⟨before, after, parts, rfl, rfl⟩ := holds
    rw [Assembly.extent_cons] at ends
    simp only [List.flatMap_cons, List.append_assoc] at parts
    by_cases here : offset < before.length + command.width
    · refine ⟨command, before.length, brackets command (.head _), ?_, begins, here⟩
      exact ⟨before, _, by simpa using parts, rfl, by simp⟩
    · have behind : code.Holds (before.length + command.width)
          (before.length + (command.width + Assembly.extent rest)) rest :=
        ⟨before ++ command.slots, after, by simpa using parts, by simp, by omega⟩
      exact ih behind (fun other member => brackets other (.tail _ member)) (by omega)

private theorem covers_block {front back : List Command} {first leave next : Nat} {inner : List Span}
    {offset : Nat} (brackets : ∀ command ∈ front ++ back, command.IsBracket)
    (opening : code.Holds start first front) (closing : code.Holds leave next back)
    (inside : first ≤ offset → offset < leave →
      (∃ span ∈ inner, span.Contains offset) ∨ code.Bracket offset)
    (behind : next ≤ offset → (∃ span ∈ spans, span.Contains offset) ∨ code.Bracket offset)
    (begins : start ≤ offset) :
    (∃ span ∈ inner ++ spans, span.Contains offset) ∨ code.Bracket offset := by
  by_cases front : offset < first
  · exact .inr (opening.bracket (fun command member => brackets command (by simp [member])) begins
      front)
  by_cases within : offset < leave
  · refine (inside (by omega) within).imp_left ?_
    rintro ⟨span, member, contains⟩
    exact ⟨span, List.mem_append_left _ member, contains⟩
  by_cases back : offset < next
  · exact .inr (closing.bracket (fun command member => brackets command (by simp [member]))
      (by omega) back)
  · refine (behind (by omega)).imp_left ?_
    rintro ⟨span, member, contains⟩
    exact ⟨span, List.mem_append_right _ member, contains⟩

/-- Every offset within entries is in the span of a statement, or belongs to none. -/
theorem Spread.covers (spread : code.Spread pools block start stop spans) {offset : Nat}
    (begins : start ≤ offset) (ends : offset < stop) :
    (∃ span ∈ spans, span.Contains offset) ∨ code.Bracket offset := by
  induction spread with
  | nil => omega
  | @statement _ _ _ _ _ next _ _ _ _ _ _ ih =>
    by_cases here : offset < next
    · exact .inl ⟨_, .head _, begins, here⟩
    · refine (ih (by omega) ends).imp_left ?_
      rintro ⟨span, member, contains⟩
      exact ⟨span, .tail _ member, contains⟩
  | @loop _ _ _ _ _ enter _ _ _ _ _ _ _ _ _ opening _ closing _ inner later =>
    by_cases here : offset < enter
    · exact .inl ⟨_, .head _, begins, here⟩
    · refine (covers_block (by simp [Command.IsBracket]) opening closing inner
        (fun next => later next ends) (by omega)).imp_left ?_
      rintro ⟨span, member, contains⟩
      exact ⟨span, .tail _ member, contains⟩
  | block brackets opening _ closing _ inner later =>
    exact covers_block brackets opening closing inner (fun next => later next ends) begins

end

end Code

/-! ## The spans of a program -/

namespace Assembly

section

variable {pools : Pools} {code : Code} {cells : List Cell}
  (image : code.instructions.toList = slots cells)

include image

omit image

/-- Cells from an offset on are snug, where they belong to no statement but calm ones. -/
def Snugs (cells : List Cell) (spans : List Span) (start : Nat) (part : List Cell) : Prop :=
  ∀ ⦃place : Nat⦄ ⦃cell : Cell⦄, Stands part place cell →
    (∀ span ∈ spans, span.Contains (start + place + extensionCount cell.command.operand) →
      span.operation.Calm) →
    Snug cells (start + place) cell

section

variable {first second part : List Cell} {spans more : List Span} {start : Nat}

theorem Snugs.append (front : Snugs cells spans start first)
    (back : Snugs cells spans (start + size first) second) :
    Snugs cells spans start (first ++ second) := by
  intro place cell stands calm
  obtain before | ⟨rest, rfl, behind⟩ := stands.of_append
  · exact front before calm
  · rw [← Nat.add_assoc] at calm ⊢
    exact back behind calm

theorem Snugs.mono (snugs : Snugs cells spans start part) (fewer : spans ⊆ more) :
    Snugs cells more start part :=
  fun _ _ stands calm => snugs stands fun span member => calm span (fewer member)

/-- Commands that run tightly are in snug cells, whatever they belong to. -/
theorem snugs_of_tightly {line : Option Nat} {depth : Nat} {shape last : Shape}
    {commands : List Command} (within : Within cells start (annotate line depth shape commands))
    (tightly : Command.Tightly shape commands last) (none : .copy ∉ last) :
    Snugs cells [] start (annotate line depth shape commands) :=
  fun _ _ stands _ => snug_annotate within tightly none stands

theorem snugs_nil : Snugs cells spans start [] := by
  rintro place cell ⟨before, after, parts, -⟩
  simp at parts

/-- A command that takes nothing and makes no copy is in a snug cell on an empty stack. -/
theorem Snugs.cons {command : Command} {line : Option Nat} {depth : Nat}
    (within : Within cells start (⟨command, line, depth, []⟩ :: part)) (takes : command.takes = [])
    (gives : .copy ∉ command.gives) (defines : command.opcode ≠ .defineMethod)
    (later : Snugs cells [] (start + command.width) part) :
    Snugs cells [] start (⟨command, line, depth, []⟩ :: part) := by
  have tightly : Command.Tightly [] [command] command.gives := by
    refine ⟨⟨takes ▸ List.nil_prefix, defines, by simp⟩, ?_⟩
    rw [Command.shapeAfter, List.drop_nil, List.append_nil]
    rfl
  have single : Within cells start (annotate line depth [] [command]) := within.head
  exact (snugs_of_tightly single tightly gives).append later

theorem BlockLaid.snugs {site : Site} {front behind : List Cell} {block tail segment : Segment}
    {inside leave stop : Nat}
    (laid : BlockLaid cells site front inside block leave behind stop tail segment)
    (opens : Snugs cells [] site.start front) (inner : Snugs cells spans inside block.cells)
    (closes : Snugs cells [] leave behind) (later : Snugs cells spans stop tail.cells) :
    Snugs cells spans site.start segment.cells := by
  rw [laid.cells]
  have none : [] ⊆ spans := List.nil_subset _
  obtain ⟨rfl, rfl, rfl⟩ := And.intro laid.first_eq (And.intro laid.leave_eq laid.stop_eq)
  exact (opens.mono none).append (inner.append ((closes.mono none).append later))

/-- The cells of a statement are snug if it is calm. Its span may have more than its own commands. -/
theorem StatementLaid.snugs {operation : Operation} {site : Site} {commands : List Command}
    {tail segment : Segment} (laid : StatementLaid cells operation site commands tail segment)
    (known : statement? pools operation = some commands)
    (within : Within cells site.start segment.cells) {stop : Nat}
    (covers : (site.next operation commands).start ≤ stop)
    (later : Snugs cells spans (site.next operation commands).start tail.cells) :
    Snugs cells (⟨operation, site.start, stop⟩ :: spans) site.start segment.cells := by
  have whole := laid.stop
  rw [laid.equal] at within whole ⊢
  simp only [Segment.statement, size_append] at within whole ⊢
  have ends : site.start + size (annotate (some operation.line) site.depth []
      (commands ++ (role operation.kind).suffix tail (site.place commands)))
      = (site.next operation commands).start := by omega
  refine Snugs.append (fun place cell stands calm => ?_)
    (ends ▸ later.mono (List.subset_cons_self _ spans))
  have inside := stands.lt_size
  rw [Command.width] at inside
  have quiet : operation.Calm := by
    refine calm _ (.head _) ⟨?_, ?_⟩
    · dsimp only
      omega
    · dsimp only
      omega
  obtain ⟨last, none, suffix⟩ := tightly_suffix quiet tail (site.place commands)
  exact snug_annotate within.left ((tightly_statement known quiet).append suffix) none stands

end

include image

/-- The entries have spans wherever their segment stands, unless the first of them is the body of a
loop in front of it. The table lists the spans, and the cells of calm statements are snug. -/
def Spreads (pools : Pools) (code : Code) (cells : List Cell) (block : Block) : Prop :=
  ∀ site : Site, (Block.startsWithBlock block = true → site.shape = []) →
    Within cells site.start (entries pools block site).cells → (entries pools block site).valid →
    ∃ spans, code.Spread pools block site.start (site.start + size (entries pools block site).cells)
        spans
      ∧ (entries pools block site).marks = spans.map Span.mark
      ∧ Snugs cells spans site.start (entries pools block site).cells

variable {operation : Operation} {body rest : Block} {site : Site}

omit image in
/-- A jump in a placeholder belongs to no statement. -/
theorem isBracket_hole {target offset : Nat} {command : Command}
    (member : command ∈ hole .jump target offset) : command.IsBracket := by
  cases member with
  | head => exact .inr (.inr (.inl rfl))
  | tail _ member =>
    obtain rfl := List.eq_of_mem_replicate member
    exact .inr (.inr (.inr (.inr rfl)))

private theorem spread_of_blockLaid {front behind : List Cell} {segment : Segment} {inside past : Site}
    {leave : Nat} (inner : Spreads pools code cells body) (later : Spreads pools code cells rest)
    (laid : BlockLaid cells site front inside.start (entries pools body inside) leave behind
      past.start (entries pools rest past) segment)
    (flat : inside.shape = []) (level : past.shape = [])
    (brackets : ∀ command ∈ front.map (·.command) ++ behind.map (·.command), command.IsBracket)
    (marks : segment.marks = (entries pools body inside).marks ++ (entries pools rest past).marks)
    (opens : Snugs cells [] site.start front) (closes : Snugs cells [] leave behind) :
    ∃ spans, code.Spread pools (.block body :: rest) site.start (site.start + size segment.cells)
        spans
      ∧ segment.marks = spans.map Span.mark ∧ Snugs cells spans site.start segment.cells := by
  obtain ⟨first, within, listed, snug⟩ := inner inside (fun _ => flat) laid.entries laid.inside
  obtain ⟨second, follows, enlisted, fits⟩ := later past (fun _ => level) laid.rest laid.follows
  rw [laid.leave_eq] at within
  refine ⟨first ++ second, ?_, by rw [marks, listed, enlisted, List.map_append],
    laid.snugs opens (snug.mono (List.subset_append_left ..)) closes
      (fits.mono (List.subset_append_right ..))⟩
  rw [laid.ends]
  exact .block brackets (laid.opening.holds image rfl laid.first_eq) within
    (laid.closing.holds image rfl laid.stop_eq) follows

private theorem spreads_block (inner : Spreads pools code cells body) (later : Spreads pools code cells rest) :
    Spreads pools code cells (.block body :: rest) := by
  intro site free within valid
  have flat := free rfl
  simp only [entries, entry, Assembly.block] at within valid ⊢
  cases kind : setting site.owner with
  | loop condition => simp [Site.shape, kind] at flat
  | method =>
    simp only [kind] at within valid ⊢
    obtain ⟨_, _, _, _, _, rfl, rfl, rfl, rfl, rfl, -, laid⟩ := method_laid within valid
    refine spread_of_blockLaid image inner later laid rfl rfl (fun command member => ?_) rfl
      (.cons laid.opening rfl (by simp [Command.gives]) (by simp)
        (snugs_of_tightly laid.opening.tail (tightly_padding _ _ []) (by simp)))
      (.cons laid.closing rfl (by simp [Command.gives]) (by simp) snugs_nil)
    simp only [List.map_cons, map_command_annotate, List.mem_append] at member
    obtain member | member := member
    · exact isBracket_hole member
    · simp_all [Command.IsBracket]
  | arm =>
    simp only [kind] at within valid ⊢
    obtain ⟨_, _, _, rfl, rfl, rfl, -, laid⟩ := arm_laid within valid
    refine spread_of_blockLaid image inner later laid rfl rfl (fun command member => ?_) rfl
      (.cons laid.opening rfl (by simp [Command.gives]) (by simp) snugs_nil)
      (.cons laid.closing rfl (by simp [Command.gives]) (by simp)
        (snugs_of_tightly laid.closing.tail (tightly_jump _ _) (by simp)))
    simp only [List.map_cons, map_command_annotate, List.mem_append, List.mem_cons] at member
    obtain (rfl | none) | rfl | member := member
    · exact .inl rfl
    · cases none
    · exact .inr (.inl rfl)
    · exact isBracket_hole member
  | last | free =>
    simp only [kind] at within valid ⊢
    obtain ⟨_, _, _, rfl, rfl, rfl, laid⟩ := nested_laid within valid
    refine spread_of_blockLaid image inner later laid rfl rfl (fun command member => ?_) rfl
      (.cons laid.opening rfl (by simp [Command.gives]) (by simp) snugs_nil)
      (.cons laid.closing rfl (by simp [Command.gives]) (by simp) snugs_nil)
    simp only [List.map_cons, List.map_nil, List.mem_append, List.mem_singleton] at member
    obtain rfl | rfl := member
    · exact .inl rfl
    · exact .inr (.inl rfl)

/-- A statement that owns no loop behind it. -/
theorem spreads_statement (sound : pools.Sound) (later : Spreads pools code cells rest)
    (alone : operation.kind = .while → Block.startsWithBlock rest = false) :
    Spreads pools code cells (.statement operation :: rest) := by
  intro site _ within valid
  obtain ⟨commands, known, laid⟩ := statementLaid within valid
  have flat : Block.startsWithBlock rest = true → (site.next operation commands).shape = [] := by
    intro block
    rw [Site.shape_next, if_neg]
    intro loop
    rw [alone loop] at block
    cases block
  obtain ⟨spans, follows, listed, snug⟩ := later _ flat laid.rest laid.valid
  refine ⟨⟨operation, site.start, (site.next operation commands).start⟩ :: spans, ?_, ?_,
    laid.snugs known within (Nat.le_refl _) snug⟩
  · simp only [entries, entry]
    rw [laid.stop]
    exact .statement alone (laid.own_holds image sound known) (laid.holds image) follows
  · simp only [entries, entry]
    rw [laid.equal]
    exact congrArg (List.cons _) listed

private theorem spreads_loop (sound : pools.Sound) (inner : Spreads pools code cells body)
    (later : Spreads pools code cells rest) (kind : operation.kind = .while) :
    Spreads pools code cells (.statement operation :: .block body :: rest) := by
  intro site _ within valid
  obtain ⟨commands, known, laid⟩ := statementLaid within valid
  have owner : setting (site.next operation commands).owner = .loop site.start := by
    simp [Site.next, Site.after, kind, setting]
  have begins : (site.next operation commands).start = site.place commands := by
    simp [Site.next, Site.after, role_eq_bare.mpr (.inr kind), Role.gap]
  have follows := laid.rest
  have valid' := laid.valid
  simp only [entries, entry, Assembly.block, owner] at laid follows valid' ⊢
  obtain ⟨_, _, _, _, _, rfl, rfl, rfl, rfl, rfl, fits, parts⟩ := loop_laid follows valid'
  obtain ⟨first, inside, listed, snug⟩ := inner _ (fun _ => rfl) parts.entries parts.inside
  obtain ⟨second, behind, enlisted, fitting⟩ := later _ (fun _ => rfl) parts.rest parts.follows
  have enter := parts.opening.right
  rw [size_annotate, extent_hole fits] at enter
  have exit := parts.opening.left.holds image (map_command_annotate ..)
    (by rw [size_annotate, extent_hole fits])
  have own := laid.own_holds image sound known
  rw [← begins] at own
  refine ⟨⟨operation, site.start, (site.next operation commands).start
    + placeholderWidth (site.next operation commands).start⟩ :: (first ++ second), ?_, ?_, ?_⟩
  · rw [laid.stop, parts.ends]
    exact .loop kind own exit (enter.holds image rfl (by simp [Site.cell, Site.inside])) inside
      (parts.closing.holds image rfl parts.stop_eq) behind
  · rw [laid.equal]
    refine congrArg (List.cons _) ?_
    rw [List.map_append, ← listed, ← enlisted]
    rfl
  · refine laid.snugs known ?_ (Nat.le_add_right _ _) (parts.snugs ?_
      (snug.mono (List.subset_append_left ..)) ?_ (fitting.mono (List.subset_append_right ..)))
    · simpa only [entries, entry, Assembly.block, owner] using within
    · have exits := snugs_of_tightly parts.opening.left (tightly_branch _ _) (by simp)
      exact exits.append (.cons parts.opening.right rfl (by simp [Command.gives]) (by simp) snugs_nil)
    · exact .cons parts.closing rfl (by simp [Command.gives]) (by simp)
        (.cons parts.closing.tail rfl (by simp [Command.gives]) (by simp) snugs_nil)

/-- All statements of a block have spans. -/
theorem spreads (sound : pools.Sound) (block : Block) : Spreads pools code cells block := by
  induction block using Block.pairInduction with
  | nil => exact fun _ _ _ _ => ⟨[], .nil, rfl, snugs_nil⟩
  | alone operation rest alone ih => exact spreads_statement image sound ih fun _ => alone
  | owned operation body rest inner later =>
    by_cases loop : operation.kind = .while
    · exact spreads_loop image sound inner later loop
    · exact spreads_statement image sound (spreads_block image inner later) fun same => absurd same loop
  | free body rest inner later => exact spreads_block image inner later

end

end Assembly

/-! ## Lines -/

private theorem lineFrom_spans {spans : List Span} (ordered : spans.Pairwise (·.stop ≤ ·.start)) {span : Span}
    (member : span ∈ spans) {offset : Nat} (contains : span.Contains offset) (line : Option Nat) :
    lineFrom line (spans.map Span.mark) offset = some span.operation.line := by
  obtain ⟨before, after, rfl⟩ := List.append_of_mem member
  obtain ⟨begins, ends⟩ := contains
  obtain ⟨-, rest, -⟩ := List.pairwise_append.mp ordered
  have later : ∀ mark ∈ after.map Span.mark, offset < mark.offset := by
    intro mark listed
    obtain ⟨other, behind, rfl⟩ := List.mem_map.mp listed
    exact Nat.lt_of_lt_of_le ends ((List.pairwise_cons.mp rest).1 other behind)
  rw [List.map_append, lineFrom_append, List.map_cons, lineFrom, List.foldl_cons]
  simp only [Span.mark, begins, if_true]
  exact lineFrom_of_lt later

theorem sorted_spans {spans : List Span} (ordered : spans.Pairwise (·.stop ≤ ·.start))
    (forward : ∀ span ∈ spans, span.start ≤ span.stop) :
    (spans.map Span.mark).Pairwise (·.offset ≤ ·.offset) := by
  rw [List.pairwise_map]
  refine List.Pairwise.imp_of_mem (fun {span other} member _ apart => ?_) ordered
  exact Nat.le_trans (forward span member) apart

/-- Code whose line table is a part of the given one, as it was after some of the statements. What
instructions it has does not matter. -/
def Code.Earlier (earlier code : Code) (count : Nat) : Prop :=
  earlier.marks.toList = code.marks.toList.take count

/-- The line table gives every offset of a span the line of its statement, as soon as the statement
is entered in it and however many statements follow. -/
def Code.Tells (code : Code) (spans : List Span) : Prop :=
  ∀ index span, spans[index]? = some span → ∀ count, index < count →
    ∀ earlier : Code, earlier.Earlier code count → ∀ offset, span.Contains offset →
      earlier.lineAt? offset = some span.operation.line

theorem Code.tells_of_marks {code : Code} {spans : List Span}
    (marks : code.marks.toList = spans.map Span.mark)
    (ordered : spans.Pairwise (·.stop ≤ ·.start))
    (forward : ∀ span ∈ spans, span.start ≤ span.stop) : code.Tells spans := by
  intro index span found count less earlier table offset contains
  have part := List.take_sublist count spans
  have still := ordered.sublist part
  have forward' : ∀ span ∈ spans.take count, span.start ≤ span.stop :=
    fun span member => forward span (part.subset member)
  have table : earlier.marks.toList = (spans.take count).map Span.mark := by
    rw [table, marks, List.map_take]
  have member : span ∈ spans.take count := by
    refine List.mem_of_getElem? (i := index) ?_
    rw [List.getElem?_take, if_pos less, found]
  rw [lineAt?_eq offset (by rw [table]; exact sorted_spans still forward'), table]
  exact lineFrom_spans still member contains none

theorem Code.Tells.lineAt? {code : Code} {spans : List Span} (tells : code.Tells spans) {span : Span}
    (member : span ∈ spans) {offset : Nat} (contains : span.Contains offset)
    (few : spans.length ≤ code.marks.size) : code.lineAt? offset = some span.operation.line := by
  obtain ⟨index, inside, rfl⟩ := List.mem_iff_getElem.mp member
  refine tells index _ (List.getElem?_eq_getElem inside) code.marks.size (by omega) code ?_ offset
    contains
  rw [Code.Earlier, ← Array.length_toList, List.take_length]

end ScopeMachine
