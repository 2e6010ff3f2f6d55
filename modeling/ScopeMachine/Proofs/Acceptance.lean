import ScopeMachine.Proofs.Assembly.Completion
import ScopeMachine.Proofs.Assembly.Room

set_option autoImplicit false

/-!
# Accepted programs

The compiler accepts exactly the programs of the grammar whose code has room for its targets. Which
clauses it accepts depends on the jumps that wait at its cursor; they are tracked by the entries that
it has passed.
-/

namespace ScopeMachine

/-! ## Clauses -/

def Block.lastKind? (entries : Block) : Option Kind :=
  match entries.getLast? with
  | some (.statement operation) => some operation.kind
  | _ => none

private theorem Block.lastKind?_statement (before : Block) (operation : Operation) :
    Block.lastKind? (before ++ [Entry.statement operation]) = some operation.kind := by
  simp [lastKind?]

private theorem Block.lastKind?_block (before body : Block) :
    Block.lastKind? (before ++ [Entry.block body]) = none := by
  simp [lastKind?]

private theorem Block.endsWithClause_statement (before : Block) (operation : Operation) :
    Block.EndsWithClause (before ++ [Entry.statement operation])
      ↔ operation.kind = .if ∨ operation.kind = .elseIf := by
  constructor
  · rintro ⟨front, clause, kind, same | ⟨body, same⟩⟩
    · obtain ⟨-, same⟩ := List.append_inj' same rfl
      cases same
      exact kind
    · have last := congrArg List.getLast? same
      simp at last
  · exact fun kind => ⟨before, operation, kind, .inl rfl⟩

private theorem Block.eq_of_lastKind? {entries : Block} {kind : Kind}
    (last : entries.lastKind? = some kind) :
    ∃ before operation, entries = before ++ [Entry.statement operation] ∧ operation.kind = kind := by
  unfold Block.lastKind? at last
  split at last
  case h_1 operation ends =>
    cases last
    obtain ⟨before, same⟩ := List.getLast?_eq_some_iff.mp ends
    exact ⟨before, operation, same, rfl⟩
  case h_2 => cases last

private theorem Block.endsWithClause_of_lastKind? {entries : Block} {kind : Kind}
    (last : entries.lastKind? = some kind) :
    entries.EndsWithClause ↔ kind = .if ∨ kind = .elseIf := by
  obtain ⟨before, operation, rfl, rfl⟩ := Block.eq_of_lastKind? last
  exact Block.endsWithClause_statement before operation

private theorem Block.endsWithClause_block (before body : Block) :
    Block.EndsWithClause (before ++ [Entry.block body])
      ↔ before.lastKind? = some .if ∨ before.lastKind? = some .elseIf := by
  constructor
  · rintro ⟨front, clause, kind, same | ⟨inner, same⟩⟩
    · have last := congrArg List.getLast? same
      simp at last
    · have parts : before ++ [Entry.block body] = (front ++ [Entry.statement clause]) ++ [Entry.block inner] := by
        simpa using same
      obtain ⟨rfl, -⟩ := List.append_inj' parts rfl
      rw [Block.lastKind?_statement]
      simpa using kind
  · intro kind
    obtain ⟨front, operation, rfl, same⟩ | ⟨front, operation, rfl, same⟩ :=
      kind.imp Block.eq_of_lastKind? Block.eq_of_lastKind?
    · exact ⟨front, operation, .inl same, .inr ⟨body, by simp⟩⟩
    · exact ⟨front, operation, .inr same, .inr ⟨body, by simp⟩⟩

private theorem Kind.continuesIfChain_iff (kind : Kind) :
    kind.continuesIfChain = true ↔ kind = .elseIf ∨ kind = .else := by
  cases kind <;> decide

namespace Compile

open Assembly (Segment Site role setting)

/-- A false branch waits at a cursor exactly if the entries passed end with a clause, and the owner of
a block that follows is the statement that they end with. -/
structure Tracks (passed : Block) (cursor : Cursor) : Prop where
  single : cursor.jumps.branches.size ≤ 1
  branch : cursor.jumps.branches ≠ #[] ↔ passed.EndsWithClause
  owner : cursor.owner.map Prod.fst = passed.lastKind?

private theorem tracks_clear (draft : Draft) : Tracks [] ⟨draft, {}, none⟩ where
  single := by simp
  branch := by simp [Block.EndsWithClause]
  owner := rfl

private theorem tracks_statement {passed : Block} {operation : Operation} {base : Cursor}
    (alone : base.jumps.branches = #[]) (draft : Draft) :
    Tracks (passed ++ [Entry.statement operation]) (statementEnd operation base draft) where
  single := by
    unfold statementEnd
    cases role operation.kind <;> simp [alone, PendingJumps.addBranch]
  branch := by
    rw [Block.endsWithClause_statement]
    obtain ⟨kind, operands, value, line⟩ := operation
    cases kind <;> simp [statementEnd, role, alone, PendingJumps.addBranch]
  owner := by
    rw [owner_statementEnd, Block.lastKind?_statement]
    rfl

private theorem setting_eq_arm_iff (owner : Option (Kind × Nat)) :
    setting owner = .arm
      ↔ owner.map Prod.fst = some .if ∨ owner.map Prod.fst = some .elseIf := by
  match owner with
  | none => simp [setting]
  | some (kind, start) => cases kind <;> simp [setting]

private theorem setting_eq_last_iff (owner : Option (Kind × Nat)) :
    setting owner = .last ↔ owner.map Prod.fst = some .else := by
  match owner with
  | none => simp [setting]
  | some (kind, start) => cases kind <;> simp [setting]

private theorem setting_eq_loop {owner : Option (Kind × Nat)} {condition : Nat}
    (loops : setting owner = .loop condition) : owner = some (.while, condition) := by
  match owner with
  | none => cases loops
  | some (kind, start) => cases kind <;> cases loops; rfl

/-- A block leaves the false branches alone. -/
theorem Enclosed.same {pools : Pools} {body : Block} {base after : Cursor}
    (enclosed : Enclosed pools body base after) :
    after.jumps.branches = base.jumps.branches ∧ after.owner = none := by
  cases enclosed <;> exact ⟨rfl, rfl⟩

/-- A false branch waits behind a block if the block is an arm. -/
theorem tracks_block {pools : Pools} {passed body : Block} {cursor base after : Cursor}
    (tracks : Tracks passed cursor) (before : cursor.beforeBlock = .ok base)
    (enclosed : Enclosed pools body base after) : Tracks (passed ++ [Entry.block body]) after := by
  obtain ⟨branches, owner⟩ := enclosed.same
  have same : after.jumps.branches.size ≤ 1
      ∧ (after.jumps.branches ≠ #[] ↔ setting cursor.owner = .arm) := by
    rw [branches]
    obtain ⟨rfl, arm | last⟩ | ⟨resolved, arm, last⟩ := beforeBlock_ok before
    · refine ⟨tracks.single, iff_of_true ?_ arm⟩
      rw [setting_eq_arm_iff, tracks.owner] at arm
      rw [tracks.branch]
      obtain kind | kind := arm
      · exact (Block.endsWithClause_of_lastKind? kind).mpr (.inl rfl)
      · exact (Block.endsWithClause_of_lastKind? kind).mpr (.inr rfl)
    · refine ⟨tracks.single, iff_of_false ?_ (by simp [last])⟩
      rw [setting_eq_last_iff, tracks.owner] at last
      rw [tracks.branch, Block.endsWithClause_of_lastKind? last]
      simp
    · obtain ⟨-, -, -, -, jumps, -⟩ := Cursor.resolve_ok resolved
      simp [jumps, arm]
  refine ⟨same.1, ?_, ?_⟩
  · rw [same.2, Block.endsWithClause_block, setting_eq_arm_iff, tracks.owner]
  · rw [owner, Block.lastKind?_block]
    rfl

private theorem branches_statementBase {operation : Operation} {cursor base : Cursor}
    (single : cursor.jumps.branches.size ≤ 1)
    (resolved : statementBase operation cursor = .ok base) : base.jumps.branches = #[] := by
  unfold statementBase at resolved
  split at resolved
  · obtain ⟨placeholder, latest, -, -, -, -, jumps⟩ := Cursor.resolveClause_ok resolved
    simp [jumps, eq_singleton_of_back? single latest]
  · obtain ⟨-, -, -, -, jumps, -⟩ := Cursor.resolve_ok resolved
    simp [jumps]

/-- The place of a clause among the entries of its block. -/
def Clause (before : Block) (operation : Operation) (_ : Block) : Prop :=
  operation.kind.continuesIfChain = true → before.EndsWithClause

/-- Clauses that are compiled stand behind conditions. -/
theorem clauses_of_compiled {pools : Pools} (block : Block) {passed : Block} {cursor : Cursor}
    {after : Draft} (compiled : entries pools block cursor = .ok after)
    (tracks : Tracks passed cursor) : Block.Each Clause passed block := by
  induction block using Block.induction generalizing passed cursor after with
  | nil => trivial
  | statement operation rest ih =>
    obtain ⟨middle, head, tail⟩ := bind_ok compiled
    obtain ⟨base, draft, resolved, -, rfl⟩ := statement_ok head
    have alone := branches_statementBase tracks.single resolved
    refine ⟨fun continues => ?_, ih tail (tracks_statement alone draft)⟩
    rw [statementBase, if_pos continues] at resolved
    obtain ⟨placeholder, latest, -⟩ := Cursor.resolveClause_ok resolved
    rw [← tracks.branch]
    intro none
    simp [none] at latest
  | block body rest inner later =>
    obtain ⟨middle, head, tail⟩ := bind_ok compiled
    obtain ⟨base, before, enclosed⟩ := block_ok head
    refine ⟨?_, later tail (tracks_block tracks before enclosed)⟩
    cases enclosed with
    | loop _ compiled | method _ _ _ compiled | arm _ compiled | nested _ compiled =>
      exact inner compiled (tracks_clear _)

/-! ## Entries that are accepted -/

/-- A cursor at a site whose jumps have room for the targets that a segment offers. -/
structure Ready (passed : Block) (cursor : Cursor) (site : Site) (segment : Segment) : Prop where
  sound : Sound cursor
  tracks : Tracks passed cursor
  start : site.start = cursor.draft.list.length
  owner : site.owner = cursor.owner
  accepts : cursor.Accepts segment.exit segment.branch
  defined : setting cursor.owner = .method → cursor.draft.openMethod.isSome
  method : ∀ place line, cursor.draft.openMethod = some (place, line) →
    place.holds segment.body ∧ segment.body ≠ 0

private theorem ready_clear {draft : Draft} {site : Site} {segment : Segment}
    (closed : draft.openMethod = none) (start : site.start = draft.list.length)
    (owner : site.owner = none) : Ready [] ⟨draft, {}, none⟩ site segment where
  sound := sound_clear (by simp [closed])
  tracks := tracks_clear draft
  start := start
  owner := owner
  accepts := ⟨by simp, by simp⟩
  defined := by simp [setting]
  method := by simp [closed]

/-- The compiler accepts the entries of a block wherever their segment is valid, its targets have
room, and clauses stand behind conditions. -/
def Accepted (pools : Pools) (block : Block) : Prop :=
  ∀ {passed : Block} {cursor : Cursor} {site : Site},
    Ready passed cursor site (Assembly.entries pools block site) →
    (Assembly.entries pools block site).valid → Block.Each Clause passed block →
    ∃ after, entries pools block cursor = .ok after ∧ after.openMethod = none

theorem Ready.closed {passed : Block} {cursor : Cursor} {site : Site} {segment : Segment}
    (ready : Ready passed cursor site segment) (bare : segment.body = 0) :
    cursor.draft.openMethod = none := by
  cases waits : cursor.draft.openMethod with
  | none => rfl
  | some waiting => exact absurd bare (ready.method waiting.1 waiting.2 waits).2

private theorem statementEnd_of_known {pools : Pools} {operation : Operation} {own : List Command}
    {base : Cursor} {draft : Draft} (known : Assembly.statement? pools operation = some own)
    (compiled : Compile.operation pools .value operation (marked operation base) = .ok draft)
    (closed : base.draft.openMethod = none) :
    (statementEnd operation base draft).draft.list.length
        = base.draft.list.length + Assembly.extent own
          + (role operation.kind).gap (base.draft.list.length + Assembly.extent own)
      ∧ (role operation.kind ≠ .definition →
        draft.list.length = base.draft.list.length + Assembly.extent own ∧ draft.openMethod = none)
      ∧ (role operation.kind = .definition → draft.openMethod
        = some (⟨base.draft.list.length + Assembly.extent own,
          placeholderWidth (base.draft.list.length + Assembly.extent own)⟩, operation.line)) := by
  have place : ((marked operation base).assemble own).list.length
      = base.draft.list.length + Assembly.extent own := by
    rw [length_assemble, (marked_facts operation base).1]
  by_cases definition : role operation.kind = .definition
  · obtain ⟨commands, same, -, rfl⟩ :=
      definition_assembled (Assembly.role_eq_definition.mp definition) compiled
    have equal : commands = own := by
      simp only [Assembly.statement?, definition] at known
      exact Option.some.inj (same.symm.trans known)
    subst equal
    refine ⟨?_, fun other => absurd definition other, fun _ => ?_⟩
    · simp only [statementEnd, definition, Assembly.Role.gap, ← place]
      simp [Draft.list, Draft.assemble, Draft.append, Code.reserve, Code.push, Command.slots,
        Code.size_eq_length, Nat.add_assoc]
    · rw [← place]
      rfl
  · have equal : draft = (marked operation base).assemble own := by
      have same : Assembly.operation? pools .value operation = some own := by
        unfold Assembly.statement? at known
        split at known
        · contradiction
        · exact known
      rw [operation_of_known operation same] at compiled
      exact (Except.ok.inj compiled).symm
    subst equal
    refine ⟨?_, fun _ => ⟨place, closed⟩, fun kind => absurd kind definition⟩
    unfold statementEnd
    cases kind : role operation.kind with
    | condition => simp only [length_reserve, place, Assembly.Role.gap]
    | bare => simp only [place, Assembly.Role.gap, Nat.add_zero]
    | definition => exact absurd kind definition
    | plain =>
      simp only [Draft.assemble_assemble, Assembly.Role.gap]
      rw [← Draft.assemble_assemble, length_assemble, place]
      simp

/-- A clause finds the branch that it takes over, and any other statement resolves all jumps. -/
theorem Ready.base {passed rest : Block} {operation : Operation} {cursor : Cursor} {site : Site}
    {pools : Pools}
    (ready : Ready passed cursor site
      (Assembly.statement pools operation site (Assembly.entries pools rest)))
    (clause : Clause passed operation rest) : ∃ base, statementBase operation cursor = .ok base := by
  have accepts := ready.accepts
  simp only [Assembly.statement, Segment.statement] at accepts
  unfold statementBase
  split
  case isTrue continues =>
    obtain ⟨placeholder, latest⟩ : ∃ placeholder,
        cursor.jumps.branches.back? = some placeholder := by
      have waits := ready.tracks.branch.mpr (clause continues)
      cases latest : cursor.jumps.branches.back? with
      | none => simp_all
      | some placeholder => exact ⟨placeholder, rfl⟩
    have only := eq_singleton_of_back? ready.sound.single latest
    refine Cursor.resolveClause_of_holds latest ?_ _ _
    rw [← ready.start]
    exact accepts.branches placeholder (by simp [only])
  case isFalse ends =>
    rw [if_neg ends, ready.start] at accepts
    exact Cursor.resolve_of_accepts accepts

/-- Behind a statement the cursor is ready for the entries that follow. -/
theorem Ready.after {pools : Pools} {passed : Block} {operation : Operation} {own : List Command}
    {cursor base : Cursor} {draft : Draft} {site : Site} {tail : Segment} {valid : Prop}
    {commands : List Command}
    (ready : Ready passed cursor site (tail.statement site operation commands valid))
    (resolved : statementBase operation cursor = .ok base)
    (known : Assembly.statement? pools operation = some own)
    (compiled : Compile.operation pools .value operation (marked operation base) = .ok draft)
    (fits : (role operation.kind).Fits tail (site.place own)) :
    Ready (passed ++ [Entry.statement operation]) (statementEnd operation base draft)
      (site.next operation own) tail := by
  obtain ⟨length, -, alone, baseSound, -⟩ := statementBase_settled ready.sound resolved
  have closed : base.draft.openMethod = none :=
    (statementBase_open resolved).trans (ready.closed rfl)
  have begun : base.draft.list.length = site.start := length.trans ready.start.symm
  obtain ⟨reached, plain, defines⟩ := statementEnd_of_known known compiled closed
  rw [begun] at reached plain defines
  have other : role operation.kind ≠ .definition → draft.openMethod = none :=
    fun kind => (plain kind).2
  obtain ⟨longer, inside⟩ := draft_inside compiled other
  have exits : ∀ placeholder ∈ base.jumps.exits.toList, placeholder.holds tail.exit := by
    have accepts := ready.accepts
    simp only [Segment.statement] at accepts
    unfold statementBase at resolved
    split at resolved
    case isTrue continues =>
      obtain ⟨-, -, -, -, -, -, jumps⟩ := Cursor.resolveClause_ok resolved
      simpa [jumps, continues] using accepts.exits
    case isFalse =>
      obtain ⟨-, -, -, -, jumps, -⟩ := Cursor.resolve_ok resolved
      simp [jumps]
  exact
    { sound := sound_statementEnd baseSound alone longer inside
      tracks := tracks_statement alone draft
      start := reached.symm
      owner := by simp [Site.next, Site.after, owner_statementEnd, begun]
      accepts := by
        unfold statementEnd
        cases kind : role operation.kind with
        | condition =>
          rw [kind] at fits
          have place := (plain (by simp [kind])).1
          have room : extensionCount tail.branch + 1
              ≤ placeholderWidth (site.start + Assembly.extent own) := fits
          refine ⟨exits, ?_⟩
          simpa [PendingJumps.addBranch, alone, Draft.reserve_eq, place, Placeholder.holds] using room
        | bare | definition | plain => exact ⟨exits, by simp [alone]⟩
      defined := by
        rw [owner_statementEnd, openMethod_statementEnd]
        intro method
        have kind : role operation.kind = .definition := by
          obtain ⟨start, same⟩ := setting_eq_method method
          exact Assembly.role_eq_definition.mpr (congrArg Prod.fst (Option.some.inj same))
        simp [defines kind]
      method := by
        rw [openMethod_statementEnd]
        intro place line waits
        by_cases kind : role operation.kind = .definition
        · rw [defines kind] at waits
          cases waits
          rw [kind] at fits
          exact ⟨(Placeholder.holds_iff _ _).mpr fits.1, fits.2⟩
        · simp [other kind] at waits }

theorem Accepted.inside {pools : Pools} {body : Block} (accepted : Accepted pools body)
    (draft : Draft) {site : Site} (closed : draft.openMethod = none)
    (start : site.start = draft.list.length) (owner : site.owner = none)
    (valid : (Assembly.entries pools body site).valid) (clauses : Block.Each Clause [] body) :
    ∃ inner, entries pools body ⟨draft, {}, none⟩ = .ok inner ∧ inner.openMethod = none
      ∧ inner.list = draft.list ++ Assembly.slots (Assembly.entries pools body site).cells := by
  obtain ⟨inner, compiled, ends⟩ := accepted (ready_clear closed start owner) valid clauses
  obtain ⟨-, list, -, -⟩ := Covered.inside (covered pools body) site compiled ends start owner
  exact ⟨inner, compiled, ends, list⟩

/-- Behind a block that resolved all jumps the cursor is ready for any segment. -/
theorem ready_resolved {passed : Block} {draft : Draft} {site : Site} {segment : Segment}
    (tracks : Tracks passed ⟨draft, {}, none⟩) (closed : draft.openMethod = none)
    (start : site.start = draft.list.length) (owner : site.owner = none) :
    Ready passed ⟨draft, {}, none⟩ site segment :=
  { ready_clear closed start owner with tracks }

/-- A block is compiled, and its cursor is ready for the entries behind it. -/
def Passes (pools : Pools) (passed body : Block) (base : Cursor) (rest : Site → Segment) : Prop :=
  ∃ after next, Enclosed pools body base after ∧ (rest next).valid
    ∧ Ready (passed ++ [Entry.block body]) after next (rest next)

section

variable {pools : Pools} {passed body : Block} {cursor base : Cursor} {site : Site}
  {rest : Site → Segment} (accepted : Accepted pools body) (clauses : Block.Each Clause [] body)
  (before : cursor.beforeBlock = .ok base)

include accepted clauses before

private theorem loop_accepted {condition : Nat} (owner : cursor.owner = some (.while, condition))
    (ready : Ready passed cursor site
      (Assembly.loop condition (Assembly.entries pools body) site rest))
    (valid : (Assembly.loop condition (Assembly.entries pools body) site rest).valid) :
    Passes pools passed body base rest := by
  obtain ⟨length, -, -, -, resolved⟩ := beforeBlock_settled ready.sound before
  obtain ⟨jumps, -, -⟩ := resolved (by simp [owner, setting]) (by simp [owner, setting])
  obtain ⟨same, sameOwner⟩ := beforeBlock_same before
  have closed : base.draft.openMethod = none := same.trans (ready.closed rfl)
  have begun : base.draft.list.length = site.start := length.trans ready.start.symm
  have enter : (base.draft.reserve.2.assemble [⟨.enterLocal, 0⟩]).list.length
      = site.start + placeholderWidth site.start + 1 := by
    rw [length_assemble, length_reserve, begun]
    simp
  obtain ⟨fits, inside, follows⟩ := valid
  obtain ⟨inner, compiled, ends, list⟩ := accepted.inside
    (base.draft.reserve.2.assemble [⟨.enterLocal, 0⟩]) closed enter.symm rfl inside clauses
  generalize Assembly.entries pools body _ = block at fits follows list
  have reached : (inner.assemble [⟨.leaveLocal, 0⟩, ⟨.jump, condition⟩]).size
      = site.start + placeholderWidth site.start + 1 + Assembly.size block.cells + 1
        + (Command.mk .jump condition).width := by
    rw [Draft.size_eq_length, length_assemble, list, List.length_append, enter,
      Assembly.length_slots]
    simp [Nat.add_assoc]
  have holds : base.draft.reserve.1.holds
      (inner.assemble [⟨.leaveLocal, 0⟩, ⟨.jump, condition⟩]).size := by
    rw [reached]
    exact (Placeholder.holds_iff _ _).mpr (begun ▸ fits)
  obtain ⟨last, patched⟩ := Draft.patch_of_holds .jumpIfFalse holds
    (inner.assemble [⟨.leaveLocal, 0⟩, ⟨.jump, condition⟩])
  obtain ⟨-, patchedList, -, still⟩ := Draft.patch_ok patched
  have enclosed := Enclosed.loop (sameOwner.trans owner) compiled patched
  have tracks := tracks_block ready.tracks before enclosed
  rw [jumps] at enclosed tracks
  refine ⟨_, _, enclosed, follows, ready_resolved tracks (still.trans ends) ?_ rfl⟩
  rw [patchedList, filled, length_overwritten]
  exact reached.symm

private theorem method_accepted {condition : Nat} (owner : cursor.owner = some (.defineMethod, condition))
    (ready : Ready passed cursor site
      (Assembly.method body (Assembly.entries pools body) site rest))
    (valid : (Assembly.method body (Assembly.entries pools body) site rest).valid) :
    Passes pools passed body base rest := by
  obtain ⟨length, -, -, -, resolved⟩ := beforeBlock_settled ready.sound before
  obtain ⟨jumps, -, -⟩ := resolved (by simp [owner, setting]) (by simp [owner, setting])
  obtain ⟨same, sameOwner⟩ := beforeBlock_same before
  obtain ⟨⟨place, line⟩, waits⟩ :=
    Option.isSome_iff_exists.mp (ready.defined (by simp [owner, setting]))
  have begun : base.draft.list.length = site.start := length.trans ready.start.symm
  have first : base.draft.reserve.2.size = site.start + placeholderWidth site.start := by
    rw [Draft.size_eq_length, length_reserve, begun]
  have placeHolds : place.holds base.draft.reserve.2.size := first ▸ (ready.method place line waits).1
  obtain ⟨code, placed⟩ := Code.patch_of_holds .bindSection placeHolds base.draft.reserve.2.code
  obtain ⟨-, placedList, -⟩ := Code.patch_ok placed
  have opened : (Draft.mk code none).list.length = site.start + placeholderWidth site.start := by
    rw [← first, Draft.size_eq_length]
    simp only [Draft.list, placedList, filled, length_overwritten]
  obtain ⟨fits, inside, follows⟩ := valid
  obtain ⟨inner, compiled, ends, list⟩ :=
    accepted.inside ⟨code, none⟩ rfl opened.symm rfl inside clauses
  generalize Assembly.entries pools body _ = block at fits follows list
  have reached : (inner.assemble [⟨.return, 0⟩]).size
      = site.start + placeholderWidth site.start + Assembly.size block.cells + 1 := by
    rw [Draft.size_eq_length, length_assemble, list, List.length_append, opened,
      Assembly.length_slots]
    simp
  have holds : base.draft.reserve.1.holds (inner.assemble [⟨.return, 0⟩]).size := by
    rw [reached]
    exact (Placeholder.holds_iff _ _).mpr (begun ▸ fits)
  obtain ⟨last, patched⟩ := Draft.patch_of_holds .jump holds (inner.assemble [⟨.return, 0⟩])
  obtain ⟨-, patchedList, -, still⟩ := Draft.patch_ok patched
  have enclosed := Enclosed.method (sameOwner.trans owner) (same.trans waits) placed compiled patched
  have tracks := tracks_block ready.tracks before enclosed
  rw [jumps] at enclosed tracks
  refine ⟨_, _, enclosed, follows, ready_resolved tracks (still.trans ends) ?_ rfl⟩
  rw [patchedList, filled, length_overwritten]
  exact reached.symm

omit before in
/-- The code of an arm or a block of its own, up to the end of the block. -/
theorem bounded_accepted (closed : base.draft.openMethod = none)
    (begun : base.draft.list.length = site.start)
    (inside : (Assembly.entries pools body (site.inside (site.start + 1) (site.depth + 1))).valid) :
    ∃ inner, entries pools body ⟨base.draft.assemble [⟨.enterLocal, 0⟩], {}, none⟩ = .ok inner
      ∧ inner.openMethod = none
      ∧ (∃ more, (inner.assemble [⟨.leaveLocal, 0⟩]).list = base.draft.list ++ more)
      ∧ (inner.assemble [⟨.leaveLocal, 0⟩]).list.length = site.start + 1 + Assembly.size
        (Assembly.entries pools body (site.inside (site.start + 1) (site.depth + 1))).cells + 1 := by
  have enter : (base.draft.assemble [⟨.enterLocal, 0⟩]).list.length = site.start + 1 := by
    rw [length_assemble, begun]
    simp
  obtain ⟨inner, compiled, ends, list⟩ := accepted.inside
    (base.draft.assemble [⟨.enterLocal, 0⟩]) closed enter.symm rfl inside clauses
  have longer : (inner.assemble [⟨.leaveLocal, 0⟩]).list = base.draft.list
      ++ (Command.slots ⟨.enterLocal, 0⟩ ++ (Assembly.slots (Assembly.entries pools body
        (site.inside (site.start + 1) (site.depth + 1))).cells
          ++ Command.slots ⟨.leaveLocal, 0⟩)) := by
    rw [Draft.list_assemble, list, Draft.list_assemble]
    simp
  refine ⟨inner, compiled, ends, ⟨_, longer⟩, ?_⟩
  rw [length_assemble, list, List.length_append, enter, Assembly.length_slots]
  simp

private theorem arm_accepted (owner : setting cursor.owner = .arm)
    (ready : Ready passed cursor site (Assembly.arm (Assembly.entries pools body) site rest))
    (valid : (Assembly.arm (Assembly.entries pools body) site rest).valid) :
    Passes pools passed body base rest := by
  obtain ⟨-, -, -, kept, -⟩ := beforeBlock_settled ready.sound before
  obtain rfl := kept (.inl owner)
  obtain ⟨fits, inside, follows⟩ := valid
  obtain ⟨inner, compiled, ends, ⟨more, list⟩, reached⟩ :=
    bounded_accepted accepted clauses (ready.closed rfl) ready.start.symm inside
  have accepts := ready.accepts
  simp only [Assembly.arm, Segment.around] at accepts
  generalize Assembly.entries pools body _ = block at fits follows reached accepts
  have enclosed := Enclosed.arm owner compiled
  refine ⟨_, _, enclosed, follows, ?_⟩
  exact
    { sound := (ready.sound.longer list ends).exit
      tracks := tracks_block ready.tracks before enclosed
      start := by rw [length_reserve, reached]; rfl
      owner := rfl
      accepts := by
        refine ⟨fun placeholder member => ?_, accepts.branches⟩
        simp only [PendingJumps.addExit, Array.toList_push, List.mem_append, List.mem_singleton]
          at member
        obtain old | rfl := member
        · exact accepts.exits placeholder old
        · rw [Draft.reserve_eq, reached]
          exact (Placeholder.holds_iff _ _).mpr fits
      defined := by simp [setting]
      method := by simp [Draft.reserve_eq, ends] }

private theorem nested_accepted (keeps : Bool) (owner : setting cursor.owner = if keeps then .last else .free)
    (ready : Ready passed cursor site
      (Assembly.nested keeps (Assembly.entries pools body) site rest))
    (valid : (Assembly.nested keeps (Assembly.entries pools body) site rest).valid) :
    Passes pools passed body base rest := by
  obtain ⟨length, -, baseSound, kept, resolved⟩ := beforeBlock_settled ready.sound before
  obtain ⟨same, sameOwner⟩ := beforeBlock_same before
  have closed : base.draft.openMethod = none := same.trans (ready.closed rfl)
  obtain ⟨-, inside, follows⟩ := valid
  obtain ⟨inner, compiled, ends, ⟨more, list⟩, reached⟩ :=
    bounded_accepted accepted clauses closed (length.trans ready.start.symm) inside
  have accepts := ready.accepts
  simp only [Assembly.nested, Segment.around] at accepts
  generalize Assembly.entries pools body _ = block at follows reached accepts
  have enclosed := Enclosed.nested (sameOwner ▸ by cases keeps <;> simp [owner]) compiled
  refine ⟨_, _, enclosed, follows, ?_⟩
  exact
    { sound := baseSound.longer list ends
      tracks := tracks_block ready.tracks before enclosed
      start := by rw [reached]; rfl
      owner := rfl
      accepts := by
        cases keeps with
        | true =>
          obtain rfl := kept (.inr owner)
          exact ⟨accepts.exits, accepts.branches⟩
        | false =>
          obtain ⟨jumps, -, -⟩ := resolved (by simp [owner]) (by simp [owner])
          simp only [jumps]
          exact ⟨by simp, by simp⟩
      defined := by simp [setting]
      method := by simp [ends] }

end

private theorem beforeBlock_of_chain {cursor : Cursor}
    (chain : setting cursor.owner = .arm ∨ setting cursor.owner = .last) :
    cursor.beforeBlock = .ok cursor := by
  obtain ⟨draft, jumps, owner⟩ := cursor
  match owner with
  | none => simp [setting] at chain
  | some (kind, start) => cases kind <;> simp_all [setting, Cursor.beforeBlock, Kind.isIfChain]

private theorem beforeBlock_of_resolve {cursor base : Cursor}
    (free : ¬(setting cursor.owner = .arm ∨ setting cursor.owner = .last))
    (resolved : cursor.resolve = .ok base) : cursor.beforeBlock = .ok base := by
  obtain ⟨draft, jumps, owner⟩ := cursor
  match owner with
  | none => exact resolved
  | some (kind, start) => cases kind <;> simp_all [setting, Cursor.beforeBlock, Kind.isIfChain]

/-- A block finds the jumps in front of it in a state that it can deal with. -/
theorem Ready.beforeBlock {pools : Pools} {passed body : Block} {cursor : Cursor} {site : Site}
    {rest : Site → Segment}
    (ready : Ready passed cursor site
      (Assembly.block body (Assembly.entries pools body) site rest)) :
    ∃ base, cursor.beforeBlock = .ok base := by
  by_cases chain : setting cursor.owner = .arm ∨ setting cursor.owner = .last
  · exact ⟨cursor, beforeBlock_of_chain chain⟩
  · have accepts : cursor.Accepts site.start site.start := by
      have accepts := ready.accepts
      simp only [Assembly.block, ready.owner] at accepts
      cases kind : setting cursor.owner with
      | arm => simp [kind] at chain
      | last => simp [kind] at chain
      | loop | method | free =>
        simp only [kind] at accepts
        exact accepts
    rw [ready.start] at accepts
    obtain ⟨base, resolved⟩ := Cursor.resolve_of_accepts accepts
    exact ⟨base, beforeBlock_of_resolve chain resolved⟩

/-- The compiler accepts every block whose segment is valid and whose clauses stand behind
conditions. -/
theorem accepted (pools : Pools) (block : Block) : Accepted pools block := by
  induction block using Block.induction with
  | nil =>
    intro passed cursor site ready valid clauses
    have closed := ready.closed rfl
    have accepts : cursor.Accepts site.start site.start := ready.accepts
    rw [ready.start] at accepts
    obtain ⟨last, resolved⟩ := Cursor.resolve_of_accepts accepts
    obtain ⟨-, -, -, same, -, -⟩ := Cursor.resolve_ok resolved
    exact ⟨last.draft, by simp [entries, resolved], same.trans closed⟩
  | statement operation rest ih =>
    intro passed cursor site ready valid clauses
    simp only [Assembly.entries, Assembly.entry] at ready valid
    obtain ⟨base, resolved⟩ := ready.base clauses.1
    obtain ⟨⟨known, fits⟩, follows⟩ := valid
    obtain ⟨own, known⟩ := Option.isSome_iff_exists.mp known
    have closed : base.draft.openMethod = none :=
      (statementBase_open resolved).trans (ready.closed rfl)
    have marks := (marked_facts operation base).2.2.trans closed
    obtain ⟨draft, compiled⟩ := statement_of_known known marks
    simp only [Assembly.statement, known, Option.getD_some] at ready fits follows
    have next := ready.after resolved known compiled fits
    obtain ⟨after, tail, ends⟩ := ih next follows clauses.2
    refine ⟨after, ?_, ends⟩
    rw [entries, statement_of_ok resolved compiled]
    exact tail
  | block body rest inner later =>
    intro passed cursor site ready valid clauses
    simp only [Assembly.entries, Assembly.entry] at ready valid
    obtain ⟨base, before⟩ := ready.beforeBlock
    have passes : Passes pools passed body base (Assembly.entries pools rest) := by
      simp only [Assembly.block, ready.owner] at ready valid
      cases kind : setting cursor.owner with
      | loop condition =>
        simp only [kind] at ready valid
        exact loop_accepted inner clauses.1 before (setting_eq_loop kind) ready valid
      | method =>
        simp only [kind] at ready valid
        obtain ⟨start, owner⟩ := setting_eq_method kind
        exact method_accepted inner clauses.1 before owner ready valid
      | arm =>
        simp only [kind] at ready valid
        exact arm_accepted inner clauses.1 before kind ready valid
      | last =>
        simp only [kind] at ready valid
        exact nested_accepted inner clauses.1 before true kind ready valid
      | free =>
        simp only [kind] at ready valid
        exact nested_accepted inner clauses.1 before false kind ready valid
    obtain ⟨after, next, enclosed, follows, ready⟩ := passes
    obtain ⟨last, tail, ends⟩ := later ready follows clauses.2
    refine ⟨last, ?_, ends⟩
    rw [entries, block_of_enclosed before enclosed]
    exact tail

end Compile

/-! ## Programs that are accepted -/

/-- Every reference in the code of the program has room for its target: the run of instructions
reserved at its offset holds one extension more than the offset itself needs. References back to the
condition of a loop have room in any case. -/
def Program.Roomy (program : Program) : Prop :=
  ∀ offset cell, Assembly.Stands (Assembly.image program) offset cell →
    cell.command.opcode.refersToCode = true →
    extensionCount cell.command.operand ≤ extensionCount offset + 1

/-- The segment of a program is valid exactly if its statements have commands, its definitions have
bodies and its code has room. -/
theorem Program.valid_iff (program : Program) :
    (Assembly.program program).valid ↔
      Block.Each (fun _ => Assembly.Complete (Pools.ofProgram program)) [] program.main
        ∧ program.Roomy := by
  have start : Assembly.Site.Grounded {} := Assembly.Site.grounded_free rfl
  have segment := Assembly.valid_iff (Pools.sound_ofProgram program) program.main start []
  have room : program.Roomy ↔ Assembly.Roomy 0 (Assembly.program program).cells := by
    have ends : Assembly.Roomy 0 (Assembly.image program)
        ↔ Assembly.Roomy 0 (Assembly.program program).cells := by
      rw [Assembly.image, Assembly.roomy_append]
      exact and_iff_left (Assembly.roomy_bare rfl)
    rw [← ends, Assembly.roomy_iff_stands]
    refine forall_congr' fun offset => forall_congr' fun cell => forall_congr' fun _ =>
      forall_congr' fun _ => ?_
    simp only [Assembly.Fits, placeholderWidth, Nat.zero_add]
    omega
  rw [room]
  exact segment

/-- A program follows the grammar exactly if its statements have commands over its pools, its
definitions have bodies and its clauses stand behind conditions. -/
theorem Program.grammatical_iff_complete (program : Program) :
    program.Grammatical ↔
      Block.Each (fun _ => Assembly.Complete (Pools.ofProgram program)) [] program.main
        ∧ Block.Each Compile.Clause [] program.main := by
  have plain := Pools.plain_ofProgram program
  have covers := Pools.covers_addBlock {} [] program.main
  rw [Program.grammatical_iff]
  constructor
  · intro each
    refine ⟨(each.and covers).mono fun both => ?_, each.mono fun allowed continues => ?_⟩
    · exact ⟨(Assembly.statement?_isSome_iff plain both.2).mpr both.1.formed, both.1.definition⟩
    · exact allowed.clause ((Kind.continuesIfChain_iff _).mp continues)
  · rintro ⟨complete, clauses⟩
    refine ((complete.and clauses).and covers).mono fun all => ?_
    obtain ⟨⟨⟨known, body⟩, clause⟩, covers⟩ := all
    exact
      { formed := (Assembly.statement?_isSome_iff plain covers).mp known
        clause := fun kind => clause ((Kind.continuesIfChain_iff _).mpr kind)
        definition := body }

/-- A program is accepted if its segment is valid and its clauses stand behind conditions. -/
theorem Program.accepted_of_valid {program : Program} (valid : (Assembly.program program).valid)
    (clauses : Block.Each Compile.Clause [] program.main) :
    ∃ compiled, program.compile = .ok compiled := by
  have ready : Compile.Ready [] { draft := {} } {} (Assembly.program program) :=
    Compile.ready_clear rfl rfl rfl
  obtain ⟨draft, entries, closed⟩ := Compile.accepted _ program.main ready valid clauses
  refine ⟨⟨(draft.emit .return 0).code, Pools.ofProgram program⟩, ?_⟩
  simp only [Program.compile, Compile.block, entries, bind, Except.bind, closed]

/-- The compiler accepts exactly the programs of the grammar whose code has room for its targets. -/
theorem Program.compile_ok_iff_grammatical (program : Program) :
    (∃ compiled, program.compile = .ok compiled) ↔ program.Grammatical ∧ program.Roomy := by
  rw [Program.grammatical_iff_complete]
  constructor
  · rintro ⟨compiled, accepted⟩
    obtain ⟨-, -, -, valid⟩ := Program.compile_ok accepted
    obtain ⟨complete, room⟩ := program.valid_iff.mp valid
    obtain ⟨draft, entries, -⟩ := Compile.bind_ok accepted
    have clauses := Compile.clauses_of_compiled program.main entries (Compile.tracks_clear {})
    exact ⟨⟨complete, clauses⟩, room⟩
  · rintro ⟨⟨complete, clauses⟩, room⟩
    exact Program.accepted_of_valid (program.valid_iff.mpr ⟨complete, room⟩) clauses

end ScopeMachine
