import ScopeMachine.Proofs.Assembly.Layout
import ScopeMachine.Proofs.Assembly.Patching

set_option autoImplicit false

/-!
# Code of statements

What the compiler does at a statement or a block, and the finished code of statements. Every
placeholder gets the target that the segment of the entries behind it offers, so the code can be
read as if it had been written from left to right with all targets known.
-/

namespace ScopeMachine

namespace Compile

open Assembly (Segment Site role setting)

/-! ## Steps of the compiler -/

/-- The cursor in front of a statement: a clause takes over the branch before it, and any other
statement resolves all jumps. -/
def statementBase (operation : Operation) (cursor : Cursor) : Except CompileError Cursor :=
  if operation.kind.continuesIfChain then cursor.resolveClause operation.kind operation.line
  else cursor.resolve

def statementEnd (operation : Operation) (base : Cursor) (draft : Draft) : Cursor :=
  let owner := some (operation.kind, base.draft.list.length)
  match role operation.kind with
  | .condition =>
    { draft := draft.reserve.2, jumps := base.jumps.addBranch draft.reserve.1, owner }
  | .bare => { draft, jumps := base.jumps, owner }
  | .definition | .plain => { draft := draft.assemble [⟨.endStatement, 0⟩], jumps := base.jumps, owner }

/-- The draft of a statement's operation: the line table knows its start. -/
def marked (operation : Operation) (base : Cursor) : Draft :=
  { base.draft with code := base.draft.code.mark base.draft.list.length operation.line }

theorem statement_ok {pools : Pools} {operation : Operation} {cursor after : Cursor}
    (compiled : cursor.statement pools operation = .ok after) :
    ∃ base draft, statementBase operation cursor = .ok base
      ∧ Compile.operation pools .value operation (marked operation base) = .ok draft
      ∧ after = statementEnd operation base draft := by
  obtain ⟨⟨⟨code, openMethod⟩, jumps, owner⟩, resolved, compiled⟩ := bind_ok compiled
  obtain ⟨draft, own, compiled⟩ := bind_ok compiled
  refine ⟨_, draft, resolved, own, ?_⟩
  cases compiled
  obtain ⟨kind, operands, value, line⟩ := operation
  cases kind <;> simp [statementEnd, role, Kind.isConditionalJump, Kind.isIfConditional,
    Cursor.branch, Draft.simple_eq_assemble, Draft.reserve_eq, Draft.list, Code.size]

/-- What the compiler does with a block, once the jumps in front of it are taken care of. -/
inductive Enclosed (pools : Pools) (body : Block) (base : Cursor) : Cursor → Prop
  | loop {start : Nat} {inner last : Draft} (owner : base.owner = some (.while, start))
    (compiled : entries pools body
      ⟨base.draft.reserve.2.assemble [⟨.enterLocal, 0⟩], {}, none⟩ = .ok inner)
    (patched : (inner.assemble [⟨.leaveLocal, 0⟩, ⟨.jump, start⟩]).patch base.draft.reserve.1
      .jumpIfFalse (inner.assemble [⟨.leaveLocal, 0⟩, ⟨.jump, start⟩]).size = .ok last) :
    Enclosed pools body base ⟨last, base.jumps, none⟩
  | method {start line : Nat} {place : Placeholder} {code : Code} {inner last : Draft}
    (owner : base.owner = some (.defineMethod, start))
    (waits : base.draft.openMethod = some (place, line))
    (placed : base.draft.reserve.2.code.patch place .bindSection base.draft.reserve.2.size
      = .ok code)
    (compiled : entries pools body ⟨⟨code, none⟩, {}, none⟩ = .ok inner)
    (patched : (inner.assemble [⟨.return, 0⟩]).patch base.draft.reserve.1 .jump
      (inner.assemble [⟨.return, 0⟩]).size = .ok last) :
    Enclosed pools body base ⟨last, base.jumps, none⟩
  | arm {inner : Draft} (owner : setting base.owner = .arm)
    (compiled : entries pools body ⟨base.draft.assemble [⟨.enterLocal, 0⟩], {}, none⟩ = .ok inner) :
    Enclosed pools body base
      ⟨(inner.assemble [⟨.leaveLocal, 0⟩]).reserve.2,
        base.jumps.addExit (inner.assemble [⟨.leaveLocal, 0⟩]).reserve.1, none⟩
  | nested {inner : Draft} (owner : setting base.owner = .last ∨ setting base.owner = .free)
    (compiled : entries pools body ⟨base.draft.assemble [⟨.enterLocal, 0⟩], {}, none⟩ = .ok inner) :
    Enclosed pools body base ⟨inner.assemble [⟨.leaveLocal, 0⟩], base.jumps, none⟩

private theorem beginMethod_ok {draft after : Draft} {skip : Placeholder}
    (begun : draft.beginMethod = .ok (skip, after)) :
    ∃ place line code, draft.openMethod = some (place, line)
      ∧ draft.reserve.2.code.patch place .bindSection draft.reserve.2.size = .ok code
      ∧ skip = draft.reserve.1 ∧ after = ⟨code, none⟩ := by
  obtain ⟨code, openMethod⟩ := draft
  cases openMethod with
  | none => cases begun
  | some waiting =>
    obtain ⟨place, line⟩ := waiting
    rcases reserved : code.reserve with ⟨placeholder, room⟩
    cases patched : room.patch place .bindSection room.size with
    | error => simp [Draft.beginMethod, reserved, patched] at begun
    | ok final =>
      simp only [Draft.beginMethod, reserved, patched, Except.ok.injEq, Prod.mk.injEq] at begun
      obtain ⟨rfl, rfl⟩ := begun
      exact ⟨place, line, final, rfl, by simpa [Draft.reserve, reserved, Draft.size] using patched,
        by simp [Draft.reserve, reserved], rfl⟩

theorem block_ok {pools : Pools} {body : Block} {cursor after : Cursor}
    (compiled : entry pools (.block body) cursor = .ok after) :
    ∃ base, cursor.beforeBlock = .ok base ∧ Enclosed pools body base after := by
  obtain ⟨⟨draft, jumps, owner⟩, before, compiled⟩ := bind_ok compiled
  refine ⟨_, before, ?_⟩
  dsimp only at compiled
  split at compiled
  case h_1 start =>
    obtain ⟨inner, inside, compiled⟩ := bind_ok compiled
    obtain ⟨last, patched, compiled⟩ := bind_ok compiled
    cases compiled
    simp only [Draft.simple_eq_assemble, Draft.emit_eq_assemble, Draft.assemble_assemble]
      at inside patched
    exact .loop rfl inside patched
  case h_2 start =>
    obtain ⟨⟨skip, middle⟩, begun, compiled⟩ := bind_ok compiled
    obtain ⟨place, line, code, waits, placed, rfl, rfl⟩ := beginMethod_ok begun
    obtain ⟨inner, inside, compiled⟩ := bind_ok compiled
    obtain ⟨last, patched, compiled⟩ := bind_ok compiled
    cases compiled
    simp only [Draft.emit_eq_assemble] at patched
    exact .method rfl waits placed inside patched
  case h_3 loops defines =>
    obtain ⟨inner, inside, compiled⟩ := bind_ok compiled
    simp only [Draft.simple_eq_assemble] at inside compiled
    split at compiled
    case h_1 =>
      cases compiled
      exact .arm rfl inside
    case h_2 =>
      cases compiled
      exact .arm rfl inside
    case h_3 last others =>
      cases compiled
      refine .nested ?_ inside
      match owner with
      | none => exact .inr rfl
      | some (kind, start) => cases kind <;> simp_all [setting]

/-! ## Open drafts -/

theorem statementBase_open {operation : Operation} {cursor base : Cursor}
    (resolved : statementBase operation cursor = .ok base) :
    base.draft.openMethod = cursor.draft.openMethod := by
  unfold statementBase at resolved
  split at resolved
  · obtain ⟨_, -, -, -, -, same, -⟩ := Cursor.resolveClause_ok resolved
    exact same
  · obtain ⟨-, -, -, same, -, -⟩ := Cursor.resolve_ok resolved
    exact same

/-- Getting ready for a block resolves all jumps, unless it is an arm of a chain. -/
theorem beforeBlock_ok {cursor base : Cursor} (before : cursor.beforeBlock = .ok base) :
    base = cursor ∧ (setting cursor.owner = .arm ∨ setting cursor.owner = .last)
      ∨ cursor.resolve = .ok base
        ∧ setting cursor.owner ≠ .arm ∧ setting cursor.owner ≠ .last := by
  obtain ⟨draft, jumps, owner⟩ := cursor
  match owner with
  | none => exact .inr ⟨before, by simp [setting], by simp [setting]⟩
  | some (kind, start) => cases kind <;>
      simp_all [Cursor.beforeBlock, Kind.isIfChain, setting, eq_comm]

theorem beforeBlock_same {cursor base : Cursor} (before : cursor.beforeBlock = .ok base) :
    base.draft.openMethod = cursor.draft.openMethod ∧ base.owner = cursor.owner := by
  obtain ⟨rfl, -⟩ | ⟨resolved, -⟩ := beforeBlock_ok before
  · exact ⟨rfl, rfl⟩
  · obtain ⟨-, -, -, same, -, owner⟩ := Cursor.resolve_ok resolved
    exact ⟨same, owner⟩

theorem openMethod_statementEnd (operation : Operation) (base : Cursor) (draft : Draft) :
    (statementEnd operation base draft).draft.openMethod = draft.openMethod := by
  unfold statementEnd
  cases role operation.kind <;> rfl

theorem owner_statementEnd (operation : Operation) (base : Cursor) (draft : Draft) :
    (statementEnd operation base draft).owner = some (operation.kind, base.draft.list.length) := by
  unfold statementEnd
  cases role operation.kind <;> rfl

theorem setting_eq_method {owner : Option (Kind × Nat)} (body : setting owner = .method) :
    ∃ start, owner = some (.defineMethod, start) := by
  match owner with
  | none => cases body
  | some (kind, start) => cases kind <;> first | exact ⟨start, rfl⟩ | cases body

/-- Only the body of a definition closes a draft that waits for one. -/
theorem entries_open {pools : Pools} (block : Block) {cursor : Cursor} {after : Draft}
    (compiled : entries pools block cursor = .ok after)
    (waits : cursor.draft.openMethod.isSome) (other : setting cursor.owner ≠ .method) :
    after.openMethod.isSome := by
  induction block using Block.induction generalizing cursor after with
  | nil =>
    unfold entries at compiled
    cases resolved : cursor.resolve with
    | error => simp [resolved] at compiled
    | ok last =>
      simp only [resolved, Except.ok.injEq] at compiled
      subst compiled
      obtain ⟨-, -, -, same, -, -⟩ := Cursor.resolve_ok resolved
      rwa [same]
  | statement operation rest ih =>
    obtain ⟨middle, head, tail⟩ := bind_ok compiled
    obtain ⟨base, draft, resolved, own, rfl⟩ := statement_ok head
    have same := statementBase_open resolved
    refine ih tail ?_ ?_
    · rw [openMethod_statementEnd]
      exact (operation_assembled operation own).open_of_open (by simpa [marked, same] using waits)
    · rw [owner_statementEnd]
      intro method
      obtain ⟨start, owner⟩ := setting_eq_method method
      obtain ⟨-, -, closed, -⟩ :=
        definition_assembled (congrArg Prod.fst (Option.some.inj owner)) own
      simp [← same, marked] at closed waits
      simp [closed] at waits
  | block body rest inner later =>
    obtain ⟨middle, head, tail⟩ := bind_ok compiled
    obtain ⟨base, before, enclosed⟩ := block_ok head
    obtain ⟨same, owner⟩ := beforeBlock_same before
    rw [← same] at waits
    cases enclosed with
    | loop _ compiled patched =>
      obtain ⟨-, -, -, kept⟩ := Draft.patch_ok patched
      have stays := inner compiled waits (by simp [setting])
      exact later tail (by simpa [kept] using stays) (by simp [setting])
    | method owner' => simp [← owner, owner', setting] at other
    | arm _ compiled =>
      have stays := inner compiled waits (by simp [setting])
      exact later tail (by simpa [Draft.reserve_eq] using stays) (by simp [setting])
    | nested _ compiled =>
      have stays := inner compiled waits (by simp [setting])
      exact later tail (by simpa using stays) (by simp [setting])

/-! ## Pending jumps and appended code -/

/-- Placeholders lie within the code, at most one false branch waits, and it lies apart from the
exits. -/
structure Sound (cursor : Cursor) : Prop where
  exits : ∀ placeholder ∈ cursor.jumps.exits.toList, placeholder.Inside cursor.draft.list.length
  branches :
    ∀ placeholder ∈ cursor.jumps.branches.toList, placeholder.Inside cursor.draft.list.length
  method : ∀ place line, cursor.draft.openMethod = some (place, line) →
    place.Inside cursor.draft.list.length
  single : cursor.jumps.branches.size ≤ 1
  apart : ∀ branch ∈ cursor.jumps.branches.toList, ∀ exit ∈ cursor.jumps.exits.toList,
    branch.Apart exit

theorem sound_clear {draft : Draft} {owner : Option (Kind × Nat)}
    (method : ∀ place line, draft.openMethod = some (place, line) →
      place.Inside draft.list.length) : Sound ⟨draft, {}, owner⟩ :=
  ⟨by simp, by simp, method, by simp, by simp⟩

theorem length_settled (cursor : Cursor) (exit branch : Nat) :
    (cursor.settled exit branch).length = cursor.draft.list.length := by
  simp [Cursor.settled]

theorem accepts_congr {first second : Cursor} {exit branch : Nat}
    (accepts : first.Accepts exit branch) (jumps : first.jumps = second.jumps) :
    second.Accepts exit branch :=
  ⟨jumps ▸ accepts.exits, jumps ▸ accepts.branches⟩

/-- Code that was added behind the placeholders is not changed by filling them. -/
theorem settled_append {cursor : Cursor} {longer : Draft} {more : List Instruction}
    {owner : Option (Kind × Nat)} {exit branch : Nat} (sound : Sound cursor)
    (accepts : cursor.Accepts exit branch) (list : longer.list = cursor.draft.list ++ more) :
    Cursor.settled ⟨longer, cursor.jumps, owner⟩ exit branch
      = cursor.settled exit branch ++ more := by
  unfold Cursor.settled
  rw [list, filledAll_append more sound.exits accepts.exits,
    filledAll_append more (by simpa using sound.branches) accepts.branches]

theorem Sound.longer {cursor : Cursor} {longer : Draft} {more : List Instruction}
    {owner : Option (Kind × Nat)} (sound : Sound cursor)
    (list : longer.list = cursor.draft.list ++ more) (closed : longer.openMethod = none) :
    Sound ⟨longer, cursor.jumps, owner⟩ :=
  have le : cursor.draft.list.length ≤ longer.list.length := by simp [list]
  { exits := fun placeholder member => (sound.exits placeholder member).mono le
    branches := fun placeholder member => (sound.branches placeholder member).mono le
    method := by simp [closed]
    single := sound.single
    apart := sound.apart }

/-- A new false branch becomes a jump at the end of the code. -/
theorem settled_branch {draft : Draft} {jumps : PendingJumps} {owner : Option (Kind × Nat)}
    {exit branch : Nat} (sound : Sound ⟨draft, jumps, owner⟩) (alone : jumps.branches = #[])
    (accepts : Cursor.Accepts ⟨draft.reserve.2, jumps.addBranch draft.reserve.1, owner⟩ exit branch) :
    Assembly.Fits branch draft.list.length ∧ Cursor.Accepts ⟨draft, jumps, owner⟩ exit branch
      ∧ Cursor.settled ⟨draft.reserve.2, jumps.addBranch draft.reserve.1, owner⟩ exit branch
        = Cursor.settled ⟨draft, jumps, owner⟩ exit branch
          ++ (Assembly.hole .jumpIfFalse branch draft.list.length).flatMap Command.slots := by
  have exits : ∀ placeholder ∈ jumps.exits.toList, placeholder.holds exit := accepts.exits
  have fits : Assembly.Fits branch draft.list.length := by
    have holds := accepts.branches draft.reserve.1 (by simp [PendingJumps.addBranch])
    exact (Placeholder.holds_iff _ _).mp holds
  refine ⟨fits, ⟨exits, by simp [alone]⟩, ?_⟩
  unfold Cursor.settled
  simp only [PendingJumps.addBranch, alone, Draft.reserve_eq, Draft.list_append]
  rw [filledAll_append _ sound.exits exits]
  exact filled_reserved .jumpIfFalse (length_filledAll ..) fits

theorem Sound.exit {draft : Draft} {jumps : PendingJumps} {owner : Option (Kind × Nat)}
    (sound : Sound ⟨draft, jumps, owner⟩) :
    Sound ⟨draft.reserve.2, jumps.addExit draft.reserve.1, owner⟩ := by
  simp only [Draft.reserve_eq, PendingJumps.addExit]
  exact
    { exits := fun placeholder member => by
        simp only [Array.toList_push, List.mem_append, List.mem_singleton] at member
        obtain old | rfl := member
        · exact (sound.exits placeholder old).mono (by simp)
        · simp [Placeholder.Inside]
      branches := fun placeholder member => (sound.branches placeholder member).mono (by simp)
      method := fun place line waits => (sound.method place line waits).mono (by simp)
      single := sound.single
      apart := fun branch member exit exitMember => by
        simp only [Array.toList_push, List.mem_append, List.mem_singleton] at exitMember
        obtain old | rfl := exitMember
        · exact sound.apart branch member exit old
        · exact .inl (sound.branches branch member) }

/-- A new exit becomes a jump at the end of the code. -/
theorem settled_exit {draft : Draft} {jumps : PendingJumps} {owner : Option (Kind × Nat)}
    {exit branch : Nat} (sound : Sound ⟨draft, jumps, owner⟩)
    (accepts : Cursor.Accepts ⟨draft.reserve.2, jumps.addExit draft.reserve.1, owner⟩ exit branch) :
    Assembly.Fits exit draft.list.length ∧ Cursor.Accepts ⟨draft, jumps, owner⟩ exit branch
      ∧ Cursor.settled ⟨draft.reserve.2, jumps.addExit draft.reserve.1, owner⟩ exit branch
        = Cursor.settled ⟨draft, jumps, owner⟩ exit branch
          ++ (Assembly.hole .jump exit draft.list.length).flatMap Command.slots := by
  have exits : ∀ placeholder ∈ jumps.exits.toList, placeholder.holds exit := fun other member =>
    accepts.exits other (by simp_all [PendingJumps.addExit])
  have branches : ∀ placeholder ∈ jumps.branches.toList, placeholder.holds branch :=
    accepts.branches
  have fits : Assembly.Fits exit draft.list.length := by
    have holds := accepts.exits draft.reserve.1 (by simp [PendingJumps.addExit])
    exact (Placeholder.holds_iff _ _).mp holds
  refine ⟨fits, ⟨exits, branches⟩, ?_⟩
  unfold Cursor.settled
  simp only [PendingJumps.addExit, Draft.reserve_eq, Draft.list_append, Array.toList_push,
    filledAll_concat]
  rw [filledAll_append _ sound.exits exits,
    filled_reserved .jump (length_filledAll ..) fits,
    filledAll_append _ (by simpa using sound.branches) branches]

/-! ## The finished code -/

/-- The code once all that waits in front of a segment has got its target. -/
def finished (cursor : Cursor) (segment : Segment) : List Instruction :=
  let list := cursor.settled segment.exit segment.branch
  match cursor.draft.openMethod with
  | none => list
  | some (place, _) => filled .bindSection segment.body list place

/-- A cursor was brought to an end by adding a segment. -/
structure Finishes (cursor : Cursor) (segment : Segment) (after : Draft) : Prop where
  valid : segment.valid
  accepts : cursor.Accepts segment.exit segment.branch
  method : ∀ place line, cursor.draft.openMethod = some (place, line) →
    place.holds segment.body ∧ segment.body ≠ 0
  list : after.list = finished cursor segment ++ Assembly.slots segment.cells
  marks : after.marks = cursor.draft.marks ++ segment.marks

theorem eq_singleton_of_back? {placeholders : Array Placeholder} {placeholder : Placeholder}
    (single : placeholders.size ≤ 1) (latest : placeholders.back? = some placeholder) :
    placeholders = #[placeholder] := by
  obtain ⟨list⟩ := placeholders
  match list with
  | [] => simp at latest
  | [_] => simpa using latest
  | _ :: _ :: _ => simp at single

/-- In front of a statement no false branch waits any more. Exits wait on behind a clause that
continues their chain; otherwise the statement is their target. -/
theorem statementBase_settled {operation : Operation} {cursor base : Cursor} (sound : Sound cursor)
    (resolved : statementBase operation cursor = .ok base) :
    base.draft.list.length = cursor.draft.list.length
      ∧ base.draft.marks = cursor.draft.marks
      ∧ base.jumps.branches = #[] ∧ Sound base
      ∧ ∀ {exit branch}, base.Accepts exit branch →
        cursor.Accepts (if operation.kind.continuesIfChain then exit else cursor.draft.list.length)
            cursor.draft.list.length
          ∧ base.settled exit branch = cursor.settled
            (if operation.kind.continuesIfChain then exit else cursor.draft.list.length)
            cursor.draft.list.length := by
  unfold statementBase at resolved
  split at resolved
  case isTrue continues =>
    obtain ⟨placeholder, latest, holds, list, marks, same, jumps⟩ :=
      Cursor.resolveClause_ok resolved
    have only := eq_singleton_of_back? sound.single latest
    have length : base.draft.list.length = cursor.draft.list.length := by simp [list, filled]
    refine ⟨length, marks, by simp [jumps, only], ?_, ?_⟩
    · exact
        { exits := by simpa [jumps, length] using sound.exits
          branches := by simp [jumps, only]
          method := by simpa [same, length] using sound.method
          single := by simp [jumps, only]
          apart := by simp [jumps, only] }
    · intro exit branch accepts
      have exits : ∀ placeholder ∈ cursor.jumps.exits.toList, placeholder.holds exit := by
        simpa [jumps] using accepts.exits
      rw [if_pos continues]
      refine ⟨⟨exits, by simpa [only] using holds⟩, ?_⟩
      have none : base.jumps.branches.toList = [] := by simp [jumps, only]
      have kept : base.jumps.exits = cursor.jumps.exits := by simp [jumps]
      unfold Cursor.settled
      rw [none, kept, list, only]
      exact filledAll_filled (sound.apart placeholder (by simp [only])) exits holds
  case isFalse ends =>
    obtain ⟨accepts, list, marks, same, jumps, owner⟩ := Cursor.resolve_ok resolved
    have length : base.draft.list.length = cursor.draft.list.length := by
      rw [list, length_settled]
    refine ⟨length, marks, by simp [jumps], ?_, ?_⟩
    · exact
        { exits := by simp [jumps]
          branches := by simp [jumps]
          method := by simpa [same, length] using sound.method
          single := by simp [jumps]
          apart := by simp [jumps] }
    · intro exit branch _
      rw [if_neg ends]
      exact ⟨accepts, by simp [Cursor.settled, jumps, list]⟩

/-! ## Statements -/

theorem length_assemble (draft : Draft) (commands : List Command) :
    (draft.assemble commands).list.length = draft.list.length + Assembly.extent commands := by
  rw [Draft.list_assemble, List.length_append, Assembly.length_flatMap_slots]

theorem length_reserve (draft : Draft) :
    draft.reserve.2.list.length = draft.list.length + placeholderWidth draft.list.length := by
  simp [Draft.reserve_eq]

theorem marked_facts (operation : Operation) (base : Cursor) :
    (marked operation base).list = base.draft.list
      ∧ (marked operation base).marks
        = base.draft.marks ++ [⟨base.draft.list.length, operation.line⟩]
      ∧ (marked operation base).openMethod = base.draft.openMethod := by
  simp [marked, Draft.list, Draft.marks, Code.mark]

/-- The draft of a statement that is no definition has its commands, unless it stays open. -/
theorem statement_assembled {pools : Pools} {operation : Operation} {base : Cursor} {draft : Draft}
    (compiled : Compile.operation pools .value operation (marked operation base) = .ok draft)
    (other : role operation.kind ≠ .definition) (closed : draft.openMethod = none) :
    base.draft.openMethod = none ∧ ∃ own, Assembly.statement? pools operation = some own
      ∧ draft = (marked operation base).assemble own := by
  obtain opened | ⟨own, known, rfl⟩ := operation_assembled operation compiled
  · simp [closed] at opened
  · refine ⟨closed, own, ?_, rfl⟩
    unfold Assembly.statement?
    split
    · contradiction
    · exact known

theorem sound_statementEnd {operation : Operation} {base : Cursor} {draft : Draft}
    (sound : Sound base) (alone : base.jumps.branches = #[])
    (longer : base.draft.list.length ≤ draft.list.length)
    (method : ∀ place line, draft.openMethod = some (place, line) →
      place.Inside draft.list.length) :
    Sound (statementEnd operation base draft) := by
  have exits : ∀ placeholder ∈ base.jumps.exits.toList, placeholder.Inside draft.list.length :=
    fun placeholder member => (sound.exits placeholder member).mono longer
  unfold statementEnd
  cases role operation.kind with
  | condition =>
    simp only [Draft.reserve_eq, PendingJumps.addBranch, alone]
    exact
      { exits := fun placeholder member => (exits placeholder member).mono (by simp)
        branches := by simp [Placeholder.Inside]
        method := fun place line waits => (method place line waits).mono (by simp)
        single := by simp
        apart := fun branch member exit exitMember => by
          have inside := exits exit exitMember
          simp at member
          subst member
          exact .inr inside }
  | bare =>
    exact
      { exits, method
        branches := by simp [alone]
        single := by simp [alone]
        apart := by simp [alone] }
  | definition | plain =>
    exact
      { exits := fun placeholder member => (exits placeholder member).mono (by simp)
        branches := by simp [alone]
        method := fun place line waits => (method place line waits).mono (by simp)
        single := by simp [alone]
        apart := by simp [alone] }

/-- Puts a statement in front of a segment that finishes the cursor behind it. -/
theorem Finishes.prepend {operation : Operation} {cursor base middle : Cursor} {tail : Segment}
    {after : Draft} {commands : List Command} {site : Site} {valid : Prop}
    (ends : Finishes middle tail after) (sound : Sound cursor)
    (resolved : statementBase operation cursor = .ok base)
    (closed : base.draft.openMethod = none)
    (accepts : base.Accepts tail.exit tail.branch)
    (settles : finished middle tail
      = base.settled tail.exit tail.branch ++ commands.flatMap Command.slots)
    (marks : middle.draft.marks = base.draft.marks ++ [⟨base.draft.list.length, operation.line⟩])
    (start : site.start = cursor.draft.list.length) (holds : valid) :
    Finishes cursor (tail.statement site operation commands valid) after := by
  obtain ⟨length, before, -, -, settled⟩ := statementBase_settled sound resolved
  obtain ⟨accepts, same⟩ := settled accepts
  rw [statementBase_open resolved] at closed
  exact
    { valid := ⟨holds, ends.valid⟩
      accepts := by simpa [Segment.statement, start] using accepts
      method := by simp [closed]
      list := by
        rw [ends.list, settles, same]
        simp [finished, closed, Segment.statement, start]
      marks := by
        rw [ends.marks, marks, before, length]
        simp [Segment.statement, start] }

theorem finished_of_closed {cursor : Cursor} {segment : Segment}
    (closed : cursor.draft.openMethod = none) :
    finished cursor segment = cursor.settled segment.exit segment.branch := by
  simp [finished, closed]

section

variable {pools : Pools} {operation : Operation} {cursor base : Cursor} {draft after : Draft}
  {site : Site} {rest : Site → Segment}

theorem list_marked_assemble (own : List Command) :
    ((marked operation base).assemble own).list
      = base.draft.list ++ own.flatMap Command.slots := by
  rw [Draft.list_assemble, (marked_facts operation base).1]

variable (sound : Sound cursor) (resolved : statementBase operation cursor = .ok base)
  (compiled : Compile.operation pools .value operation (marked operation base) = .ok draft)
  (start : site.start = cursor.draft.list.length)
  (ends : ∀ next : Site, next.start = (statementEnd operation base draft).draft.list.length →
    next.owner = (statementEnd operation base draft).owner →
    Finishes (statementEnd operation base draft) (rest next) after)

include sound resolved compiled start ends

theorem condition_finishes (condition : role operation.kind = .condition)
    (closed : draft.openMethod = none) :
    Finishes cursor (Assembly.statement pools operation site rest) after := by
  obtain ⟨length, -, alone, baseSound, -⟩ := statementBase_settled sound resolved
  obtain ⟨none, own, known, rfl⟩ := statement_assembled compiled (by simp [condition]) closed
  have place : ((marked operation base).assemble own).list.length
      = site.start + Assembly.extent own := by
    rw [length_assemble, (marked_facts operation base).1, start, length]
  simp only [statementEnd, condition] at ends
  simp only [Assembly.statement, condition, Assembly.Role.gap, Assembly.Role.suffix, Assembly.Role.Fits,
    known, Option.getD_some]
  have tail := ends (site.after operation (site.start + Assembly.extent own
      + placeholderWidth (site.start + Assembly.extent own)))
    (by rw [length_reserve, place, Site.after]) (by simp [Site.after, start, length])
  obtain ⟨fits, accepts, settles⟩ := settled_branch
    (baseSound.longer (list_marked_assemble own) closed) alone tail.accepts
  have accepts : base.Accepts _ _ := accepts_congr accepts rfl
  rw [place, settled_append baseSound accepts (list_marked_assemble own), List.append_assoc,
    ← List.flatMap_append] at settles
  rw [place] at fits
  refine tail.prepend sound resolved none accepts ?_ ?_ start ⟨rfl, fits⟩
  · rwa [finished_of_closed (by exact closed)]
  · simp [Draft.reserve_eq, marked_facts operation base]

theorem bare_finishes (bare : role operation.kind = .bare) (closed : draft.openMethod = none) :
    Finishes cursor (Assembly.statement pools operation site rest) after := by
  obtain ⟨length, -, alone, baseSound, -⟩ := statementBase_settled sound resolved
  obtain ⟨none, own, known, rfl⟩ := statement_assembled compiled (by simp [bare]) closed
  simp only [statementEnd, bare] at ends
  simp only [Assembly.statement, bare, Assembly.Role.gap, Assembly.Role.suffix, Assembly.Role.Fits,
    known, Option.getD_some, Nat.add_zero, List.append_nil]
  have tail := ends (site.after operation (site.start + Assembly.extent own))
    (by rw [length_assemble, (marked_facts operation base).1, Site.after, start, length])
    (by simp [Site.after, start, length])
  have accepts : base.Accepts _ _ := accepts_congr tail.accepts rfl
  refine tail.prepend sound resolved none accepts ?_ ?_ start ⟨rfl, trivial⟩
  · rw [finished_of_closed (by exact closed),
      settled_append baseSound accepts (list_marked_assemble _)]
  · simp [marked_facts operation base]

theorem plain_finishes (plain : role operation.kind = .plain) (closed : draft.openMethod = none) :
    Finishes cursor (Assembly.statement pools operation site rest) after := by
  obtain ⟨length, -, alone, baseSound, -⟩ := statementBase_settled sound resolved
  obtain ⟨none, own, known, rfl⟩ := statement_assembled compiled (by simp [plain]) closed
  simp only [statementEnd, plain, Draft.assemble_assemble] at ends
  simp only [Assembly.statement, plain, Assembly.Role.gap, Assembly.Role.suffix, Assembly.Role.Fits,
    known, Option.getD_some]
  have tail := ends (site.after operation (site.start + Assembly.extent own + 1))
    (by
      rw [length_assemble, (marked_facts operation base).1, Site.after, start, length]
      simp [Assembly.extent, Nat.add_assoc])
    (by simp [Site.after, start, length])
  have accepts : base.Accepts _ _ := accepts_congr tail.accepts rfl
  refine tail.prepend sound resolved none accepts ?_ ?_ start ⟨rfl, trivial⟩
  · rw [finished_of_closed (by exact closed),
      settled_append baseSound accepts (list_marked_assemble _)]
  · simp [marked_facts operation base]

theorem definition_finishes (definition : role operation.kind = .definition) :
    Finishes cursor (Assembly.statement pools operation site rest) after := by
  obtain ⟨length, -, alone, baseSound, -⟩ := statementBase_settled sound resolved
  have defines := Assembly.role_eq_definition.mp definition
  obtain ⟨own, known, none, rfl⟩ := definition_assembled defines compiled
  have known : Assembly.statement? pools operation = some own := by
    simp [Assembly.statement?, definition, known]
  have place : ((marked operation base).assemble own).list.length
      = site.start + Assembly.extent own := by
    rw [length_assemble, (marked_facts operation base).1, start, length]
  rw [(marked_facts operation base).2.2] at none
  simp only [statementEnd, definition] at ends
  simp only [Assembly.statement, definition, Assembly.Role.gap, Assembly.Role.suffix, Assembly.Role.Fits,
    known, Option.getD_some]
  generalize middle : (Draft.assemble _ [⟨.endStatement, 0⟩] : Draft) = last at ends
  have list : last.list = ((marked operation base).assemble own).list
      ++ (List.replicate (placeholderWidth (site.start + Assembly.extent own)) { opcode := .nop }
        ++ [{ opcode := .assign }, { opcode := .endStatement }]) := by
    subst middle
    rw [← place]
    simp [Draft.list, Draft.assemble, Draft.append, Code.reserve, Code.push, Command.slots,
      Code.size_eq_length]
  have waits : last.openMethod = some (⟨site.start + Assembly.extent own,
      placeholderWidth (site.start + Assembly.extent own)⟩, operation.line) := by
    subst middle
    rw [← place]
    rfl
  have marks : last.marks = base.draft.marks ++ [⟨base.draft.list.length, operation.line⟩] := by
    subst middle
    rw [← (marked_facts operation base).2.1]
    simp [Draft.marks, Draft.assemble, Draft.append, Code.reserve, Code.push]
  have tail := ends (site.after operation (site.start + Assembly.extent own
      + placeholderWidth (site.start + Assembly.extent own) + 2))
    (by
      rw [list, List.length_append, place]
      simp [Site.after, Nat.add_assoc])
    (by simp [Site.after, start, length])
  generalize rest (site.after operation _) = segment at tail ⊢
  have accepts : base.Accepts segment.exit segment.branch := accepts_congr tail.accepts rfl
  obtain ⟨holds, bound⟩ := tail.method _ _ waits
  have fits : Assembly.Fits segment.body (site.start + Assembly.extent own) :=
    (Placeholder.holds_iff _ _).mp holds
  refine tail.prepend sound resolved none accepts ?_ marks start ⟨rfl, fits, bound⟩
  have size : (base.settled segment.exit segment.branch ++ own.flatMap Command.slots).length
      = site.start + Assembly.extent own := by
    rw [List.length_append, length_settled, length, ← start, Assembly.length_flatMap_slots]
  simp only [finished, waits]
  rw [list_marked_assemble, List.append_assoc] at list
  rw [settled_append baseSound accepts list, ← List.append_assoc,
    filled_reserved_append .bindSection _ size fits]
  simp [Command.slots]

end

end Compile

end ScopeMachine
