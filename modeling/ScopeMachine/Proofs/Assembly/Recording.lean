import ScopeMachine.Proofs.Assembly.Statements

set_option autoImplicit false

/-!
# Compilation on record

The compiler once more, with a record of every placeholder that it reserves and fills. Without the
record it is the compiler itself.
-/

namespace ScopeMachine

/-- What happens to a placeholder while code is written. -/
inductive Event where
  | reserved (placeholder : Placeholder)
  | patched (placeholder : Placeholder)
deriving DecidableEq, Repr

/-- Code is written, or refused, and the events so far are kept in order. -/
abbrev Recorder := StateT (List Event) (Except CompileError)

namespace Recorder

def note (event : Event) : Recorder Unit :=
  modify (· ++ [event])

/-! ## Placeholders -/

def reserve (draft : Draft) : Recorder (Placeholder × Draft) := do
  note (.reserved draft.reserve.1)
  return draft.reserve

def patch (draft : Draft) (placeholder : Placeholder) (opcode : Opcode) (target : Nat) :
    Recorder Draft := do
  let draft ← draft.patch placeholder opcode target
  note (.patched placeholder)
  return draft

def patchAll (opcode : Opcode) (target : Nat) : List Placeholder → Draft → Recorder Draft
  | [], draft => return draft
  | placeholder :: rest, draft => do
    let draft ← patch draft placeholder opcode target
    patchAll opcode target rest draft

/-! ## Operations -/

def method (draft : Draft) (count line : Nat) : Recorder Draft :=
  match draft.openMethod with
  | some (_, line) => throw (.missingMethodBody line)
  | none => do
    let placed ← reserve (draft.emit .defineMethod count)
    return { placed.2.simple .assign with openMethod := some (placed.1, line) }

mutual

def operation (pools : Pools) (usage : Usage) : Operation → Draft → Recorder Draft
  | ⟨.ref, _, value, line⟩, draft => draft.leaf pools usage value line
  | ⟨.scopeResolution, [single], _, _⟩, draft => operation pools usage single draft
  | ⟨.scopeResolution, [target, member], _, _⟩, draft => do
    let draft ← operation pools .value target draft
    let index ← pools.memberIndex member
    return draft.member usage index
  | ⟨.assign, [target, value], _, _⟩, draft => do
    let draft ← operation pools .target target draft
    let draft ← operation pools .value value draft
    return draft.simple .assign
  | ⟨.defineMethod, [target], _, line⟩, draft => do
    let draft ← operation pools .target target draft
    method draft 0 line
  | ⟨.defineMethod, [target, list], _, line⟩, draft => do
    let draft ← operation pools .target target draft
    let draft ← Draft.parameters pools list.parameterList draft
    method draft list.parameterList.length line
  | ⟨.evaluate, [caller, method], _, _⟩, draft => do
    let found ← pools.methodIndex method
    let draft ← (if caller.isNothing then return draft.bareMethod found.2
      else return (← operation pools .value caller draft).callerMethod found.2)
    return (draft.copyMethod found.1).emit .evaluate 0
  | ⟨.evaluate, [caller, method, list], _, _⟩, draft => do
    let found ← pools.methodIndex method
    let draft ← (if caller.isNothing then return draft.bareMethod found.2
      else return (← operation pools .value caller draft).callerMethod found.2)
    let draft := draft.copyMethod found.1
    if list.isNothing then return draft.emit .evaluate 0
    else
      match list with
      | ⟨.tuple, items, _, _⟩ => do
        let draft ← operations pools items draft
        return draft.emit .evaluate items.length
      | single => do
        let draft ← operation pools .value single draft
        return draft.emit .evaluate 1
  | ⟨.else, _, _, _⟩, draft => return draft
  | ⟨.tuple, _, _, line⟩, _ => throw (.misplacedTuple line)
  | ⟨kind, operands, value, line⟩, draft =>
    match kind.suffix? operands.length with
    | some suffix => do
      let draft ← operations pools operands draft
      return draft.append suffix
    | none => throw (Operation.operandCountError ⟨kind, operands, value, line⟩)
termination_by structural operation => operation

def operations (pools : Pools) : List Operation → Draft → Recorder Draft
  | [], draft => return draft
  | first :: rest, draft => do
    let draft ← operation pools .value first draft
    operations pools rest draft
termination_by structural operations => operations

end

/-! ## Blocks -/

def resolve (cursor : Cursor) : Recorder Cursor := do
  let target := cursor.draft.size
  let draft ← patchAll .jump target cursor.jumps.exits.toList cursor.draft
  let draft ← patchAll .jumpIfFalse target cursor.jumps.branches.toList draft
  return { cursor with draft, jumps := {} }

def resolveClause (kind : Kind) (line : Nat) (cursor : Cursor) : Recorder Cursor :=
  match cursor.jumps.branches.back? with
  | none => throw (.danglingClause kind line)
  | some placeholder => do
    let draft ← patch cursor.draft placeholder .jumpIfFalse cursor.draft.size
    return { cursor with draft, jumps.branches := cursor.jumps.branches.pop }

def branch (cursor : Cursor) : Recorder Cursor := do
  let placed ← reserve cursor.draft
  return { cursor with draft := placed.2, jumps := cursor.jumps.addBranch placed.1 }

def exit (cursor : Cursor) : Recorder Cursor := do
  let placed ← reserve cursor.draft
  return { cursor with draft := placed.2, jumps := cursor.jumps.addExit placed.1 }

def statement (pools : Pools) (operation : Operation) (cursor : Cursor) : Recorder Cursor := do
  let kind := operation.kind
  let base ← (if kind.continuesIfChain then resolveClause kind operation.line cursor
    else resolve cursor)
  let start := base.draft.size
  let draft ← Recorder.operation pools .value operation
    { base.draft with code := base.draft.code.mark start operation.line }
  let draft := if kind.isConditionalJump then draft else draft.simple .endStatement
  let cursor : Cursor := ⟨draft, base.jumps, some (kind, start)⟩
  if kind.isIfConditional then branch cursor else return cursor

def beforeBlock (cursor : Cursor) : Recorder Cursor :=
  match cursor.owner with
  | some (kind, _) => if kind.isIfChain then return cursor else resolve cursor
  | none => resolve cursor

def beginMethod (draft : Draft) : Recorder (Placeholder × Draft) :=
  match draft.openMethod with
  | none => throw (.missingMethodBody 0)
  | some (place, _) => do
    let placed ← reserve draft
    let draft ← patch placed.2 place .bindSection placed.2.size
    return (placed.1, { draft with openMethod := none })

mutual

def entry (pools : Pools) : Entry → Cursor → Recorder Cursor
  | .statement operation, cursor => statement pools operation cursor
  | .block body, cursor => do
    let base ← beforeBlock cursor
    match base.owner with
    | some (.while, start) =>
      let placed ← reserve base.draft
      let draft ← entries pools body ⟨placed.2.simple .enterLocal, {}, none⟩
      let draft := (draft.simple .leaveLocal).emit .jump start
      let draft ← patch draft placed.1 .jumpIfFalse draft.size
      return ⟨draft, base.jumps, none⟩
    | some (.defineMethod, _) =>
      let begun ← beginMethod base.draft
      let draft ← entries pools body ⟨begun.2, {}, none⟩
      let draft := draft.emit .return 0
      let draft ← patch draft begun.1 .jump draft.size
      return ⟨draft, base.jumps, none⟩
    | owner =>
      let draft ← entries pools body ⟨base.draft.simple .enterLocal, {}, none⟩
      let cursor : Cursor := ⟨draft.simple .leaveLocal, base.jumps, none⟩
      match owner with
      | some (.if, _) | some (.elseIf, _) => exit cursor
      | _ => return cursor
termination_by structural entry => entry

def entries (pools : Pools) : List Entry → Cursor → Recorder Draft
  | [], cursor => return (← resolve cursor).draft
  | first :: rest, cursor => do
    let cursor ← entry pools first cursor
    entries pools rest cursor
termination_by structural block => block

end

/-! ## Without the record -/

/-- Without its record, a recorder does the same. -/
def Erases {α : Type} (recorder : Recorder α) (plain : Except CompileError α) : Prop :=
  ∀ events, (recorder events).map Prod.fst = plain

section

variable {α β : Type}

private theorem erases_pure (value : α) : Erases (pure value) (.ok value) :=
  fun _ => rfl

private theorem erases_throw (error : CompileError) :
    Erases (throw error : Recorder α) (.error error) :=
  fun _ => rfl

private theorem erases_lift (plain : Except CompileError α) : Erases (liftM plain) plain := by
  intro events
  cases plain <;> rfl

theorem Erases.bind {first : Recorder α} {plain : Except CompileError α} {next : α → Recorder β}
    {follow : α → Except CompileError β} (same : Erases first plain)
    (rest : ∀ value, Erases (next value) (follow value)) :
    Erases (first >>= next) (plain >>= follow) := by
  intro events
  have before := same events
  have unfolded : (first >>= next) events = first events >>= fun result => next result.1 result.2 :=
    rfl
  cases result : first events with
  | error error =>
    rw [result] at before
    rw [unfolded, result, ← before]
    rfl
  | ok result' =>
    rw [result] at before
    rw [unfolded, result, ← before]
    exact rest result'.1 result'.2

private theorem erases_note {follow : Except CompileError α} {next : Recorder α} (event : Event)
    (rest : Erases next follow) : Erases (note event >>= fun _ => next) follow :=
  fun events => rest (events ++ [event])

end

private theorem erases_reserve (draft : Draft) : Erases (reserve draft) (.ok draft.reserve) :=
  erases_note _ (erases_pure draft.reserve)

private theorem erases_patch (draft : Draft) (placeholder : Placeholder) (opcode : Opcode) (target : Nat) :
    Erases (patch draft placeholder opcode target) (draft.patch placeholder opcode target) := by
  have both := (erases_lift (draft.patch placeholder opcode target)).bind
    fun draft => erases_note (.patched placeholder) (erases_pure draft)
  rwa [show (draft.patch placeholder opcode target >>= fun draft => Except.ok draft) = _ from
    bind_pure _] at both

def allPatched (draft : Draft) (opcode : Opcode) (target : Nat) (placeholders : List Placeholder) :
    Except CompileError Draft :=
  match draft.code.patchAll opcode target placeholders with
  | (none, code) => .ok { draft with code }
  | (some error, _) => .error error

private theorem erases_patchAll (opcode : Opcode) (target : Nat) (placeholders : List Placeholder)
    (draft : Draft) :
    Erases (patchAll opcode target placeholders draft)
      (allPatched draft opcode target placeholders) := by
  induction placeholders generalizing draft with
  | nil => exact erases_pure draft
  | cons placeholder rest ih =>
    have both := (erases_patch draft placeholder opcode target).bind ih
    have same : (draft.patch placeholder opcode target >>= fun draft =>
        allPatched draft opcode target rest)
          = allPatched draft opcode target (placeholder :: rest) := by
      obtain ⟨code, openMethod⟩ := draft
      by_cases holds : placeholder.holds target = true
      · simp [Draft.patch, Code.patch, allPatched, Code.patchAll, holds, bind, Except.bind]
      · simp [Draft.patch, Code.patch, allPatched, Code.patchAll, holds, bind, Except.bind]
    exact same ▸ both

private theorem erases_resolve (cursor : Cursor) : Erases (resolve cursor) cursor.resolve := by
  have both := (erases_patchAll .jump cursor.draft.size cursor.jumps.exits.toList cursor.draft).bind
    fun draft => (erases_patchAll .jumpIfFalse cursor.draft.size cursor.jumps.branches.toList
      draft).bind fun draft => erases_pure { cursor with draft, jumps := {} }
  refine Eq.mp (congrArg _ ?_) both
  obtain ⟨⟨code, openMethod⟩, jumps, owner⟩ := cursor
  simp only [Cursor.resolve, PendingJumps.resolve, allPatched, Draft.size]
  rcases code.patchAll .jump code.size jumps.exits.toList with ⟨_ | _, middle⟩
  · simp only [bind, Except.bind]
    rcases middle.patchAll .jumpIfFalse code.size jumps.branches.toList with ⟨_ | _, final⟩ <;> rfl
  · rfl

private theorem erases_resolveClause (kind : Kind) (line : Nat) (cursor : Cursor) :
    Erases (resolveClause kind line cursor) (cursor.resolveClause kind line) := by
  obtain ⟨⟨code, openMethod⟩, jumps, owner⟩ := cursor
  cases latest : jumps.branches.back? with
  | none =>
    simp only [resolveClause, Cursor.resolveClause, PendingJumps.resolveClause, latest]
    exact erases_throw _
  | some placeholder =>
    have both := (erases_patch ⟨code, openMethod⟩ placeholder .jumpIfFalse code.size).bind
      fun draft => erases_pure
        (Cursor.mk draft { jumps with branches := jumps.branches.pop } owner)
    simp only [resolveClause, Cursor.resolveClause, PendingJumps.resolveClause, latest]
    refine Eq.mp (congrArg _ ?_) both
    by_cases holds : placeholder.holds code.size = true
    · simp [Draft.patch, Code.patch, Code.patchAll, holds, bind, Except.bind]
    · simp [Draft.patch, Code.patch, Code.patchAll, holds, bind, Except.bind]

private theorem erases_branch (cursor : Cursor) : Erases (branch cursor) (.ok cursor.branch) :=
  (erases_reserve cursor.draft).bind fun _ => erases_pure _

private theorem erases_exit (cursor : Cursor) : Erases (exit cursor) (.ok cursor.exit) :=
  (erases_reserve cursor.draft).bind fun _ => erases_pure _

private theorem erases_method (draft : Draft) (count line : Nat) :
    Erases (method draft count line) (draft.method count line) := by
  obtain ⟨code, openMethod⟩ := draft
  cases openMethod with
  | some waiting => exact erases_throw _
  | none => exact (erases_reserve _).bind fun _ => erases_pure _

private theorem erases_beforeBlock (cursor : Cursor) : Erases (beforeBlock cursor) cursor.beforeBlock := by
  unfold beforeBlock Cursor.beforeBlock
  cases cursor.owner with
  | none => exact erases_resolve cursor
  | some owner =>
    dsimp only
    split
    · exact erases_pure cursor
    · exact erases_resolve cursor

private theorem erases_beginMethod (draft : Draft) : Erases (beginMethod draft) draft.beginMethod := by
  obtain ⟨code, openMethod⟩ := draft
  cases openMethod with
  | none => exact erases_throw _
  | some waiting =>
    obtain ⟨place, line⟩ := waiting
    have both := (erases_reserve ⟨code, some (place, line)⟩).bind fun placed =>
      (erases_patch placed.2 place .bindSection placed.2.size).bind fun draft =>
        erases_pure (placed.1, { draft with openMethod := none })
    refine Eq.mp (congrArg _ ?_) both
    simp only [Draft.beginMethod, bind, Except.bind, Draft.reserve, Draft.patch, Draft.size]
    cases code.reserve.2.patch place .bindSection code.reserve.2.size <;> rfl

private theorem erases_operations {pools : Pools} {operands : List Operation}
    (each : ∀ operand ∈ operands, ∀ usage draft,
      Erases (operation pools usage operand draft) (Compile.operation pools usage operand draft))
    (draft : Draft) :
    Erases (operations pools operands draft) (Compile.operations pools operands draft) := by
  induction operands generalizing draft with
  | nil => exact erases_pure draft
  | cons first rest ih =>
    exact (each first (.head _) .value draft).bind
      (ih fun operand member => each operand (.tail _ member))

private theorem erases_found {pools : Pools} {caller : Operation} {draft : Draft} (index : Nat)
    (operand : Erases (operation pools .value caller draft)
      (Compile.operation pools .value caller draft)) :
    Erases (if caller.isNothing then pure (draft.bareMethod index)
        else do return (← operation pools .value caller draft).callerMethod index)
      (if caller.isNothing then .ok (draft.bareMethod index)
        else (Compile.operation pools .value caller draft).map (·.callerMethod index)) := by
  split
  · exact erases_pure _
  · refine Eq.mp (congrArg _ ?_) (operand.bind fun draft => erases_pure (draft.callerMethod index))
    cases Compile.operation pools .value caller draft <;> rfl

private theorem erases_operation {pools : Pools} (operation : Operation) (usage : Usage) (draft : Draft) :
    Erases (Recorder.operation pools usage operation draft)
      (Compile.operation pools usage operation draft) := by
  induction operation using Operation.induction generalizing usage draft with
  | node operation ih deep =>
  unfold Compile.operation
  split
  case h_1 =>
    rw [Recorder.operation]
    exact erases_lift _
  case h_2 single _ _ =>
    rw [Recorder.operation]
    exact ih single (.head _) usage draft
  case h_3 target name _ _ =>
    rw [Recorder.operation]
    exact (ih target (.head _) .value draft).bind fun draft =>
      (erases_lift _).bind fun index => erases_pure (draft.member usage index)
  case h_4 target source _ _ =>
    rw [Recorder.operation]
    exact (ih target (.head _) .target draft).bind fun draft =>
      (ih source (.tail _ (.head _)) .value draft).bind fun draft =>
        erases_pure (draft.simple .assign)
  case h_5 target _ line =>
    rw [Recorder.operation]
    exact (ih target (.head _) .target draft).bind fun draft => erases_method draft 0 line
  case h_6 target list _ line =>
    rw [Recorder.operation]
    exact (ih target (.head _) .target draft).bind fun draft =>
      (erases_lift _).bind fun draft => erases_method draft list.parameterList.length line
  case h_7 caller method _ _ =>
    rw [Recorder.operation]
    exact (erases_lift _).bind fun found =>
      (erases_found found.2 (ih caller (.head _) .value draft)).bind fun draft =>
        erases_pure ((draft.copyMethod found.1).emit .evaluate 0)
  case h_8 caller method list _ _ =>
    rw [Recorder.operation]
    refine (erases_lift _).bind fun found =>
      (erases_found found.2 (ih caller (.head _) .value draft)).bind fun draft => ?_
    dsimp only
    split
    case isTrue => exact erases_pure _
    case isFalse =>
      have items := erases_operations (deep _ (.tail _ (.tail _ (.head _))))
        (draft.copyMethod found.1)
      have single := ih _ (.tail _ (.tail _ (.head _))) .value (draft.copyMethod found.1)
      obtain ⟨kind, operands, value, line⟩ := list
      cases kind with
      | tuple => exact items.bind fun _ => erases_pure _
      | _ => exact single.bind fun _ => erases_pure _
  case h_9 =>
    rw [Recorder.operation]
    exact erases_pure draft
  case h_10 =>
    rw [Recorder.operation]
    exact erases_throw _
  case h_11 kind operands value line _ _ _ _ _ _ _ _ _ _ =>
    rw [Recorder.operation] <;> try assumption
    cases kind.suffix? operands.length with
    | none => exact erases_throw _
    | some suffix =>
      exact (erases_operations ih draft).bind fun draft => erases_pure (draft.append suffix)

private theorem erases_statement (pools : Pools) (operation : Operation) (cursor : Cursor) :
    Erases (statement pools operation cursor) (cursor.statement pools operation) := by
  unfold statement Cursor.statement
  refine Erases.bind ?_ fun base => (erases_operation operation .value _).bind fun draft => ?_
  · split
    · exact erases_resolveClause _ _ cursor
    · exact erases_resolve cursor
  · dsimp only
    split
    · exact erases_branch _
    · exact erases_pure _

private theorem erases_block {pools : Pools} {body : Block}
    (inner : ∀ cursor, Erases (entries pools body cursor) (Compile.entries pools body cursor))
    (cursor : Cursor) :
    Erases (entry pools (.block body) cursor) (Compile.entry pools (.block body) cursor) := by
  rw [entry, Compile.entry]
  refine (erases_beforeBlock cursor).bind fun base => ?_
  obtain ⟨draft, jumps, owner⟩ := base
  have nested := inner ⟨draft.simple .enterLocal, {}, none⟩
  cases owner with
  | none => exact nested.bind fun _ => erases_pure _
  | some owner =>
    obtain ⟨kind, start⟩ := owner
    cases kind with
    | «while» =>
      exact (erases_reserve draft).bind fun _ => (inner _).bind fun _ =>
        (erases_patch _ _ _ _).bind fun _ => erases_pure _
    | defineMethod =>
      exact (erases_beginMethod draft).bind fun _ => (inner _).bind fun _ =>
        (erases_patch _ _ _ _).bind fun _ => erases_pure _
    | «if» => exact nested.bind fun _ => erases_exit _
    | elseIf => exact nested.bind fun _ => erases_exit _
    | _ => exact nested.bind fun _ => erases_pure _

private theorem erases_entries (pools : Pools) (block : Block) (cursor : Cursor) :
    Erases (entries pools block cursor) (Compile.entries pools block cursor) := by
  induction block using Block.induction generalizing cursor with
  | nil =>
    rw [entries, Compile.entries]
    refine Eq.mp (congrArg _ ?_)
      ((erases_resolve cursor).bind fun cursor => erases_pure cursor.draft)
    cases cursor.resolve <;> rfl
  | statement operation rest ih =>
    rw [entries, Compile.entries]
    exact (erases_statement pools operation cursor).bind ih
  | block body rest inner later =>
    rw [entries, Compile.entries]
    exact (erases_block inner cursor).bind later

end Recorder

def Program.recorder (program : Program) : Recorder Compiled := do
  let pools := Pools.ofProgram program
  let draft ← Recorder.entries pools program.main { draft := {} }
  match draft.openMethod with
  | some (_, line) => throw (.missingMethodBody line)
  | none => return ⟨(draft.emit .return 0).code, pools⟩

theorem Program.erases_recorder (program : Program) : program.recorder.Erases program.compile := by
  refine (Recorder.erases_entries _ program.main _).bind fun draft => ?_
  cases draft.openMethod with
  | some waiting => exact Recorder.erases_throw _
  | none => exact Recorder.erases_pure _

end ScopeMachine
