import ScopeMachine.Proofs.Assembly.Recording

set_option autoImplicit false

/-!
# The balance of placeholders

Compilation keeps the record of its placeholders balanced: each was reserved once, and each was
filled once, or still waits. At the end of a program nothing waits.
-/

namespace ScopeMachine

/-- Each placeholder was reserved at most once, and filled as often as it was reserved, those that
still wait apart. All of them lie within the code. -/
structure Balanced (waiting : List Placeholder) (size : Nat) (events : List Event) : Prop where
  even : ∀ placeholder, events.count (.reserved placeholder)
    = events.count (.patched placeholder) + waiting.count placeholder
  once : ∀ placeholder, events.count (.reserved placeholder) ≤ 1
  inside : ∀ placeholder, .reserved placeholder ∈ events → placeholder.Inside size

namespace Balanced

variable {waiting others : List Placeholder} {size larger : Nat} {events : List Event}

theorem start : Balanced [] size [] :=
  ⟨by simp, by simp, by simp⟩

theorem perm (balanced : Balanced waiting size events) (same : waiting.Perm others) :
    Balanced others size events where
  even placeholder := by rw [← same.count_eq]; exact balanced.even placeholder
  once := balanced.once
  inside := balanced.inside

private theorem grow (balanced : Balanced waiting size events) (le : size ≤ larger) :
    Balanced waiting larger events where
  even := balanced.even
  once := balanced.once
  inside placeholder member := (balanced.inside placeholder member).mono le

/-- A placeholder behind the code is a new one. -/
theorem reserve (balanced : Balanced waiting size events) {placeholder : Placeholder}
    (behind : size = placeholder.start) (wide : 0 < placeholder.width)
    (larger_eq : larger = size + placeholder.width) :
    Balanced (placeholder :: waiting) larger (events ++ [Event.reserved placeholder]) where
  even other := by
    have before := balanced.even other
    simp only [List.count_append, List.count_cons, List.count_nil]
    by_cases same : placeholder = other <;> simp [same] <;> omega
  once other := by
    have before := balanced.once other
    simp only [List.count_append, List.count_cons, List.count_nil]
    by_cases same : placeholder = other
    · subst same
      have fresh : Event.reserved placeholder ∉ events := by
        intro member
        have inside := balanced.inside placeholder member
        unfold Placeholder.Inside at inside
        omega
      simp [List.count_eq_zero_of_not_mem fresh]
    · simpa [same] using before
  inside other member := by
    simp only [List.mem_append, List.mem_singleton, Event.reserved.injEq] at member
    obtain member | rfl := member
    · exact (balanced.inside other member).mono (by omega)
    · unfold Placeholder.Inside
      omega

theorem patch {placeholder : Placeholder}
    (balanced : Balanced (placeholder :: waiting) size events) :
    Balanced waiting size (events ++ [Event.patched placeholder]) where
  even other := by
    have before := balanced.even other
    simp only [List.count_append, List.count_cons, List.count_nil] at before ⊢
    by_cases same : placeholder = other <;> simp [same] at before ⊢ <;> omega
  once other := by simpa [List.count_append] using balanced.once other
  inside other member := balanced.inside other (by simpa using member)

end Balanced

/-- The place of the open method, which waits for a body. -/
def Draft.waiting (draft : Draft) : List Placeholder :=
  (draft.openMethod.map Prod.fst).toList

def PendingJumps.waiting (jumps : PendingJumps) : List Placeholder :=
  jumps.exits.toList ++ jumps.branches.toList

/-- The record is balanced at a draft, where placeholders of others wait as well. -/
def Draft.Account (others : List Placeholder) (draft : Draft) (events : List Event) : Prop :=
  Balanced (others ++ draft.waiting) draft.size events

/-- The record is balanced at a cursor. -/
def Cursor.Account (others : List Placeholder) (cursor : Cursor) (events : List Event) : Prop :=
  Draft.Account (cursor.jumps.waiting ++ others) cursor.draft events

theorem Draft.Account.perm {first second : List Placeholder} {draft : Draft} {events : List Event}
    (account : draft.Account first events) (same : first.Perm second) :
    draft.Account second events :=
  Balanced.perm account (same.append_right _)

/-- A draft has become longer, and the same method is open. -/
def Draft.Grows (draft after : Draft) : Prop :=
  after.openMethod = draft.openMethod ∧ draft.size ≤ after.size

private theorem Draft.Account.grow {others : List Placeholder} {draft after : Draft} {events : List Event}
    (account : draft.Account others events) (grows : draft.Grows after) :
    after.Account others events := by
  unfold Draft.Account Draft.waiting at account ⊢
  rw [grows.1]
  exact Balanced.grow account grows.2

namespace Draft.Grows

end Draft.Grows

private theorem Draft.grows_assemble (draft : Draft) (commands : List Command) :
    draft.Grows (draft.assemble commands) :=
  ⟨rfl, by simp [size_eq_length]⟩

namespace Recorder

section

variable {α β : Type}

/-- When the record has the first property and a recorder succeeds, its value and the new record
have the second. -/
def Yields (before : List Event → Prop) (recorder : Recorder α) (after : α → List Event → Prop) :
    Prop :=
  ∀ events value later, before events → recorder events = .ok (value, later) → after value later

variable {before : List Event → Prop} {after : α → List Event → Prop}

private theorem yields_pure {value : α} (holds : ∀ events, before events → after value events) :
    Yields before (pure value) after := by
  intro events other later start run
  cases run
  exact holds events start

private theorem yields_throw (error : CompileError) : Yields before (throw error) after := by
  intro events value later start run
  cases run

private theorem yields_lift {plain : Except CompileError α}
    (holds : ∀ value, plain = .ok value → ∀ events, before events → after value events) :
    Yields before (liftM plain) after := by
  intro events value later start run
  cases plain with
  | error => cases run
  | ok result =>
    cases run
    exact holds _ rfl events start

theorem Yields.narrow {narrower : List Event → Prop} {recorder : Recorder α}
    (yields : Yields before recorder after) (implies : ∀ events, narrower events → before events) :
    Yields narrower recorder after :=
  fun events value later start => yields events value later (implies events start)

theorem Yields.bind {middle : α → List Event → Prop} {last : β → List Event → Prop}
    {first : Recorder α} {next : α → Recorder β} (start : Yields before first middle)
    (rest : ∀ value, Yields (middle value) (next value) last) :
    Yields before (first >>= next) last := by
  intro events value later holds run
  have unfolded : (first >>= next) events = first events >>= fun result => next result.1 result.2 :=
    rfl
  rw [unfolded] at run
  obtain ⟨⟨result, between⟩, front, back⟩ := Compile.bind_ok run
  exact rest result between value later (start events result between holds front) back

end

variable {others : List Placeholder}

private theorem yields_reserve (draft : Draft) :
    Yields (draft.Account others) (reserve draft)
      fun placed => placed.2.Account (placed.1 :: others) := by
  intro events placed later account run
  cases run
  rw [Draft.reserve_eq]
  exact Balanced.reserve account rfl
    (Nat.lt_of_lt_of_le Nat.zero_lt_two (Nat.le_add_right 2 _)) (by simp [Draft.size_eq_length])

private theorem patch_run {draft after : Draft} {placeholder : Placeholder} {opcode : Opcode} {target : Nat}
    {events later : List Event}
    (run : patch draft placeholder opcode target events = .ok (after, later)) :
    after.size = draft.size ∧ after.openMethod = draft.openMethod
      ∧ later = events ++ [Event.patched placeholder] := by
  cases patched : draft.patch placeholder opcode target with
  | error =>
    simp only [patch, patched] at run
    cases run
  | ok result =>
    simp only [patch, patched] at run
    cases run
    obtain ⟨-, list, -, same⟩ := Draft.patch_ok patched
    exact ⟨by simp [Draft.size_eq_length, list, filled], same, rfl⟩

private theorem yields_patch (draft : Draft) (placeholder : Placeholder) (opcode : Opcode) (target : Nat) :
    Yields (draft.Account (placeholder :: others)) (patch draft placeholder opcode target)
      (Draft.Account others) := by
  intro events after later account run
  obtain ⟨size, same, rfl⟩ := patch_run run
  unfold Draft.Account Draft.waiting at account ⊢
  rw [size, same]
  exact Balanced.patch account

private theorem yields_patchAll (opcode : Opcode) (target : Nat) (placeholders : List Placeholder)
    (draft : Draft) :
    Yields (draft.Account (placeholders ++ others)) (patchAll opcode target placeholders draft)
      (Draft.Account others) := by
  induction placeholders generalizing draft with
  | nil => exact yields_pure fun _ account => account
  | cons placeholder rest ih =>
    exact (yields_patch draft placeholder opcode target).bind ih

/-- Once all jumps of a cursor are resolved, only what others have waiting is left. -/
theorem yields_settled (cursor : Cursor) {after : Cursor → List Event → Prop}
    (holds : ∀ draft events, draft.Account others events →
      after { cursor with draft, jumps := {} } events) :
    Yields (cursor.Account others) (resolve cursor) after := by
  have exits : Yields (cursor.Account others)
      (patchAll .jump cursor.draft.size cursor.jumps.exits.toList cursor.draft)
      (Draft.Account (cursor.jumps.branches.toList ++ others)) :=
    (yields_patchAll _ _ _ _).narrow fun events account => by
      rwa [← List.append_assoc]
  exact exits.bind fun draft => (yields_patchAll _ _ _ draft).bind fun draft =>
    yields_pure (holds draft)

private theorem yields_resolve (cursor : Cursor) :
    Yields (cursor.Account others) (resolve cursor) (Cursor.Account others) :=
  yields_settled cursor fun _ _ account => account

private theorem yields_resolveClause (kind : Kind) (line : Nat) (cursor : Cursor) :
    Yields (cursor.Account others) (resolveClause kind line cursor) (Cursor.Account others) := by
  unfold resolveClause
  cases latest : cursor.jumps.branches.back? with
  | none => exact yields_throw _
  | some placeholder =>
    obtain ⟨front, branches⟩ := Array.back?_eq_some_iff.mp latest
    have last : cursor.jumps.waiting ++ others
        = cursor.jumps.exits.toList ++ front.toList ++ placeholder :: others := by
      simp [PendingJumps.waiting, branches]
    have start (events : List Event) (account : cursor.Account others events) :
        cursor.draft.Account
          (placeholder :: (cursor.jumps.exits.toList ++ front.toList ++ others)) events := by
      unfold Cursor.Account at account
      rw [last] at account
      exact account.perm List.perm_middle
    refine ((yields_patch _ _ _ _).narrow start).bind fun draft =>
      yields_pure fun events account => ?_
    simpa [Cursor.Account, PendingJumps.waiting, branches] using account

private theorem yields_branch (cursor : Cursor) :
    Yields (cursor.Account others) (branch cursor) (Cursor.Account others) := by
  refine (yields_reserve cursor.draft).bind fun placed => yields_pure fun events account =>
    account.perm ?_
  have last : (cursor.jumps.addBranch placed.1).waiting ++ others
      = cursor.jumps.waiting ++ placed.1 :: others := by
    simp [PendingJumps.waiting, PendingJumps.addBranch]
  rw [last]
  exact List.perm_middle.symm

private theorem yields_exit (cursor : Cursor) :
    Yields (cursor.Account others) (exit cursor) (Cursor.Account others) := by
  refine (yields_reserve cursor.draft).bind fun placed => yields_pure fun events account =>
    account.perm ?_
  have last : (cursor.jumps.addExit placed.1).waiting ++ others
      = cursor.jumps.exits.toList ++ placed.1 :: (cursor.jumps.branches.toList ++ others) := by
    simp [PendingJumps.waiting, PendingJumps.addExit]
  rw [last, PendingJumps.waiting, List.append_assoc]
  exact List.perm_middle.symm

/-! ## Operations -/

/-- A definition turns the placeholder that it reserves into the place of its body. -/
theorem yields_method (draft : Draft) (count line : Nat) :
    Yields (draft.Account others) (method draft count line) (Draft.Account others) := by
  intro events after later account run
  unfold method at run
  cases closed : draft.openMethod with
  | some waiting =>
    rw [closed] at run
    cases run
  | none =>
    rw [closed] at run
    cases run
    rw [Draft.emit_eq_assemble]
    have reserved := yields_reserve _ events _ _
      (account.grow (draft.grows_assemble [⟨.defineMethod, count⟩])) rfl
    have none : (draft.assemble [⟨.defineMethod, count⟩]).reserve.2.waiting = [] := by
      simp [Draft.waiting, Draft.reserve_eq, closed]
    dsimp only [Draft.Account] at reserved
    rw [none, List.append_nil] at reserved
    refine (reserved.perm (List.perm_append_singleton _ others).symm).grow ?_
    rw [Draft.simple_eq_assemble]
    exact (Draft.grows_assemble _ _).2

private theorem leaf_grows {pools : Pools} {usage : Usage} {value : Option Reference} {line : Nat}
    {draft after : Draft} (compiled : draft.leaf pools usage value line = .ok after) :
    draft.Grows after := by
  unfold Draft.leaf at compiled
  split at compiled
  case h_1 => cases compiled
  case h_2 =>
    split at compiled
    case h_1 =>
      obtain ⟨index, -, result⟩ := Compile.bind_ok compiled
      cases result
      rw [Draft.emit_eq_assemble]
      exact draft.grows_assemble _
    case h_2 name _ =>
      obtain ⟨index, -, result⟩ := Compile.bind_ok compiled
      cases result
      rw [Draft.emit_eq_assemble, Draft.simple_eq_assemble, Draft.assemble_assemble]
      cases usage with
      | value =>
        rw [Draft.checkResolved_eq_assemble, Draft.assemble_assemble]
        exact draft.grows_assemble _
      | target => exact draft.grows_assemble _

private theorem yields_operations {pools : Pools} {operands : List Operation}
    (each : ∀ operand ∈ operands, ∀ usage draft,
      Yields (draft.Account others) (operation pools usage operand draft) (Draft.Account others))
    (draft : Draft) :
    Yields (draft.Account others) (operations pools operands draft) (Draft.Account others) := by
  induction operands generalizing draft with
  | nil => exact yields_pure fun _ account => account
  | cons first rest ih =>
    exact (each first (.head _) .value draft).bind
      (ih fun operand member => each operand (.tail _ member))

private theorem yields_found {pools : Pools} {caller : Operation} {draft : Draft} (index : Nat)
    (operand : Yields (draft.Account others) (operation pools .value caller draft)
      (Draft.Account others)) :
    Yields (draft.Account others)
      (if caller.isNothing then pure (draft.bareMethod index)
        else do return (← operation pools .value caller draft).callerMethod index)
      (Draft.Account others) := by
  split
  · refine yields_pure fun events account => account.grow ?_
    rw [Draft.bareMethod_eq_assemble]
    exact draft.grows_assemble _
  · refine operand.bind fun draft => yields_pure fun events account => account.grow ?_
    rw [Draft.callerMethod_eq_assemble]
    exact draft.grows_assemble _

private theorem yields_evaluate (draft : Draft) (count : Nat) :
    Yields (draft.Account others) (pure (draft.emit .evaluate count)) (Draft.Account others) := by
  refine yields_pure fun events account => account.grow ?_
  rw [Draft.emit_eq_assemble]
  exact draft.grows_assemble _

theorem yields_operation {pools : Pools} (operation : Operation) (usage : Usage) (draft : Draft) :
    Yields (draft.Account others) (Recorder.operation pools usage operation draft)
      (Draft.Account others) := by
  induction operation using Operation.induction generalizing usage draft with
  | node operation ih deep =>
  unfold Recorder.operation
  split
  case h_1 =>
    exact yields_lift fun after compiled events account => account.grow (leaf_grows compiled)
  case h_2 single _ _ => exact ih single (.head _) usage draft
  case h_3 target name _ _ =>
    refine (ih target (.head _) .value draft).bind fun draft =>
      (yields_lift fun index _ events account => account).bind fun index =>
        yields_pure fun events account => account.grow ?_
    rw [Draft.member_eq_assemble]
    exact draft.grows_assemble _
  case h_4 target source _ _ =>
    refine (ih target (.head _) .target draft).bind fun draft =>
      (ih source (.tail _ (.head _)) .value draft).bind fun draft =>
        yields_pure fun events account => account.grow ?_
    rw [Draft.simple_eq_assemble]
    exact draft.grows_assemble _
  case h_5 target _ line =>
    exact (ih target (.head _) .target draft).bind fun draft => yields_method draft 0 line
  case h_6 target list _ line =>
    refine (ih target (.head _) .target draft).bind fun draft => Yields.bind
      (yields_lift fun after compiled events account => account.grow ?_)
      fun draft => yields_method draft list.parameterList.length line
    obtain ⟨commands, -, rfl⟩ := Compile.parameters_assembled compiled
    exact draft.grows_assemble _
  case h_7 caller method _ _ =>
    refine (yields_lift fun index _ events account => account).bind fun found =>
      (yields_found found.2 (ih caller (.head _) .value draft)).bind fun draft =>
        (yields_evaluate _ 0).narrow fun events account => account.grow ?_
    rw [Draft.copyMethod_eq_assemble]
    exact draft.grows_assemble _
  case h_8 caller method list _ _ =>
    refine (yields_lift fun index _ events account => account).bind fun found =>
      (yields_found found.2 (ih caller (.head _) .value draft)).bind fun draft => ?_
    have copied : draft.Grows (draft.copyMethod found.1) := by
      rw [Draft.copyMethod_eq_assemble]
      exact draft.grows_assemble _
    refine Yields.narrow ?_ fun events (account : draft.Account others events) =>
      account.grow copied
    dsimp only
    split
    case isTrue => exact yields_evaluate _ 0
    case isFalse =>
      split
      case h_1 =>
        exact (yields_operations (deep _ (.tail _ (.tail _ (.head _)))) _).bind fun draft =>
          yields_evaluate draft _
      case h_2 =>
        exact (ih _ (.tail _ (.tail _ (.head _))) .value _).bind fun draft =>
          yields_evaluate draft 1
  case h_9 => exact yields_pure fun events account => account
  case h_10 => exact yields_throw _
  case h_11 kind operands value line _ _ _ _ _ _ _ _ _ _ =>
    cases kind.suffix? operands.length with
    | none => exact yields_throw _
    | some suffix =>
      exact (yields_operations ih draft).bind fun draft => yields_pure fun events account =>
        account.grow ⟨rfl, by simp [Draft.size_eq_length]⟩

/-! ## Blocks -/

private theorem yields_statement (pools : Pools) (operation : Operation) (cursor : Cursor) :
    Yields (cursor.Account others) (statement pools operation cursor) (Cursor.Account others) := by
  have resolved : Yields (cursor.Account others)
      (if operation.kind.continuesIfChain then resolveClause operation.kind operation.line cursor
        else resolve cursor) (Cursor.Account others) := by
    split
    · exact yields_resolveClause _ _ cursor
    · exact yields_resolve cursor
  have own (base : Cursor) : Yields (base.Account others)
      (Recorder.operation pools .value operation
        { base.draft with code := base.draft.code.mark base.draft.size operation.line })
      (Draft.Account (base.jumps.waiting ++ others)) :=
    (yields_operation operation .value _).narrow fun events account => account
  have ended (draft : Draft) : draft.Grows (if operation.kind.isConditionalJump then draft
      else draft.simple .endStatement) := by
    split
    · exact ⟨rfl, Nat.le_refl _⟩
    · rw [Draft.simple_eq_assemble]
      exact draft.grows_assemble _
  refine resolved.bind fun base => (own base).bind fun draft => ?_
  dsimp only
  split
  · exact (yields_branch _).narrow fun events account => account.grow (ended draft)
  · exact yields_pure fun events account => account.grow (ended draft)

private theorem yields_beforeBlock (cursor : Cursor) :
    Yields (cursor.Account others) (beforeBlock cursor) (Cursor.Account others) := by
  unfold beforeBlock
  split
  · split
    · exact yields_pure fun events account => account
    · exact yields_resolve cursor
  · exact yields_resolve cursor

/-- The body of a method fills the place that waits for it. -/
theorem yields_beginMethod (draft : Draft) :
    Yields (draft.Account others) (beginMethod draft)
      fun begun => begun.2.Account (begun.1 :: others) := by
  unfold beginMethod
  cases waits : draft.openMethod with
  | none => exact yields_throw _
  | some waiting =>
    obtain ⟨place, line⟩ := waiting
    have reserved : Yields (draft.Account others) (reserve draft) fun placed events =>
        placed.2.openMethod = some (place, line)
          ∧ placed.2.Account (placed.1 :: others) events := by
      intro events placed later account run
      refine ⟨?_, yields_reserve draft events placed later account run⟩
      cases run
      exact waits
    have filled (placed : Placeholder × Draft) : Yields
        (fun events => placed.2.openMethod = some (place, line)
          ∧ placed.2.Account (placed.1 :: others) events)
        (patch placed.2 place .bindSection placed.2.size)
        fun after => Draft.Account (placed.1 :: others) { after with openMethod := none } := by
      rintro events after later ⟨waits, account⟩ run
      obtain ⟨size, -, rfl⟩ := patch_run run
      unfold Draft.Account Draft.waiting at account
      rw [waits, ← size] at account
      have patched := (Balanced.perm account (List.perm_append_singleton place _)).patch
      exact patched.perm (by simp [Draft.waiting])
    exact reserved.bind fun placed => (filled placed).bind fun draft =>
      yields_pure fun events account => account

private theorem yields_block {pools : Pools} {body : Block}
    (inner : ∀ others cursor, Yields (cursor.Account others) (entries pools body cursor)
      (Draft.Account others)) (cursor : Cursor) :
    Yields (cursor.Account others) (entry pools (.block body) cursor) (Cursor.Account others) := by
  have enter (others : List Placeholder) (draft : Draft) :
      Yields (draft.Account others) (entries pools body ⟨draft.simple .enterLocal, {}, none⟩)
        (Draft.Account others) := by
    refine (inner others _).narrow fun events account => account.grow ?_
    rw [Draft.simple_eq_assemble]
    exact draft.grows_assemble _
  rw [entry]
  refine (yields_beforeBlock cursor).bind fun base => ?_
  have close {draft longer : Draft} (grows : draft.Grows longer) (placeholder : Placeholder)
      (opcode : Opcode) : Yields (draft.Account (placeholder :: (base.jumps.waiting ++ others)))
        (do
          let draft ← patch longer placeholder opcode longer.size
          return ⟨draft, base.jumps, none⟩) (Cursor.Account others) :=
    ((yields_patch _ _ _ _).narrow fun events account => account.grow grows).bind fun draft =>
      yields_pure fun events (account : draft.Account (base.jumps.waiting ++ others) events) =>
        account
  split
  case h_1 start =>
    refine (yields_reserve base.draft).bind fun placed => (enter _ placed.2).bind fun draft =>
      close ?_ placed.1 .jumpIfFalse
    rw [Draft.simple_eq_assemble, Draft.emit_eq_assemble, Draft.assemble_assemble]
    exact draft.grows_assemble _
  case h_2 =>
    refine (yields_beginMethod base.draft).bind fun begun =>
      (inner (begun.1 :: (base.jumps.waiting ++ others)) ⟨begun.2, {}, none⟩).bind fun draft =>
        close ?_ begun.1 .jump
    rw [Draft.emit_eq_assemble]
    exact draft.grows_assemble _
  case h_3 loop method =>
    have left (draft : Draft) : draft.Grows (draft.simple .leaveLocal) := by
      rw [Draft.simple_eq_assemble]
      exact draft.grows_assemble _
    refine (enter _ base.draft).bind fun draft => ?_
    dsimp only
    split
    case h_1 => exact (yields_exit _).narrow fun events account => account.grow (left draft)
    case h_2 => exact (yields_exit _).narrow fun events account => account.grow (left draft)
    case h_3 => exact yields_pure fun events account => account.grow (left draft)

private theorem yields_entries (pools : Pools) (block : Block) (others : List Placeholder)
    (cursor : Cursor) :
    Yields (cursor.Account others) (entries pools block cursor) (Draft.Account others) := by
  induction block using Block.induction generalizing others cursor with
  | nil =>
    rw [entries]
    have settled : Yields (cursor.Account others) (resolve cursor)
        fun after => after.draft.Account others :=
      yields_settled cursor fun _ _ account => account
    exact settled.bind fun after => yields_pure fun events account => account
  | statement operation rest ih =>
    rw [entries]
    exact (yields_statement pools operation cursor).bind (ih others)
  | block body rest inner later =>
    rw [entries]
    exact (yields_block inner cursor).bind (later others)

end Recorder

/-- At the end of a program nothing waits. -/
theorem Program.yields_recorder (program : Program) :
    Recorder.Yields (· = []) program.recorder fun _ events => ∃ size, Balanced [] size events := by
  have main := Recorder.yields_entries (Pools.ofProgram program) program.main [] { draft := {} }
  have start (events : List Event) (fresh : events = []) :
      Cursor.Account [] { draft := {} } events := by
    subst fresh
    exact Balanced.start
  refine (main.narrow start).bind fun draft => ?_
  cases closed : draft.openMethod with
  | some waiting => exact Recorder.yields_throw _
  | none =>
    refine Recorder.yields_pure fun events account => ⟨draft.size, ?_⟩
    simpa [Draft.Account, Draft.waiting, closed] using account

/-- A program that compiles has a record in which every placeholder is reserved at most once, and
filled as often as it is reserved. -/
theorem Program.recorded {program : Program} {compiled : Compiled}
    (accepted : program.compile = .ok compiled) :
    ∃ events, program.recorder [] = .ok (compiled, events) ∧ ∀ placeholder,
      events.count (.reserved placeholder) ≤ 1
        ∧ events.count (.patched placeholder) = events.count (.reserved placeholder) := by
  have erased := program.erases_recorder []
  rw [accepted] at erased
  cases run : program.recorder [] with
  | error => simp [run, Except.map] at erased
  | ok result =>
    obtain ⟨result, events⟩ := result
    rw [run] at erased
    cases erased
    obtain ⟨size, balanced⟩ := program.yields_recorder [] _ events rfl run
    exact ⟨events, rfl, fun placeholder => ⟨balanced.once placeholder,
      by simpa using (balanced.even placeholder).symm⟩⟩

end ScopeMachine
