import ScopeMachine.Proofs.Assembly.Blocks
import ScopeMachine.Proofs.Grammar

set_option autoImplicit false

/-!
# Code that is accepted

The compiler accepts operations that have commands, placeholders that have room for their targets,
and blocks whose segment is valid.
-/

namespace ScopeMachine

namespace Compile

open Assembly (operation? operations? definition? Segment Site role setting)

/-! ## Operations -/

section

variable {pools : Pools}

private theorem nameIndex_of_known {name : String} {index : Nat}
    (known : pools.names.index? name = some index) : pools.nameIndex name = .ok index := by
  simp [Pools.nameIndex, known]

private theorem memberIndex_of_known {operation : Operation} {index : Nat}
    (known : Assembly.member? pools operation = some index) :
    pools.memberIndex operation = .ok index := by
  obtain ⟨name, leaf, found⟩ := Option.bind_eq_some_iff.mp known
  simp [Pools.memberIndex, leaf, found]

private theorem methodIndex_of_known {method : Operation} {name : String} {index : Nat}
    (leaf : method.leafName? = some name) (known : pools.names.index? name = some index) :
    pools.methodIndex method = .ok (name, index) := by
  simp only [Pools.methodIndex, leaf, nameIndex_of_known known]
  rfl

private theorem leaf_of_known {usage : Usage} {value : Option Reference} {commands : List Command}
    (known : Assembly.leaf? pools usage value = some commands) (line : Nat) (draft : Draft) :
    draft.leaf pools usage value line = .ok (draft.assemble commands) := by
  cases value with
  | none => cases known
  | some reference =>
    simp only [Assembly.leaf?] at known
    simp only [Draft.leaf]
    cases entity : reference.entity with
    | constant constant =>
      rw [entity] at known
      obtain ⟨index, found, result⟩ := Option.bind_eq_some_iff.mp known
      cases result
      simp [Pools.constantIndex, found, bind, Except.bind, Draft.emit_eq_assemble]
    | name name =>
      rw [entity] at known
      obtain ⟨index, found, result⟩ := Option.bind_eq_some_iff.mp known
      cases result
      cases usage <;>
        simp [nameIndex_of_known found, bind, Except.bind, Draft.checkResolved_eq_assemble,
          Draft.emit_eq_assemble, Draft.simple_eq_assemble, Draft.assemble_assemble]

private theorem operations_of_known {operands : List Operation}
    (each : ∀ operand ∈ operands, ∀ {usage commands}, operation? pools usage operand = some commands →
      ∀ draft : Draft, operation pools usage operand draft = .ok (draft.assemble commands))
    {commands : List Command} (known : operations? pools operands = some commands) (draft : Draft) :
    operations pools operands draft = .ok (draft.assemble commands) := by
  induction operands generalizing commands draft with
  | nil =>
    cases known
    rfl
  | cons first rest ih =>
    obtain ⟨head, own, known⟩ := Option.bind_eq_some_iff.mp known
    obtain ⟨tail, others, known⟩ := Option.bind_eq_some_iff.mp known
    cases known
    have behind := ih (fun operand member => each operand (.tail _ member)) others
      (draft.assemble head)
    simp only [operations, each first (.head _) own, bind, Except.bind, behind,
      Draft.assemble_assemble]

private theorem parameters_of_known {parameters : List Operation} {commands : List Command}
    (known : Assembly.parameters? pools parameters = some commands) (draft : Draft) :
    Draft.parameters pools parameters draft = .ok (draft.assemble commands) := by
  induction parameters generalizing commands draft with
  | nil =>
    cases known
    rfl
  | cons parameter rest ih =>
    obtain ⟨index, own, known⟩ := Option.bind_eq_some_iff.mp known
    obtain ⟨tail, others, known⟩ := Option.bind_eq_some_iff.mp known
    cases known
    simp only [Draft.parameters, memberIndex_of_known own, bind, Except.bind, ih others,
      Draft.emit_eq_assemble, Draft.assemble_assemble, List.singleton_append]

/-- The code that finds the method of a call. -/
theorem found_of_known {caller : Operation} {index : Nat} {commands : List Command}
    (operand : ∀ {commands}, operation? pools .value caller = some commands →
      ∀ draft : Draft, operation pools .value caller draft = .ok (draft.assemble commands))
    (finds : Assembly.found? pools caller index = some commands) (draft : Draft) :
    (if caller.isNothing then .ok (draft.bareMethod index)
      else (operation pools .value caller draft).map (·.callerMethod index))
        = (.ok (draft.assemble commands) : Except CompileError Draft) := by
  unfold Assembly.found? at finds
  split at finds
  case isTrue nothing =>
    cases finds
    rw [if_pos nothing, draft.bareMethod_eq_assemble]
  case isFalse something =>
    obtain ⟨first, own, rfl⟩ := Option.map_eq_some_iff.mp finds
    rw [if_neg something, operand own]
    simp [Except.map, Draft.callerMethod_eq_assemble, Draft.assemble_assemble]

/-- The compiler adds the operands of a node and what follows them. -/
theorem node_of_suffix {usage : Usage} {kind : Kind} {operands : List Operation}
    {value : Option Reference} {line : Nat} {draft middle : Draft} {suffix : List Instruction}
    (ends : kind.suffix? operands.length = some suffix)
    (given : operations pools operands draft = .ok middle) :
    operation pools usage ⟨kind, operands, value, line⟩ draft = .ok (middle.append suffix) := by
  cases kind <;> first
    | simp [operation, ends, given, bind, Except.bind]; done
    | simp [Kind.suffix?] at ends

private theorem call_of_known {usage : Usage} {caller method : Operation} {lists : List Operation}
    {value : Option Reference} {line index : Nat} {name : String} {found arguments : List Command}
    {draft : Draft} (short : lists.length ≤ 1) (named : method.leafName? = some name)
    (indexed : pools.names.index? name = some index)
    (begins : (if caller.isNothing then .ok (draft.bareMethod index)
      else (operation pools .value caller draft).map (·.callerMethod index))
        = (.ok (draft.assemble found) : Except CompileError Draft))
    (each : ∀ list ∈ lists, ∀ {usage commands}, operation? pools usage list = some commands →
      ∀ draft : Draft, operation pools usage list draft = .ok (draft.assemble commands))
    (deep : ∀ list ∈ lists, ∀ item ∈ list.operands, ∀ {usage commands},
      operation? pools usage item = some commands →
        ∀ draft : Draft, operation pools usage item draft = .ok (draft.assemble commands))
    (given : operations? pools (Assembly.callArguments (caller :: method :: lists))
      = some arguments) :
    operation pools usage ⟨.evaluate, caller :: method :: lists, value, line⟩ draft
      = .ok (draft.assemble (found ++ Assembly.copyMethod name ++ arguments
        ++ [⟨.evaluate, (Assembly.callArguments (caller :: method :: lists)).length⟩])) := by
  match lists with
  | [] =>
    cases given
    simp [Compile.operation, methodIndex_of_known named indexed, begins, bind, Except.bind,
      Assembly.callArguments, Draft.copyMethod_eq_assemble, Draft.emit_eq_assemble,
      Draft.assemble_assemble]
  | [list] =>
    simp only [Compile.operation, methodIndex_of_known named indexed, begins, bind, Except.bind,
      Draft.copyMethod_eq_assemble]
    simp only [Assembly.callArguments] at given ⊢
    split
    case isTrue nothing =>
      rw [if_pos nothing] at given
      cases given
      simp [Draft.emit_eq_assemble, Draft.assemble_assemble]
    case isFalse something =>
      rw [if_neg something] at given
      split
      case h_1 _ items _ _ =>
        have behind := operations_of_known (deep _ (.head _)) given
        simp [behind, Draft.emit_eq_assemble, Draft.assemble_assemble]
      case h_2 other =>
        split at given
        case h_1 same => exact absurd rfl (other _ _ _)
        case h_2 =>
          obtain ⟨argument, own, given⟩ := Option.bind_eq_some_iff.mp given
          cases given
          simp [each list (.head _) own, Draft.emit_eq_assemble, Draft.assemble_assemble]

theorem operation_of_known (operation : Operation) {usage : Usage} {commands : List Command}
    (known : operation? pools usage operation = some commands) (draft : Draft) :
    Compile.operation pools usage operation draft = .ok (draft.assemble commands) := by
  induction operation using Operation.induction generalizing usage commands draft with
  | node operation ih deep =>
    cases Assembly.emitted known with
    | leaf known => exact leaf_of_known known _ draft
    | single known => exact ih _ (.head _) known draft
    | member target named =>
      simp [Compile.operation, ih _ (.head _) target, memberIndex_of_known named, bind, Except.bind,
        Draft.member_eq_assemble, Draft.assemble_assemble]
    | assign target source =>
      simp [Compile.operation, ih _ (.head _) target, ih _ (.tail _ (.head _)) source, bind,
        Except.bind, Draft.simple_eq_assemble, Draft.assemble_assemble]
    | @call caller method lists value line index name found arguments short named indexed finds given =>
      exact call_of_known short named indexed (found_of_known (ih caller (.head _)) finds draft)
        (fun list member => ih list (.tail _ (.tail _ member)))
        (fun list member => deep list (.tail _ (.tail _ member))) given
    | otherwise => simp [Compile.operation]
    | @node kind operands value line first ending listed ends =>
      have suffix : kind.suffix? operands.length = some (ending.flatMap Command.slots) := by
        rw [Kind.suffix?_eq_ending?, ends]
        rfl
      rw [node_of_suffix suffix (operations_of_known ih listed draft), Draft.append_eq_assemble,
        Draft.assemble_assemble]

private theorem definition_of_known {operation : Operation} {commands : List Command} {draft : Draft}
    (defines : operation.kind = .defineMethod)
    (known : definition? pools operation = some commands) (closed : draft.openMethod = none)
    (usage : Usage) : ∃ after, Compile.operation pools usage operation draft = .ok after := by
  obtain ⟨kind, operands, value, line⟩ := operation
  have method (first : List Command) (count : Nat) :
      ∃ after, (draft.assemble first).method count line = .ok after := by
    obtain ⟨code, openMethod⟩ := draft
    cases closed
    exact ⟨_, rfl⟩
  cases defines
  match operands with
  | [] | _ :: _ :: _ :: _ => simp [definition?] at known
  | [target] =>
    obtain ⟨first, own, -⟩ := Option.bind_eq_some_iff.mp known
    simpa [Compile.operation, operation_of_known target own, bind, Except.bind] using method first 0
  | [target, list] =>
    obtain ⟨first, own, known⟩ := Option.bind_eq_some_iff.mp known
    obtain ⟨names, named, -⟩ := Option.bind_eq_some_iff.mp known
    simpa [Compile.operation, operation_of_known target own, parameters_of_known named, bind,
      Except.bind, Draft.assemble_assemble] using method (first ++ names) list.parameterList.length

theorem statement_of_known {operation : Operation} {commands : List Command} {draft : Draft}
    (known : Assembly.statement? pools operation = some commands)
    (closed : draft.openMethod = none) :
    ∃ after, Compile.operation pools .value operation draft = .ok after := by
  unfold Assembly.statement? at known
  split at known
  case h_1 kind => exact definition_of_known (Assembly.role_eq_definition.mp kind) known closed .value
  case h_2 => exact ⟨_, operation_of_known operation known draft⟩

end

/-! ## Placeholders -/

end Compile

private theorem Code.patchAll_of_holds (opcode : Opcode) {target : Nat} {placeholders : List Placeholder}
    (holds : ∀ placeholder ∈ placeholders, placeholder.holds target) (code : Code) :
    ∃ after, code.patchAll opcode target placeholders = (none, after) := by
  induction placeholders generalizing code with
  | nil => exact ⟨code, rfl⟩
  | cons placeholder rest ih =>
    obtain ⟨after, patched⟩ := ih (fun other member => holds other (.tail _ member))
      (code.fill placeholder opcode target)
    exact ⟨after, by rw [patchAll, if_pos (holds _ (.head _)), patched]⟩

theorem Code.patch_of_holds (opcode : Opcode) {target : Nat} {placeholder : Placeholder}
    (holds : placeholder.holds target) (code : Code) :
    ∃ after, code.patch placeholder opcode target = .ok after :=
  ⟨_, by rw [patch, if_pos holds]⟩

theorem Draft.patch_of_holds (opcode : Opcode) {target : Nat} {placeholder : Placeholder}
    (holds : placeholder.holds target) (draft : Draft) :
    ∃ after, draft.patch placeholder opcode target = .ok after := by
  obtain ⟨code, openMethod⟩ := draft
  obtain ⟨after, patched⟩ := code.patch_of_holds opcode holds
  exact ⟨_, by rw [patch, patched]⟩

namespace Cursor

/-- All jumps that have room for the next instruction can be resolved. -/
theorem resolve_of_accepts {cursor : Cursor}
    (accepts : cursor.Accepts cursor.draft.list.length cursor.draft.list.length) :
    ∃ after, cursor.resolve = .ok after := by
  obtain ⟨⟨code, openMethod⟩, jumps, owner⟩ := cursor
  obtain ⟨middle, exits⟩ := code.patchAll_of_holds .jump accepts.exits
  obtain ⟨after, branches⟩ := middle.patchAll_of_holds .jumpIfFalse accepts.branches
  refine ⟨⟨⟨after, openMethod⟩, {}, owner⟩, ?_⟩
  simp only [Draft.list, ← Code.size_eq_length] at exits branches
  simp [resolve, PendingJumps.resolve, exits, branches]

/-- A clause can take over a false branch that has room for it. -/
theorem resolveClause_of_holds {cursor : Cursor} {placeholder : Placeholder}
    (latest : cursor.jumps.branches.back? = some placeholder)
    (holds : placeholder.holds cursor.draft.list.length) (kind : Kind) (line : Nat) :
    ∃ after, cursor.resolveClause kind line = .ok after := by
  obtain ⟨⟨code, openMethod⟩, jumps, owner⟩ := cursor
  have single : ∀ other ∈ [placeholder], other.holds code.size := by
    intro other member
    obtain rfl := List.mem_singleton.mp member
    exact holds
  obtain ⟨after, patched⟩ := code.patchAll_of_holds .jumpIfFalse single
  refine ⟨⟨⟨after, openMethod⟩, { jumps with branches := jumps.branches.pop }, owner⟩, ?_⟩
  simp only at latest
  simp [resolveClause, PendingJumps.resolveClause, latest, patched]

end Cursor

namespace Compile

open Assembly (Segment Site role setting)

/-! ## Entries -/

theorem statement_of_ok {pools : Pools} {operation : Operation} {cursor base : Cursor} {draft : Draft}
    (resolved : statementBase operation cursor = .ok base)
    (own : Compile.operation pools .value operation (marked operation base) = .ok draft) :
    entry pools (.statement operation) cursor = .ok (statementEnd operation base draft) := by
  obtain ⟨⟨code, openMethod⟩, jumps, owner⟩ := base
  obtain ⟨kind, operands, value, line⟩ := operation
  unfold statementBase at resolved
  have own' : Compile.operation pools .value ⟨kind, operands, value, line⟩
      ⟨code.mark code.size line, openMethod⟩ = .ok draft := own
  simp only [entry, Cursor.statement, bind, Except.bind, resolved, own']
  cases kind <;> simp [statementEnd, role, Kind.isConditionalJump, Kind.isIfConditional,
    Cursor.branch, Draft.simple_eq_assemble, Draft.reserve_eq, Draft.list, Code.size]

private theorem beginMethod_of_patch {draft : Draft} {place : Placeholder} {line : Nat} {code : Code}
    (waits : draft.openMethod = some (place, line))
    (placed : draft.reserve.2.code.patch place .bindSection draft.reserve.2.size = .ok code) :
    draft.beginMethod = .ok (draft.reserve.1, ⟨code, none⟩) := by
  obtain ⟨start, openMethod⟩ := draft
  cases waits
  have placed : start.reserve.2.patch place .bindSection start.reserve.2.size = .ok code := placed
  simp [Draft.beginMethod, placed, Draft.reserve]

/-- What the compiler does with a block once the jumps in front of it are taken care of. -/
theorem block_of_enclosed {pools : Pools} {body : Block} {cursor base after : Cursor}
    (before : cursor.beforeBlock = .ok base) (enclosed : Enclosed pools body base after) :
    entry pools (.block body) cursor = .ok after := by
  obtain ⟨draft, jumps, owner⟩ := base
  simp only [entry, before, bind, Except.bind]
  cases enclosed with
  | loop owner compiled patched =>
    cases owner
    simp only [Draft.simple_eq_assemble, Draft.emit_eq_assemble, Draft.assemble_assemble]
    simp [compiled, patched]
  | method owner waits placed compiled patched =>
    cases owner
    simp only [beginMethod_of_patch waits placed, Draft.emit_eq_assemble]
    simp [compiled, patched]
  | arm kind compiled =>
    match owner with
    | none => cases kind
    | some (kind', start) =>
      cases kind' <;> cases kind <;>
        simp [Draft.simple_eq_assemble, compiled, Cursor.exit, Draft.reserve_eq]
  | nested kind compiled =>
    match owner with
    | none => simp [Draft.simple_eq_assemble, compiled]
    | some (kind', start) =>
      cases kind' <;> first
        | simp [Draft.simple_eq_assemble, compiled]; done
        | simp [setting] at kind

end Compile

end ScopeMachine
