import ScopeMachine.Proofs.Assembly.Command
import ScopeMachine.Proofs.Induction

set_option autoImplicit false

/-!
# Code of expressions

The compiler adds the commands of an operation to its draft and changes nothing else. A method
definition leaves the draft open, and an open draft stays open.
-/

namespace ScopeMachine

/-! ## Appending to a draft -/

@[simp] theorem encode_zero (opcode : Opcode) : encode opcode 0 = [{ opcode }] := by
  simp [encode, extensionBytes, lowByte]

namespace Code

@[simp] theorem toList_append (code : Code) (instructions : List Instruction) :
    (code.append instructions).instructions.toList
      = code.instructions.toList ++ instructions := by
  induction instructions generalizing code with
  | nil => simp [append]
  | cons instruction rest ih =>
    have first := ih (code.push instruction)
    rw [append, List.foldl_cons, ← append, first]
    simp [push]

@[simp] theorem marks_append (code : Code) (instructions : List Instruction) :
    (code.append instructions).marks = code.marks := by
  induction instructions generalizing code with
  | nil => rfl
  | cons instruction rest ih => exact ih (code.push instruction)

private theorem append_append (code : Code) (first second : List Instruction) :
    (code.append first).append second = code.append (first ++ second) := by
  simp [append]

private theorem push_eq_append (code : Code) (instruction : Instruction) :
    code.push instruction = code.append [instruction] :=
  rfl

theorem size_eq_length (code : Code) : code.size = code.instructions.toList.length :=
  rfl

@[simp] theorem size_append (code : Code) (instructions : List Instruction) :
    (code.append instructions).size = code.size + instructions.length := by
  simp [size_eq_length]

end Code

namespace Draft

def assemble (draft : Draft) (commands : List Command) : Draft :=
  draft.append (commands.flatMap Command.slots)

@[simp] theorem assemble_nil (draft : Draft) : draft.assemble [] = draft :=
  rfl

theorem assemble_assemble (draft : Draft) (first second : List Command) :
    (draft.assemble first).assemble second = draft.assemble (first ++ second) := by
  simp [assemble, append, Code.append_append]

theorem append_eq_assemble (draft : Draft) (commands : List Command) :
    draft.append (commands.flatMap Command.slots) = draft.assemble commands :=
  rfl

theorem simple_eq_assemble (draft : Draft) (opcode : Opcode) :
    draft.simple opcode = draft.assemble [⟨opcode, 0⟩] := by
  simp [simple, assemble, append, Command.slots, Code.push_eq_append]

theorem emit_eq_assemble (draft : Draft) (opcode : Opcode) (operand : Nat) :
    draft.emit opcode operand = draft.assemble [⟨opcode, operand⟩] := by
  simp [emit, assemble, append, Command.slots, Code.emit]

@[simp] theorem openMethod_assemble (draft : Draft) (commands : List Command) :
    (draft.assemble commands).openMethod = draft.openMethod :=
  rfl

theorem checkResolved_eq_assemble (draft : Draft) (name : String) :
    draft.checkResolved name = draft.assemble (Assembly.check name) := by
  unfold checkResolved Assembly.check
  split
  · rfl
  · exact simple_eq_assemble draft .dereference

theorem member_eq_assemble (draft : Draft) (usage : Usage) (index : Nat) :
    draft.member usage index = draft.assemble (Assembly.member usage index) := by
  cases usage <;>
    simp [member, Assembly.member, emit_eq_assemble, simple_eq_assemble, assemble_assemble]

theorem bareMethod_eq_assemble (draft : Draft) (index : Nat) :
    draft.bareMethod index = draft.assemble (Assembly.bareMethod index) := by
  simp [bareMethod, Assembly.bareMethod, emit_eq_assemble, simple_eq_assemble, assemble_assemble]

theorem callerMethod_eq_assemble (draft : Draft) (index : Nat) :
    draft.callerMethod index = draft.assemble (Assembly.callerMethod index) := by
  simp [callerMethod, Assembly.callerMethod, emit_eq_assemble, simple_eq_assemble,
    assemble_assemble]

theorem copyMethod_eq_assemble (draft : Draft) (name : String) :
    draft.copyMethod name = draft.assemble (Assembly.copyMethod name) := by
  simp [copyMethod, Assembly.copyMethod, checkResolved_eq_assemble, simple_eq_assemble,
    assemble_assemble]

end Draft

theorem Kind.suffix?_eq_ending? (kind : Kind) (count : Nat) :
    kind.suffix? count = (Assembly.ending? kind count).map (·.flatMap Command.slots) := by
  unfold Kind.suffix? Assembly.ending?
  split <;> simp [Kind.suffix?.comparison, Assembly.comparison, Command.slots]

/-! ## The commands of an operation -/

namespace Compile

open Assembly (operation? operations? ending?)

theorem bind_ok {α β : Type} {first : Except CompileError α} {next : α → Except CompileError β}
    {result : β} (compiled : first >>= next = .ok result) :
    ∃ middle, first = .ok middle ∧ next middle = .ok result := by
  cases first with
  | error => cases compiled
  | ok middle => exact ⟨middle, rfl, compiled⟩

/-- A draft has got the commands, which there are, or has been left open by a method definition. -/
def Assembled (draft : Draft) (commands? : Option (List Command)) (after : Draft) : Prop :=
  after.openMethod.isSome ∨ ∃ commands, commands? = some commands ∧ after = draft.assemble commands

theorem Assembled.open_of_open {draft after : Draft} {commands? : Option (List Command)}
    (assembled : Assembled draft commands? after) (waits : draft.openMethod.isSome) :
    after.openMethod.isSome := by
  obtain opened | ⟨commands, -, rfl⟩ := assembled
  · exact opened
  · exact waits

theorem Assembled.append {draft middle after : Draft} {first second : Option (List Command)}
    (before : Assembled draft first middle) (next : Assembled middle second after) :
    Assembled draft (do let first ← first; let second ← second; some (first ++ second)) after := by
  obtain opened | ⟨commands, known, rfl⟩ := before
  · exact .inl (next.open_of_open opened)
  · obtain opened | ⟨more, also, rfl⟩ := next
    · exact .inl opened
    · exact .inr ⟨commands ++ more, by simp [known, also], draft.assemble_assemble commands more⟩

private theorem nameIndex_ok {pools : Pools} {name : String} {index : Nat}
    (found : pools.nameIndex name = .ok index) : pools.names.index? name = some index := by
  unfold Pools.nameIndex at found
  split at found
  case h_1 _ known => cases found; exact known
  case h_2 => cases found

private theorem constantIndex_ok {pools : Pools} {constant : Constant} {index : Nat}
    (found : pools.constantIndex constant = .ok index) :
    pools.constants.index? constant = some index := by
  unfold Pools.constantIndex at found
  split at found
  case h_1 _ known => cases found; exact known
  case h_2 => cases found

private theorem memberIndex_ok {pools : Pools} {operation : Operation} {index : Nat}
    (found : pools.memberIndex operation = .ok index) :
    Assembly.member? pools operation = some index := by
  unfold Pools.memberIndex at found
  split at found
  case h_1 => cases found
  case h_2 _ leaf =>
    split at found
    case h_1 _ known => cases found; simp [Assembly.member?, leaf, known]
    case h_2 => cases found

private theorem methodIndex_ok {pools : Pools} {method : Operation} {name : String} {index : Nat}
    (found : pools.methodIndex method = .ok (name, index)) :
    method.leafName? = some name ∧ pools.names.index? name = some index := by
  unfold Pools.methodIndex at found
  split at found
  case h_1 => cases found
  case h_2 _ leaf =>
    obtain ⟨_, known, result⟩ := bind_ok found
    cases result
    exact ⟨leaf, nameIndex_ok known⟩

private theorem leaf_assembled {pools : Pools} {usage : Usage} {value : Option Reference} {line : Nat}
    {draft after : Draft} (compiled : draft.leaf pools usage value line = .ok after) :
    Assembled draft (Assembly.leaf? pools usage value) after := by
  unfold Draft.leaf at compiled
  split at compiled
  case h_1 => cases compiled
  case h_2 reference =>
    split at compiled
    case h_1 constant entity =>
      obtain ⟨index, known, result⟩ := bind_ok compiled
      cases result
      refine .inr ⟨[⟨.loadLiteral, index⟩], ?_, draft.emit_eq_assemble .loadLiteral index⟩
      simp [Assembly.leaf?, entity, constantIndex_ok known]
    case h_2 name entity =>
      obtain ⟨index, known, result⟩ := bind_ok compiled
      cases result
      cases usage with
      | value =>
        refine .inr ⟨[⟨.loadName, index⟩, ⟨.resolveDirect, 0⟩] ++ Assembly.check name, ?_, ?_⟩
        · simp [Assembly.leaf?, entity, nameIndex_ok known]
        · simp [Draft.checkResolved_eq_assemble, Draft.emit_eq_assemble, Draft.simple_eq_assemble,
            Draft.assemble_assemble]
      | target =>
        refine .inr ⟨[⟨.loadName, index⟩, ⟨.resolveDirect, 0⟩], ?_, ?_⟩
        · simp [Assembly.leaf?, entity, nameIndex_ok known]
        · simp [Draft.emit_eq_assemble, Draft.simple_eq_assemble, Draft.assemble_assemble]

theorem parameters_assembled {pools : Pools} {parameters : List Operation} {draft after : Draft}
    (compiled : Draft.parameters pools parameters draft = .ok after) :
    ∃ commands, Assembly.parameters? pools parameters = some commands ∧
      after = draft.assemble commands := by
  induction parameters generalizing draft with
  | nil =>
    cases compiled
    exact ⟨[], rfl, rfl⟩
  | cons parameter rest ih =>
    obtain ⟨index, known, compiled⟩ := bind_ok compiled
    obtain ⟨commands, names, rfl⟩ := ih compiled
    refine ⟨⟨.loadName, index⟩ :: commands, ?_, ?_⟩
    · simp [Assembly.parameters?, memberIndex_ok known, names]
    · rw [Draft.emit_eq_assemble, Draft.assemble_assemble, List.singleton_append]

private theorem method_open {draft after : Draft} {count line : Nat}
    (compiled : draft.method count line = .ok after) : after.openMethod.isSome := by
  obtain ⟨code, openMethod⟩ := draft
  cases openMethod with
  | some waiting => cases compiled
  | none => cases compiled; rfl

/-- The code that finds the method of a call. -/
theorem found_assembled {pools : Pools} {caller : Operation} {index : Nat} {draft after : Draft}
    (operand : ∀ {after}, operation pools .value caller draft = .ok after →
      Assembled draft (Assembly.operation? pools .value caller) after)
    (compiled : (if caller.isNothing then .ok (draft.bareMethod index)
      else (operation pools .value caller draft).map (·.callerMethod index)) = .ok after) :
    Assembled draft (if caller.isNothing then some (Assembly.bareMethod index)
      else (Assembly.operation? pools .value caller).map (· ++ Assembly.callerMethod index)) after := by
  split at compiled
  case isTrue nothing =>
    cases compiled
    exact .inr ⟨_, by rw [if_pos nothing], draft.bareMethod_eq_assemble index⟩
  case isFalse something =>
    rw [if_neg something]
    cases result : operation pools .value caller draft with
    | error => simp [result, Except.map] at compiled
    | ok middle =>
      simp only [result, Except.map, Except.ok.injEq] at compiled
      subst compiled
      obtain opened | ⟨commands, known, rfl⟩ := operand result
      · exact .inl (by simpa [Draft.callerMethod_eq_assemble] using opened)
      · refine .inr ⟨commands ++ Assembly.callerMethod index, by simp [known], ?_⟩
        rw [Draft.callerMethod_eq_assemble, Draft.assemble_assemble]

private theorem operations_assembled {pools : Pools} {operands : List Operation}
    (each : ∀ operand ∈ operands, ∀ {usage draft after},
      operation pools usage operand draft = .ok after →
        Assembled draft (operation? pools usage operand) after)
    {draft after : Draft} (compiled : operations pools operands draft = .ok after) :
    Assembled draft (operations? pools operands) after := by
  induction operands generalizing draft with
  | nil =>
    cases compiled
    exact .inr ⟨[], rfl, rfl⟩
  | cons first rest ih =>
    obtain ⟨middle, head, tail⟩ := bind_ok compiled
    have before := each first (.head _) head
    have next := ih (fun operand member => each operand (.tail _ member)) tail
    exact before.append next

/-- The compiler adds the commands of an operation, or leaves the draft open. -/
theorem operation_assembled {pools : Pools} (operation : Operation) {usage : Usage}
    {draft after : Draft} (compiled : Compile.operation pools usage operation draft = .ok after) :
    Assembled draft (operation? pools usage operation) after := by
  induction operation using Operation.induction generalizing usage draft after with
  | node operation ih deep =>
  unfold Compile.operation at compiled
  split at compiled
  case h_1 => exact leaf_assembled compiled
  case h_2 single _ _ => exact ih single (.head _) compiled
  case h_3 target name _ _ =>
    obtain ⟨middle, head, compiled⟩ := bind_ok compiled
    obtain ⟨index, known, compiled⟩ := bind_ok compiled
    cases compiled
    have before := ih target (.head _) head
    have next : Assembled middle (some (Assembly.member usage index)) (middle.member usage index) :=
      .inr ⟨_, rfl, middle.member_eq_assemble usage index⟩
    simpa [operation?, memberIndex_ok known] using before.append next
  case h_4 target source _ _ =>
    obtain ⟨middle, head, compiled⟩ := bind_ok compiled
    obtain ⟨later, tail, compiled⟩ := bind_ok compiled
    cases compiled
    have before := (ih target (.head _) head).append (ih source (.tail _ (.head _)) tail)
    have next : Assembled later (some [⟨.assign, 0⟩]) (later.simple .assign) :=
      .inr ⟨_, rfl, later.simple_eq_assemble .assign⟩
    simpa [operation?, Option.bind_assoc] using before.append next
  case h_5 target _ _ =>
    obtain ⟨middle, head, compiled⟩ := bind_ok compiled
    exact .inl (method_open compiled)
  case h_6 target list _ _ =>
    obtain ⟨middle, head, compiled⟩ := bind_ok compiled
    obtain ⟨later, tail, compiled⟩ := bind_ok compiled
    exact .inl (method_open compiled)
  case h_7 caller method _ _ =>
    obtain ⟨⟨name, index⟩, known, compiled⟩ := bind_ok compiled
    obtain ⟨leaf, index?⟩ := methodIndex_ok known
    obtain ⟨middle, found, compiled⟩ := bind_ok compiled
    cases compiled
    have before := found_assembled (ih caller (.head _)) found
    have next : Assembled middle (some (Assembly.copyMethod name ++ [⟨.evaluate, 0⟩]))
        ((middle.copyMethod name).emit .evaluate 0) :=
      .inr ⟨_, rfl, by simp [Draft.copyMethod_eq_assemble, Draft.emit_eq_assemble,
        Draft.assemble_assemble]⟩
    simpa [operation?, leaf, index?] using before.append next
  case h_8 caller method list _ _ =>
    obtain ⟨⟨name, index⟩, known, compiled⟩ := bind_ok compiled
    obtain ⟨leaf, index?⟩ := methodIndex_ok known
    obtain ⟨middle, found, compiled⟩ := bind_ok compiled
    have before := found_assembled (ih caller (.head _)) found
    have copied : Assembled middle (some (Assembly.copyMethod name)) (middle.copyMethod name) :=
      .inr ⟨_, rfl, middle.copyMethod_eq_assemble name⟩
    have closed (draft : Draft) (count : Nat) :
        Assembled draft (some [⟨.evaluate, count⟩]) (draft.emit .evaluate count) :=
      .inr ⟨_, rfl, draft.emit_eq_assemble .evaluate count⟩
    simp only at compiled
    split at compiled
    case isTrue nothing =>
      cases compiled
      simpa [operation?, leaf, index?, nothing, Option.bind_assoc]
        using (before.append copied).append (closed _ 0)
    case isFalse something =>
      split at compiled
      case h_1 items _ _ _ _ =>
        obtain ⟨later, tail, compiled⟩ := bind_ok compiled
        cases compiled
        have arguments := operations_assembled (deep _ (.tail _ (.tail _ (.head _)))) tail
        simpa [operation?, leaf, index?, something, Option.bind_assoc]
          using ((before.append copied).append arguments).append (closed _ items.length)
      case h_2 =>
        obtain ⟨later, tail, compiled⟩ := bind_ok compiled
        cases compiled
        have argument := ih _ (.tail _ (.tail _ (.head _))) tail
        simpa [operation?, leaf, index?, something, Option.bind_assoc]
          using ((before.append copied).append argument).append (closed _ 1)
  case h_9 =>
    cases compiled
    exact .inr ⟨[], rfl, rfl⟩
  case h_10 => cases compiled
  case h_11 kind operands value line _ _ _ _ _ _ _ _ _ _ =>
    split at compiled
    case h_1 suffix ends =>
      obtain ⟨middle, head, compiled⟩ := bind_ok compiled
      cases compiled
      rw [Kind.suffix?_eq_ending?] at ends
      obtain ⟨ending, known, rfl⟩ := Option.map_eq_some_iff.mp ends
      have before := operations_assembled ih head
      have next : Assembled middle (some ending) (middle.assemble ending) := .inr ⟨_, rfl, rfl⟩
      have node : operation? pools usage ⟨kind, operands, value, line⟩ =
          (do let ending ← ending? kind operands.length
              let first ← operations? pools operands
              some (first ++ ending)) := by
        rw [operation?] <;> assumption
      rw [Draft.append_eq_assemble]
      simpa [node, known] using before.append next
    case h_2 => cases compiled

/-! ## Method definitions -/

/-- A method is built on a draft that is not open. The place of its body stays empty. -/
theorem method_ok {draft after : Draft} {count line : Nat}
    (compiled : draft.method count line = .ok after) :
    draft.openMethod = none ∧
      after =
        { code := (draft.assemble [⟨.defineMethod, count⟩]).code.reserve.2.push { opcode := .assign }
          openMethod := some ((draft.assemble [⟨.defineMethod, count⟩]).code.reserve.1, line) } := by
  obtain ⟨code, openMethod⟩ := draft
  cases openMethod with
  | some waiting => cases compiled
  | none =>
    cases compiled
    simp [Draft.assemble, Draft.append, Code.emit, Code.reserve, Command.slots]

/-- The compiler adds the commands of a definition, the place of its body and the assignment of the
method to its target. -/
theorem definition_assembled {pools : Pools} {usage : Usage} {operation : Operation}
    {draft after : Draft} (defines : operation.kind = .defineMethod)
    (compiled : Compile.operation pools usage operation draft = .ok after) :
    ∃ commands, Assembly.definition? pools operation = some commands ∧ draft.openMethod = none ∧
      after =
        { code := (draft.assemble commands).code.reserve.2.push { opcode := .assign }
          openMethod := some ((draft.assemble commands).code.reserve.1, operation.line) } := by
  obtain ⟨kind, operands, value, line⟩ := operation
  cases defines
  match operands with
  | [] => simp [Compile.operation, Kind.suffix?] at compiled
  | [target] =>
    obtain ⟨middle, head, compiled⟩ := bind_ok compiled
    obtain ⟨closed, rfl⟩ := method_ok compiled
    obtain opened | ⟨commands, known, rfl⟩ := operation_assembled target head
    · simp [closed] at opened
    · refine ⟨commands ++ [⟨.defineMethod, 0⟩], by simp [Assembly.definition?, known], closed, ?_⟩
      simp only [Draft.assemble_assemble]
  | [target, list] =>
    obtain ⟨middle, head, compiled⟩ := bind_ok compiled
    obtain ⟨later, tail, compiled⟩ := bind_ok compiled
    obtain ⟨closed, rfl⟩ := method_ok compiled
    obtain ⟨names, listed, rfl⟩ := parameters_assembled tail
    obtain opened | ⟨commands, known, rfl⟩ := operation_assembled target head
    · simp only [Draft.openMethod_assemble] at closed
      simp [closed] at opened
    · refine ⟨commands ++ names ++ [⟨.defineMethod, list.parameterList.length⟩],
        by simp [Assembly.definition?, known, listed], closed, ?_⟩
      simp only [Draft.assemble_assemble]
  | _ :: _ :: _ :: _ => simp [Compile.operation, Kind.suffix?] at compiled

end Compile

end ScopeMachine
