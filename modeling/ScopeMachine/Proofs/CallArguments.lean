import ScopeMachine.Program.Construct
import ScopeMachine.Proofs.Acceptance
import ScopeMachine.Proofs.OperandCoding

set_option autoImplicit false

/-!
# Arguments of calls

A call is built with its arguments packed into one operand, and compiled by taking that operand apart
again. The list of arguments comes back, unless it is a single null object: this one is taken for the
operand that stands for no arguments.
-/

namespace ScopeMachine

open Assembly

namespace Operation

/-! ## Packing -/

/-- What arguments are packed into gives them back, if none of them is a list itself, and a single one
does not stand for nothing. -/
theorem parameterList_pack {arguments : List Operation}
    (flat : ∀ argument ∈ arguments, argument.kind ≠ .tuple)
    (something : ∀ argument, arguments = [argument] → argument.isNothing = false) :
    ((pack arguments).getD nothing).parameterList = arguments := by
  match arguments with
  | [] => rfl
  | [single] =>
    simp only [pack, Option.getD_some, parameterList, something single rfl, flat single (.head _)]
    rfl
  | first :: second :: rest => rfl

/-! ## Expressions by themselves -/

/-- The operation is accepted as the only statement of a program. -/
def Compiles (operation : Operation) : Prop :=
  ∃ compiled, Program.compile ⟨[.statement operation]⟩ = .ok compiled

def code? (pools : Pools) (operation : Operation) : Option (List Instruction) :=
  (Compile.operation pools .value operation {}).toOption.map (·.code.instructions.toList)

theorem Compiles.formed {operation : Operation} (compiles : operation.Compiles) : operation.Formed := by
  obtain ⟨compiled, accepted⟩ := compiles
  obtain ⟨-, -, -, valid⟩ := Program.compile_ok accepted
  obtain ⟨⟨⟨known, body⟩, -⟩, -⟩ := (Program.valid_iff _).mp valid
  obtain ⟨covers, -⟩ := Pools.covers_addBlock {} [] [.statement operation]
  obtain formed | defines := (statement?_isSome_iff (Pools.plain_ofProgram _) covers).mp known
  · exact formed
  · cases defines with
    | method => cases body rfl

private theorem Formed.kind_ne_tuple {operation : Operation} (formed : operation.Formed) :
    operation.kind ≠ .tuple := by
  rintro tuple
  cases formed with
  | node count given =>
    cases tuple
    cases count
  | leaf | single | member | call | otherwise => cases tuple

private theorem code?_of_known {pools : Pools} {operation : Operation} {commands : List Command}
    (known : operation? pools .value operation = some commands) :
    operation.code? pools = some (commands.flatMap Command.slots) := by
  simp [code?, Compile.operation_of_known operation known, Except.toOption, Draft.assemble,
    Draft.append]

private theorem codes_of_known {pools : Pools} {operations : List Operation} {commands : List Command}
    (known : operations? pools operations = some commands) :
    ∃ codes, List.Forall₂ (fun operation code => operation.code? pools = some code) operations codes
      ∧ codes.flatten = commands.flatMap Command.slots := by
  induction operations generalizing commands with
  | nil =>
    cases known
    exact ⟨[], .nil, rfl⟩
  | cons first rest ih =>
    obtain ⟨head, own, known⟩ := Option.bind_eq_some_iff.mp known
    obtain ⟨tail, others, known⟩ := Option.bind_eq_some_iff.mp known
    cases known
    obtain ⟨codes, each, flat⟩ := ih others
    exact ⟨_ :: codes, .cons (code?_of_known own) each, by
      rw [List.flatten_cons, flat, List.flatMap_append]⟩

/-! ## Calls -/

private theorem Formed.of_call {caller : Option Operation} {method : String} {arguments : List Operation}
    (plain : wellKnown? method = none) (called : ∀ operation ∈ caller, operation.Formed)
    (given : ∀ argument ∈ arguments, argument.Formed)
    (packed : ((pack arguments).getD nothing).parameterList = arguments) :
    (Operation.call caller method arguments).Formed := by
  refine .call (Nat.le_refl 1) (fun _ => ?_) ⟨method, rfl, plain⟩ ?_
  · cases caller with
    | none => exact .leaf
    | some operation => exact called operation rfl
  · rintro list member argument listed
    obtain rfl := List.mem_singleton.mp member
    rw [packed] at listed
    exact given argument listed

/-- The commands of a call are those of one without arguments, with the arguments in front of the call
itself. -/
theorem commands_of_call {pools : Pools} {usage : Usage} {caller : Option Operation} {method : String}
    {arguments : List Operation} {commands : List Command}
    (packed : ((pack arguments).getD nothing).parameterList = arguments)
    (known : operation? pools usage (Operation.call caller method arguments) = some commands) :
    ∃ front own, operations? pools arguments = some own
      ∧ commands = front ++ own ++ [⟨.evaluate, arguments.length⟩]
      ∧ operation? pools .value (Operation.call caller method []) = some (front ++ [⟨.evaluate, 0⟩]) := by
  cases emitted known with
  | @call _ _ _ _ _ index name found own short named indexed finds listed =>
    rw [callArguments_eq _ _ short, List.flatMap_singleton, packed] at listed ⊢
    have empty : nothing.isNothing = true := rfl
    unfold found? at finds
    refine ⟨_, own, listed, rfl, ?_⟩
    simp only [Operation.call, pack, Option.getD_none, operation?, named, indexed, finds, empty,
      Option.bind_eq_bind, Option.bind_some, if_true]
  | node _ ends => cases ends

end Operation

private theorem Program.compile_statement {operation : Operation} {commands : List Command}
    (simple : operation.kind.isConditionalJump = false)
    (known : operation? (Pools.ofProgram ⟨[.statement operation]⟩) .value operation = some commands) :
    ∃ compiled, Program.compile ⟨[.statement operation]⟩ = .ok compiled
      ∧ compiled.pools = Pools.ofProgram ⟨[.statement operation]⟩
      ∧ compiled.code.instructions.toList
        = commands.flatMap Command.slots ++ [{ opcode := .endStatement }, { opcode := .return }] := by
  have clause : operation.kind.continuesIfChain = false := by
    cases kind : operation.kind <;> simp_all [Kind.isConditionalJump, Kind.continuesIfChain]
  have condition : operation.kind.isIfConditional = false := by
    cases kind : operation.kind <;> simp_all [Kind.isConditionalJump, Kind.isIfConditional]
  have adds := Compile.operation_of_known operation known ⟨Code.mark {} 0 operation.line, none⟩
  refine ⟨⟨((Draft.simple (Draft.assemble ⟨Code.mark {} 0 operation.line, none⟩ commands)
    .endStatement).emit .return 0).code, Pools.ofProgram ⟨[.statement operation]⟩⟩, ?_, rfl, ?_⟩
  · simp only [Program.compile, Compile.block, Compile.entries, Compile.entry, Cursor.statement,
      clause, simple, condition, Cursor.resolve, PendingJumps.resolve, Code.patchAll,
      Bool.false_eq_true, if_false, bind, Except.bind]
    rw [show Code.size {} = 0 from rfl, adds]
    rfl
  · simp [Draft.simple, Draft.emit, Draft.assemble, Draft.append, Code.emit, Code.push, Code.mark]

private theorem performs_of_encode {compiled : Compiled} {before after : List Instruction} {opcode : Opcode}
    {operand : Nat}
    (code : compiled.code.instructions.toList = before ++ encode opcode operand ++ after)
    (narrow : operand < UInt64.size) (whole : opcode ≠ .extendArgument) :
    Performs compiled before.length opcode operand := by
  let cell : Cell :=
    ⟨⟨opcode, operand⟩, compiled.code.lineAt? (before.length + extensionCount operand), 0, []⟩
  have carries : Carries compiled.code before.length cell :=
    { slots := fun {index} inside => by
        have inside : index < (encode opcode operand).length := by
          rw [← Command.length_slots] at inside
          exact inside
        rw [← Array.getElem?_toList, code, List.append_assoc,
          List.getElem?_append_right (Nat.le_add_right _ _), Nat.add_sub_cancel_left,
          List.getElem?_append_left inside]
        rfl
      line := rfl
      narrow
      whole }
  exact carries.performs

/-- A call compiles if its caller and its arguments do. Its code is that of the call without arguments,
up to the call itself, then the code of the arguments in order, and then a call with as many arguments,
unless there is just one argument and it stands for nothing. -/
theorem call_keeps_arguments {caller : Option Operation} {method : String} {arguments : List Operation}
    (plain : wellKnown? method = none) (called : ∀ operation ∈ caller, operation.Compiles)
    (given : ∀ argument ∈ arguments, argument.Compiles)
    (something : ∀ argument, arguments = [argument] → argument.isNothing = false) :
    ∃ compiled front codes,
      Program.compile ⟨[.statement (.call caller method arguments)]⟩ = .ok compiled
      ∧ List.Forall₂ (fun argument code => argument.code? compiled.pools = some code) arguments codes
      ∧ (Operation.call caller method []).code? compiled.pools = some (front ++ encode .evaluate 0)
      ∧ (Operation.call caller method arguments).code? compiled.pools
        = some (front ++ codes.flatten ++ encode .evaluate arguments.length)
      ∧ compiled.code.instructions.toList
        = front ++ codes.flatten ++ encode .evaluate arguments.length
          ++ [{ opcode := .endStatement }, { opcode := .return }]
      ∧ (arguments.length < UInt64.size →
        Performs compiled (front ++ codes.flatten).length .evaluate arguments.length) := by
  have formed {operation : Operation} (member : operation ∈ arguments) : operation.Formed :=
    (given operation member).formed
  have packed := Operation.parameterList_pack (fun _ member => (formed member).kind_ne_tuple) something
  have own : (Operation.call caller method arguments).Formed := .of_call plain
    (fun operation member => (called operation member).formed) (fun _ => formed) packed
  obtain ⟨covers, -⟩ := Pools.covers_addBlock {} [] [.statement (.call caller method arguments)]
  obtain ⟨commands, known⟩ := Option.isSome_iff_exists.mp (operation?_of_formed own covers .value)
  have simple : (Operation.call caller method arguments).kind.isConditionalJump = false := rfl
  obtain ⟨compiled, accepted, pools, code⟩ := Program.compile_statement simple known
  obtain ⟨front, listed, arguments_, rfl, bare⟩ := Operation.commands_of_call packed known
  obtain ⟨codes, each, flat⟩ := Operation.codes_of_known arguments_
  have ending : (front ++ listed ++ [Command.mk .evaluate arguments.length]).flatMap Command.slots
      = front.flatMap Command.slots ++ codes.flatten ++ encode .evaluate arguments.length := by
    rw [flat, List.flatMap_append, List.flatMap_append, List.flatMap_singleton]
    rfl
  have whole := Operation.code?_of_known known
  have empty := Operation.code?_of_known bare
  rw [ending] at code whole
  rw [List.flatMap_append, List.flatMap_singleton] at empty
  exact ⟨compiled, front.flatMap Command.slots, codes, accepted, pools ▸ each, pools ▸ empty,
    pools ▸ whole, code, fun narrow => performs_of_encode code narrow nofun⟩

/-- A null object among other arguments is kept. -/
theorem call_keeps_null :
    wellKnown? "f" = none ∧ (Operation.name "x").Compiles ∧ Operation.nothing.Compiles
      ∧ (Operation.integer 1).Compiles
      ∧ ∃ compiled front null one,
        Program.compile ⟨[.statement (.call (some (.name "x")) "f" [.nothing, .integer 1])]⟩
          = .ok compiled
        ∧ Operation.nothing.code? compiled.pools = some null
        ∧ (Operation.integer 1).code? compiled.pools = some one
        ∧ compiled.code.instructions.toList
          = front ++ [null, one].flatten ++ encode .evaluate 2
            ++ [{ opcode := .endStatement }, { opcode := .return }]
        ∧ Performs compiled (front ++ [null, one].flatten).length .evaluate 2 := by
  have plain : wellKnown? "f" = none := by decide
  have named : (Operation.name "x").Compiles := ⟨_, by cbv⟩
  have null : Operation.nothing.Compiles := ⟨_, by cbv⟩
  have one : (Operation.integer 1).Compiles := ⟨_, by cbv⟩
  have called : ∀ operation ∈ some (Operation.name "x"), operation.Compiles := by
    rintro operation ⟨⟩
    exact named
  have given : ∀ argument ∈ [Operation.nothing, .integer 1], argument.Compiles := by
    simp [null, one]
  obtain ⟨compiled, front, codes, accepted, each, -, -, code, performs⟩ :=
    call_keeps_arguments plain called given (by simp)
  obtain _ | ⟨first, _ | ⟨second, _ | _⟩⟩ := each
  exact ⟨plain, named, null, one, compiled, front, _, _, accepted, first, second, code,
    performs (by decide)⟩

end ScopeMachine
