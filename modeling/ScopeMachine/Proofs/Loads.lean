import ScopeMachine.Proofs.Assembly.Blocks
import ScopeMachine.Proofs.FirstSight
import ScopeMachine.Proofs.Machine.Running

set_option autoImplicit false

/-!
# Loads

The compiler loads leaves by their indices in the pools. Every load leads to what its leaf denotes,
and a call without a caller loads the null object in its place.
-/

namespace ScopeMachine

/-! ## The leaves that are loaded -/

namespace Operation

/-- The leaf of a name that is not resolved by itself. -/
def named (operation : Operation) : List (Option Reference) :=
  operation.leafName?.toList.map fun name => some (.name name)

mutual

/-- The leaves that the code of an operation loads, in order. Nothing stands for a caller that is
missing. -/
def loads : Operation → List (Option Reference)
  | ⟨.ref, _, value, _⟩ => value.toList.map some
  | ⟨.scopeResolution, [single], _, _⟩ => loads single
  | ⟨.scopeResolution, [target, name], _, _⟩ => loads target ++ name.named
  | ⟨.defineMethod, [target, list], _, _⟩ => loads target ++ list.parameterList.flatMap named
  | ⟨.evaluate, [caller, method], _, _⟩ =>
    (if caller.isNothing then [none] else loads caller) ++ method.named
  | ⟨.evaluate, [caller, method, list], _, _⟩ =>
    (if caller.isNothing then [none] else loads caller) ++ method.named
      ++ (if list.isNothing then []
        else
          match list with
          | ⟨.tuple, items, _, _⟩ => loadsAll items
          | single => loads single)
  | ⟨.else, _, _, _⟩ => []
  | ⟨_, operands, _, _⟩ => loadsAll operands
termination_by structural operation => operation

def loadsAll : List Operation → List (Option Reference)
  | [] => []
  | operation :: rest => loads operation ++ loadsAll rest
termination_by structural operations => operations

end

end Operation

mutual

def Entry.loads : Entry → List (Option Reference)
  | .statement operation => operation.loads
  | .block body => Block.loads body
termination_by structural entry => entry

/-- The leaves that the code of a block loads, in order. -/
def Block.loads : List Entry → List (Option Reference)
  | [] => []
  | entry :: rest => Entry.loads entry ++ Block.loads rest
termination_by structural entries => entries

end

/-- The leaves that the code of a program loads, in order. -/
def Program.loads (program : Program) : List (Option Reference) :=
  Block.loads program.main

def Reference.loaded (leaf : Option Reference) : Entity :=
  leaf.elim (.constant .nothing) Reference.entity

/-! ## Loads are leaves -/

namespace Operation

theorem named_sublist (operation : Operation) :
    (operation.named.filterMap id).Sublist operation.leaves := by
  induction operation using Operation.induction with
  | node operation ih deep =>
    unfold named
    cases leaf : operation.leafName? with
    | none => exact List.nil_sublist _
    | some name =>
      unfold leafName? at leaf
      split at leaf
      case h_1 operands text line =>
        cases leaf
        exact (List.nil_sublist _).cons_cons _
      case h_2 inner value line =>
        have below := ih inner (.head _)
        rw [named, leaf] at below
        rw [leaves_of_inner, leavesAll_cons]
        · exact below.trans (List.sublist_append_left _ _)
        · simp
      case h_3 => cases leaf

private theorem namedAll_sublist (operations : List Operation) :
    ((operations.flatMap named).filterMap id).Sublist (leavesAll operations) := by
  induction operations with
  | nil => exact .slnil
  | cons operation rest ih =>
    rw [List.flatMap_cons, List.filterMap_append, leavesAll_cons]
    exact operation.named_sublist.append ih

private theorem parameters_sublist (list : Operation) :
    ((list.parameterList.flatMap named).filterMap id).Sublist list.leaves := by
  unfold parameterList
  split
  · exact List.nil_sublist _
  · split
    · next tuple =>
      rw [leaves_of_inner (by simp [tuple])]
      exact namedAll_sublist list.operands
    · simpa using list.named_sublist

private theorem loadsAll_sublist {operations : List Operation}
    (each : ∀ operation ∈ operations, (operation.loads.filterMap id).Sublist operation.leaves) :
    ((loadsAll operations).filterMap id).Sublist (leavesAll operations) := by
  induction operations with
  | nil => exact .slnil
  | cons operation rest ih =>
    rw [loadsAll, List.filterMap_append, leavesAll_cons]
    exact (each operation (.head _)).append (ih fun other member => each other (.tail _ member))

private theorem caller_sublist {caller : Operation}
    (own : (caller.loads.filterMap id).Sublist caller.leaves) :
    ((if caller.isNothing then [none] else caller.loads).filterMap id).Sublist caller.leaves := by
  split
  · exact List.nil_sublist _
  · exact own

/-- The leaves that an operation loads are among its own, in their order. -/
theorem loads_sublist (operation : Operation) :
    (operation.loads.filterMap id).Sublist operation.leaves := by
  induction operation using Operation.induction with
  | node operation ih deep =>
    by_cases leaf : operation.kind = .ref
    · obtain ⟨kind, operands, value, line⟩ := operation
      cases leaf
      rw [leaves_eq]
      cases value with
      | none => exact List.nil_sublist _
      | some reference => exact (List.nil_sublist _).cons_cons _
    rw [leaves_of_inner leaf]
    unfold loads
    split
    case h_1 => exact absurd rfl leaf
    case h_2 single _ _ => simpa using ih single (.head _)
    case h_3 target name _ _ =>
      simp only [List.filterMap_append, leavesAll_cons, leavesAll_nil, List.append_nil]
      exact (ih target (.head _)).append name.named_sublist
    case h_4 target list _ _ =>
      simp only [List.filterMap_append, leavesAll_cons, leavesAll_nil, List.append_nil]
      exact (ih target (.head _)).append list.parameters_sublist
    case h_5 caller method _ _ =>
      simp only [List.filterMap_append, leavesAll_cons, leavesAll_nil, List.append_nil]
      exact (caller_sublist (ih caller (.head _))).append method.named_sublist
    case h_6 caller method list _ _ =>
      simp only [List.filterMap_append, leavesAll_cons, leavesAll_nil, List.append_nil,
        List.append_assoc]
      refine (caller_sublist (ih caller (.head _))).append (method.named_sublist.append ?_)
      split
      · exact List.nil_sublist _
      · split
        · next items _ _ _ _ =>
          rw [leaves_of_inner]
          · exact loadsAll_sublist (deep _ (.tail _ (.tail _ (.head _))))
          · simp
        · exact ih _ (.tail _ (.tail _ (.head _)))
    case h_7 => exact List.nil_sublist _
    case h_8 => exact loadsAll_sublist ih

end Operation

theorem Block.loads_sublist (block : Block) :
    ((Block.loads block).filterMap id).Sublist (Block.leaves block) := by
  induction block using Block.induction with
  | nil => exact .slnil
  | statement operation rest ih =>
    rw [Block.leaves_statement, Block.loads, List.filterMap_append]
    exact operation.loads_sublist.append ih
  | block body rest inner later =>
    rw [Block.leaves_block, Block.loads, List.filterMap_append]
    exact inner.append later

/-! ## Decoding -/

/-- The commands of instructions, where some bytes of the first operand were collected already. -/
def decodeFrom (extended extensions : Nat) : List Instruction → List Command
  | [] => []
  | instruction :: rest =>
    if instruction.opcode = .extendArgument then
      decodeFrom (extended ||| instruction.operand.toNat <<< (8 * (extensions + 1)))
        (extensions + 1) rest
    else ⟨instruction.opcode, extended ||| instruction.operand.toNat⟩ :: decodeFrom 0 0 rest

/-- The commands of instructions, each with the operand that its extensions spell. -/
def decode (instructions : List Instruction) : List Command :=
  decodeFrom 0 0 instructions

private theorem decodeFrom_encode {opcode : Opcode} (whole : opcode ≠ .extendArgument) (operand : Nat)
    (more : List Instruction) {index count : Nat} (left : index + count = extensionCount operand) :
    decodeFrom (collected operand index) index
        (((extensionBytes operand).drop index).map (fun byte => ⟨.extendArgument, byte⟩)
          ++ ⟨opcode, lowByte operand⟩ :: more)
      = ⟨opcode, operand⟩ :: decode more := by
  induction count generalizing index with
  | zero =>
    have last : index = extensionCount operand := left
    subst last
    rw [← length_extensionBytes, List.drop_length]
    simp only [List.map_nil, List.nil_append, decodeFrom, if_neg whole]
    rw [length_extensionBytes, collected_all]
    rfl
  | succ count ih =>
    have inside : index < extensionCount operand := by omega
    have byte := extensionBytes_getElem? operand index inside
    obtain ⟨place, held⟩ := List.getElem?_eq_some_iff.mp byte
    rw [List.drop_eq_getElem_cons place, held]
    simp only [List.map_cons, List.cons_append, decodeFrom, if_true, collected_succ]
    exact ih (by omega)

private theorem decode_slots_append {command : Command} (whole : command.opcode ≠ .extendArgument)
    (more : List Instruction) : decode (command.slots ++ more) = command :: decode more := by
  have first := decodeFrom_encode whole command.operand more (Nat.zero_add _)
  rw [collected_zero] at first
  rw [Command.slots, encode, List.append_assoc]
  exact first

theorem decode_slots {cells : List Assembly.Cell}
    (whole : ∀ cell ∈ cells, cell.command.opcode ≠ .extendArgument) :
    decode (Assembly.slots cells) = cells.map (·.command) := by
  induction cells with
  | nil => rfl
  | cons cell rest ih =>
    rw [Assembly.slots_cons, decode_slots_append (whole cell (.head _)), List.map_cons,
      ih fun other member => whole other (.tail _ member)]

/-! ## What is loaded -/

def Command.load? (pools : Pools) : Command → Option (Option Entity)
  | ⟨.loadLiteral, index⟩ => some ((pools.constants.get? index).map .constant)
  | ⟨.loadName, index⟩ => some ((pools.names.get? index).map .name)
  | _ => none

namespace Assembly

/-- Commands that load given leaves, each as what it denotes. -/
def Loads (pools : Pools) (commands : List Command) (leaves : List (Option Reference)) : Prop :=
  commands.filterMap (Command.load? pools) = leaves.map fun leaf => some (Reference.loaded leaf)

section

variable {pools : Pools} {first second : List Command} {leaves others : List (Option Reference)}

theorem Loads.append (before : Loads pools first leaves) (behind : Loads pools second others) :
    Loads pools (first ++ second) (leaves ++ others) := by
  rw [Loads, List.filterMap_append, List.map_append, before, behind]

/-- Commands that load nothing may stand behind. -/
theorem Loads.plain (before : Loads pools first leaves)
    (none : second.filterMap (Command.load? pools) = []) : Loads pools (first ++ second) leaves := by
  rw [Loads, List.filterMap_append, none, List.append_nil, before]

private theorem load?_check (name : String) : (check name).filterMap (Command.load? pools) = [] := by
  unfold check
  split <;> rfl

private theorem load?_copyMethod (name : String) :
    (copyMethod name).filterMap (Command.load? pools) = [] := by
  rw [copyMethod, List.filterMap_append, load?_check]
  rfl

private theorem load?_ending {kind : Kind} {count : Nat} {ending : List Command}
    (ends : ending? kind count = some ending) : ending.filterMap (Command.load? pools) = [] := by
  unfold ending? at ends
  split at ends <;> cases ends <;> rfl

end

section

variable {program : Program}

private theorem loads_name {name : String} {index : Nat}
    (known : (Pools.ofProgram program).names.index? name = some index) (plain : wellKnown? name = none) :
    Loads (Pools.ofProgram program) [⟨.loadName, index⟩] [some (.name name)] := by
  have held := (Pools.hasSeen_ofProgram program).names.index.mp known
  simp [Loads, Command.load?, held, Reference.loaded, Reference.entity, plain]

private theorem plain_of_index? {name : String} {index : Nat}
    (known : (Pools.ofProgram program).names.index? name = some index) : wellKnown? name = none :=
  Pools.plain_ofProgram program name (Option.isSome_of_eq_some known)

private theorem loads_leaf {usage : Usage} {value : Option Reference} {commands : List Command}
    (known : leaf? (Pools.ofProgram program) usage value = some commands) :
    Loads (Pools.ofProgram program) commands (value.toList.map some) := by
  cases value with
  | none => cases known
  | some reference =>
    simp only [leaf?] at known
    cases entity : reference.entity with
    | constant constant =>
      rw [entity] at known
      obtain ⟨index, found, result⟩ := Option.bind_eq_some_iff.mp known
      cases result
      have held := Pools.get?_of_constant program found
      rw [Reference.key_of_entity entity] at held
      simp [Loads, Command.load?, held, Reference.loaded, entity]
    | name name =>
      rw [entity] at known
      obtain ⟨index, found, result⟩ := Option.bind_eq_some_iff.mp known
      cases result
      have held := (Pools.hasSeen_ofProgram program).names.index.mp found
      have loads : Loads (Pools.ofProgram program) [⟨.loadName, index⟩, ⟨.resolveDirect, 0⟩]
          [some reference] := by
        simp [Loads, Command.load?, held, Reference.loaded, entity]
      refine loads.plain ?_
      cases usage with
      | value => exact load?_check name
      | target => rfl

private theorem loads_member {operation : Operation} {index : Nat}
    (known : member? (Pools.ofProgram program) operation = some index) :
    Loads (Pools.ofProgram program) [⟨.loadName, index⟩] operation.named := by
  obtain ⟨name, leaf, found⟩ := Option.bind_eq_some_iff.mp known
  rw [Operation.named, leaf]
  exact loads_name found (plain_of_index? found)

private theorem loads_resolved {operation : Operation} {index : Nat}
    (known : member? (Pools.ofProgram program) operation = some index) (usage : Usage) :
    Loads (Pools.ofProgram program) (member usage index) operation.named := by
  have loads := loads_member known
  cases usage with
  | value =>
    change Loads _ ([⟨.loadName, index⟩] ++ [⟨.resolveScoped, 0⟩, ⟨.dereference, 0⟩]) _
    exact loads.plain rfl
  | target =>
    change Loads _ ([⟨.loadName, index⟩] ++ [⟨.resolveScoped, 0⟩]) _
    exact loads.plain rfl

private theorem loads_parameters {parameters : List Operation} {commands : List Command}
    (known : parameters? (Pools.ofProgram program) parameters = some commands) :
    Loads (Pools.ofProgram program) commands (parameters.flatMap Operation.named) := by
  induction parameters generalizing commands with
  | nil =>
    cases known
    rfl
  | cons parameter rest ih =>
    obtain ⟨index, named, known⟩ := Option.bind_eq_some_iff.mp known
    obtain ⟨others, listed, result⟩ := Option.bind_eq_some_iff.mp known
    cases result
    exact (loads_member named).append (ih listed)

private theorem loads_found {caller : Operation} {index : Nat} {name : String} {commands : List Command}
    (operand : ∀ {commands}, operation? (Pools.ofProgram program) .value caller = some commands →
      Loads (Pools.ofProgram program) commands caller.loads)
    (known : (Pools.ofProgram program).names.index? name = some index)
    (finds : found? (Pools.ofProgram program) caller index = some commands) :
    Loads (Pools.ofProgram program) commands
      ((if caller.isNothing then [none] else caller.loads) ++ [some (Reference.name name)]) := by
  have loads := loads_name known (plain_of_index? known)
  unfold found? at finds
  split at finds
  case isTrue nothing =>
    cases finds
    rw [if_pos nothing]
    have missing : Loads (Pools.ofProgram program) [⟨.loadLiteral, nothingIndex⟩] [none] := by
      simp [Loads, Command.load?, Pools.get?_nothing, Reference.loaded]
    have both := missing.append loads
    exact both.plain rfl
  case isFalse something =>
    obtain ⟨first, given, rfl⟩ := Option.map_eq_some_iff.mp finds
    rw [if_neg something]
    have duplicated : Loads (Pools.ofProgram program) (first ++ [⟨.duplicate, 0⟩]) caller.loads :=
      (operand given).plain rfl
    have resolves : [⟨.resolveScoped, 0⟩].filterMap (Command.load? (Pools.ofProgram program)) = [] := rfl
    simpa [callerMethod] using (duplicated.append loads).plain resolves

private theorem loads_operations {operations : List Operation}
    (each : ∀ operation ∈ operations, ∀ {usage commands},
      operation? (Pools.ofProgram program) usage operation = some commands →
        Loads (Pools.ofProgram program) commands operation.loads)
    {commands : List Command} (known : operations? (Pools.ofProgram program) operations = some commands) :
    Loads (Pools.ofProgram program) commands (Operation.loadsAll operations) := by
  induction operations generalizing commands with
  | nil =>
    cases known
    rfl
  | cons first rest ih =>
    obtain ⟨head, own, known⟩ := Option.bind_eq_some_iff.mp known
    obtain ⟨tail, others, known⟩ := Option.bind_eq_some_iff.mp known
    cases known
    exact (each first (.head _) own).append
      (ih (fun operation member => each operation (.tail _ member)) others)

omit program in
private theorem loads_node {kind : Kind} {operands : List Operation} {value : Option Reference} {line : Nat}
    {ending : List Command} (ends : ending? kind operands.length = some ending) :
    (Operation.mk kind operands value line).loads = Operation.loadsAll operands := by
  cases kind <;> first | rfl | simp [ending?] at ends

omit program in
private theorem loads_call {caller method : Operation} {rest : List Operation} {value : Option Reference}
    {line : Nat} (short : rest.length ≤ 1) :
    (Operation.mk .evaluate (caller :: method :: rest) value line).loads
      = (if caller.isNothing then [none] else caller.loads) ++ method.named
        ++ Operation.loadsAll (callArguments (caller :: method :: rest)) := by
  cases rest with
  | nil => simp [Operation.loads, callArguments, Operation.loadsAll]
  | cons list others =>
    obtain rfl : others = [] := List.eq_nil_of_length_eq_zero (by simpa using short)
    obtain ⟨kind, items, content, number⟩ := list
    by_cases tuple : kind = .tuple
    · subst tuple
      rw [Operation.loads, callArguments]
      split <;> rfl
    · rw [Operation.loads, callArguments]
      · rw [apply_ite Operation.loadsAll]
        simp [Operation.loadsAll]
      all_goals simp [tuple]

private theorem loads_operation (operation : Operation) {usage : Usage} {commands : List Command}
    (known : operation? (Pools.ofProgram program) usage operation = some commands) :
    Loads (Pools.ofProgram program) commands operation.loads := by
  induction operation using Operation.induction generalizing usage commands with
  | node operation ih deep =>
    cases emitted known with
    | leaf found => exact loads_leaf found
    | single inner => exact ih _ (.head _) inner
    | @member target name value line index first given named =>
      exact (ih target (.head _) given).append (loads_resolved named usage)
    | assign target source =>
      have loads := ((ih _ (.head _) target).append (ih _ (.tail _ (.head _)) source))
      simpa [Operation.loads, Operation.loadsAll] using loads.plain rfl
    | @call caller method rest value line index name found arguments short named indexed finds given =>
      rw [loads_call short, Operation.named, named]
      have arguments_ : ∀ operand ∈ callArguments (caller :: method :: rest), ∀ {usage commands},
          operation? (Pools.ofProgram program) usage operand = some commands →
            Loads (Pools.ofProgram program) commands operand.loads := by
        intro operand member usage commands
        obtain direct | ⟨holder, inside, below⟩ := mem_callArguments member
        · exact ih operand direct
        · exact deep holder inside operand below
      have target := (loads_found (ih caller (.head _)) indexed finds).plain (load?_copyMethod name)
      exact (target.append (loads_operations arguments_ given)).plain rfl
    | otherwise => rfl
    | @node kind operands value line first ending listed ends =>
      rw [loads_node ends]
      exact (loads_operations ih listed).plain (load?_ending ends)

/-! ## Statements and blocks -/

private theorem loads_statement {operation : Operation} {commands : List Command}
    (known : statement? (Pools.ofProgram program) operation = some commands) :
    Loads (Pools.ofProgram program) commands operation.loads := by
  unfold statement? at known
  split at known
  case h_1 definition =>
    obtain ⟨kind, operands, value, line⟩ := operation
    obtain rfl : kind = .defineMethod := role_eq_definition.mp definition
    unfold definition? at known
    split at known
    case h_1 target _ _ same =>
      cases same
      obtain ⟨first, given, result⟩ := Option.bind_eq_some_iff.mp known
      cases result
      change Loads _ _ (target.loads ++ [])
      rw [List.append_nil]
      exact (loads_operation target given).plain rfl
    case h_2 target list _ _ same =>
      cases same
      obtain ⟨first, given, known⟩ := Option.bind_eq_some_iff.mp known
      obtain ⟨names, listed, result⟩ := Option.bind_eq_some_iff.mp known
      cases result
      exact ((loads_operation target given).append (loads_parameters listed)).plain rfl
    case h_3 => cases known
  case h_2 => exact loads_operation operation known

end

/-- Cells that load given leaves. -/
abbrev CellsLoad (pools : Pools) (cells : List Cell) (leaves : List (Option Reference)) : Prop :=
  Loads pools (cells.map (·.command)) leaves

section

variable {pools : Pools} {leaves others : List (Option Reference)}

private theorem load?_padding (target offset : Nat) :
    (padding target offset).filterMap (Command.load? pools) = [] := by
  rw [padding, List.filterMap_eq_nil_iff]
  intro command member
  rw [List.eq_of_mem_replicate member]
  rfl

private theorem load?_suffix (tail : Segment) (place : Nat) (role : Role) :
    (role.suffix tail place).filterMap (Command.load? pools) = [] := by
  cases role with
  | condition => exact load?_padding _ _
  | bare => rfl
  | definition =>
    rw [Role.suffix, List.filterMap_append]
    exact congrArg (· ++ []) (load?_padding _ _)
  | plain => rfl

private theorem cellsLoad_around {before block after tail : List Cell}
    (opens : (before.map (·.command)).filterMap (Command.load? pools) = [])
    (closes : (after.map (·.command)).filterMap (Command.load? pools) = [])
    (inner : CellsLoad pools block leaves) (rest : CellsLoad pools tail others) :
    CellsLoad pools (before ++ (block ++ (after ++ tail))) (leaves ++ others) := by
  simp only [CellsLoad, Loads, List.map_append, List.filterMap_append] at inner rest ⊢
  rw [opens, closes, inner, rest, List.nil_append, List.nil_append]

end

section

variable {program : Program}

private theorem cellsLoad_statement {operation : Operation} {site : Site} {rest : Site → Segment}
    {leaves : List (Option Reference)}
    (tail : ∀ {site}, (rest site).valid → CellsLoad (Pools.ofProgram program) (rest site).cells leaves)
    (valid : (statement (Pools.ofProgram program) operation site rest).valid) :
    CellsLoad (Pools.ofProgram program) (statement (Pools.ofProgram program) operation site rest).cells
      (operation.loads ++ leaves) := by
  obtain ⟨⟨known, -⟩, follows⟩ := valid
  obtain ⟨commands, known⟩ := Option.isSome_iff_exists.mp known
  have own := loads_statement known
  simp only [statement, Segment.statement, CellsLoad, List.map_append, map_command_annotate]
  refine Loads.append ?_ (tail follows)
  rw [known]
  exact own.plain (load?_suffix _ _ _)

private theorem cellsLoad_block {body : Block} {inner rest : Site → Segment} {site : Site}
    {leaves others : List (Option Reference)}
    (block : ∀ {site}, (inner site).valid → CellsLoad (Pools.ofProgram program) (inner site).cells leaves)
    (tail : ∀ {site}, (rest site).valid → CellsLoad (Pools.ofProgram program) (rest site).cells others)
    (valid : (Assembly.block body inner site rest).valid) :
    CellsLoad (Pools.ofProgram program) (Assembly.block body inner site rest).cells (leaves ++ others) := by
  unfold Assembly.block at valid ⊢
  split at valid
  case h_1 =>
    refine cellsLoad_around ?_ rfl (block valid.2.1) (tail valid.2.2)
    rw [List.map_append, map_command_annotate, List.filterMap_append]
    exact congrArg (· ++ []) (load?_padding _ _)
  case h_2 =>
    refine cellsLoad_around ?_ rfl (block valid.2.1) (tail valid.2.2)
    rw [List.map_cons, map_command_annotate]
    exact load?_padding _ _
  case h_3 =>
    refine cellsLoad_around rfl ?_ (block valid.2.1) (tail valid.2.2)
    rw [List.map_cons, map_command_annotate]
    exact load?_padding _ _
  case h_4 => exact cellsLoad_around rfl rfl (block valid.2.1) (tail valid.2.2)
  case h_5 => exact cellsLoad_around rfl rfl (block valid.2.1) (tail valid.2.2)

private theorem cellsLoad_entries (block : Block) {site : Site}
    (valid : (entries (Pools.ofProgram program) block site).valid) :
    CellsLoad (Pools.ofProgram program) (entries (Pools.ofProgram program) block site).cells
      (Block.loads block) := by
  induction block using Block.induction generalizing site with
  | nil => rfl
  | statement operation rest ih => exact cellsLoad_statement ih valid
  | block body rest inner later => exact cellsLoad_block inner later valid

theorem cellsLoad_image (valid : (Assembly.program program).valid) :
    CellsLoad (Pools.ofProgram program) (image program) program.loads := by
  rw [CellsLoad, image, List.map_append]
  exact (cellsLoad_entries program.main valid).plain rfl

end

end Assembly

end ScopeMachine
