import ScopeMachine.Proofs.Assembly.Command
import ScopeMachine.Proofs.Induction
import ScopeMachine.Proofs.PoolIndex
import ScopeMachine.Proofs.WellShaped

set_option autoImplicit false

/-!
# Effects of expressions

The commands of an expression transfer no control, their operands are valid, and together they leave
one binding on the operand stack.
-/

namespace ScopeMachine

namespace Command

/-- A command that goes on to the next one and whose operand is valid, where counts are below a
limit. A return counts as one: what follows it is never reached. -/
def Straight (pools : Pools) (limit : Nat) (command : Command) : Prop :=
  match command.opcode with
  | .loadName => command.operand < pools.names.size
  | .loadLiteral => command.operand < pools.constants.size
  | .syscall => (Syscall.ofOperand? command.operand).isSome
  | .loadComparisonBit => (ComparisonBit.ofOperand? command.operand).isSome
  | .defineMethod | .evaluate => command.operand < limit
  | .return => command.operand ≤ 1
  | .assign | .add | .subtract | .multiply | .divide | .and | .or | .not | .notEqual | .compare
  | .copy | .resolveDirect | .resolveScoped | .arrayIndex | .duplicate | .endStatement
  | .dereference | .nop => command.operand = 0
  | _ => False

/-- Commands run from one shape to another, and each finds what it takes. -/
def Runs : Shape → List Command → Shape → Prop
  | shape, [], last => shape = last
  | shape, command :: rest, last =>
    command.suits shape = true ∧ Runs (command.shapeAfter shape) rest last

theorem Runs.append {shape middle last : Shape} {first second : List Command}
    (before : Runs shape first middle) (next : Runs middle second last) :
    Runs shape (first ++ second) last := by
  induction first generalizing shape with
  | nil =>
    cases before
    exact next
  | cons command rest ih => exact ⟨before.1, ih before.2⟩

end Command

namespace SlotKind

theorem value_accepts {kind : SlotKind} (plain : kind ≠ .name) : value.accepts kind = true := by
  cases kind with
  | name => contradiction
  | value => rfl
  | copy => rfl

private theorem offered_cons {wanted found : SlotKind} {wants rest : Shape}
    (first : wanted.accepts found = true) (later : offered wants rest = true) :
    offered (wanted :: wants) (found :: rest) = true :=
  (Bool.and_eq_true _ _).mpr ⟨first, later⟩

private theorem offered_names (count : Nat) (shape : Shape) :
    offered (List.replicate count .name) (List.replicate count .name ++ shape) = true := by
  induction count with
  | zero => rfl
  | succ count ih => exact offered_cons rfl ih

private theorem offered_bindings {kinds : Shape} (bindings : ∀ kind ∈ kinds, kind ≠ .name) {wants rest : Shape}
    (later : offered wants rest = true) :
    offered (List.replicate kinds.length .value ++ wants) (kinds ++ rest) = true := by
  induction kinds with
  | nil => exact later
  | cons kind kinds ih =>
    obtain ⟨first, others⟩ := List.forall_mem_cons.mp bindings
    exact offered_cons (value_accepts first) (ih others)

end SlotKind

namespace Assembly

open Command (Runs Straight)

/-! ## Operands -/

private theorem straight_check (pools : Pools) (limit : Nat) (name : String) :
    ∀ command ∈ check name, command.Straight pools limit := by
  unfold check
  split
  · exact List.forall_mem_nil _
  · exact List.forall_mem_singleton.mpr rfl

private theorem straight_member {pools : Pools} (limit : Nat) {index : Nat} (inside : index < pools.names.size)
    (usage : Usage) : ∀ command ∈ member usage index, command.Straight pools limit := by
  have resolves : ∀ command ∈ [⟨.loadName, index⟩, ⟨.resolveScoped, 0⟩],
      Command.Straight pools limit command :=
    List.forall_mem_cons.mpr ⟨inside, List.forall_mem_singleton.mpr rfl⟩
  cases usage with
  | value => exact List.forall_mem_append.mpr ⟨resolves, List.forall_mem_singleton.mpr rfl⟩
  | target => exact List.forall_mem_append.mpr ⟨resolves, List.forall_mem_nil _⟩

private theorem straight_leaf {pools : Pools} {limit : Nat} (sound : pools.Sound) {usage : Usage}
    {value : Option Reference} {commands : List Command}
    (known : leaf? pools usage value = some commands) :
    ∀ command ∈ commands, command.Straight pools limit := by
  unfold leaf? at known
  split at known
  case h_1 => cases known
  case h_2 reference =>
    split at known
    case h_1 constant _ =>
      obtain ⟨index, found, result⟩ := Option.bind_eq_some_iff.mp known
      cases result
      exact List.forall_mem_singleton.mpr (sound.constants.lt_size found)
    case h_2 name _ =>
      obtain ⟨index, found, result⟩ := Option.bind_eq_some_iff.mp known
      cases result
      refine List.forall_mem_cons.mpr ⟨sound.names.lt_size found, List.forall_mem_cons.mpr ⟨rfl, ?_⟩⟩
      cases usage with
      | value => exact straight_check pools limit name
      | target => exact List.forall_mem_nil _

private theorem straight_ending {pools : Pools} {limit : Nat} {kind : Kind} {count : Nat} {commands : List Command}
    (known : ending? kind count = some commands) :
    ∀ command ∈ commands, command.Straight pools limit := by
  unfold ending? at known
  split at known <;> cases known
  case h_18 =>
    exact List.forall_mem_cons.mpr ⟨rfl, List.forall_mem_cons.mpr ⟨rfl, List.forall_mem_singleton.mpr rfl⟩⟩
  case h_19 => exact List.forall_mem_singleton.mpr (Nat.zero_le 1)
  case h_20 => exact List.forall_mem_singleton.mpr (Nat.le_refl 1)
  all_goals
    first
    | exact List.forall_mem_nil _
    | exact List.forall_mem_singleton.mpr rfl
    | exact List.forall_mem_cons.mpr ⟨rfl, List.forall_mem_singleton.mpr rfl⟩

private theorem straight_operations {pools : Pools} {limit : Nat} {operands : List Operation} {commands : List Command}
    (each : ∀ operand ∈ operands, ∀ {usage commands}, operation? pools usage operand = some commands →
      ∀ command ∈ commands, command.Straight pools limit)
    (known : operations? pools operands = some commands) :
    ∀ command ∈ commands, command.Straight pools limit := by
  induction operands generalizing commands with
  | nil =>
    cases known
    exact List.forall_mem_nil _
  | cons operand rest ih =>
    obtain ⟨first, head, known⟩ := Option.bind_eq_some_iff.mp known
    obtain ⟨others, tail, known⟩ := Option.bind_eq_some_iff.mp known
    cases known
    have before := each operand (.head _) head
    have behind := ih (fun other member => each other (.tail _ member)) tail
    exact List.forall_mem_append.mpr ⟨before, behind⟩

private theorem straight_found {pools : Pools} {limit : Nat} (sound : pools.Sound) {caller : Operation} {index : Nat}
    {found : List Command} (inside : index < pools.names.size)
    (each : ∀ {commands}, operation? pools .value caller = some commands →
      ∀ command ∈ commands, command.Straight pools limit)
    (finds : found? pools caller index = some found) :
    ∀ command ∈ found, command.Straight pools limit := by
  unfold found? at finds
  split at finds
  · cases finds
    exact List.forall_mem_cons.mpr ⟨sound.nothing, List.forall_mem_cons.mpr
      ⟨inside, List.forall_mem_singleton.mpr rfl⟩⟩
  · obtain ⟨commands, known, rfl⟩ := Option.map_eq_some_iff.mp finds
    exact List.forall_mem_append.mpr ⟨each known, List.forall_mem_cons.mpr ⟨rfl,
      List.forall_mem_cons.mpr ⟨inside, List.forall_mem_singleton.mpr rfl⟩⟩⟩

private theorem callArguments_le (operands : List Operation) :
    (callArguments operands).length ≤ Operation.nodesAll operands := by
  unfold callArguments
  split
  case h_1 caller method list =>
    have listed : list.nodes ≤ Operation.nodesAll [caller, method, list] :=
      Operation.nodes_le_nodesAll (by simp)
    split
    · exact Nat.zero_le _
    · split
      case h_1 items _ _ _ =>
        have count := Operation.length_le_nodesAll items
        simp only [Operation.nodes] at listed
        omega
      case h_2 =>
        have one := list.nodes_pos
        rw [List.length_singleton]
        omega
  case h_2 => exact Nat.zero_le _

theorem straight_operation {pools : Pools} {limit : Nat} (sound : pools.Sound) (operation : Operation)
    (small : operation.nodes ≤ limit) {usage : Usage} {commands : List Command}
    (emits : operation? pools usage operation = some commands) :
    ∀ command ∈ commands, command.Straight pools limit := by
  induction operation using Operation.induction generalizing usage commands with
  | node operation ih deep =>
    have direct : ∀ operand ∈ operation.operands, operand.nodes ≤ limit := fun operand member => by
      have below := Operation.nodes_lt_of_mem member
      omega
    replace ih := fun operand member => @ih operand member (direct operand member)
    replace deep := fun operand member item inner => @deep operand member item inner (by
      have below := Operation.nodes_lt_of_mem inner
      have above := direct operand member
      omega)
    cases emitted emits with
    | leaf known => exact straight_leaf sound known
    | single known => exact ih _ (.head _) known
    | member known named =>
      obtain ⟨name, -, indexed⟩ := Option.bind_eq_some_iff.mp named
      have inside := sound.names.lt_size indexed
      exact List.forall_mem_append.mpr ⟨ih _ (.head _) known, straight_member limit inside _⟩
    | assign known given =>
      have before := ih _ (.head _) known
      have behind := ih _ (.tail _ (.head _)) given
      exact List.forall_mem_append.mpr ⟨List.forall_mem_append.mpr ⟨before, behind⟩,
        List.forall_mem_singleton.mpr rfl⟩
    | @call caller method rest _ _ _ _ _ _ short named indexed finds given =>
      have finding := straight_found sound (sound.names.lt_size indexed) (ih _ (.head _)) finds
      have arguments := straight_operations (fun argument member => by
        obtain direct | ⟨operand, outer, inner⟩ := mem_callArguments member
        · exact ih argument direct
        · exact deep operand outer argument inner) given
      intro command member
      simp only [copyMethod, List.append_assoc, List.mem_append, List.mem_cons, List.not_mem_nil,
        or_false] at member
      obtain member | member | rfl | member | rfl := member
      · exact finding command member
      · exact straight_check pools limit _ command member
      · exact rfl
      · exact arguments command member
      · have count := callArguments_le (caller :: method :: rest)
        rw [Operation.nodes_eq] at small
        exact Nat.lt_of_le_of_lt count small
    | otherwise => exact List.forall_mem_nil _
    | node known ends =>
      exact List.forall_mem_append.mpr ⟨straight_operations ih known, straight_ending ends⟩

private theorem straight_parameters {pools : Pools} {limit : Nat} (sound : pools.Sound) {parameters : List Operation}
    {commands : List Command} (known : parameters? pools parameters = some commands) :
    ∀ command ∈ commands, command.Straight pools limit := by
  induction parameters generalizing commands with
  | nil =>
    cases known
    exact List.forall_mem_nil _
  | cons parameter rest ih =>
    obtain ⟨index, named, known⟩ := Option.bind_eq_some_iff.mp known
    obtain ⟨others, tail, known⟩ := Option.bind_eq_some_iff.mp known
    cases known
    obtain ⟨name, -, indexed⟩ := Option.bind_eq_some_iff.mp named
    exact List.forall_mem_cons.mpr ⟨sound.names.lt_size indexed, ih tail⟩

private theorem parameterList_le (list : Operation) : list.parameterList.length ≤ list.nodes := by
  have one := list.nodes_pos
  have count := Operation.length_le_nodesAll list.operands
  have total := list.nodes_eq
  unfold Operation.parameterList
  split
  · exact Nat.zero_le _
  · split
    · omega
    · rw [List.length_singleton]
      omega

theorem straight_definition {pools : Pools} {limit : Nat} (sound : pools.Sound)
    {operation : Operation} (small : operation.nodes ≤ limit) {commands : List Command} (known : definition? pools operation = some commands) :
    ∀ command ∈ commands, command.Straight pools limit := by
  unfold definition? at known
  split at known
  case h_1 =>
    obtain ⟨first, target, known⟩ := Option.bind_eq_some_iff.mp known
    cases known
    simp only [Operation.nodes, Operation.nodesAll] at small
    have positive : 0 < limit := by omega
    have before : ∀ command ∈ first, Straight pools limit command :=
      straight_operation sound _ (by omega) target
    exact List.forall_mem_append.mpr ⟨before, List.forall_mem_singleton.mpr positive⟩
  case h_2 list _ _ =>
    obtain ⟨first, target, known⟩ := Option.bind_eq_some_iff.mp known
    obtain ⟨names, listed, known⟩ := Option.bind_eq_some_iff.mp known
    cases known
    have count := parameterList_le list
    simp only [Operation.nodes, Operation.nodesAll] at small
    have fits : list.parameterList.length < limit := by omega
    have before : ∀ command ∈ first, Straight pools limit command :=
      straight_operation sound _ (by omega) target
    have behind : ∀ command ∈ names, Straight pools limit command :=
      straight_parameters sound listed
    exact List.forall_mem_append.mpr ⟨List.forall_mem_append.mpr ⟨before, behind⟩,
      List.forall_mem_singleton.mpr fits⟩
  case h_3 => cases known

/-! ## Shapes -/

/-- All kinds are those of bindings. -/
def Bindings (kinds : Shape) : Prop :=
  ∀ kind ∈ kinds, kind ≠ .name

/-- Commands leave one binding on any stack. -/
def Yields (commands : List Command) : Prop :=
  ∀ shape, ∃ kind, kind ≠ .name ∧ Runs shape commands (kind :: shape)

private theorem runs_check (name : String) (shape : Shape) :
    Runs (.value :: shape) (check name) (.value :: shape) := by
  unfold check
  split
  · rfl
  · exact ⟨rfl, rfl⟩

theorem yields_leaf {pools : Pools} {usage : Usage} {value : Option Reference}
    {commands : List Command} (known : leaf? pools usage value = some commands) :
    Yields commands := by
  intro shape
  unfold leaf? at known
  split at known
  case h_1 => cases known
  case h_2 =>
    split at known
    case h_1 =>
      obtain ⟨index, -, result⟩ := Option.bind_eq_some_iff.mp known
      cases result
      exact ⟨.value, by simp, rfl, rfl⟩
    case h_2 name _ =>
      obtain ⟨index, -, result⟩ := Option.bind_eq_some_iff.mp known
      cases result
      have resolved : Runs shape [⟨.loadName, index⟩, ⟨.resolveDirect, 0⟩] (.value :: shape) :=
        ⟨rfl, rfl, rfl⟩
      refine ⟨.value, by simp, resolved.append ?_⟩
      cases usage with
      | value => exact runs_check name shape
      | target => rfl

private theorem runs_ending {kind : Kind} {kinds : Shape} {commands : List Command} (shape : Shape)
    (bindings : Bindings kinds)
    (ends : ending? kind kinds.length = some commands) :
    ∃ last, last ≠ .name ∧ Runs (kinds ++ shape) commands (last :: shape) := by
  have taken : SlotKind.offered (List.replicate kinds.length .value) (kinds ++ shape) = true := by
    simpa using @SlotKind.offered_bindings kinds bindings [] shape rfl
  match kinds with
  | [] => cases kind <;> cases ends <;> exact ⟨.value, nofun, rfl, rfl⟩
  | [only] =>
    cases kind <;> cases ends
    case «if» | «elseIf» | «while» => exact ⟨only, bindings only (.head _), rfl⟩
    case new => exact ⟨.copy, nofun, taken, rfl⟩
    case ask => exact ⟨.value, nofun, taken, rfl, rfl, rfl⟩
    all_goals exact ⟨.value, nofun, taken, rfl⟩
  | [_, _] =>
    cases kind <;> cases ends
    case isEqual | isLessThan | isGreaterThan | isLessThanOrEqual | isGreaterThanOrEqual =>
      exact ⟨.value, nofun, taken, rfl, rfl⟩
    all_goals exact ⟨.value, nofun, taken, rfl⟩
  | _ :: _ :: _ :: _ => cases kind <;> cases ends

theorem runs_operations {pools : Pools} {operands : List Operation} {commands : List Command}
    (each : ∀ operand ∈ operands, ∀ {usage commands}, operation? pools usage operand = some commands →
      operand.yields = true → Yields commands)
    (known : operations? pools operands = some commands)
    (valued : ∀ operand ∈ operands, operand.yields = true) (shape : Shape) :
    ∃ kinds, kinds.length = operands.length ∧ Bindings kinds
      ∧ Runs shape commands (kinds ++ shape) := by
  induction operands generalizing commands shape with
  | nil =>
    cases known
    exact ⟨[], rfl, by simp [Bindings], rfl⟩
  | cons operand rest ih =>
    obtain ⟨first, head, known⟩ := Option.bind_eq_some_iff.mp known
    obtain ⟨others, tail, known⟩ := Option.bind_eq_some_iff.mp known
    cases known
    obtain ⟨kind, binding, before⟩ :=
      each operand (.head _) head (valued operand (.head _)) shape
    obtain ⟨kinds, length, bindings, behind⟩ := ih
      (fun other member => each other (.tail _ member)) tail
      (fun other member => valued other (.tail _ member)) (kind :: shape)
    refine ⟨kinds ++ [kind], by simp [length], ?_, ?_⟩
    · simpa [Bindings, or_imp, forall_and, binding] using bindings
    · simpa using before.append behind

private theorem runs_found {pools : Pools} {caller : Operation} {index : Nat} {found : List Command}
    (each : ∀ {commands}, operation? pools .value caller = some commands →
      caller.yields = true → Yields commands)
    (valued : caller.yields = true)
    (finds : found? pools caller index = some found) (shape : Shape) :
    Runs shape found (.value :: .value :: shape) := by
  unfold found? at finds
  split at finds
  · cases finds
    exact ⟨rfl, rfl, rfl, rfl⟩
  · obtain ⟨commands, known, rfl⟩ := Option.map_eq_some_iff.mp finds
    obtain ⟨kind, binding, before⟩ := each known valued shape
    exact before.append ⟨SlotKind.offered_cons (SlotKind.value_accepts binding) rfl, rfl, rfl, rfl⟩

private theorem runs_evaluate {kinds : Shape} (bindings : Bindings kinds) (shape : Shape) :
    Runs (kinds ++ SlotKind.copy :: .value :: shape) [⟨.evaluate, kinds.length⟩] (.value :: shape) := by
  refine ⟨SlotKind.offered_bindings bindings rfl, ?_⟩
  show SlotKind.value :: List.drop (List.replicate kinds.length SlotKind.value
      ++ [SlotKind.copy, .value]).length (kinds ++ SlotKind.copy :: .value :: shape) = _
  simp

private theorem runs_copyMethod (name : String) (shape : Shape) :
    Runs (.value :: shape) (copyMethod name) (.copy :: shape) :=
  (runs_check name shape).append ⟨rfl, rfl⟩

private theorem runs_member {kind : SlotKind} (binding : kind ≠ .name) (usage : Usage) (index : Nat)
    (shape : Shape) : Runs (kind :: shape) (member usage index) (.value :: shape) := by
  have resolved : Runs (kind :: shape) [⟨.loadName, index⟩, ⟨.resolveScoped, 0⟩] (.value :: shape) :=
    ⟨rfl, SlotKind.offered_cons rfl (SlotKind.offered_cons (SlotKind.value_accepts binding) rfl),
      rfl⟩
  refine resolved.append ?_
  cases usage with
  | value => exact ⟨rfl, rfl⟩
  | target => rfl

theorem runs_assign {first second : SlotKind} (target : first ≠ .name) (source : second ≠ .name)
    (shape : Shape) : Runs (second :: first :: shape) [⟨.assign, 0⟩] (.value :: shape) :=
  ⟨SlotKind.offered_cons (SlotKind.value_accepts source)
    (SlotKind.offered_cons (SlotKind.value_accepts target) rfl), rfl⟩

private theorem yields_callArguments {operands : List Operation}
    (valued : ∀ operand ∈ operands, operand.yields = true) :
    ∀ argument ∈ callArguments operands, argument.yields = true := by
  intro argument member
  unfold callArguments at member
  split at member
  case h_1 list =>
    have listed := valued list (.tail _ (.tail _ (.head _)))
    split at member
    · cases member
    · split at member
      case h_1 items _ _ _ =>
        obtain leaf | ⟨-, items⟩ := (Operation.yields_iff _).mp listed
        · cases leaf
        · exact items argument member
      case h_2 =>
        rw [List.mem_singleton.mp member]
        exact listed
  case h_2 => cases member

/-- An operation with a value leaves one binding on the stack, and every command of it finds what it
takes. -/
theorem yields_operation {pools : Pools} (operation : Operation) {usage : Usage}
    {commands : List Command} (emits : operation? pools usage operation = some commands)
    (valued : operation.yields = true) : Yields commands := by
  induction operation using Operation.induction generalizing usage commands with
  | node operation ih deep =>
    obtain leaf | ⟨plain, operands⟩ := operation.yields_iff.mp valued
    · cases emitted emits with
      | leaf known => exact yields_leaf known
      | node known ends => cases leaf; cases ends
      | single | member | assign | call | otherwise => cases leaf
    cases emitted emits with
    | leaf known => exact yields_leaf known
    | single known => exact ih _ (.head _) known (operands _ (.head _))
    | member known named =>
      intro shape
      obtain ⟨kind, binding, before⟩ := ih _ (.head _) known (operands _ (.head _)) shape
      exact ⟨.value, by simp, before.append (runs_member binding usage _ shape)⟩
    | assign known given =>
      intro shape
      obtain ⟨first, target, before⟩ := ih _ (.head _) known (operands _ (.head _)) shape
      obtain ⟨second, source, behind⟩ :=
        ih _ (.tail _ (.head _)) given (operands _ (.tail _ (.head _))) (first :: shape)
      exact ⟨.value, by simp, (before.append behind).append (runs_assign target source shape)⟩
    | @call caller method rest _ _ _ name _ _ short named indexed finds given =>
      intro shape
      have found := runs_found (ih _ (.head _)) (operands _ (.head _)) finds shape
      have copied := runs_copyMethod name (.value :: shape)
      obtain ⟨kinds, length, bindings, arguments⟩ := runs_operations (fun argument member => by
        obtain direct | ⟨operand, outer, inner⟩ := mem_callArguments member
        · exact ih argument direct
        · exact deep operand outer argument inner) given (yields_callArguments operands)
        (.copy :: .value :: shape)
      have called := runs_evaluate bindings shape
      rw [length] at called
      exact ⟨.value, by simp, ((found.append copied).append arguments).append called⟩
    | otherwise => contradiction
    | node known ends =>
      intro shape
      obtain ⟨kinds, length, bindings, before⟩ := runs_operations ih known operands shape
      rw [← length] at ends
      obtain ⟨last, binding, behind⟩ := runs_ending shape bindings ends
      exact ⟨last, binding, before.append behind⟩

private theorem runs_parameters {pools : Pools} {parameters : List Operation} {commands : List Command}
    (known : parameters? pools parameters = some commands) (shape : Shape) :
    Runs shape commands (List.replicate parameters.length SlotKind.name ++ shape) := by
  induction parameters generalizing commands shape with
  | nil => cases known; rfl
  | cons parameter rest ih =>
    obtain ⟨index, -, known⟩ := Option.bind_eq_some_iff.mp known
    obtain ⟨others, tail, known⟩ := Option.bind_eq_some_iff.mp known
    cases known
    refine ⟨rfl, ?_⟩
    have behind := ih tail (.name :: shape)
    rwa [List.append_cons, ← List.replicate_succ', ← List.length_cons] at behind

private theorem runs_defineMethod (count : Nat) (shape : Shape) :
    Runs (List.replicate count SlotKind.name ++ shape) [⟨.defineMethod, count⟩] (.value :: shape) := by
  refine ⟨SlotKind.offered_names count shape, ?_⟩
  show SlotKind.value :: List.drop (List.replicate count SlotKind.name).length
    (List.replicate count SlotKind.name ++ shape) = _
  simp

/-- A definition leaves the new method above its target. -/
theorem runs_definition {pools : Pools} {operation : Operation} {commands : List Command}
    (known : definition? pools operation = some commands)
    (valued : ∀ operand ∈ operation.operands, operand.yields = true) (shape : Shape) :
    ∃ kind, kind ≠ .name ∧ Runs shape commands (.value :: kind :: shape) := by
  unfold definition? at known
  split at known
  case h_1 =>
    obtain ⟨first, target, known⟩ := Option.bind_eq_some_iff.mp known
    cases known
    obtain ⟨kind, binding, before⟩ :=
      yields_operation _ target (valued _ (.head _)) shape
    exact ⟨kind, binding, before.append (runs_defineMethod 0 _)⟩
  case h_2 list _ _ =>
    obtain ⟨first, target, known⟩ := Option.bind_eq_some_iff.mp known
    obtain ⟨names, listed, known⟩ := Option.bind_eq_some_iff.mp known
    cases known
    obtain ⟨kind, binding, before⟩ :=
      yields_operation _ target (valued _ (.head _)) shape
    have parameters := runs_parameters listed (kind :: shape)
    exact ⟨kind, binding, (before.append parameters).append (runs_defineMethod _ _)⟩
  case h_3 => cases known

end Assembly

end ScopeMachine
