import ScopeMachine.Proofs.Assembly.Segment
import ScopeMachine.Proofs.PoolIndex
import ScopeMachine.Proofs.WellShaped

set_option autoImplicit false

/-!
# The grammar of programs

Which trees are expressions, which are method definitions, and in which order the entries of a block
may stand. The grammar speaks of the tree alone. An operation follows it exactly if it has commands
over the pools of its program.
-/

namespace ScopeMachine

/-- The numbers of operands that a kind takes if all its operands are values. -/
def Kind.valueCounts : Kind → List Nat
  | .not | .print | .if | .elseIf | .while | .new => [1]
  | .ask | .return => [0, 1]
  | .ref | .scopeResolution | .evaluate | .else | .defineMethod | .tuple => []
  | _ => [2]

namespace Operation

/-- A name that may stand for a member, a parameter or a method. Well-known names may not. -/
def IsPlainName (operation : Operation) : Prop :=
  ∃ name, operation.leafName? = some name ∧ wellKnown? name = none

/-- An operation that may stand for a value. The operands of a leaf and of an alternative do not
matter, and neither does a caller or a list of arguments that is the null object. -/
inductive Formed : Operation → Prop
  | leaf {operands : List Operation} {reference : Reference} {line : Nat} :
    Formed ⟨.ref, operands, some reference, line⟩
  | single {inner : Operation} {value : Option Reference} {line : Nat} (formed : Formed inner) :
    Formed ⟨.scopeResolution, [inner], value, line⟩
  | member {target name : Operation} {value : Option Reference} {line : Nat} (formed : Formed target)
    (plain : name.IsPlainName) : Formed ⟨.scopeResolution, [target, name], value, line⟩
  | call {caller method : Operation} {lists : List Operation} {value : Option Reference} {line : Nat}
    (short : lists.length ≤ 1) (formed : caller.isNothing = false → Formed caller)
    (plain : method.IsPlainName)
    (given : ∀ list ∈ lists, ∀ argument ∈ list.parameterList, Formed argument) :
    Formed ⟨.evaluate, caller :: method :: lists, value, line⟩
  | otherwise {operands : List Operation} {value : Option Reference} {line : Nat} :
    Formed ⟨.else, operands, value, line⟩
  | node {kind : Kind} {operands : List Operation} {value : Option Reference} {line : Nat}
    (count : operands.length ∈ kind.valueCounts) (given : ∀ operand ∈ operands, Formed operand) :
    Formed ⟨kind, operands, value, line⟩

/-- A method definition: a target and at most one list of parameters. -/
inductive Defines : Operation → Prop
  | method {target : Operation} {lists : List Operation} {value : Option Reference} {line : Nat}
    (short : lists.length ≤ 1) (formed : target.Formed)
    (plain : ∀ list ∈ lists, ∀ parameter ∈ list.parameterList, parameter.IsPlainName) :
    Defines ⟨.defineMethod, target :: lists, value, line⟩

end Operation

/-! ## Blocks -/

mutual

def Entry.blocks : Entry → List Block
  | .statement _ => []
  | .block body => body :: Block.blocks body
termination_by structural entry => entry

def Block.blocks : List Entry → List Block
  | [] => []
  | entry :: rest => Entry.blocks entry ++ Block.blocks rest
termination_by structural entries => entries

end

/-- The entries end with a condition of a chain, alone or with one block behind it. -/
def Block.EndsWithClause (entries : Block) : Prop :=
  ∃ before clause, (clause.kind = .if ∨ clause.kind = .elseIf)
    ∧ (entries = before ++ [Entry.statement clause]
      ∨ ∃ body, entries = before ++ [Entry.statement clause, .block body])

/-- A statement that may stand between the entries before and after it in its block. -/
structure Operation.Allowed (before : Block) (operation : Operation) (after : Block) : Prop where
  /-- It is an expression or a method definition. -/
  formed : operation.Formed ∨ operation.Defines
  /-- A further clause of a chain follows a condition, with at most its body in between. -/
  clause : operation.kind = .elseIf ∨ operation.kind = .else → before.EndsWithClause
  /-- A method definition is followed by its body. -/
  definition : operation.kind = .defineMethod → Block.startsWithBlock after = true

/-- Every statement of the program may stand where it stands. -/
def Program.Grammatical (program : Program) : Prop :=
  ∀ block ∈ program.main :: Block.blocks program.main, ∀ before operation after,
    block = before ++ Entry.statement operation :: after → operation.Allowed before after

/-! ## Statements in their blocks -/

mutual

/-- A property of statements and their surroundings holds for an entry. -/
def Entry.Each (property : Block → Operation → Block → Prop) (before : Block) :
    Entry → Block → Prop
  | .statement operation, after => property before operation after
  | .block body, _ => Block.Each property [] body
termination_by structural entry => entry

/-- A property of statements and their surroundings holds for all entries of a block from some
place on. -/
def Block.Each (property : Block → Operation → Block → Prop) : Block → List Entry → Prop
  | _, [] => True
  | before, entry :: rest =>
    Entry.Each property before entry rest ∧ Block.Each property (before ++ [entry]) rest
termination_by structural _ entries => entries

end

section

variable {property other : Block → Operation → Block → Prop}

private theorem Block.each_iff {before : Block} (entries : Block) :
    Block.Each property before entries ↔
      (∀ front operation after, entries = front ++ Entry.statement operation :: after →
        property (before ++ front) operation after)
      ∧ ∀ block ∈ Block.blocks entries, ∀ front operation after,
        block = front ++ Entry.statement operation :: after → property front operation after := by
  induction entries using Block.induction generalizing before with
  | nil => simp [Block.Each, Block.blocks]
  | statement first rest ih =>
    simp only [Block.Each, Entry.Each, Block.blocks, Entry.blocks, List.nil_append, ih,
      ← and_assoc]
    refine and_congr_left fun _ => ⟨fun ⟨own, later⟩ front operation after split => ?_,
      fun each => ⟨?_, fun front operation after split => ?_⟩⟩
    · cases front with
      | nil =>
        cases split
        simpa using own
      | cons entry front =>
        cases split
        simpa using later front operation after rfl
    · simpa using each [] first rest rfl
    · simpa using each (.statement first :: front) operation after (by simp [split])
  | block body rest inner later =>
    simp only [Block.Each, Entry.Each, Block.blocks, Entry.blocks, later, inner, List.nil_append,
      List.cons_append, List.forall_mem_cons, List.forall_mem_append]
    refine ⟨fun ⟨⟨own, inside⟩, follows, deep⟩ => ⟨?_, own, inside, deep⟩,
      fun ⟨follows, own, inside, deep⟩ => ⟨⟨own, inside⟩, ?_, deep⟩⟩
    · intro front operation after split
      cases front with
      | nil => cases split
      | cons entry front =>
        cases split
        simpa using follows front operation after rfl
    · intro front operation after split
      simpa using follows (.block body :: front) operation after (by simp [split])

theorem Block.Each.mono {before : Block} {entries : Block}
    (each : Block.Each property before entries)
    (implies : ∀ {before operation after}, property before operation after →
      other before operation after) : Block.Each other before entries := by
  rw [Block.each_iff] at each ⊢
  exact ⟨fun front operation after split => implies (each.1 front operation after split),
    fun block member front operation after split =>
      implies (each.2 block member front operation after split)⟩

theorem Block.Each.and {before : Block} {entries : Block}
    (first : Block.Each property before entries) (second : Block.Each other before entries) :
    Block.Each (fun before operation after => property before operation after
      ∧ other before operation after) before entries := by
  rw [Block.each_iff] at first second ⊢
  exact ⟨fun front operation after split =>
      ⟨first.1 front operation after split, second.1 front operation after split⟩,
    fun block member front operation after split =>
      ⟨first.2 block member front operation after split,
        second.2 block member front operation after split⟩⟩

end

theorem Program.grammatical_iff (program : Program) :
    program.Grammatical ↔
      Block.Each (fun before operation after => operation.Allowed before after) [] program.main := by
  rw [Block.each_iff]
  simp [Program.Grammatical]

/-! ## Commands and the grammar -/

namespace Assembly

open Operation (Formed Defines)

private theorem ending?_isSome_iff (kind : Kind) (count : Nat) :
    (ending? kind count).isSome ↔ count ∈ kind.valueCounts ∧ kind ≠ .assign := by
  match count with
  | 0 | 1 | 2 => cases kind <;> decide
  | count + 3 => cases kind <;> simp [ending?, Kind.valueCounts]

private theorem operations?_isSome_iff (pools : Pools) (operations : List Operation) :
    (operations? pools operations).isSome ↔
      ∀ operation ∈ operations, (operation? pools .value operation).isSome := by
  induction operations with
  | nil => simp [operations?]
  | cons first rest ih =>
    simp only [operations?, List.forall_mem_cons, ← ih]
    cases operation? pools .value first <;> cases operations? pools rest <;> simp

private theorem parameters?_isSome_iff (pools : Pools) (operations : List Operation) :
    (parameters? pools operations).isSome ↔
      ∀ operation ∈ operations, (member? pools operation).isSome := by
  induction operations with
  | nil => simp [parameters?]
  | cons first rest ih =>
    simp only [parameters?, List.forall_mem_cons, ← ih]
    cases member? pools first <;> cases parameters? pools rest <;> simp

theorem callArguments_eq (caller method : Operation) {lists : List Operation}
    (short : lists.length ≤ 1) :
    callArguments (caller :: method :: lists) = lists.flatMap Operation.parameterList := by
  match lists with
  | [] => rfl
  | [⟨kind, operands, value, line⟩] =>
    simp only [callArguments, Operation.parameterList, List.flatMap_cons, List.flatMap_nil,
      List.append_nil]
    cases kind <;> rfl

private theorem operation?_call (pools : Pools) (usage : Usage) {caller method : Operation}
    {lists : List Operation} {value : Option Reference} {line index : Nat} {name : String}
    {found : List Command} (short : lists.length ≤ 1) (leaf : method.leafName? = some name)
    (known : pools.names.index? name = some index) (finds : found? pools caller index = some found)
    (listed : ∀ argument ∈ lists.flatMap Operation.parameterList,
      (operation? pools .value argument).isSome) :
    (operation? pools usage ⟨.evaluate, caller :: method :: lists, value, line⟩).isSome := by
  unfold found? at finds
  match lists with
  | [] => simp [operation?, leaf, known, finds]
  | [list] =>
    simp only [List.flatMap_cons, List.flatMap_nil, List.append_nil, Operation.parameterList]
      at listed
    simp only [operation?, leaf, known, finds, Option.bind_eq_bind, Option.bind_some]
    split
    · rfl
    case isFalse something =>
      rw [if_neg something] at listed
      split
      case h_1 _ items _ _ =>
        have each := (operations?_isSome_iff pools items).mpr (by simpa using listed)
        obtain ⟨arguments, given⟩ := Option.isSome_iff_exists.mp each
        simp [given]
      case h_2 other =>
        have single := listed list (by
          obtain ⟨kind, items, value, line⟩ := list
          cases kind <;> simp_all)
        obtain ⟨argument, given⟩ := Option.isSome_iff_exists.mp single
        simp [given]

private theorem operation?_node (pools : Pools) (usage : Usage) {kind : Kind} {operands : List Operation}
    {value : Option Reference} {line : Nat} (count : operands.length ∈ kind.valueCounts)
    (other : kind ≠ .assign)
    (listed : ∀ operand ∈ operands, (operation? pools .value operand).isSome) :
    (operation? pools usage ⟨kind, operands, value, line⟩).isSome := by
  have ends := (ending?_isSome_iff kind operands.length).mpr ⟨count, other⟩
  obtain ⟨ending, ends⟩ := Option.isSome_iff_exists.mp ends
  have each := (operations?_isSome_iff pools operands).mpr listed
  obtain ⟨first, given⟩ := Option.isSome_iff_exists.mp each
  have node : operation? pools usage ⟨kind, operands, value, line⟩
      = (do
        let ending ← ending? kind operands.length
        let first ← operations? pools operands
        some (first ++ ending)) := by
    cases kind <;> first | rfl | simp_all [Kind.valueCounts]
  simp [node, ends, given]

section

variable {pools : Pools} (plain : pools.Plain)

private theorem covers_parameterList {list operation : Operation} (covers : pools.Covers list)
    (member : operation ∈ list.parameterList) : pools.Covers operation := by
  unfold Operation.parameterList at member
  split at member
  · cases member
  · split at member
    · obtain ⟨-, below⟩ := covers
      exact below operation member
    · obtain rfl := List.mem_singleton.mp member
      exact covers

private theorem knows_leafName? {operation : Operation} {name : String} (covers : pools.Covers operation)
    (leaf : operation.leafName? = some name) (special : wellKnown? name = none) :
    (pools.names.index? name).isSome := by
  induction covers with
  | @node operation own below ih =>
    unfold Operation.leafName? at leaf
    split at leaf
    case h_1 text _ =>
      cases leaf
      have known := own (.name name) rfl rfl
      rwa [Reference.entity, special] at known
    case h_2 inner _ _ => exact ih inner (.head _) leaf
    case h_3 => cases leaf

include plain

private theorem member?_isSome_iff {operation : Operation} (covers : pools.Covers operation) :
    (member? pools operation).isSome ↔ operation.IsPlainName := by
  constructor
  · intro known
    obtain ⟨index, found⟩ := Option.isSome_iff_exists.mp known
    obtain ⟨name, leaf, found⟩ := Option.bind_eq_some_iff.mp found
    exact ⟨name, leaf, plain name (Option.isSome_of_eq_some found)⟩
  · rintro ⟨name, leaf, special⟩
    simpa [member?, leaf] using knows_leafName? covers leaf special

/-- An operation that has commands follows the grammar. -/
theorem formed_of_operation? (operation : Operation) {usage : Usage}
    (known : (operation? pools usage operation).isSome) : operation.Formed := by
  induction operation using Operation.induction generalizing usage with
  | node operation ih deep =>
    obtain ⟨commands, known⟩ := Option.isSome_iff_exists.mp known
    cases emitted known with
    | @leaf operands value line _ leaf =>
      cases value with
      | none => cases leaf
      | some reference => exact .leaf
    | single inner => exact .single (ih _ (.head _) (Option.isSome_of_eq_some inner))
    | member target named =>
      obtain ⟨name, leaf, found⟩ := Option.bind_eq_some_iff.mp named
      exact .member (ih _ (.head _) (Option.isSome_of_eq_some target)) ⟨name, leaf, plain name (Option.isSome_of_eq_some found)⟩
    | assign target source =>
      refine .node (by simp [Kind.valueCounts]) ?_
      simp only [List.forall_mem_cons, List.not_mem_nil, false_implies, implies_true, and_true]
      exact ⟨ih _ (.head _) (Option.isSome_of_eq_some target), ih _ (.tail _ (.head _)) (Option.isSome_of_eq_some source)⟩
    | @call caller method lists value line index name _ _ short named found finds given =>
      have listed := (operations?_isSome_iff pools _).mp (Option.isSome_of_eq_some given)
      refine .call short (fun something => ?_) ⟨name, named, plain name (Option.isSome_of_eq_some found)⟩ ?_
      · simp only [found?, something, Bool.false_eq_true, if_false, Option.map_eq_some_iff] at finds
        obtain ⟨_, caller, -⟩ := finds
        exact ih _ (.head _) (Option.isSome_of_eq_some caller)
      · intro list member argument inside
        have among : argument ∈ callArguments (caller :: method :: lists) := by
          rw [callArguments_eq caller method short]
          exact List.mem_flatMap.mpr ⟨list, member, inside⟩
        obtain direct | ⟨operand, member, inner⟩ := mem_callArguments among
        · exact ih argument direct (listed argument among)
        · exact deep operand member argument inner (listed argument among)
    | otherwise => exact .otherwise
    | node listed ends =>
      have counts := (ending?_isSome_iff _ _).mp (Option.isSome_of_eq_some ends)
      have each := (operations?_isSome_iff pools _).mp (Option.isSome_of_eq_some listed)
      exact .node counts.1 fun operand member => ih operand member (each operand member)

omit plain in
/-- An operation that follows the grammar has commands, if the pools know its leaves. -/
theorem operation?_of_formed {operation : Operation} (formed : operation.Formed)
    (covers : pools.Covers operation) (usage : Usage) :
    (operation? pools usage operation).isSome := by
  induction formed generalizing usage with
  | @leaf operands reference line =>
    obtain ⟨own, -⟩ := covers
    have known := own reference rfl rfl
    simp only [operation?, leaf?]
    cases entity : reference.entity with
    | constant constant =>
      rw [entity] at known
      obtain ⟨index, found⟩ := Option.isSome_iff_exists.mp known
      simp [found]
    | name name =>
      rw [entity] at known
      obtain ⟨index, found⟩ := Option.isSome_iff_exists.mp known
      simp [found]
  | single formed ih =>
    obtain ⟨-, below⟩ := covers
    exact ih (below _ (.head _)) usage
  | @member target name value line formed plain ih =>
    obtain ⟨-, below⟩ := covers
    obtain ⟨first, known⟩ := Option.isSome_iff_exists.mp (ih (below _ (.head _)) .value)
    obtain ⟨text, leaf, special⟩ := plain
    obtain ⟨index, found⟩ := Option.isSome_iff_exists.mp
      (knows_leafName? (below _ (.tail _ (.head _))) leaf special)
    simp [operation?, member?, known, leaf, found]
  | @call caller method lists value line short formed plain given ihCaller ihGiven =>
    obtain ⟨-, below⟩ := covers
    obtain ⟨text, leaf, special⟩ := plain
    obtain ⟨index, found⟩ := Option.isSome_iff_exists.mp
      (knows_leafName? (below _ (.tail _ (.head _))) leaf special)
    have finds : ∃ commands, found? pools caller index = some commands := by
      unfold found?
      split
      · exact ⟨_, rfl⟩
      case isFalse something =>
        obtain ⟨commands, known⟩ := Option.isSome_iff_exists.mp
          (ihCaller (by simpa using something) (below _ (.head _)) .value)
        exact ⟨_, by rw [known]; rfl⟩
    obtain ⟨commands, finds⟩ := finds
    refine operation?_call pools usage short leaf found finds fun argument among => ?_
    obtain ⟨list, member, inside⟩ := List.mem_flatMap.mp among
    exact ihGiven list member argument inside
      (covers_parameterList (below list (.tail _ (.tail _ member))) inside) .value
  | otherwise => simp [operation?]
  | @node kind operands value line count given ih =>
    obtain ⟨-, below⟩ := covers
    by_cases assigns : kind = .assign
    · subst assigns
      match operands with
      | [] | [_] | _ :: _ :: _ :: _ => simp [Kind.valueCounts] at count
      | [target, source] =>
        obtain ⟨first, known⟩ :=
          Option.isSome_iff_exists.mp (ih _ (.head _) (below _ (.head _)) .target)
        obtain ⟨second, also⟩ := Option.isSome_iff_exists.mp
          (ih _ (.tail _ (.head _)) (below _ (.tail _ (.head _))) .value)
        simp [operation?, known, also]
    · exact operation?_node pools usage count assigns
        fun operand member => ih operand member (below operand member) .value

/-- A method definition has commands exactly if it follows the grammar. -/
theorem definition?_isSome_iff {operation : Operation} (covers : pools.Covers operation)
    (defines : operation.kind = .defineMethod) :
    (definition? pools operation).isSome ↔ operation.Defines := by
  obtain ⟨kind, operands, value, line⟩ := operation
  obtain ⟨-, below⟩ := covers
  cases defines
  constructor
  · intro known
    match operands with
    | [] | _ :: _ :: _ :: _ => simp [definition?] at known
    | [target] =>
      obtain ⟨commands, known⟩ := Option.isSome_iff_exists.mp known
      obtain ⟨first, own, -⟩ := Option.bind_eq_some_iff.mp known
      exact .method (Nat.zero_le _)
        (formed_of_operation? plain target (Option.isSome_of_eq_some own)) (by simp)
    | [target, list] =>
      obtain ⟨commands, known⟩ := Option.isSome_iff_exists.mp known
      obtain ⟨first, own, known⟩ := Option.bind_eq_some_iff.mp known
      obtain ⟨names, named, -⟩ := Option.bind_eq_some_iff.mp known
      refine .method (Nat.le_refl _)
        (formed_of_operation? plain target (Option.isSome_of_eq_some own)) fun list member => ?_
      obtain rfl := List.mem_singleton.mp member
      intro parameter inside
      have each := (parameters?_isSome_iff pools _).mp (Option.isSome_of_eq_some named)
      exact (member?_isSome_iff plain
        (covers_parameterList (below list (.tail _ (.head _))) inside)).mp (each parameter inside)
  · intro method
    cases method with
    | @method target lists _ _ short formed named =>
      obtain ⟨first, own⟩ := Option.isSome_iff_exists.mp
        (operation?_of_formed formed (below target (.head _)) .target)
      match lists with
      | [] => simp [definition?, own]
      | [list] =>
        have each := (parameters?_isSome_iff pools list.parameterList).mpr fun parameter inside =>
          (member?_isSome_iff plain
            (covers_parameterList (below list (.tail _ (.head _))) inside)).mpr
            (named list (.head _) parameter inside)
        obtain ⟨names, listed⟩ := Option.isSome_iff_exists.mp each
        simp [definition?, own, listed]

/-- A statement has commands exactly if it is an expression or a method definition. -/
theorem statement?_isSome_iff {operation : Operation} (covers : pools.Covers operation) :
    (statement? pools operation).isSome ↔ operation.Formed ∨ operation.Defines := by
  by_cases defines : operation.kind = .defineMethod
  · have role : role operation.kind = .definition := role_eq_definition.mpr defines
    simp only [statement?, role]
    rw [definition?_isSome_iff plain covers defines]
    refine ⟨.inr, fun either => either.resolve_left fun formed => ?_⟩
    cases formed with
    | node count =>
      cases defines
      cases count
    | leaf | single | member | call | otherwise => cases defines
  · have role : role operation.kind ≠ .definition := fun same => defines (role_eq_definition.mp same)
    have same : statement? pools operation = operation? pools .value operation := by
      unfold statement?
      split
      · contradiction
      · rfl
    rw [same]
    constructor
    · exact fun known => .inl (formed_of_operation? plain operation known)
    · rintro (formed | method)
      · exact operation?_of_formed formed covers .value
      · cases method
        exact absurd rfl defines

end

end Assembly

/-- The pools of a program know the leaves of its statements. -/
theorem Pools.covers_addBlock (pools : Pools) (before block : Block) :
    Block.Each (fun _ operation _ => (pools.addBlock block).Covers operation) before block := by
  induction block using Block.induction generalizing pools before with
  | nil => trivial
  | statement first rest ih =>
    exact ⟨(pools.covers_addOperation first).mono fun known => known.addBlock rest, ih _ _⟩
  | block body rest inner later =>
    exact ⟨(inner pools []).mono fun covers => covers.mono fun known => known.addBlock rest,
      later _ _⟩

end ScopeMachine
