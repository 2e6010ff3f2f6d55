import ScopeMachine.Program.Construct
import ScopeMachine.Proofs.Loads

set_option autoImplicit false

/-!
# Agreement on the pools

The pools are collected before code is emitted, and the code refers to them leaf by leaf. What the
code asks for is there, except where a well-known name stands for a method.
-/

namespace ScopeMachine

/-! ## Leaves that the pools do not hold -/

/-- The operation is a call of a method by a name. -/
def Operation.Calls (operation : Operation) (name : String) : Prop :=
  operation.kind = .evaluate ∧ ∃ caller method rest,
    operation.operands = caller :: method :: rest ∧ method.leafName? = some name

/-- Some of the operations call a method by a well-known name. -/
def Miscalled (parts : List Operation) (name : String) : Prop :=
  (wellKnown? name).isSome ∧ ∃ call ∈ parts, call.Calls name

theorem Miscalled.mono {parts more : List Operation} {name : String} (miscalled : Miscalled parts name)
    (within : parts ⊆ more) : Miscalled more name := by
  obtain ⟨special, call, member, calls⟩ := miscalled
  exact ⟨special, call, within member, calls⟩

namespace Operation

private theorem parts_subset_partsAll {operations : List Operation} {operation : Operation}
    (member : operation ∈ operations) : operation.parts ⊆ partsAll operations := by
  rw [partsAll_eq_flatMap]
  exact fun part inside => List.mem_flatMap.mpr ⟨operation, member, inside⟩

private theorem partsAll_subset (operation : Operation) :
    partsAll operation.operands ⊆ operation.parts := by
  rw [operation.parts_eq]
  exact List.subset_cons_self _ _

private theorem leavesAll_subset (operation : Operation) :
    leavesAll operation.operands ⊆ operation.leaves :=
  List.filterMap_subset _ operation.partsAll_subset

private theorem parts_subset {operation operand : Operation} (member : operand ∈ operation.operands) :
    operand.parts ⊆ operation.parts :=
  List.Subset.trans (parts_subset_partsAll member) operation.partsAll_subset

private theorem leaves_subset {operation operand : Operation} (member : operand ∈ operation.operands) :
    operand.leaves ⊆ operation.leaves :=
  List.filterMap_subset _ (parts_subset member)

end Operation

/-- The pools know what leaves denote. -/
def Pools.KnowsAll (pools : Pools) (leaves : List Reference) : Prop :=
  ∀ reference ∈ leaves, pools.Knows reference.entity

namespace Compile

section

variable {pools : Pools} {name : String}

private theorem bind_error {α β : Type} {first : Except CompileError α} {next : α → Except CompileError β}
    {error : CompileError} (failed : first >>= next = .error error) :
    first = .error error ∨ ∃ middle, first = .ok middle ∧ next middle = .error error := by
  cases first with
  | error other =>
    cases failed
    exact .inl rfl
  | ok middle => exact .inr ⟨middle, rfl, failed⟩

private theorem memberIndex_ne (operation : Operation) :
    pools.memberIndex operation ≠ .error (.notInterned name) := by
  unfold Pools.memberIndex
  split
  · simp
  · split <;> simp

private theorem method_ne (draft : Draft) (count line : Nat) :
    draft.method count line ≠ .error (.notInterned name) := by
  obtain ⟨code, openMethod⟩ := draft
  cases openMethod <;> simp [Draft.method]

private theorem parameters_ne (parameters : List Operation) (draft : Draft) :
    Draft.parameters pools parameters draft ≠ .error (.notInterned name) := by
  induction parameters generalizing draft with
  | nil => simp [Draft.parameters]
  | cons parameter rest ih =>
    intro failed
    obtain failed | ⟨index, -, failed⟩ := bind_error failed
    · exact memberIndex_ne parameter failed
    · exact ih _ failed

private theorem leaf_ne {value : Option Reference} (known : pools.KnowsAll value.toList) (usage : Usage)
    (line : Nat) (draft : Draft) :
    draft.leaf pools usage value line ≠ .error (.notInterned name) := by
  cases value with
  | none => simp [Draft.leaf]
  | some reference =>
    have known := known reference (.head _)
    intro failed
    simp only [Draft.leaf] at failed
    split at failed
    case h_1 constant entity =>
      rw [entity] at known
      obtain ⟨index, found⟩ := Option.isSome_iff_exists.mp known
      simp [Pools.constantIndex, found, bind, Except.bind] at failed
    case h_2 text entity =>
      rw [entity] at known
      obtain ⟨index, found⟩ := Option.isSome_iff_exists.mp known
      simp [Pools.nameIndex, found, bind, Except.bind] at failed

private theorem methodIndex_error {method : Operation} (known : pools.KnowsAll method.leaves)
    (failed : pools.methodIndex method = .error (.notInterned name)) :
    (wellKnown? name).isSome ∧ method.leafName? = some name := by
  unfold Pools.methodIndex at failed
  split at failed
  case h_1 => cases failed
  case h_2 text leaf =>
    have member : .name text ∈ method.leaves := by
      have inside := method.named_sublist
      rw [Operation.named, leaf] at inside
      exact inside.subset (.head _)
    obtain failed | ⟨index, -, failed⟩ := bind_error failed
    case inr => cases failed
    unfold Pools.nameIndex at failed
    split at failed
    case h_1 => cases failed
    case h_2 missing =>
      cases failed
      refine ⟨?_, leaf⟩
      have denoted := known _ member
      cases special : wellKnown? name with
      | some constant => rfl
      | none => simp [Reference.entity, special, Pools.Knows, missing] at denoted

private theorem operations_error {operands : List Operation}
    (each : ∀ operand ∈ operands, ∀ {usage draft}, pools.KnowsAll operand.leaves →
      operation pools usage operand draft = .error (.notInterned name) →
        Miscalled operand.parts name)
    (known : pools.KnowsAll (Operation.leavesAll operands)) {draft : Draft}
    (failed : operations pools operands draft = .error (.notInterned name)) :
    Miscalled (Operation.partsAll operands) name := by
  induction operands generalizing draft with
  | nil => cases failed
  | cons first rest ih =>
    rw [Operation.leavesAll_cons] at known
    rw [Operation.partsAll]
    obtain failed | ⟨middle, -, failed⟩ := bind_error failed
    · refine (each first (.head _) ?_ failed).mono (List.subset_append_left _ _)
      exact fun reference member => known reference (List.mem_append_left _ member)
    · refine (ih (fun operand member => each operand (.tail _ member)) ?_ failed).mono
        (List.subset_append_right _ _)
      exact fun reference member => known reference (List.mem_append_right _ member)

/-- The code that finds the method of a call fails as the caller does. -/
theorem found_error {caller : Operation} {index : Nat} {draft : Draft} {error : CompileError}
    (failed : (if caller.isNothing then .ok (draft.bareMethod index)
      else (operation pools .value caller draft).map (·.callerMethod index)) = .error error) :
    operation pools .value caller draft = .error error := by
  split at failed
  · cases failed
  · cases result : operation pools .value caller draft with
    | error other =>
      rw [result] at failed
      cases failed
      rfl
    | ok after =>
      rw [result] at failed
      cases failed

/-- An operation is refused for a leaf that the pools do not hold only where a well-known name stands
for a method. -/
theorem operation_error (operation : Operation) (known : pools.KnowsAll operation.leaves)
    {usage : Usage} {draft : Draft}
    (failed : Compile.operation pools usage operation draft = .error (.notInterned name)) :
    Miscalled operation.parts name := by
  induction operation using Operation.induction generalizing usage draft with
  | node operation ih deep =>
    have below {operand : Operation} (member : operand ∈ operation.operands) {usage : Usage}
        {draft : Draft}
        (failed : Compile.operation pools usage operand draft = .error (.notInterned name)) :
        Miscalled operation.parts name :=
      (ih operand member (fun reference inside => known reference
        (Operation.leaves_subset member inside)) failed).mono (Operation.parts_subset member)
    have listed {holder : Operation} (within : holder.parts ⊆ operation.parts)
        (each : ∀ operand ∈ holder.operands, ∀ {usage draft}, pools.KnowsAll operand.leaves →
          Compile.operation pools usage operand draft = .error (.notInterned name) →
            Miscalled operand.parts name)
        {draft : Draft}
        (failed : operations pools holder.operands draft = .error (.notInterned name)) :
        Miscalled operation.parts name := by
      have leaves := List.Subset.trans holder.leavesAll_subset (List.filterMap_subset _ within)
      exact (operations_error each (fun reference inside => known reference (leaves inside))
        failed).mono (List.Subset.trans holder.partsAll_subset within)
    have method_ {method : Operation} (member : method ∈ operation.operands)
        (calls : ∀ {name}, method.leafName? = some name → operation.Calls name)
        (failed : pools.methodIndex method = .error (.notInterned name)) :
        Miscalled operation.parts name := by
      obtain ⟨special, leaf⟩ := methodIndex_error (fun reference inside => known reference
        (Operation.leaves_subset member inside)) failed
      exact ⟨special, operation, by rw [operation.parts_eq]; exact .head _, calls leaf⟩
    unfold Compile.operation at failed
    split at failed
    case h_1 operands value line =>
      refine absurd failed (leaf_ne (fun reference member => known reference ?_) usage line draft)
      rw [Operation.leaves_eq]
      exact List.mem_append_left _ member
    case h_2 single _ _ => exact below (.head _) failed
    case h_3 target member _ _ =>
      obtain failed | ⟨middle, -, failed⟩ := bind_error failed
      · exact below (.head _) failed
      obtain failed | ⟨index, -, failed⟩ := bind_error failed
      · exact absurd failed (memberIndex_ne member)
      · cases failed
    case h_4 target value _ _ =>
      obtain failed | ⟨middle, -, failed⟩ := bind_error failed
      · exact below (.head _) failed
      obtain failed | ⟨later, -, failed⟩ := bind_error failed
      · exact below (.tail _ (.head _)) failed
      · cases failed
    case h_5 target _ line =>
      obtain failed | ⟨middle, -, failed⟩ := bind_error failed
      · exact below (.head _) failed
      · exact absurd failed (method_ne _ _ _)
    case h_6 target list _ line =>
      obtain failed | ⟨middle, -, failed⟩ := bind_error failed
      · exact below (.head _) failed
      obtain failed | ⟨later, -, failed⟩ := bind_error failed
      · exact absurd failed (parameters_ne _ _)
      · exact absurd failed (method_ne _ _ _)
    case h_7 caller method _ _ =>
      obtain failed | ⟨⟨text, index⟩, -, failed⟩ := bind_error failed
      · exact method_ (.tail _ (.head _)) (fun leaf => ⟨rfl, _, _, _, rfl, leaf⟩) failed
      obtain failed | ⟨middle, -, failed⟩ := bind_error failed
      · exact below (.head _) (found_error failed)
      · cases failed
    case h_8 caller method list _ _ =>
      obtain failed | ⟨⟨text, index⟩, -, failed⟩ := bind_error failed
      · exact method_ (.tail _ (.head _)) (fun leaf => ⟨rfl, _, _, _, rfl, leaf⟩) failed
      obtain failed | ⟨middle, -, failed⟩ := bind_error failed
      · exact below (.head _) (found_error failed)
      simp only at failed
      split at failed
      case isTrue => cases failed
      case isFalse =>
        split at failed
        case h_1 =>
          obtain failed | ⟨later, -, failed⟩ := bind_error failed
          · exact listed (Operation.parts_subset (.tail _ (.tail _ (.head _))))
              (fun operand inside _ _ known failed =>
                deep _ (.tail _ (.tail _ (.head _))) operand inside known failed) failed
          · cases failed
        case h_2 =>
          obtain failed | ⟨later, -, failed⟩ := bind_error failed
          · exact below (.tail _ (.tail _ (.head _))) failed
          · cases failed
    case h_9 => cases failed
    case h_10 => cases failed
    case h_11 kind operands value line _ _ _ _ _ _ _ _ _ _ =>
      split at failed
      case h_1 =>
        obtain failed | ⟨middle, -, failed⟩ := bind_error failed
        · exact listed (List.Subset.refl _)
            (fun operand inside _ _ known failed => ih operand inside known failed) failed
        · cases failed
      case h_2 => cases failed

/-! ### Blocks -/

private theorem patchAll_ne {opcode : Opcode} {target : Nat} {placeholders : List Placeholder}
    {code after : Code} :
    code.patchAll opcode target placeholders ≠ (some (.notInterned name), after) := by
  induction placeholders generalizing code with
  | nil => simp [Code.patchAll]
  | cons placeholder rest ih =>
    unfold Code.patchAll
    split
    · exact ih
    · simp

private theorem patch_ne (draft : Draft) (placeholder : Placeholder) (opcode : Opcode) (target : Nat) :
    draft.patch placeholder opcode target ≠ .error (.notInterned name) := by
  obtain ⟨code, openMethod⟩ := draft
  simp only [Draft.patch, Code.patch]
  by_cases room : placeholder.holds target <;> simp [room]

private theorem resolve_ne (cursor : Cursor) : cursor.resolve ≠ .error (.notInterned name) := by
  intro failed
  obtain ⟨⟨code, openMethod⟩, jumps, owner⟩ := cursor
  simp only [Cursor.resolve, PendingJumps.resolve] at failed
  rcases exits : code.patchAll .jump code.size jumps.exits.toList with ⟨failure | failure, middle⟩
  · rcases branches : middle.patchAll .jumpIfFalse code.size jumps.branches.toList with
      ⟨failure | failure, final⟩
    · simp [exits, branches] at failed
    · simp only [exits, branches, Except.error.injEq] at failed
      exact patchAll_ne (failed ▸ branches)
  · simp only [exits, Except.error.injEq] at failed
    exact patchAll_ne (failed ▸ exits)

private theorem resolveClause_ne (kind : Kind) (line : Nat) (cursor : Cursor) :
    cursor.resolveClause kind line ≠ .error (.notInterned name) := by
  intro failed
  obtain ⟨⟨code, openMethod⟩, jumps, owner⟩ := cursor
  simp only [Cursor.resolveClause, PendingJumps.resolveClause] at failed
  cases last : jumps.branches.back? with
  | none => simp [last] at failed
  | some placeholder =>
    rcases patched : code.patchAll .jumpIfFalse code.size [placeholder] with ⟨failure | failure, after⟩
    · simp [last, patched] at failed
    · simp only [last, patched, Except.error.injEq] at failed
      exact patchAll_ne (failed ▸ patched)

private theorem beforeBlock_ne (cursor : Cursor) : cursor.beforeBlock ≠ .error (.notInterned name) := by
  unfold Cursor.beforeBlock
  split
  · split
    · simp
    · exact resolve_ne cursor
  · exact resolve_ne cursor

private theorem beginMethod_ne (draft : Draft) : draft.beginMethod ≠ .error (.notInterned name) := by
  obtain ⟨code, _ | ⟨place, line⟩⟩ := draft
  · simp [Draft.beginMethod]
  · simp only [Draft.beginMethod, Code.patch]
    by_cases room : place.holds code.reserve.2.size <;> simp [room]

private theorem statement_error {operation : Operation} (known : pools.KnowsAll operation.leaves)
    {cursor : Cursor} (failed : cursor.statement pools operation = .error (.notInterned name)) :
    Miscalled operation.parts name := by
  obtain failed | ⟨⟨⟨code, openMethod⟩, jumps, owner⟩, -, failed⟩ := bind_error failed
  · split at failed
    · exact absurd failed (resolveClause_ne _ _ _)
    · exact absurd failed (resolve_ne _)
  · obtain failed | ⟨draft, -, failed⟩ := bind_error failed
    · exact operation_error operation known failed
    · cases failed

private theorem block_error {body : Block}
    (inner : ∀ {cursor}, entries pools body cursor = .error (.notInterned name) →
      Miscalled (Block.parts body) name)
    {cursor : Cursor} (failed : entry pools (.block body) cursor = .error (.notInterned name)) :
    Miscalled (Block.parts body) name := by
  obtain failed | ⟨⟨draft, jumps, owner⟩, -, failed⟩ := bind_error failed
  · exact absurd failed (beforeBlock_ne _)
  dsimp only at failed
  split at failed
  case h_1 =>
    obtain failed | ⟨last, -, failed⟩ := bind_error failed
    · exact inner failed
    obtain failed | ⟨patched, -, failed⟩ := bind_error failed
    · exact absurd failed (patch_ne _ _ _ _)
    · cases failed
  case h_2 =>
    obtain failed | ⟨⟨skip, begun⟩, -, failed⟩ := bind_error failed
    · exact absurd failed (beginMethod_ne _)
    obtain failed | ⟨last, -, failed⟩ := bind_error failed
    · exact inner failed
    obtain failed | ⟨patched, -, failed⟩ := bind_error failed
    · exact absurd failed (patch_ne _ _ _ _)
    · cases failed
  case h_3 =>
    obtain failed | ⟨last, -, failed⟩ := bind_error failed
    · exact inner failed
    · split at failed <;> cases failed

private theorem entries_error (block : Block) (known : pools.KnowsAll (Block.leaves block)) {cursor : Cursor}
    (failed : entries pools block cursor = .error (.notInterned name)) :
    Miscalled (Block.parts block) name := by
  induction block using Block.induction generalizing cursor with
  | nil =>
    unfold entries at failed
    split at failed
    · cases failed
    · next resolved =>
      cases failed
      exact absurd resolved (resolve_ne cursor)
  | statement operation rest ih =>
    rw [Block.leaves_statement] at known
    rw [Block.parts]
    obtain failed | ⟨middle, -, failed⟩ := bind_error failed
    · refine (statement_error ?_ failed).mono (List.subset_append_left _ _)
      exact fun reference member => known reference (List.mem_append_left _ member)
    · refine (ih ?_ failed).mono (List.subset_append_right _ _)
      exact fun reference member => known reference (List.mem_append_right _ member)
  | block body rest inner later =>
    rw [Block.leaves_block] at known
    rw [Block.parts]
    obtain failed | ⟨middle, -, failed⟩ := bind_error failed
    · refine (block_error (inner ?_) failed).mono (List.subset_append_left _ _)
      exact fun reference member => known reference (List.mem_append_left _ member)
    · refine (later ?_ failed).mono (List.subset_append_right _ _)
      exact fun reference member => known reference (List.mem_append_right _ member)

end

end Compile

/-! ## Agreement -/

private theorem Pools.knowsAll_ofProgram (program : Program) :
    (Pools.ofProgram program).KnowsAll program.leaves := by
  intro reference member
  have seen := Pools.hasSeen_ofProgram program
  cases entity : reference.entity with
  | constant constant =>
    refine (seen.constants.isSome_iff _).mpr (List.mem_append_right _ ?_)
    rw [Reference.key_of_entity entity]
    exact List.mem_filterMap.mpr ⟨reference, member, by simp [Reference.constant?, entity]⟩
  | name text =>
    refine (seen.names.isSome_iff _).mpr ?_
    exact List.mem_filterMap.mpr ⟨reference, member, by simp [Reference.plainName?, entity]⟩

private theorem Program.compile_error {program : Program} {name : String}
    (failed : program.compile = .error (.notInterned name)) : Miscalled program.parts name := by
  obtain failed | ⟨draft, -, failed⟩ := Compile.bind_error failed
  · exact Compile.entries_error program.main (Pools.knowsAll_ofProgram program) failed
  · split at failed <;> cases failed

/-- A name of the three that constants have. -/
theorem eq_of_wellKnown? {name : String} (special : (wellKnown? name).isSome) :
    name = "Object" ∨ name = "Something" ∨ name = "Nothing" := by
  unfold wellKnown? at special
  split at special
  · exact .inl ‹_›
  · split at special
    · exact .inr (.inl ‹_›)
    · split at special
      · exact .inr (.inr ‹_›)
      · cases special

/-- The loads of compiled code lead to what its leaves denote, in order. -/
theorem Program.loads_compiled {program : Program} {compiled : Compiled}
    (accepted : program.compile = .ok compiled) :
    (decode compiled.code.instructions.toList).filterMap (Command.load? compiled.pools)
      = program.loads.map fun leaf => some (Reference.loaded leaf) := by
  obtain ⟨pools, instructions, -, valid⟩ := program.compile_ok accepted
  rw [pools, instructions, decode_slots]
  · exact Assembly.cellsLoad_image valid
  · intro cell member
    obtain ⟨offset, -, -, stands⟩ := (Assembly.within_image program).stands_of_mem member
    exact whole_image accepted stands

/-- The pools of a program hold the well-known objects and its literals, and its other names, each
once and in the order of first sight, and their indices lead back to them. If the program compiles,
the loads of its code, decoded and in order, lead to what the leaves denote that they were emitted
for, or to the null object where a caller is missing. A leaf is reported missing only if it is a
well-known name in the place of a called method. -/
theorem pools_agree (program : Program) :
    (Pools.ofProgram program).constants.entries.toList = [.root, .something, .nothing]
        ++ ((program.leaves.filterMap Reference.literal?).map fun literal =>
          Constant.primitive literal.payload).eraseDups
      ∧ (Pools.ofProgram program).names.entries.toList
        = (program.leaves.filterMap Reference.plainName?).eraseDups
      ∧ ((Pools.ofProgram program).constants.entries.toList.map Constant.key).Nodup
      ∧ (Pools.ofProgram program).names.entries.toList.Nodup
      ∧ (∀ index constant, (Pools.ofProgram program).constants.get? index = some constant →
        (Pools.ofProgram program).constants.index? constant = some index)
      ∧ (∀ index constant, (Pools.ofProgram program).constants.index? constant = some index →
        (Pools.ofProgram program).constants.get? index = some constant.key)
      ∧ (∀ index name, (Pools.ofProgram program).names.get? index = some name
        ↔ (Pools.ofProgram program).names.index? name = some index)
      ∧ (∀ compiled, program.compile = .ok compiled →
        compiled.pools = Pools.ofProgram program
          ∧ (decode compiled.code.instructions.toList).filterMap (Command.load? compiled.pools)
            = program.loads.map (fun leaf => some (Reference.loaded leaf))
          ∧ (program.loads.filterMap id).Sublist program.leaves)
      ∧ ∀ name, program.compile = .error (.notInterned name) →
        (name = "Object" ∨ name = "Something" ∨ name = "Nothing")
          ∧ ∃ call ∈ program.parts, call.Calls name := by
  have seen := Pools.hasSeen_ofProgram program
  have keys : (Pools.ofProgram program).constants.entries.toList.map Constant.key
      = (Pools.ofProgram program).constants.entries.toList := by
    rw [List.map_congr_left fun constant member => Pools.key_ofProgram program member, List.map_id']
  refine ⟨Pools.constants_ofProgram program, seen.names.entries, keys.symm ▸ seen.constants.nodup,
    seen.names.nodup, fun index constant held => ?_, fun index constant found => ?_,
    fun index name => seen.names.index.symm, fun compiled accepted => ?_, fun name failed => ?_⟩
  · have key : constant.key = constant := by
      refine Pools.key_ofProgram program (Array.mem_toList_iff.mpr ?_)
      exact Array.mem_of_getElem? held
    rw [ConstantPool.index?, key]
    exact seen.constants.index.mpr held
  · exact Pools.get?_of_constant program found
  · obtain ⟨pools, -, -, -⟩ := program.compile_ok accepted
    exact ⟨pools, program.loads_compiled accepted, Block.loads_sublist program.main⟩
  · obtain ⟨special, calls⟩ := Program.compile_error failed
    exact ⟨eq_of_wellKnown? special, calls⟩

/-- Calls a method without a caller, twice with the same argument. -/
def callTwice : Program where
  main := [.statement (.call none "f" [.integer 7]), .statement (.call none "f" [.integer 7])]

def callSomething : Program where
  main := [.statement (.call none "Something" [])]

theorem callTwice_agrees :
    (∃ compiled, callTwice.compile = .ok compiled
      ∧ (decode compiled.code.instructions.toList).filterMap (Command.load? compiled.pools)
        = [some (.constant .nothing), some (.name "f"), some (.constant (.primitive (.integer 7))),
          some (.constant .nothing), some (.name "f"), some (.constant (.primitive (.integer 7)))])
      ∧ callSomething.compile = .error (.notInterned "Something")
      ∧ ∃ call ∈ callSomething.parts, call.Calls "Something" := by
  have accepted : ∃ compiled, callTwice.compile = .ok compiled := ⟨_, by cbv⟩
  have refused : callSomething.compile = .error (.notInterned "Something") := by cbv
  obtain ⟨compiled, accepted⟩ := accepted
  obtain ⟨-, -, -, -, -, -, -, agrees, -⟩ := pools_agree callTwice
  obtain ⟨-, -, -, -, -, -, -, -, missing⟩ := pools_agree callSomething
  exact ⟨⟨compiled, accepted, (agrees compiled accepted).2.1⟩, refused, (missing _ refused).2⟩

end ScopeMachine
