import ScopeMachine.Proofs.ControlTransfer

set_option autoImplicit false

/-!
# Fed operands

An operation that the compiler accepts leaves one binding on the operand stack, unless an alternative
stands among its operands: an alternative is accepted there and leaves nothing. Where none does, no
instruction lacks what it takes, whatever form the rest of the program has.
-/

namespace ScopeMachine

namespace Command

/-- How many entries commands leave on the stack in excess of those they take. -/
def surplus : List Command → Int
  | [] => 0
  | command :: rest => command.gives.length - command.takes.length + surplus rest

private theorem surplus_append (first second : List Command) :
    surplus (first ++ second) = surplus first + surplus second := by
  induction first with
  | nil => simp [surplus]
  | cons command rest ih => simp [surplus, ih, Int.add_assoc]

private theorem length_of_offered {wants shape : Shape} (offered : SlotKind.offered wants shape = true) :
    wants.length ≤ shape.length := by
  induction wants generalizing shape with
  | nil => exact Nat.zero_le _
  | cons wanted wants ih =>
    cases shape with
    | nil => cases offered
    | cons found rest =>
      simp only [SlotKind.offered, Bool.and_eq_true] at offered
      exact Nat.succ_le_succ (ih offered.2)

/-- Commands that find what they take change the height of the stack by their surplus. -/
theorem Runs.height {shape last : Shape} {commands : List Command}
    (runs : Runs shape commands last) : (last.length : Int) = shape.length + surplus commands := by
  induction commands generalizing shape with
  | nil =>
    cases runs
    simp [surplus]
  | cons command rest ih =>
    have taken := length_of_offered runs.1
    have after := ih runs.2
    simp only [shapeAfter, List.length_append, List.length_drop] at after
    simp only [surplus]
    omega

end Command

namespace Assembly

open Command (surplus surplus_append)

/-! ## The surplus of an operation -/

private theorem surplus_check (name : String) : surplus (check name) = 0 := by
  unfold check
  split <;> rfl

private theorem surplus_leaf {pools : Pools} {usage : Usage} {value : Option Reference}
    {commands : List Command} (known : leaf? pools usage value = some commands) :
    surplus commands = 1 := by
  obtain ⟨kind, -, runs⟩ := yields_leaf known []
  have height := runs.height
  simp at height
  omega

private theorem surplus_member (usage : Usage) (index : Nat) : surplus (member usage index) = 0 := by
  cases usage <;> rfl

private theorem surplus_ending {kind : Kind} {count : Nat} {commands : List Command}
    (ends : ending? kind count = some commands) : surplus commands = 1 - count := by
  unfold ending? at ends
  split at ends <;> cases ends <;> rfl

private theorem surplus_evaluate (count : Nat) : surplus [⟨.evaluate, count⟩] = -1 - count := by
  simp [surplus, Command.gives, Command.takes]
  omega

/-- A name always leaves a value. -/
theorem yields_of_leafName {operation : Operation} {name : String}
    (named : operation.leafName? = some name) : operation.yields = true := by
  induction operation using Operation.induction with
  | node operation ih _ =>
    unfold Operation.leafName? at named
    split at named
    case h_1 => rfl
    case h_2 inner _ _ _ =>
      have inside := ih inner (.head _) named
      exact (Operation.yields_iff _).mpr (.inr ⟨by simp, by simpa using inside⟩)
    case h_3 => cases named

private theorem yields_of_isNothing {operation : Operation} (nothing : operation.isNothing = true) :
    operation.yields = true :=
  yields_of_leafName (beq_iff_eq.mp nothing)

private theorem yields_call {caller method : Operation} {rest : List Operation} {name : String}
    (short : rest.length ≤ 1) (named : method.leafName? = some name)
    (first : caller.yields = true)
    (arguments : ∀ argument ∈ callArguments (caller :: method :: rest), argument.yields = true) :
    ∀ operand ∈ caller :: method :: rest, operand.yields = true := by
  have listed : ∀ list ∈ rest, list.yields = true := by
    intro list member
    obtain rfl : rest = [list] := by
      cases rest with
      | nil => cases member
      | cons only more =>
        cases more with
        | nil => rw [List.mem_singleton.mp member]
        | cons => simp at short
    simp only [callArguments] at arguments
    split at arguments
    case isTrue nothing => exact yields_of_isNothing nothing
    case isFalse =>
      split at arguments
      case h_1 => exact (Operation.yields_iff _).mpr (.inr ⟨by simp, arguments⟩)
      case h_2 => exact arguments list (.head _)
  simpa [first, yields_of_leafName named] using listed

private theorem surplus_operations {pools : Pools} {operands : List Operation} {commands : List Command}
    (each : ∀ operand ∈ operands, ∀ {usage commands}, operation? pools usage operand = some commands →
      surplus commands ≤ 1 ∧ (surplus commands = 1 → operand.yields = true))
    (known : operations? pools operands = some commands) :
    surplus commands ≤ operands.length
      ∧ (surplus commands = operands.length → ∀ operand ∈ operands, operand.yields = true) := by
  induction operands generalizing commands with
  | nil =>
    cases known
    exact ⟨Int.le_refl _, by simp⟩
  | cons operand rest ih =>
    obtain ⟨first, head, known⟩ := Option.bind_eq_some_iff.mp known
    obtain ⟨others, tail, known⟩ := Option.bind_eq_some_iff.mp known
    cases known
    obtain ⟨one, valued⟩ := each operand (.head _) head
    obtain ⟨more, all⟩ := ih (fun other member => each other (.tail _ member)) tail
    rw [surplus_append, List.length_cons]
    refine ⟨by omega, fun full => ?_⟩
    simpa [valued (by omega)] using all (by omega)

private theorem surplus_found {pools : Pools} {caller : Operation} {index : Nat} {found : List Command}
    (each : ∀ {commands}, operation? pools .value caller = some commands →
      surplus commands ≤ 1 ∧ (surplus commands = 1 → caller.yields = true))
    (finds : found? pools caller index = some found) :
    surplus found ≤ 2 ∧ (surplus found = 2 → caller.yields = true) := by
  unfold found? at finds
  split at finds
  case isTrue nothing =>
    cases finds
    exact ⟨Int.le_refl _, fun _ => yields_of_isNothing nothing⟩
  case isFalse =>
    obtain ⟨commands, known, rfl⟩ := Option.map_eq_some_iff.mp finds
    obtain ⟨one, valued⟩ := each known
    have more : surplus (callerMethod index) = 1 := rfl
    rw [surplus_append]
    exact ⟨by omega, fun full => valued (by omega)⟩

/-- Each operand is taken by what consumes it, and an operand that leaves nothing is missing from
the surplus. -/
theorem surplus_operation {pools : Pools} (operation : Operation) {usage : Usage}
    {commands : List Command} (emits : operation? pools usage operation = some commands) :
    surplus commands ≤ 1 ∧ (surplus commands = 1 → operation.yields = true) := by
  induction operation using Operation.induction generalizing usage commands with
  | node operation ih deep =>
    cases emitted emits with
    | leaf known => exact ⟨Int.le_of_eq (surplus_leaf known), fun _ => rfl⟩
    | single known =>
      obtain ⟨one, valued⟩ := ih _ (.head _) known
      exact ⟨one, fun full =>
        (Operation.yields_iff _).mpr (.inr ⟨by simp, by simpa using valued full⟩)⟩
    | member known named =>
      obtain ⟨one, valued⟩ := ih _ (.head _) known
      obtain ⟨name, leaf, -⟩ := Option.bind_eq_some_iff.mp named
      rw [surplus_append, surplus_member]
      refine ⟨by omega, fun full => (Operation.yields_iff _).mpr (.inr ⟨by simp, ?_⟩)⟩
      simpa [valued (by omega)] using yields_of_leafName leaf
    | assign known given =>
      obtain ⟨one, target⟩ := ih _ (.head _) known
      obtain ⟨other, source⟩ := ih _ (.tail _ (.head _)) given
      have last : surplus [⟨.assign, 0⟩] = -1 := rfl
      rw [surplus_append, surplus_append, last]
      refine ⟨by omega, fun full => (Operation.yields_iff _).mpr (.inr ⟨by simp, ?_⟩)⟩
      simpa [target (by omega)] using source (by omega)
    | @call caller method rest _ _ _ name _ _ short named indexed finds given =>
      obtain ⟨two, caller⟩ := surplus_found (ih _ (.head _)) finds
      obtain ⟨count, arguments⟩ := surplus_operations (fun argument member => by
        obtain direct | ⟨operand, outer, inner⟩ := mem_callArguments member
        · exact ih argument direct
        · exact deep operand outer argument inner) given
      have copied : surplus (copyMethod name) = 0 := by
        rw [copyMethod, surplus_append, surplus_check]
        rfl
      rw [surplus_append, surplus_append, surplus_append, copied, surplus_evaluate]
      exact ⟨by omega, fun full => (Operation.yields_iff _).mpr (.inr ⟨by simp,
        yields_call short named (caller (by omega)) (arguments (by omega))⟩)⟩
    | otherwise => simp [surplus]
    | @node kind operands _ _ first _ known ends =>
      obtain ⟨count, valued⟩ : surplus first ≤ operands.length ∧ _ := surplus_operations ih known
      rw [surplus_append, surplus_ending ends]
      refine ⟨by omega, fun full => (Operation.yields_iff _).mpr (.inr ⟨?_, valued (by omega)⟩)⟩
      rintro rfl
      cases ends

/-- An accepted operation leaves one binding on every stack exactly if no alternative stands among
its operands, at any depth. -/
theorem yields_iff_of_accepted {pools : Pools} {operation : Operation} {usage : Usage}
    {commands : List Command} (emits : operation? pools usage operation = some commands) :
    Yields commands ↔ operation.yields = true := by
  constructor
  · intro valued
    obtain ⟨kind, -, runs⟩ := valued []
    have height := runs.height
    simp only [List.length_cons, List.length_nil] at height
    exact (surplus_operation operation emits).2 (by omega)
  · exact yields_operation operation emits

end Assembly

/-! ## Runs -/

open Assembly

/-- A machine in front of a cell has the entries that its instruction takes on top of its stack, and
above the mark of its current frame. What lies between them and the mark is not told. -/
structure Fed (program : Program) (compiled : Compiled) (machine : Machine) (offset : Nat)
    (cell : Cell) (frame : Frame) : Prop where
  place : InPlace program compiled machine offset cell
  current : machine.frames.head? = some frame
  entries : ∃ taken others below, machine.stack = taken ++ others ++ below
    ∧ below.length = frame.stackMark
    ∧ Fitting cell.command.takes taken

/-- Shapes are those of the top of the stack only. -/
def Assembly.Rigor.top : Rigor :=
  ⟨True, False, False.elim⟩

variable {program : Program} {compiled : Compiled}

private theorem fed_of_placed (accepted : program.compile = .ok compiled)
    (suits : Rigor.top.Suits program) (addressable : Addressable program compiled)
    {machine : Machine} {offset : Nat} {cell : Cell} {index : Nat}
    (stands : Stands (image program) offset cell)
    (reading : Reading offset cell index machine.registers)
    (placed : Placed Rigor.top program offset cell machine) :
    ∃ frame, Fed program compiled machine offset cell frame := by
  have place := inPlace_of_placed accepted addressable stands reading placed
  obtain ⟨-, -, -, valid⟩ := program.compile_ok accepted
  have offered := (suits.flows valid stands).suits trivial
  have framed := placed.2
  cases frames : machine.frames with
  | nil =>
    rw [frames] at framed
    cases framed
  | cons frame rest =>
    rw [frames] at framed
    obtain ⟨-, below, own, -⟩ := framed
    obtain ⟨items, split, shaped, mark⟩ := own trivial
    obtain ⟨taken, others, rfl, fits, -⟩ := shaped.split offered
    exact ⟨frame, place, by rw [frames]; rfl, taken, others, below, split, mark.symm, fits⟩

/-- An operation that the compiler accepts leaves one binding on every stack, except where an
alternative stands among its operands. In a program without such an operation every instruction of
every run finds the entries that it takes, the stack is empty when the program ends, and no fault is
about a missing entry. -/
theorem operands_fed (accepted : program.compile = .ok compiled)
    (addressable : Addressable program compiled) :
    (∀ (operation : Operation) (commands : List Command),
        operation? compiled.pools .value operation = some commands →
          (Yields commands ↔ operation.yields = true))
      ∧ (program.operandsYield = true → ∀ (config : Config) (input : List UInt8) (fuel : Nat),
        match (Machine.boot config input compiled.pools).run compiled fuel with
        | .running machine => ∃ offset cell frame, Fed program compiled machine offset cell frame
        | .finished _ machine => machine.stack = []
        | .failed _ fault _ => fault.isStarved = false) := by
  refine ⟨fun operation commands => yields_iff_of_accepted, fun valued config input fuel => ?_⟩
  have suits : Rigor.top.Suits program := ⟨fun _ => valued, False.elim⟩
  have run := suits.placed_run accepted addressable config input fuel
  split
  case h_1 machine result =>
    rw [result] at run
    obtain ⟨offset, cell, index, stands, reading, placed⟩ := run
    exact ⟨offset, cell, fed_of_placed accepted suits addressable stands reading placed⟩
  case h_2 value machine result =>
    rw [result] at run
    exact run.2 trivial
  case h_3 line fault machine result =>
    rw [result] at run
    obtain ⟨before, permitted, -⟩ := run
    exact permitted.2 trivial

/-! ## Clauses without a body -/

/-- A loop without a body, and a condition that is printed. -/
def strayClauses : Program where
  main := [.statement ⟨.while, [⟨.ask, [], none, 1⟩], none, 1⟩,
    .statement ⟨.print, [⟨.if, [⟨.ask, [], none, 2⟩], none, 2⟩], none, 2⟩]

private theorem addressable_strayClauses {compiled : Compiled}
    (accepted : strayClauses.compile = .ok compiled) : Addressable strayClauses compiled := by
  have code : size (image strayClauses) = 5 := by cbv
  have names : (Pools.ofProgram strayClauses).names.size = 0 := by cbv
  have constants : (Pools.ofProgram strayClauses).constants.size = 3 := by cbv
  refine addressable_of_image accepted (by decide) ?_ ?_ ?_
  · rw [code]
    decide
  · rw [names]
    decide
  · rw [constants]
    decide

/-- The clauses of a program need not be in their places for its operands to be fed. -/
theorem strayClauses_fed :
    ∃ compiled, strayClauses.compile = .ok compiled
      ∧ strayClauses.wellShaped = false
      ∧ Addressable strayClauses compiled
      ∧ strayClauses.operandsYield = true
      ∧ ∀ (config : Config) (input : List UInt8) (fuel : Nat),
        match (Machine.boot config input compiled.pools).run compiled fuel with
        | .running machine => ∃ offset cell frame, Fed strayClauses compiled machine offset cell frame
        | .finished _ machine => machine.stack = []
        | .failed _ fault _ => fault.isStarved = false := by
  obtain ⟨compiled, accepted⟩ : ∃ compiled, strayClauses.compile = .ok compiled := ⟨_, by cbv⟩
  have addressable := addressable_strayClauses accepted
  have valued : strayClauses.operandsYield = true := by decide
  exact ⟨compiled, accepted, by decide, addressable, valued,
    (operands_fed accepted addressable).2 valued⟩

/-! ## An alternative without a value -/

def printAlternative : Program where
  main := [.statement ⟨.print, [⟨.else, [], none, 0⟩], none, 0⟩]

/-- An alternative is accepted as an operand, and the instruction that takes it finds nothing. -/
theorem printAlternative_starves :
    ∃ compiled line machine, printAlternative.compile = .ok compiled
      ∧ printAlternative.operandsYield = false
      ∧ (Machine.boot {} [] compiled.pools).run compiled 1 = .failed line .stackUnderflow machine := by
  have raised : printAlternative.faultAfter? 0 = some .stackUnderflow := by cbv
  obtain ⟨compiled, line, machine, accepted, failed⟩ := Program.fails_of_faultAfter raised
  exact ⟨compiled, line, machine, accepted, by decide, failed⟩

end ScopeMachine
