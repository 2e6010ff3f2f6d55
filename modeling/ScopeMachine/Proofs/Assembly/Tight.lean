import ScopeMachine.Proofs.Assembly.Flow
import ScopeMachine.Proofs.Assembly.Lines
import ScopeMachine.Proofs.FirstSight

set_option autoImplicit false

/-!
# Tight code

Where no object is made, commands find on the stack exactly the kinds that they ask for. So a copy is
only ever taken by the call that it was made for, and nothing waits below what a statement returns.
-/

namespace ScopeMachine

/-- An operation that makes no object and defines no method. What it is made of are expressions, and
none of them returns. -/
structure Operation.Calm (operation : Operation) : Prop where
  expressions : ∀ operand ∈ operation.operands, operand.isExpression = true
  plain : ∀ part ∈ operation.parts, part.kind ≠ .new ∧ part.kind ≠ .defineMethod
  returns : ∀ part ∈ operation.parts, ∀ operand ∈ part.operands, operand.kind ≠ .return

namespace Operation.Calm

variable {operation : Operation} (calm : operation.Calm)

include calm

theorem kind : operation.kind ≠ .new ∧ operation.kind ≠ .defineMethod :=
  calm.plain operation (by rw [operation.parts_eq]; exact .head _)

theorem operand {operand : Operation} (member : operand ∈ operation.operands) : operand.Calm ∧ operand.kind ≠ .return := by
  have inside : operand.parts ⊆ operation.parts := by
    rw [operation.parts_eq, Operation.partsAll_eq_flatMap]
    exact fun part within => .tail _ (List.mem_flatMap.mpr ⟨operand, member, within⟩)
  refine ⟨⟨?_, fun part within => calm.plain part (inside within),
    fun part within => calm.returns part (inside within)⟩, ?_⟩
  · exact (operand.isExpression_iff.mp (calm.expressions operand member)).2
  · exact calm.returns operation (by rw [operation.parts_eq]; exact .head _) operand member

end Operation.Calm

namespace Command

/-- A command finds exactly what it takes. It defines no method, and it returns only where no copy
waits. -/
structure Tight (command : Command) (shape : Shape) : Prop where
  takes : command.takes <+: shape
  defines : command.opcode ≠ .defineMethod
  returns : command.opcode = .return → .copy ∉ shape

/-- Commands run from one shape to another, and each finds exactly what it takes. -/
def Tightly : Shape → List Command → Shape → Prop
  | shape, [], last => shape = last
  | shape, command :: rest, last =>
    command.Tight shape ∧ Tightly (command.shapeAfter shape) rest last

theorem Tightly.append {shape middle last : Shape} {first second : List Command}
    (before : Tightly shape first middle) (next : Tightly middle second last) :
    Tightly shape (first ++ second) last := by
  induction first generalizing shape with
  | nil =>
    cases before
    exact next
  | cons command rest ih => exact ⟨before.1, ih before.2⟩

@[simp] theorem shapeAfter_takes (command : Command) (shape : Shape) :
    command.shapeAfter (command.takes ++ shape) = command.gives ++ shape := by
  rw [shapeAfter, List.drop_left]

theorem Tightly.cons {command : Command} {shape last : Shape} {rest : List Command}
    (defines : command.opcode ≠ .defineMethod) (returns : command.opcode ≠ .return)
    (later : Tightly (command.gives ++ shape) rest last) :
    Tightly (command.takes ++ shape) (command :: rest) last :=
  ⟨⟨List.prefix_append _ _, defines, fun same => absurd same returns⟩, by
    rwa [shapeAfter_takes]⟩

end Command

namespace Assembly

open Command (Tightly)

/-! ## Expressions -/

/-- Commands leave one value on any stack, and each finds exactly what it takes. -/
def Settles (commands : List Command) : Prop :=
  ∀ shape, Tightly shape commands (.value :: shape)

private theorem tightly_check (name : String) (shape : Shape) :
    Tightly (.value :: shape) (check name) (.value :: shape) := by
  unfold check
  split
  · rfl
  · exact .cons (by simp) (by simp) rfl

private theorem settles_leaf {pools : Pools} {usage : Usage} {value : Option Reference}
    {commands : List Command} (known : leaf? pools usage value = some commands) :
    Settles commands := by
  intro shape
  unfold leaf? at known
  split at known
  case h_1 => cases known
  case h_2 =>
    split at known
    case h_1 =>
      obtain ⟨index, -, result⟩ := Option.bind_eq_some_iff.mp known
      cases result
      exact .cons (by simp) (by simp) rfl
    case h_2 name _ =>
      obtain ⟨index, -, result⟩ := Option.bind_eq_some_iff.mp known
      cases result
      have resolved : Tightly shape [⟨.loadName, index⟩, ⟨.resolveDirect, 0⟩] (.value :: shape) :=
        .cons (by simp) (by simp) (.cons (by simp) (by simp) rfl)
      refine resolved.append ?_
      cases usage with
      | value => exact tightly_check name shape
      | target => rfl

/-- What follows the operands of an expression turns them into one value. -/
theorem tightly_ending {kind : Kind} {count : Nat} {commands : List Command}
    (expression : kind.isConditionalJump = false) (object : kind ≠ .new) (returns : kind ≠ .return)
    (ends : ending? kind count = some commands) (shape : Shape) :
    Tightly (List.replicate count SlotKind.value ++ shape) commands (.value :: shape) := by
  unfold ending? at ends
  split at ends <;> cases ends <;> first
    | (cases expression; done)
    | contradiction
    | exact .cons (by simp) (by simp) rfl
    | exact .cons (by simp) (by simp) (.cons (by simp) (by simp) rfl)
    | exact .cons (by simp) (by simp) (.cons (by simp) (by simp) (.cons (by simp) (by simp) rfl))

private theorem tightly_operations {pools : Pools} {operands : List Operation} {commands : List Command}
    (each : ∀ operand ∈ operands, ∀ {commands}, operation? pools .value operand = some commands →
      Settles commands)
    (known : operations? pools operands = some commands) (shape : Shape) :
    Tightly shape commands (List.replicate operands.length SlotKind.value ++ shape) := by
  induction operands generalizing commands shape with
  | nil =>
    cases known
    rfl
  | cons operand rest ih =>
    obtain ⟨first, head, known⟩ := Option.bind_eq_some_iff.mp known
    obtain ⟨others, tail, known⟩ := Option.bind_eq_some_iff.mp known
    cases known
    have before := each operand (.head _) head shape
    have behind := ih (fun other member => each other (.tail _ member)) tail (.value :: shape)
    rw [List.append_cons, ← List.replicate_succ'] at behind
    exact before.append behind

private theorem tightly_found {pools : Pools} {caller : Operation} {index : Nat} {found : List Command}
    (each : ∀ {commands}, operation? pools .value caller = some commands → Settles commands)
    (finds : found? pools caller index = some found) (shape : Shape) :
    Tightly shape found (.value :: .value :: shape) := by
  unfold found? at finds
  split at finds
  · cases finds
    exact .cons (by simp) (by simp) (.cons (by simp) (by simp) (.cons (by simp) (by simp) rfl))
  · obtain ⟨commands, known, rfl⟩ := Option.map_eq_some_iff.mp finds
    exact (each known shape).append
      (.cons (by simp) (by simp) (.cons (by simp) (by simp) (.cons (by simp) (by simp) rfl)))

private theorem tightly_copyMethod (name : String) (shape : Shape) :
    Tightly (.value :: shape) (copyMethod name) (.copy :: shape) :=
  (tightly_check name shape).append (.cons (by simp) (by simp) rfl)

/-- A call takes the copy below its arguments. -/
theorem tightly_evaluate (count : Nat) (shape : Shape) :
    Tightly (List.replicate count SlotKind.value ++ SlotKind.copy :: .value :: shape) [⟨.evaluate, count⟩]
      (.value :: shape) := by
  have taken : Tightly (Command.takes ⟨.evaluate, count⟩ ++ shape) [⟨.evaluate, count⟩]
      (.value :: shape) := .cons (by simp) (by simp) rfl
  simpa [Command.takes] using taken

private theorem tightly_member (usage : Usage) (index : Nat) (shape : Shape) :
    Tightly (.value :: shape) (member usage index) (.value :: shape) := by
  have resolved : Tightly (.value :: shape) [⟨.loadName, index⟩, ⟨.resolveScoped, 0⟩]
      (.value :: shape) := .cons (by simp) (by simp) (.cons (by simp) (by simp) rfl)
  refine resolved.append ?_
  cases usage with
  | value => exact .cons (by simp) (by simp) rfl
  | target => rfl

/-- A calm expression leaves one value, and each of its commands finds exactly what it takes. -/
theorem settles_operation {pools : Pools} (operation : Operation) {usage : Usage}
    {commands : List Command} (emits : operation? pools usage operation = some commands)
    (expression : operation.kind.isConditionalJump = false) (calm : operation.Calm)
    (returns : operation.kind ≠ .return) : Settles commands := by
  induction operation using Operation.induction generalizing usage commands with
  | node operation ih deep =>
    have direct {operand : Operation} (member : operand ∈ operation.operands) {usage : Usage}
        {commands : List Command} (known : operation? pools usage operand = some commands) :
        Settles commands :=
      ih operand member known
        (operand.isExpression_iff.mp (calm.expressions operand member)).1
        (calm.operand member).1 (calm.operand member).2
    have nested {operand item : Operation} (outer : operand ∈ operation.operands)
        (inner : item ∈ operand.operands) {commands : List Command}
        (known : operation? pools .value item = some commands) : Settles commands := by
      obtain ⟨quiet, -⟩ := calm.operand outer
      exact deep operand outer item inner known
        (item.isExpression_iff.mp (quiet.expressions item inner)).1
        (quiet.operand inner).1 (quiet.operand inner).2
    cases emitted emits with
    | leaf known => exact settles_leaf known
    | single known => exact direct (.head _) known
    | member known named =>
      intro shape
      exact (direct (.head _) known shape).append (tightly_member usage _ shape)
    | assign known given =>
      intro shape
      have operands := (direct (.head _) known shape).append
        (direct (.tail _ (.head _)) given (.value :: shape))
      exact operands.append (.cons (by simp) (by simp) rfl)
    | @call caller method rest _ _ _ name _ _ short named indexed finds given =>
      intro shape
      have found := tightly_found (direct (.head _)) finds shape
      have copied := tightly_copyMethod name (.value :: shape)
      have arguments := tightly_operations (fun argument member => by
        obtain within | ⟨operand, outer, inner⟩ := mem_callArguments member
        · exact direct within
        · exact nested outer inner) given (.copy :: .value :: shape)
      exact ((found.append copied).append arguments).append (tightly_evaluate _ shape)
    | otherwise => cases expression
    | node known ends =>
      intro shape
      exact (tightly_operations (fun _ member => direct member) known shape).append
        (tightly_ending expression calm.kind.1 returns ends shape)

/-! ## Statements -/

/-- The operands of a return are all that lies on the stack of its frame. -/
theorem tightly_return {count : Nat} {commands : List Command}
    (ends : ending? .return count = some commands) :
    Tightly (List.replicate count .value) commands [.value] := by
  match count with
  | 0 =>
    cases ends
    exact ⟨⟨List.prefix_rfl, by simp, by simp⟩, rfl⟩
  | 1 =>
    cases ends
    exact ⟨⟨List.prefix_rfl, by simp, by simp⟩, rfl⟩
  | _ + 2 => cases ends

private theorem ending?_condition {kind : Kind} {count : Nat} {commands : List Command}
    (condition : kind.isConditionalJump = true) (ends : ending? kind count = some commands) :
    count = 1 ∧ kind ≠ .else ∧ commands = [] := by
  unfold ending? at ends
  split at ends <;> first
    | (cases condition; done)
    | (cases ends; done)
    | (cases ends; simp)

/-- The own commands of a calm statement leave its value, and those of an `else` nothing. -/
theorem tightly_statement {pools : Pools} {operation : Operation} {commands : List Command}
    (known : statement? pools operation = some commands) (calm : operation.Calm) :
    Tightly [] commands (if operation.kind = .else then [] else [.value]) := by
  have emits : operation? pools .value operation = some commands := by
    unfold statement? at known
    split at known
    case h_1 definition => exact absurd (role_eq_definition.mp definition) calm.kind.2
    case h_2 => exact known
  have operands {operands : List Operation} (same : operands = operation.operands)
      {first : List Command} (known : operations? pools operands = some first) :
      Tightly [] first (List.replicate operands.length .value) := by
    subst same
    have settle := tightly_operations (fun operand member {_} emits =>
      settles_operation operand emits
        (operand.isExpression_iff.mp (calm.expressions operand member)).1
        (calm.operand member).1 (calm.operand member).2) known []
    rwa [List.append_nil] at settle
  by_cases expression : operation.kind.isConditionalJump = false
  · have other : operation.kind ≠ .else := by
      rintro same
      rw [same] at expression
      cases expression
    rw [if_neg other]
    by_cases returns : operation.kind = .return
    · obtain ⟨kind, operands', value, line⟩ := operation
      cases returns
      cases emitted emits with
      | node given ends => exact (operands rfl given).append (tightly_return ends)
    · exact settles_operation operation emits expression calm returns []
  · obtain ⟨kind, operands', value, line⟩ := operation
    cases emitted emits with
    | leaf | single | member | assign | call => exact absurd rfl expression
    | otherwise => rfl
    | node given ends =>
      obtain ⟨one, other, rfl⟩ := ending?_condition (by simpa using expression) ends
      have before := operands rfl given
      rw [one] at before
      rw [if_neg other]
      exact before.append rfl

theorem tightly_padding (target offset : Nat) (shape : Shape) :
    Tightly shape (padding target offset) shape := by
  unfold padding
  induction placeholderWidth offset - (extensionCount target + 1) with
  | zero => rfl
  | succ count ih =>
    rw [List.replicate_succ]
    exact .cons (by simp) (by simp) ih

theorem tightly_branch (target offset : Nat) :
    Tightly [.value] (hole .jumpIfFalse target offset) [] :=
  .cons (by simp) (by simp) (tightly_padding target offset [])

theorem tightly_jump (target offset : Nat) : Tightly [] (hole .jump target offset) [] :=
  .cons (by simp) (by simp) (tightly_padding target offset [])

/-- What the role of a calm statement adds to its commands leaves no copy. -/
theorem tightly_suffix {operation : Operation} (calm : operation.Calm) (tail : Segment)
    (place : Nat) :
    ∃ last, .copy ∉ last ∧ Tightly (if operation.kind = .else then [] else [.value])
      ((role operation.kind).suffix tail place) last := by
  cases kind : role operation.kind with
  | condition =>
    have other : operation.kind ≠ .else := by
      obtain same | same := role_eq_condition.mp kind <;> simp [same]
    rw [if_neg other]
    exact ⟨[], by simp, tightly_branch _ _⟩
  | bare =>
    refine ⟨_, ?_, rfl⟩
    split <;> simp
  | definition => exact absurd (role_eq_definition.mp kind) calm.kind.2
  | plain =>
    have other : operation.kind ≠ .else := by
      intro same
      rw [same] at kind
      cases kind
    rw [if_neg other]
    exact ⟨[], by simp, .cons (by simp) (by simp) rfl⟩

/-! ## Cells -/

/-- A cell with a tight command. Where a copy waits behind it, the next cell has exactly the shape
that the command leaves. -/
structure Snug (code : List Cell) (offset : Nat) (cell : Cell) : Prop where
  tight : cell.command.Tight cell.shape
  next : .copy ∉ cell.command.shapeAfter cell.shape
    ∨ ∃ behind, Stands code (offset + cell.command.width) behind
      ∧ behind.shape = cell.command.shapeAfter cell.shape

theorem snug_annotate {code : List Cell} {line : Option Nat} {depth offset : Nat}
    {shape last : Shape} {commands : List Command}
    (within : Within code offset (annotate line depth shape commands))
    (tightly : Tightly shape commands last) (none : .copy ∉ last) {place : Nat} {cell : Cell}
    (stands : Stands (annotate line depth shape commands) place cell) :
    Snug code (offset + place) cell := by
  induction commands generalizing offset shape place with
  | nil =>
    obtain ⟨before, after, parts, -⟩ := stands
    simp [annotate] at parts
  | cons command rest ih =>
    obtain ⟨first, later⟩ := tightly
    obtain here | ⟨behind, rfl, there⟩ := Stands.of_append
      (show Stands ([⟨command, line, depth, shape⟩] ++ annotate line depth _ rest) place cell
        from stands)
    · obtain ⟨before, after, parts, rfl⟩ := here
      obtain ⟨rfl, rfl, rfl⟩ : before = [] ∧ cell = ⟨command, line, depth, shape⟩ ∧ after = [] := by
        cases before with
        | nil => simpa using parts.symm
        | cons head before => simp at parts
      refine ⟨first, ?_⟩
      cases rest with
      | nil =>
        cases later
        exact .inl none
      | cons next rest => exact .inr ⟨_, within.tail.head, rfl⟩
    · have inner := ih within.tail later there
      rwa [size_cons, size_nil, ← Nat.add_assoc]

end Assembly

end ScopeMachine
