import ScopeMachine.Proofs.Induction

set_option autoImplicit false

/-!
# Well-shaped programs

Conditions and loops stand as statements only, each in front of its body. Much less is needed for
every operand to have a value: only the alternative of a condition has none.
-/

namespace ScopeMachine

namespace Operation

mutual

/-- The operation is no condition or loop, and contains none. -/
def isExpression : Operation → Bool
  | ⟨kind, operands, _, _⟩ => !kind.isConditionalJump && areExpressions operands
termination_by structural operation => operation

/-- No operation of the list is a condition or loop or contains one. -/
def areExpressions : List Operation → Bool
  | [] => true
  | operation :: rest => isExpression operation && areExpressions rest
termination_by structural operations => operations

end

theorem areExpressions_iff (operations : List Operation) :
    areExpressions operations = true ↔ ∀ operation ∈ operations, operation.isExpression = true := by
  induction operations with
  | nil => simp [areExpressions]
  | cons operation rest ih => simp [areExpressions, ih]

theorem isExpression_iff (operation : Operation) :
    operation.isExpression = true ↔ operation.kind.isConditionalJump = false
      ∧ ∀ operand ∈ operation.operands, operand.isExpression = true := by
  obtain ⟨kind, operands, value, line⟩ := operation
  simp [isExpression, areExpressions_iff]

mutual

/-- The operation leaves a value: it is no alternative, and none is among its operands. The operands
of a leaf do not count. -/
def yields : Operation → Bool
  | ⟨kind, operands, _, _⟩ => kind == .ref || kind != .else && allYield operands
termination_by structural operation => operation

/-- Every operation of the list leaves a value. -/
def allYield : List Operation → Bool
  | [] => true
  | operation :: rest => yields operation && allYield rest
termination_by structural operations => operations

end

private theorem allYield_iff (operations : List Operation) :
    allYield operations = true ↔ ∀ operation ∈ operations, operation.yields = true := by
  induction operations with
  | nil => simp [allYield]
  | cons operation rest ih => simp [allYield, ih]

theorem yields_iff (operation : Operation) :
    operation.yields = true ↔ operation.kind = .ref
      ∨ operation.kind ≠ .else ∧ ∀ operand ∈ operation.operands, operand.yields = true := by
  obtain ⟨kind, operands, value, line⟩ := operation
  simp [yields, allYield_iff]

private theorem yields_of_isExpression (operation : Operation)
    (expression : operation.isExpression = true) : operation.yields = true := by
  induction operation using Operation.induction with
  | node operation ih _ =>
    obtain ⟨plain, operands⟩ := operation.isExpression_iff.mp expression
    refine operation.yields_iff.mpr (.inr ⟨fun same => ?_, fun operand member =>
      ih operand member (operands operand member)⟩)
    rw [same] at plain
    cases plain

end Operation

/-- The entries start with a block. -/
def Block.startsWithBlock : List Entry → Bool
  | .block _ :: _ => true
  | _ => false

mutual

/-- The operands of a statement are expressions, and a block is well-shaped. -/
def Entry.wellShaped : Entry → Bool
  | .statement operation => Operation.areExpressions operation.operands
  | .block body => Block.wellShaped body
termination_by structural entry => entry

/-- All entries are well-shaped, and every condition or loop is followed by its body. -/
def Block.wellShaped : List Entry → Bool
  | [] => true
  | .statement operation :: rest =>
    Entry.wellShaped (.statement operation)
      && (!operation.kind.isConditionalJump || Block.startsWithBlock rest)
      && Block.wellShaped rest
  | .block body :: rest => Entry.wellShaped (.block body) && Block.wellShaped rest
termination_by structural entries => entries

end

/-- Conditions and loops occur only as statements, and each is immediately followed by its body. -/
def Program.wellShaped (program : Program) : Bool :=
  Block.wellShaped program.main

/-! ## Operands with values -/

mutual

/-- The operands of a statement leave values, and so do those in a block. -/
def Entry.operandsYield : Entry → Bool
  | .statement operation => operation.kind == .else || operation.yields
  | .block body => Block.operandsYield body
termination_by structural entry => entry

/-- The operands of every statement leave values. -/
def Block.operandsYield : List Entry → Bool
  | [] => true
  | entry :: rest => Entry.operandsYield entry && Block.operandsYield rest
termination_by structural entries => entries

end

/-- Alternatives occur only as statements. -/
def Program.operandsYield (program : Program) : Bool :=
  Block.operandsYield program.main

theorem Block.operandsYield_of_wellShaped (block : Block) (shape : Block.wellShaped block = true) :
    Block.operandsYield block = true := by
  induction block using Block.induction with
  | nil => rfl
  | statement operation rest ih =>
    simp only [Block.wellShaped, Entry.wellShaped, Bool.and_eq_true] at shape
    have operands := (Operation.areExpressions_iff _).mp shape.1.1
    simp only [Block.operandsYield, Entry.operandsYield, Bool.and_eq_true, Bool.or_eq_true,
      beq_iff_eq]
    rw [operation.yields_iff]
    refine ⟨?_, ih shape.2⟩
    by_cases alternative : operation.kind = .else
    · exact .inl alternative
    · exact .inr (.inr ⟨alternative, fun operand member =>
        operand.yields_of_isExpression (operands operand member)⟩)
  | block body rest inner later =>
    simp only [Block.wellShaped, Entry.wellShaped, Bool.and_eq_true] at shape
    simp only [Block.operandsYield, Entry.operandsYield, Bool.and_eq_true]
    exact ⟨inner shape.1, later shape.2⟩

end ScopeMachine
