import ScopeMachine.Program.Basic

set_option autoImplicit false

/-!
# Induction over programs

Induction principles for operations and blocks, the number of their nodes, and the statements in them.
-/

namespace ScopeMachine

/-- An induction over operations. The arguments of a call are operands of its operand, so a node may
use the property of both. -/
theorem Operation.induction {motive : Operation → Prop}
    (node : ∀ operation : Operation, (∀ operand ∈ operation.operands, motive operand) →
      (∀ operand ∈ operation.operands, ∀ item ∈ operand.operands, motive item) → motive operation)
    (operation : Operation) : motive operation :=
  have both := @Operation.rec
    (fun operation => motive operation ∧ ∀ operand ∈ operation.operands, motive operand)
    (fun operands => ∀ operand ∈ operands,
      motive operand ∧ ∀ item ∈ operand.operands, motive item)
    (fun kind operands value line below =>
      have direct := fun operand member => (below operand member).1
      ⟨node ⟨kind, operands, value, line⟩ direct fun operand member => (below operand member).2,
        direct⟩)
    (by simp)
    (fun _ _ first rest operand member => by
      cases member with
      | head => exact first
      | tail _ member => exact rest operand member)
    operation
  both.1

/-- An induction over blocks: statements and nested blocks in front of the entries that follow. -/
theorem Block.induction {motive : List Entry → Prop} (nil : motive [])
    (statement : ∀ operation rest, motive rest → motive (.statement operation :: rest))
    (block : ∀ body rest, motive body → motive rest → motive (.block body :: rest))
    (entries : List Entry) : motive entries :=
  @Entry.rec_1 (fun entry => ∀ rest, motive rest → motive (entry :: rest)) motive
    (fun operation rest => statement operation rest)
    (fun body inner rest => block body rest inner) nil
    (fun _ rest first later => first rest later) entries

/-! ## Sizes -/

namespace Operation

mutual

def nodes : Operation → Nat
  | ⟨_, operands, _, _⟩ => nodesAll operands + 1
termination_by structural operation => operation

def nodesAll : List Operation → Nat
  | [] => 0
  | operation :: rest => nodes operation + nodesAll rest
termination_by structural operations => operations

end

theorem nodes_le_nodesAll {operations : List Operation} {operation : Operation}
    (member : operation ∈ operations) : operation.nodes ≤ nodesAll operations := by
  induction operations with
  | nil => cases member
  | cons first rest ih =>
    rw [nodesAll]
    cases member with
    | head => omega
    | tail _ member =>
      have below := ih member
      omega

theorem nodes_pos (operation : Operation) : 0 < operation.nodes := by
  obtain ⟨kind, operands, value, line⟩ := operation
  exact Nat.succ_pos _

theorem length_le_nodesAll (operations : List Operation) :
    operations.length ≤ nodesAll operations := by
  induction operations with
  | nil => exact Nat.le_refl 0
  | cons first rest ih =>
    have one := first.nodes_pos
    rw [nodesAll, List.length_cons]
    omega

theorem nodes_eq (operation : Operation) : operation.nodes = nodesAll operation.operands + 1 := by
  obtain ⟨kind, operands, value, line⟩ := operation
  rfl

theorem nodes_lt_of_mem {operation operand : Operation} (member : operand ∈ operation.operands) :
    operand.nodes < operation.nodes := by
  have below := nodes_le_nodesAll member
  rw [operation.nodes_eq]
  omega

end Operation

mutual

def Entry.nodes : Entry → Nat
  | .statement operation => operation.nodes
  | .block body => Block.nodes body
termination_by structural entry => entry

def Block.nodes : List Entry → Nat
  | [] => 0
  | entry :: rest => Entry.nodes entry + Block.nodes rest
termination_by structural entries => entries

end

def Program.nodes (program : Program) : Nat :=
  Block.nodes program.main

/-! ## Statements -/

mutual

def Entry.statements : Entry → List Operation
  | .statement operation => [operation]
  | .block body => Block.statements body
termination_by structural entry => entry

def Block.statements : List Entry → List Operation
  | [] => []
  | first :: rest => Entry.statements first ++ Block.statements rest
termination_by structural entries => entries

end

end ScopeMachine
