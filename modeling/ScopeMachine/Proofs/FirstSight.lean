import ScopeMachine.Proofs.PoolIndex

set_option autoImplicit false

/-!
# Pools in the order of first sight

The pools of a program hold what its leaves denote, each at the place of its first occurrence. An
index leads to an entry exactly if the entry has this index.
-/

namespace ScopeMachine

/-! ## Leaves -/

namespace Operation

mutual

def parts : Operation → List Operation
  | ⟨kind, operands, value, line⟩ => ⟨kind, operands, value, line⟩ :: partsAll operands
termination_by structural operation => operation

def partsAll : List Operation → List Operation
  | [] => []
  | operation :: rest => parts operation ++ partsAll rest
termination_by structural operations => operations

end

def content? (operation : Operation) : Option Reference :=
  if operation.kind = .ref then operation.value else none

def leaves (operation : Operation) : List Reference :=
  operation.parts.filterMap content?

def leavesAll (operations : List Operation) : List Reference :=
  (partsAll operations).filterMap content?

theorem parts_eq (operation : Operation) :
    operation.parts = operation :: partsAll operation.operands := by
  obtain ⟨kind, operands, value, line⟩ := operation
  rfl

theorem partsAll_eq_flatMap (operations : List Operation) :
    partsAll operations = operations.flatMap parts := by
  induction operations with
  | nil => rfl
  | cons operation rest ih => rw [partsAll, ih, List.flatMap_cons]

theorem leaves_eq (operation : Operation) :
    operation.leaves = operation.content?.toList ++ leavesAll operation.operands := by
  rw [leaves, parts_eq, List.filterMap_cons, leavesAll]
  cases operation.content? <;> rfl

@[simp] theorem leavesAll_nil : leavesAll [] = [] :=
  rfl

@[simp] theorem leavesAll_cons (operation : Operation) (rest : List Operation) :
    leavesAll (operation :: rest) = operation.leaves ++ leavesAll rest := by
  rw [leavesAll, partsAll, List.filterMap_append]
  rfl

/-- What is no leaf carries what its operands do. -/
theorem leaves_of_inner {operation : Operation} (inner : operation.kind ≠ .ref) :
    operation.leaves = leavesAll operation.operands := by
  rw [leaves_eq, content?, if_neg inner]
  rfl

end Operation

mutual

def Entry.parts : Entry → List Operation
  | .statement operation => operation.parts
  | .block body => Block.parts body
termination_by structural entry => entry

/-- The operations of a block in source order, with all below them. -/
def Block.parts : List Entry → List Operation
  | [] => []
  | entry :: rest => Entry.parts entry ++ Block.parts rest
termination_by structural entries => entries

end

def Program.parts (program : Program) : List Operation :=
  Block.parts program.main

/-- What the leaves of a block carry, in source order. -/
def Block.leaves (block : Block) : List Reference :=
  (Block.parts block).filterMap Operation.content?

/-- What the leaves of a program carry, in source order. -/
def Program.leaves (program : Program) : List Reference :=
  program.parts.filterMap Operation.content?

theorem Block.leaves_statement (operation : Operation) (rest : Block) :
    Block.leaves (.statement operation :: rest) = operation.leaves ++ Block.leaves rest := by
  rw [leaves, parts, List.filterMap_append]
  rfl

theorem Block.leaves_block (body rest : Block) :
    Block.leaves (.block body :: rest) = Block.leaves body ++ Block.leaves rest := by
  rw [leaves, parts, List.filterMap_append]
  rfl

def Reference.literal? : Reference → Option Literal
  | .literal value => some value
  | .name _ => none

/-- The constant that a leaf denotes. -/
def Reference.constant? (reference : Reference) : Option Constant :=
  match reference.entity with
  | .constant constant => some constant
  | .name _ => none

/-- The name that a leaf denotes, if it is no well-known one. -/
def Reference.plainName? (reference : Reference) : Option String :=
  match reference.entity with
  | .constant _ => none
  | .name text => some text

/-! ## One pool -/

private theorem eraseDups_concat {κ : Type} [BEq κ] [LawfulBEq κ] (seen : List κ) (key : κ) [Decidable (key ∈ seen)] :
    (seen ++ [key]).eraseDups = if key ∈ seen then seen.eraseDups else seen.eraseDups ++ [key] := by
  rw [List.eraseDups_append, List.removeAll]
  split
  · next member => simp [member]
  · next other => simp [other, List.eraseDups_cons]

namespace Pool

variable {κ : Type} [BEq κ] [LawfulBEq κ] [Hashable κ] {pool : Pool κ κ} {seen : List κ}

/-- A pool that has seen keys: it holds each of them once, in the order of first sight, and finds
all of them. -/
structure Represents (pool : Pool κ κ) (seen : List κ) : Prop where
  entries : pool.entries.toList = seen.eraseDups
  index : ∀ {key index}, pool.indexOf? key = some index ↔ pool.get? index = some key

private theorem represents_empty : Represents ({} : Pool κ κ) [] where
  entries := rfl
  index := by simp [indexOf?, get?]

theorem Represents.isSome_iff (represents : pool.Represents seen) (key : κ) :
    (pool.indexOf? key).isSome ↔ key ∈ seen := by
  rw [← List.mem_eraseDups, ← represents.entries, List.mem_iff_getElem?, Option.isSome_iff_exists]
  refine exists_congr fun index => represents.index.trans ?_
  rw [get?, Array.getElem?_toList]

theorem Represents.intern (represents : pool.Represents seen) (key : κ) :
    (pool.intern key key).Represents (seen ++ [key]) := by
  classical
  have known := represents.isSome_iff key
  have dedup := eraseDups_concat seen key
  unfold Pool.intern
  split
  case isTrue found =>
    exact ⟨by rw [dedup, if_pos (known.mp found), represents.entries], represents.index⟩
  case isFalse missing =>
    refine ⟨?_, fun {wanted index} => ?_⟩
    · rw [dedup, if_neg fun member => missing (known.mpr member), Array.toList_push,
        represents.entries]
    · have absent : pool.indexOf? key = none := by simpa using missing
      have old := @represents.index wanted index
      simp only [indexOf?, get?] at old absent ⊢
      rw [Std.HashMap.getElem?_insert, Array.getElem?_push]
      by_cases same : key = wanted
      · subst same
        rw [if_pos BEq.rfl]
        by_cases last : index = pool.entries.size
        · simp [last]
        · rw [if_neg last, ← old, absent]
          simpa using Ne.symm last
      · rw [if_neg (by simpa using same), old]
        by_cases last : index = pool.entries.size
        · rw [if_pos last, last]
          simp [same]
        · rw [if_neg last]

omit [LawfulBEq κ] in
/-- No two entries are the same. -/
theorem Represents.nodup (represents : pool.Represents seen) : pool.entries.toList.Nodup := by
  refine List.pairwise_iff_getElem.mpr fun first second inside inside' before same => ?_
  have one : pool.get? first = some pool.entries.toList[first] := by
    rw [get?, ← Array.getElem?_toList, List.getElem?_eq_getElem inside]
  have two : pool.get? second = some pool.entries.toList[second] := by
    rw [get?, ← Array.getElem?_toList, List.getElem?_eq_getElem inside']
  rw [same] at one
  have index := (represents.index.mpr one).symm.trans (represents.index.mpr two)
  exact absurd (Option.some.inj index) (Nat.ne_of_lt before)

end Pool

/-! ## Both pools of a program -/

private theorem Constant.key_literal (literal : Literal) :
    (Constant.primitive literal.payload).key = .primitive literal.payload := by
  cases literal <;> rfl

theorem Reference.key_of_entity {reference : Reference} {constant : Constant}
    (entity : reference.entity = .constant constant) : constant.key = constant := by
  cases reference with
  | literal value =>
    cases entity
    exact Constant.key_literal value
  | name text =>
    simp only [Reference.entity] at entity
    split at entity
    · next found =>
      cases entity
      simp only [wellKnown?] at found
      repeat' split at found
      all_goals cases found <;> rfl
    · cases entity

namespace Pools

/-- The constants that every pool starts with. -/
def wellKnown : List Constant :=
  [.root, .something, .nothing]

/-- Pools that have seen leaves. -/
structure HasSeen (pools : Pools) (leaves : List Reference) : Prop where
  constants : pools.constants.Represents (wellKnown ++ leaves.filterMap Reference.constant?)
  names : pools.names.Represents (leaves.filterMap Reference.plainName?)

private theorem hasSeen_initial : HasSeen {} [] := by
  have known : Pool.Represents ConstantPool.initial ([] ++ [Constant.root] ++ [Constant.something] ++ [Constant.nothing]) :=
    ((Pool.represents_empty.intern Constant.root).intern .something).intern .nothing
  exact ⟨known, Pool.represents_empty⟩

theorem HasSeen.addEntity {pools : Pools} {leaves : List Reference} (seen : pools.HasSeen leaves)
    (reference : Reference) :
    (pools.addEntity reference.entity).HasSeen (leaves ++ [reference]) := by
  obtain ⟨constants, names⟩ := pools
  cases entity : reference.entity with
  | constant constant =>
    have own : reference.constant? = some constant := by simp [Reference.constant?, entity]
    have other : reference.plainName? = none := by simp [Reference.plainName?, entity]
    have added := seen.constants.intern constant
    refine ⟨?_, ?_⟩
    · simpa [Pools.addEntity, ConstantPool.add, Reference.key_of_entity entity, own] using added
    · simpa [Pools.addEntity, other] using seen.names
  | name name =>
    have own : reference.plainName? = some name := by simp [Reference.plainName?, entity]
    have other : reference.constant? = none := by simp [Reference.constant?, entity]
    refine ⟨?_, ?_⟩
    · simpa [Pools.addEntity, other] using seen.constants
    · simpa [Pools.addEntity, NamePool.add, own] using seen.names.intern name

theorem HasSeen.addLeaf {pools : Pools} {leaves : List Reference} (seen : pools.HasSeen leaves)
    (operation : Operation) :
    (pools.addLeaf operation.kind operation.value).HasSeen (leaves ++ operation.content?.toList) := by
  unfold Pools.addLeaf
  split
  case h_1 reference kind value =>
    rw [Operation.content?, if_pos kind, value]
    exact seen.addEntity reference
  case h_2 other =>
    have none : operation.content? = none := by
      unfold Operation.content?
      split
      case isTrue kind =>
        cases value : operation.value with
        | none => rfl
        | some reference => exact absurd value (other reference kind)
      case isFalse => rfl
    rw [none]
    simpa using seen

theorem HasSeen.addOperations {operations : List Operation}
    (each : ∀ operation ∈ operations, ∀ {pools : Pools} {leaves : List Reference},
      pools.HasSeen leaves → (pools.addOperation operation).HasSeen (leaves ++ operation.leaves))
    {pools : Pools} {leaves : List Reference} (seen : pools.HasSeen leaves) :
    (pools.addOperations operations).HasSeen (leaves ++ Operation.leavesAll operations) := by
  induction operations generalizing pools leaves with
  | nil => simpa [Pools.addOperations] using seen
  | cons operation rest ih =>
    have first := each operation (.head _) seen
    rw [Operation.leavesAll_cons, ← List.append_assoc]
    exact ih (fun other member => each other (.tail _ member)) first

theorem HasSeen.addOperation {pools : Pools} {leaves : List Reference} (seen : pools.HasSeen leaves)
    (operation : Operation) :
    (pools.addOperation operation).HasSeen (leaves ++ operation.leaves) := by
  induction operation using Operation.induction generalizing pools leaves with
  | node operation ih deep =>
    rw [operation.leaves_eq, ← List.append_assoc]
    have own := seen.addLeaf operation
    obtain ⟨kind, operands, value, line⟩ := operation
    exact own.addOperations ih

theorem HasSeen.addBlock {pools : Pools} {leaves : List Reference} (seen : pools.HasSeen leaves)
    (block : Block) : (pools.addBlock block).HasSeen (leaves ++ Block.leaves block) := by
  induction block using Block.induction generalizing pools leaves with
  | nil => simpa [Block.leaves, Block.parts, Pools.addBlock] using seen
  | statement operation rest ih =>
    rw [Block.leaves_statement, ← List.append_assoc]
    exact ih (seen.addOperation operation)
  | block body rest inner later =>
    rw [Block.leaves_block, ← List.append_assoc]
    exact later (inner seen)

theorem hasSeen_ofProgram (program : Program) : (ofProgram program).HasSeen program.leaves :=
  hasSeen_initial.addBlock program.main

/-! ## Their entries -/

section

variable (program : Program)

private theorem removeAll_wellKnown (leaves : List Reference) :
    (leaves.filterMap Reference.constant?).removeAll wellKnown
      = (leaves.filterMap Reference.literal?).map fun literal => .primitive literal.payload := by
  induction leaves with
  | nil => rfl
  | cons reference rest ih =>
    rw [List.removeAll] at ih ⊢
    cases reference with
    | literal value =>
      have constant : (Reference.literal value).constant? = some (.primitive value.payload) := rfl
      rw [List.filterMap_cons_some constant, List.filter_cons_of_pos (by simp [wellKnown]), ih]
      rfl
    | name text =>
      cases special : wellKnown? text with
      | none =>
        have none : (Reference.name text).constant? = none := by
          simp [Reference.constant?, Reference.entity, special]
        rw [List.filterMap_cons_none none, ih]
        rfl
      | some constant =>
        have known : constant ∈ wellKnown := by
          simp only [wellKnown?] at special
          repeat' split at special
          all_goals cases special
          all_goals decide
        have same : (Reference.name text).constant? = some constant := by
          simp [Reference.constant?, Reference.entity, special]
        rw [List.filterMap_cons_some same, List.filter_cons_of_neg (by simp [known]), ih]
        rfl

/-- The constants of a program are the well-known ones and its literals, in the order of first
sight. -/
theorem constants_ofProgram :
    (ofProgram program).constants.entries.toList = wellKnown
      ++ ((program.leaves.filterMap Reference.literal?).map fun literal =>
        Constant.primitive literal.payload).eraseDups := by
  rw [(hasSeen_ofProgram program).constants.entries, List.eraseDups_append, removeAll_wellKnown]
  rfl

theorem key_ofProgram {constant : Constant}
    (member : constant ∈ (ofProgram program).constants.entries.toList) : constant.key = constant := by
  rw [(hasSeen_ofProgram program).constants.entries, List.mem_eraseDups, List.mem_append] at member
  obtain known | leaf := member
  · simp only [wellKnown, List.mem_cons, List.not_mem_nil, or_false] at known
    obtain rfl | rfl | rfl := known <;> rfl
  · obtain ⟨reference, -, denotes⟩ := List.mem_filterMap.mp leaf
    unfold Reference.constant? at denotes
    split at denotes
    · next entity =>
      cases denotes
      exact Reference.key_of_entity entity
    · cases denotes

theorem get?_of_constant {constant : Constant} {index : Nat}
    (found : (ofProgram program).constants.index? constant = some index) :
    (ofProgram program).constants.get? index = some constant.key :=
  (hasSeen_ofProgram program).constants.index.mp found

theorem get?_nothing : (ofProgram program).constants.get? nothingIndex = some .nothing := by
  rw [Pool.get?, ← Array.getElem?_toList, constants_ofProgram]
  rfl

end

end Pools

end ScopeMachine
