import ScopeMachine.Pool
import ScopeMachine.Proofs.Induction

set_option autoImplicit false

/-!
# Indices into pools

An index that a pool gives for a key leads back to an entry with this key. The pools of a program
hold the three well-known objects from the start.
-/

namespace ScopeMachine

namespace Pool

variable {α κ : Type} [BEq κ] [Hashable κ]

/-- Every position that a pool knows holds an entry with the key. -/
def Indexed (pool : Pool α κ) (key : α → κ) : Prop :=
  ∀ wanted index, pool.indexOf? wanted = some index →
    ∃ entry, pool.get? index = some entry ∧ key entry = wanted

private theorem indexed_empty (key : α → κ) : Indexed ({} : Pool α κ) key := by
  intro wanted index known
  simp [indexOf?] at known

theorem Indexed.intern [LawfulBEq κ] {pool : Pool α κ} {key : α → κ} (indexed : pool.Indexed key) (entry : α) :
    (pool.intern (key entry) entry).Indexed key := by
  unfold Pool.intern
  split
  · exact indexed
  · intro wanted index known
    simp only [indexOf?, Std.HashMap.getElem?_insert] at known
    split at known
    case isTrue same =>
      cases known
      exact ⟨entry, by simp [get?], eq_of_beq same⟩
    case isFalse =>
      obtain ⟨found, held, same⟩ := indexed _ _ known
      refine ⟨found, ?_, same⟩
      obtain ⟨inside, -⟩ := Array.getElem?_eq_some_iff.mp held
      simpa [get?, Array.getElem?_push, Nat.ne_of_lt inside] using held

theorem Indexed.lt_size {pool : Pool α κ} {key : α → κ} (indexed : pool.Indexed key) {wanted : κ}
    {index : Nat} (known : pool.indexOf? wanted = some index) : index < pool.size := by
  obtain ⟨entry, held, -⟩ := indexed _ _ known
  obtain ⟨inside, -⟩ := Array.getElem?_eq_some_iff.mp held
  exact inside

private theorem size_le_intern (pool : Pool α κ) (key : κ) (entry : α) :
    pool.size ≤ (pool.intern key entry).size := by
  unfold Pool.intern
  split
  · exact Nat.le_refl _
  · simp [size]

private theorem isSome_indexOf?_intern [LawfulBEq κ] (pool : Pool α κ) (key : κ) (entry : α) :
    ((pool.intern key entry).indexOf? key).isSome := by
  unfold Pool.intern
  split
  · assumption
  · simp [indexOf?]

private theorem isSome_indexOf?_of_isSome [LawfulBEq κ] {pool : Pool α κ} {wanted : κ}
    (known : (pool.indexOf? wanted).isSome) (key : κ) (entry : α) :
    ((pool.intern key entry).indexOf? wanted).isSome := by
  unfold Pool.intern
  split
  · exact known
  · simp only [indexOf?] at known ⊢
    rw [Std.HashMap.getElem?_insert]
    split
    · rfl
    · exact known

private theorem isSome_of_isSome_intern [LawfulBEq κ] {pool : Pool α κ} {wanted key : κ} {entry : α}
    (known : ((pool.intern key entry).indexOf? wanted).isSome) :
    (pool.indexOf? wanted).isSome ∨ key = wanted := by
  unfold Pool.intern at known
  split at known
  · exact .inl known
  · simp only [indexOf?, Std.HashMap.getElem?_insert] at known
    split at known
    case isTrue same => exact .inr (eq_of_beq same)
    case isFalse => exact .inl known

end Pool

namespace Pools

/-- Both pools are indexed, and the null object has its place. -/
structure Sound (pools : Pools) : Prop where
  names : pools.names.Indexed id
  constants : pools.constants.Indexed Constant.key
  nothing : nothingIndex < pools.constants.size

theorem Sound.addEntity {pools : Pools} (sound : pools.Sound) (entity : Entity) :
    (pools.addEntity entity).Sound := by
  cases entity with
  | constant constant =>
    exact ⟨sound.names, sound.constants.intern constant,
      Nat.lt_of_lt_of_le sound.nothing (Pool.size_le_intern _ _ _)⟩
  | name name => exact ⟨sound.names.intern name, sound.constants, sound.nothing⟩

/-! ## Adding the leaves of a program -/

section

variable {motive : Pools → Prop} (step : ∀ {pools : Pools} (reference : Reference), motive pools →
  motive (pools.addEntity reference.entity))

include step

/-- What adding any content keeps, adding a leaf keeps. -/
theorem addLeaf_induction {pools : Pools} (holds : motive pools) (kind : Kind)
    (value : Option Reference) : motive (pools.addLeaf kind value) := by
  unfold Pools.addLeaf
  split
  · exact step _ holds
  · exact holds

omit step in
private theorem addOperations_induction {operations : List Operation}
    (each : ∀ operation ∈ operations, ∀ {pools : Pools}, motive pools →
      motive (pools.addOperation operation))
    {pools : Pools} (holds : motive pools) : motive (pools.addOperations operations) := by
  induction operations generalizing pools with
  | nil => exact holds
  | cons operation rest ih =>
    exact ih (fun other member => each other (.tail _ member)) (each operation (.head _) holds)

private theorem addOperation_induction {pools : Pools} (holds : motive pools) (operation : Operation) :
    motive (pools.addOperation operation) := by
  induction operation using Operation.induction generalizing pools with
  | node operation ih deep =>
    obtain ⟨kind, operands, value, line⟩ := operation
    exact addOperations_induction ih (addLeaf_induction step holds kind value)

private theorem addBlock_induction {pools : Pools} (holds : motive pools) (block : Block) :
    motive (pools.addBlock block) := by
  induction block using Block.induction generalizing pools with
  | nil => exact holds
  | statement operation rest ih => exact ih (addOperation_induction step holds operation)
  | block body rest inner later => exact later (inner holds)

end

private theorem sound_initial : Sound {} where
  names := Pool.indexed_empty id
  constants := (((Pool.indexed_empty Constant.key).intern .root).intern .something).intern .nothing
  nothing := by
    simp [ConstantPool.initial, ConstantPool.add, Pool.intern, Pool.indexOf?, Pool.size,
      Constant.key, nothingIndex]

theorem sound_ofProgram (program : Program) : (ofProgram program).Sound :=
  addBlock_induction (fun reference sound => sound.addEntity reference.entity) sound_initial
    program.main

/-! ## What the pools of a program know -/

/-- The pools have an index for what a leaf denotes. -/
def Knows (pools : Pools) : Entity → Prop
  | .constant constant => (pools.constants.index? constant).isSome
  | .name name => (pools.names.index? name).isSome

private theorem knows_addEntity (pools : Pools) (entity : Entity) : (pools.addEntity entity).Knows entity := by
  cases entity with
  | constant constant => exact Pool.isSome_indexOf?_intern _ _ _
  | name name => exact Pool.isSome_indexOf?_intern _ _ _

theorem Knows.addEntity {pools : Pools} {entity : Entity} (known : pools.Knows entity)
    (other : Entity) : (pools.addEntity other).Knows entity := by
  cases other with
  | constant constant =>
    cases entity with
    | constant wanted => exact Pool.isSome_indexOf?_of_isSome known _ _
    | name => exact known
  | name name =>
    cases entity with
    | constant => exact known
    | name wanted => exact Pool.isSome_indexOf?_of_isSome known _ _

theorem Knows.addOperation {pools : Pools} {entity : Entity} (known : pools.Knows entity)
    (operation : Operation) : (pools.addOperation operation).Knows entity :=
  addOperation_induction (motive := fun pools => pools.Knows entity)
    (fun reference known => known.addEntity reference.entity) known operation

theorem Knows.addOperations {pools : Pools} {entity : Entity} (known : pools.Knows entity)
    (operations : List Operation) : (pools.addOperations operations).Knows entity :=
  addOperations_induction (motive := fun pools => pools.Knows entity)
    (fun operation _ _ known => known.addOperation operation) known

theorem Knows.addBlock {pools : Pools} {entity : Entity} (known : pools.Knows entity)
    (block : Block) : (pools.addBlock block).Knows entity :=
  addBlock_induction (motive := fun pools => pools.Knows entity)
    (fun reference known => known.addEntity reference.entity) known block

/-- The pools have an index for every leaf of an operation. -/
inductive Covers (pools : Pools) : Operation → Prop
  | node {operation : Operation}
    (own : ∀ reference, operation.kind = .ref → operation.value = some reference →
      pools.Knows reference.entity)
    (below : ∀ operand ∈ operation.operands, pools.Covers operand) : pools.Covers operation

theorem Covers.mono {pools larger : Pools} {operation : Operation} (covers : pools.Covers operation)
    (keeps : ∀ {entity}, pools.Knows entity → larger.Knows entity) : larger.Covers operation := by
  induction covers with
  | node own below ih =>
    exact .node (fun reference leaf value => keeps (own reference leaf value)) ih

private theorem knows_addLeaf (pools : Pools) (reference : Reference) :
    (pools.addLeaf .ref (some reference)).Knows reference.entity :=
  knows_addEntity pools reference.entity

private theorem covers_addOperations {operations : List Operation}
    (each : ∀ operation ∈ operations, ∀ pools : Pools, (pools.addOperation operation).Covers operation)
    (pools : Pools) : ∀ operation ∈ operations, (pools.addOperations operations).Covers operation := by
  induction operations generalizing pools with
  | nil => simp
  | cons first rest ih =>
    intro operation member
    cases member with
    | head => exact (each first (.head _) pools).mono fun known => known.addOperations rest
    | tail _ member => exact ih (fun other member => each other (.tail _ member)) _ operation member

theorem covers_addOperation (pools : Pools) (operation : Operation) :
    (pools.addOperation operation).Covers operation := by
  induction operation using Operation.induction generalizing pools with
  | node operation ih deep =>
    obtain ⟨kind, operands, value, line⟩ := operation
    refine .node (fun reference leaf given => ?_) (covers_addOperations ih _)
    cases leaf
    cases given
    exact (knows_addLeaf pools reference).addOperations operands

/-- A well-known name has no place in the pools. -/
def Plain (pools : Pools) : Prop :=
  ∀ name, (pools.names.index? name).isSome → wellKnown? name = none

theorem Plain.addEntity {pools : Pools} (plain : pools.Plain) (reference : Reference) :
    (pools.addEntity reference.entity).Plain := by
  cases reference with
  | literal value => exact plain
  | name text =>
    cases special : wellKnown? text with
    | some constant =>
      simp only [Reference.entity, special]
      exact plain
    | none =>
      simp only [Reference.entity, special]
      intro name known
      obtain old | rfl := Pool.isSome_of_isSome_intern known
      · exact plain name old
      · exact special

theorem plain_ofProgram (program : Program) : (ofProgram program).Plain :=
  addBlock_induction (fun reference plain => plain.addEntity reference)
    (fun name known => by simp [NamePool.index?, Pool.indexOf?] at known) program.main

end Pools

end ScopeMachine
