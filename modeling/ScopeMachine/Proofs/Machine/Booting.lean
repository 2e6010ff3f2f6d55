import ScopeMachine.Proofs.Machine.Upholding
import ScopeMachine.Proofs.Store.Provenance
import ScopeMachine.Proofs.Store.Shield

set_option autoImplicit false

/-!
# Booting

The heap of a machine that is ready to run: the program object, nothing and the array constructor
first, and then the constants in the order of their pool. It is guarded, the table of constants has
the binding of every constant, and the table of shared values that of every value.
-/

namespace ScopeMachine

open Assembly Heap

abbrev noneLost : ScopeId → Prop :=
  fun _ => False

/-! ## Bindings of constants -/

def Payload.shared (payload : Payload) : Binding :=
  { Binding.ofPayload payload with constant := true }

section

variable {nothing id : BindingId} {payload : Payload} {heap : Heap}
  {interned : Std.HashMap Payload BindingId} (present : payload ≠ .absent)

include present

/-- A value that is shared already keeps its binding. -/
theorem Machine.internIn_of_some (known : interned[payload]? = some id) :
    Machine.internIn nothing payload (heap, interned) = (id, heap, interned) := by
  cases payload <;> simp_all [Machine.internIn]

/-- A value that is not shared yet gets a new binding. -/
theorem Machine.internIn_of_none (known : interned[payload]? = none) :
    Machine.internIn nothing payload (heap, interned)
      = ((heap.allocate payload.shared).1, (heap.allocate payload.shared).2,
        interned.insert payload (heap.allocate payload.shared).1) := by
  cases payload <;> simp_all [Machine.internIn, Payload.shared]

end

/-- The binding of a constant. The well-known objects have a scope each, which nothing has not, and
every other value is shared. -/
def Constant.Stored (heap : Heap) (constant : Constant) (binding : Binding) : Prop :=
  match constant.key with
  | .nothing => binding = { name := some nothingName, constant := true }
  | .primitive payload => binding = payload.shared
  | object => ∃ scope, heap.Lasting scope ∧ binding
      = { name := some object.display, tag := object.tag, scope := some scope, constant := true }

/-- A binding as it is stored at the start: it has no body, and if it holds a value, it shares it. -/
def Binding.Initial (binding : Binding) : Prop :=
  binding.body = 0 ∧ (binding.payload = .absent ∨ binding = binding.payload.shared)

/-- A heap in which some constants are stored, with their bindings in order and the table of shared
values. -/
structure Stocked (stored : List Constant)
    (state : Array BindingId × Heap × Std.HashMap Payload BindingId) : Prop where
  guarded : Guarded noneLost [] state.2.1
  nothing : state.2.1.bindings.get? nothingId = some { name := some nothingName, constant := true }
  object : state.2.1.bindings.get? ⟨0, 0⟩
    = some { tag := .object, scope := some ⟨0, 0⟩, constant := true }
  unowned : ∀ owner, ¬ state.2.1.Owns owner ⟨0, 0⟩
  program : state.2.1.Lasting ⟨0, 0⟩
  top : ∀ {scope found}, state.2.1.scopes.get? scope = some found → found.parent = none
  size : state.1.size = stored.length
  table : ∀ {index : Nat} {constant : Constant}, stored[index]? = some constant →
    ∃ id binding, state.1[index]? = some id ∧ state.2.1.bindings.get? id = some binding
      ∧ constant.Stored state.2.1 binding
  interned : ∀ {payload : Payload} {id : BindingId}, state.2.2[payload]? = some id →
    payload ≠ .absent ∧ state.2.1.bindings.get? id = some payload.shared
  owned : ∀ {owner : ScopeId} {id : BindingId}, state.2.1.Owns owner id → state.2.1.Mutable id
  listed : ∀ {id : BindingId} {binding : Binding}, state.2.1.bindings.get? id = some binding →
    binding.constant = true → id = ⟨0, 0⟩ ∨ id = nothingId ∨ id ∈ state.1
  initial : ∀ {binding : Binding}, state.2.1.Stored binding → binding.Initial

/-- A heap in which every binding and every scope of another one is found as it was. -/
structure Heap.Extends (before after : Heap) : Prop where
  bindings : ∀ {id binding}, before.bindings.get? id = some binding →
    after.bindings.get? id = some binding
  scopes : ∀ {id scope}, before.scopes.get? id = some scope → after.scopes.get? id = some scope
  owns : ∀ {owner id}, after.Owns owner id → before.Owns owner id

section

variable {before middle after heap : Heap}

theorem Heap.Extends.refl (heap : Heap) : heap.Extends heap :=
  ⟨fun found => found, fun found => found, fun owns => owns⟩

theorem Heap.Extends.trans (first : before.Extends middle) (second : middle.Extends after) :
    before.Extends after :=
  ⟨fun found => second.bindings (first.bindings found),
    fun found => second.scopes (first.scopes found), fun owns => first.owns (second.owns owns)⟩

private theorem Heap.extends_allocate (heap : Heap) (binding : Binding) :
    heap.Extends (heap.allocate binding).2 :=
  ⟨fun found => (get?_allocate_of_live ⟨_, found⟩).trans found, fun found => found, fun owns => owns⟩

private theorem Heap.extends_allocateScope {scope : Scope} (empty : scope.own = #[]) :
    heap.Extends (heap.allocateScope scope).2 :=
  ⟨fun found => found, fun found => (get?_allocateScope_of_live ⟨_, found⟩).trans found,
    (owns_allocateScope empty).mp⟩

theorem Heap.Extends.lasting (extends_ : before.Extends after) {scope : ScopeId}
    (lasting : before.Lasting scope) : after.Lasting scope := by
  obtain ⟨found, there, rest⟩ := lasting
  exact ⟨found, extends_.scopes there, rest⟩

theorem Constant.Stored.extends {constant : Constant} {binding : Binding}
    (stored : constant.Stored before binding) (extends_ : before.Extends after) :
    constant.Stored after binding := by
  unfold Constant.Stored at *
  split at stored
  · exact stored
  · exact stored
  · obtain ⟨scope, lasting, same⟩ := stored
    exact ⟨scope, extends_.lasting lasting, same⟩

end

theorem Constant.Stored.initial {constant : Constant} {heap : Heap} {binding : Binding}
    (stored : constant.Stored heap binding) : binding.Initial := by
  unfold Constant.Stored at stored
  split at stored
  · cases stored
    exact ⟨rfl, .inl rfl⟩
  · cases stored
    exact ⟨rfl, .inr rfl⟩
  · obtain ⟨scope, -, rfl⟩ := stored
    exact ⟨rfl, .inl rfl⟩

theorem Constant.Stored.constant {constant : Constant} {heap : Heap} {binding : Binding}
    (stored : constant.Stored heap binding) : binding.constant = true := by
  unfold Constant.Stored at stored
  split at stored
  · cases stored
    rfl
  · cases stored
    rfl
  · obtain ⟨scope, -, rfl⟩ := stored
    rfl

/-! ## Storing constants -/

section

variable {stored : List Constant} {state : Array BindingId × Heap × Std.HashMap Payload BindingId}

/-- One more constant has a binding, in a heap that has only become larger. -/
theorem Stocked.adds (stocked : Stocked stored state) {constant : Constant} {heap : Heap}
    {interned : Std.HashMap Payload BindingId} {id : BindingId} {binding : Binding}
    (extends_ : state.2.1.Extends heap) (guarded : Guarded noneLost [] heap)
    (found : heap.bindings.get? id = some binding) (stores : constant.Stored heap binding)
    (only : ∀ {other : BindingId} {value : Binding}, heap.bindings.get? other = some value →
      state.2.1.bindings.get? other = some value ∨ other = id ∧ value = binding)
    (top : ∀ {scope found}, heap.scopes.get? scope = some found → found.parent = none)
    (shares : ∀ {payload : Payload} {id : BindingId}, interned[payload]? = some id →
      payload ≠ .absent ∧ heap.bindings.get? id = some payload.shared) :
    Stocked (stored ++ [constant]) (state.1.push id, heap, interned) where
  guarded := guarded
  nothing := extends_.bindings stocked.nothing
  object := extends_.bindings stocked.object
  unowned owner owns := stocked.unowned owner (extends_.owns owns)
  program := extends_.lasting stocked.program
  top := top
  size := by simp [stocked.size]
  table {index other} member := by
    dsimp only
    rw [Array.getElem?_push, stocked.size]
    by_cases last : index = stored.length
    · rw [last, List.getElem?_concat_length] at member
      cases member
      exact ⟨id, binding, by rw [if_pos last], found, stores⟩
    · have inside : index < stored.length := by
        have bound := (List.getElem?_eq_some_iff.mp member).1
        rw [List.length_append, List.length_singleton] at bound
        omega
      rw [List.getElem?_append_left inside] at member
      obtain ⟨held, record, listed, there, stores⟩ := stocked.table member
      exact ⟨held, record, by rw [if_neg last, listed], extends_.bindings there,
        stores.extends extends_⟩
  interned := shares
  owned owns := by
    obtain ⟨value, there, plain⟩ := stocked.owned (extends_.owns owns)
    exact ⟨value, extends_.bindings there, plain⟩
  listed there constant := by
    obtain before | ⟨rfl, rfl⟩ := only there
    · exact (stocked.listed before constant).imp_right (·.imp_right fun member =>
        Array.mem_push.mpr (.inl member))
    · exact .inr (.inr (Array.mem_push.mpr (.inr rfl)))
  initial := by
    rintro value ⟨other, there⟩
    obtain before | ⟨-, rfl⟩ := only there
    · exact stocked.initial ⟨other, before⟩
    · exact stores.initial

/-- A new binding is the only one that was not there. -/
theorem only_allocate {heap : Heap} {binding value : Binding} {other : BindingId}
    (found : (heap.allocate binding).2.bindings.get? other = some value) :
    heap.bindings.get? other = some value
      ∨ other = (heap.allocate binding).1 ∧ value = binding := by
  rw [get?_allocate] at found
  split at found
  · next same =>
    cases found
    exact .inr ⟨same, rfl⟩
  · exact .inl found

theorem Stocked.stores (stocked : Stocked stored state) (constant : Constant) :
    Stocked (stored ++ [constant]) (storing nothingId state constant) := by
  have nothing := stocked.nothing
  have guarded := stocked.guarded
  cases constant with
  | nothing => exact stocked.adds (.refl _) guarded nothing rfl .inl stocked.top stocked.interned
  | root | something =>
    have opened : Guarded noneLost [] (state.2.1.newScope none true).2 :=
      guarded.allocateScope rfl id
    have lasting : (state.2.1.newScope none true).2.Lasting (state.2.1.newScope none true).1 :=
      lasting_allocateScope rfl rfl
    have extends_ : state.2.1.Extends (state.2.1.newScope none true).2 := extends_allocateScope rfl
    refine stocked.adds (extends_.trans (extends_allocate _ _)) (opened.allocate ?_)
      ((get?_allocate _ _ _).trans (if_pos rfl)) ⟨_, (extends_allocate _ _).lasting lasting, rfl⟩
      only_allocate (fun {scope found} there => ?_) ?_
    · rintro scope ⟨⟩
      exact ⟨.inl lasting, by simp [Unsealed]⟩
    · have known := (get?_allocateScope state.2.1 { parent := none, durable := true } scope).symm.trans
        there
      split at known
      · cases known
        rfl
      · exact stocked.top known
    · intro payload id held
      obtain ⟨present, found⟩ := stocked.interned held
      exact ⟨present, (extends_.trans (extends_allocate _ _)).bindings found⟩
  | primitive payload =>
    by_cases absent : payload = .absent
    · subst absent
      exact stocked.adds (.refl _) guarded nothing rfl .inl stocked.top stocked.interned
    · have key : (Constant.primitive payload).key = .primitive payload := by
        cases payload <;> trivial
      simp only [storing, Machine.constantIn]
      cases known : state.2.2[payload]? with
      | some id =>
        rw [Machine.internIn_of_some absent known]
        refine stocked.adds (.refl _) guarded (stocked.interned known).2 ?_ .inl stocked.top
          stocked.interned
        simp [Constant.Stored, key]
      | none =>
        rw [Machine.internIn_of_none absent known]
        have found : (state.2.1.allocate payload.shared).2.bindings.get?
            (state.2.1.allocate payload.shared).1 = some payload.shared :=
          (get?_allocate _ _ _).trans (if_pos rfl)
        refine stocked.adds (extends_allocate _ _) (guarded.allocate (by simp [Payload.shared, Binding.ofPayload])) found
          ?_ only_allocate stocked.top ?_
        · simp [Constant.Stored, key]
        · intro other id held
          rw [Std.HashMap.getElem?_insert] at held
          split at held
          · next same =>
            cases held
            cases (LawfulBEq.eq_of_beq same)
            exact ⟨absent, found⟩
          · obtain ⟨present, there⟩ := stocked.interned held
            exact ⟨present, (extends_allocate _ _).bindings there⟩

theorem Stocked.all (stocked : Stocked stored state) (constants : List Constant) :
    Stocked (stored ++ constants) (constants.foldl (storing nothingId) state) := by
  induction constants generalizing stored state with
  | nil => simpa using stocked
  | cons constant rest ih => simpa using ih (stocked.stores constant)

end

/-! ## The start -/

private theorem guarded_empty : Guarded noneLost [] {} where
  tidy := ⟨nofun, nofun, nofun⟩
  refers := nofun
  dead := nofun
  sealed := nofun
  nodup := .nil

/-- The heap is guarded before the constants are stored. -/
theorem guarded_groundwork : Guarded noneLost [] groundwork := by
  have program : Guarded noneLost [] (Heap.newScope {} none true).2 :=
    guarded_empty.allocateScope rfl id
  have lasting : (Heap.newScope {} none true).2.Lasting ⟨0, 0⟩ := lasting_allocateScope rfl rfl
  have object : Guarded noneLost [] ((Heap.newScope {} none true).2.allocate
      { tag := .object, scope := some ⟨0, 0⟩, constant := true }).2 :=
    program.allocate fun scope refers => by
      cases refers
      exact ⟨.inl lasting, by simp [Unsealed]⟩
  refine Guarded.declared (Guarded.allocateScope (Guarded.allocate object ?_) rfl ?_) ?_
  · intro scope refers
    cases refers
  · exact id
  · intro scope refers
    cases refers
    exact ⟨.inl (lasting_allocateScope rfl rfl), by simp [Unsealed]⟩

/-- The scopes that are there before the constants. -/
theorem groundwork_scopes : groundwork.scopes.slots
    = #[.occupied 0 { own := #[⟨2, 0⟩], durable := true }, .occupied 0 { durable := true }] :=
  rfl

private theorem get?_groundwork {id : BindingId} {binding : Binding}
    (there : groundwork.bindings.get? id = some binding) :
    id = ⟨0, 0⟩ ∧ binding = { tag := .object, scope := some ⟨0, 0⟩, constant := true }
      ∨ id = nothingId ∧ binding = { name := some nothingName, constant := true }
      ∨ id = ⟨2, 0⟩
        ∧ binding = { name := some Machine.arrayName, tag := .array, scope := some ⟨1, 0⟩ } := by
  obtain ⟨index, generation⟩ := id
  simp only [Arena.get?, groundwork_slots] at there
  rcases index with _ | _ | _ | index
  case succ.succ.succ => simp at there
  all_goals
    by_cases first : (0 : UInt32) = generation
    · simp [first] at there
      subst first there
      simp [nothingId]
    · simp [first] at there

private theorem stocked_groundwork : Stocked [] (#[], groundwork, ∅) where
  guarded := guarded_groundwork
  nothing := rfl
  object := rfl
  unowned owner owns := by
    obtain owns | ⟨-, same, -⟩ := owns_adopt.mp owns
    · have program : (Heap.newScope {} none true).2.Owns owner ⟨0, 0⟩ := (owns_allocateScope rfl).mp owns
      obtain ⟨_, there, -⟩ := (owns_allocateScope rfl).mp program
      cases there
    · exact absurd same (by decide)
  program := ⟨_, rfl, rfl, rfl⟩
  top {scope found} there := by
    simp only [Arena.get?, groundwork_scopes] at there
    split at there
    · next generation value known =>
      have listed := Array.mem_of_getElem? known
      split at there
      · cases there
        simp only [List.mem_toArray, List.mem_cons, Slot.occupied.injEq, List.not_mem_nil,
          or_false] at listed
        obtain ⟨-, rfl⟩ | ⟨-, rfl⟩ := listed <;> rfl
      · cases there
    · cases there
  size := rfl
  table member := by cases member
  interned held := by simp at held
  owned owns := by
    obtain owns | ⟨-, rfl, -⟩ := owns_adopt.mp owns
    · have program : (Heap.newScope {} none true).2.Owns _ _ := (owns_allocateScope rfl).mp owns
      obtain ⟨_, there, -⟩ := (owns_allocateScope rfl).mp program
      cases there
    · exact ⟨_, rfl, rfl⟩
  listed there constant := by
    obtain ⟨rfl, -⟩ | ⟨rfl, -⟩ | ⟨-, rfl⟩ := get?_groundwork there
    · exact .inl rfl
    · exact .inr (.inl rfl)
    · cases constant
  initial := by
    rintro binding ⟨id, there⟩
    obtain ⟨-, rfl⟩ | ⟨-, rfl⟩ | ⟨-, rfl⟩ := get?_groundwork there <;> exact ⟨rfl, .inl rfl⟩

theorem stocked_boot (pools : Pools) :
    Stocked pools.constants.entries.toList (storedConstants pools) :=
  stocked_groundwork.all pools.constants.entries.toList

/-- What holds before the constants, and is kept when a binding or an empty scope is stored, holds at
the start. -/
theorem Machine.boot_keeps (holds : Heap → Prop) (start : holds groundwork)
    (allocate : ∀ {heap} binding, holds heap → holds (heap.allocate binding).2)
    (newScope : ∀ {heap}, holds heap → holds (heap.newScope none true).2)
    (config : Config) (input : List UInt8) (pools : Pools) :
    holds (Machine.boot config input pools).heap := by
  have stored (constants : List Constant)
      (state : Array BindingId × Heap × Std.HashMap Payload BindingId) (before : holds state.2.1) :
      holds (constants.foldl (storing nothingId) state).2.1 := by
    induction constants generalizing state with
    | nil => exact before
    | cons constant rest ih =>
      refine ih _ ?_
      simp only [storing, Machine.constantIn]
      split
      · exact before
      · simp only [Machine.internIn]
        split
        · exact before
        · split
          · exact before
          · exact allocate _ before
      · exact allocate _ (newScope before)
  rw [boot_eq]
  exact stored _ _ start

/-- No scope has been freed at the start. -/
theorem generation_boot (config : Config) (input : List UInt8) (pools : Pools) (index : Nat) :
    (Machine.boot config input pools).heap.scopes.generation index = 0 := by
  refine Machine.boot_keeps (fun heap => heap.scopes.generation index = 0) ?_
    (fun _ before => before) (fun {heap} before => ?_) config input pools
  · rw [Arena.generation, groundwork_scopes]
    rcases index with _ | _ | index
    · rfl
    · rfl
    · simp
  · exact (heap.scopes.generation_allocate _ index).trans before

/-- No binding has been freed at the start. -/
theorem generation_bindings_boot (config : Config) (input : List UInt8) (pools : Pools) (index : Nat) :
    (Machine.boot config input pools).heap.bindings.generation index = 0 := by
  refine Machine.boot_keeps (fun heap => heap.bindings.generation index = 0) ?_
    (fun {heap} binding before => ?_) (fun before => before) config input pools
  · rw [Arena.generation, groundwork_slots]
    rcases index with _ | _ | _ | index
    · rfl
    · rfl
    · rfl
    · simp
  · exact (heap.bindings.generation_allocate binding index).trans before

section

variable (config : Config) (input : List UInt8) (pools : Pools)

theorem tidy_boot : (Machine.boot config input pools).heap.Tidy := by
  rw [boot_eq]
  exact (stocked_boot pools).guarded.tidy

private theorem order_boot :
    Order noneLost [] (Machine.boot config input pools).frames (Machine.boot config input pools) := by
  have stocked := stocked_boot pools
  have public_ {id : BindingId} (live : (storedConstants pools).2.1.Live id) :
      (storedConstants pools).2.1.Public [] id := ⟨live, by simp, by simp⟩
  rw [boot_eq]
  refine ⟨stocked.guarded, fun root => public_ ?_, by simp, fun member held => public_ ?_,
    fun part beneath => ?_, ?_⟩
  · cases root with
    | nothing => exact ⟨_, stocked.nothing⟩
    | @constant id member =>
      obtain ⟨index, inside, rfl⟩ := Array.mem_iff_getElem.mp member
      have stored := List.getElem?_eq_getElem (stocked.size ▸ inside)
      obtain ⟨held, binding, listed, there, -⟩ := stocked.table stored
      rw [Array.getElem?_eq_getElem inside] at listed
      cases listed
      exact ⟨binding, there⟩
    | interned held => exact ⟨_, (stocked.interned held).2⟩
  · cases List.mem_singleton.mp member
    cases held with
    | caller => exact ⟨_, stocked.nothing⟩
    | receiver => exact ⟨_, stocked.object⟩
    | saved saved => cases saved
  · obtain same | none := List.suffix_cons_iff.mp part
    · cases same
      exact ⟨by simp [Frame.estate], by simp⟩
    · cases List.suffix_nil.mp none
  · refine ⟨by simp [Frame.estate], fun member => ?_, fun member => ?_, ⟨stocked.program, by simp [Unsealed]⟩,
      fun member => ?_, fun part more => ?_⟩
    · cases List.mem_singleton.mp member
      simp
    · cases List.mem_singleton.mp member
      simp
    · cases List.mem_singleton.mp member
      exact stocked.unowned
    · obtain same | none := List.suffix_cons_iff.mp part
      · cases same
        exact absurd rfl more
      · cases List.suffix_nil.mp none

theorem inOrder_boot : InOrder noneLost [] (Machine.boot config input pools) := by
  have order := order_boot config input pools
  have program := order.estates.program
  refine ⟨trivial, order, by simp [picked], ?_, ⟨_, _, rfl, rfl, rfl⟩⟩
  refine ⟨order.holds (.head _) .caller, order.holds (.head _) .receiver, ?_,
    .inl program.1.liveScope, program.2⟩
  intro id last
  cases last

end

end ScopeMachine
