import ScopeMachine.Proofs.Store.Ownership

set_option autoImplicit false

/-!
# Shielded heaps

Bindings are freed with the scope that owns them, or by themselves when a machine has set them aside.
A heap is shielded when neither way leads to a constant. The operations of a running machine keep a
heap shielded and all of its constants as they are.
-/

namespace ScopeMachine.Heap

/-- The binding is there and may be changed. -/
def Mutable (heap : Heap) (id : BindingId) : Prop :=
  ∃ binding, heap.bindings.get? id = some binding ∧ binding.constant = false

/-- A tidy heap with some bindings set aside, which no scope owns. Those, and all that scopes own, may
be changed. -/
structure Shielded (spare : List BindingId) (heap : Heap) : Prop where
  tidy : heap.Tidy
  owned : ∀ {owner id}, heap.Owns owner id → heap.Mutable id
  aside : ∀ {id}, id ∈ spare → heap.Mutable id
  unowned : ∀ {id}, id ∈ spare → ∀ owner, ¬ heap.Owns owner id
  once : spare.Nodup

/-- Both heaps have the same constants. -/
def SameConstants (before after : Heap) : Prop :=
  ∀ (id : BindingId) (binding : Binding), binding.constant = true →
    (after.bindings.get? id = some binding ↔ before.bindings.get? id = some binding)

/-- A change that keeps a shielded heap shielded, with the same constants. -/
def Respects (spare : List BindingId) (before after : Heap) : Prop :=
  before.Shielded spare → after.Shielded spare ∧ SameConstants before after

section

variable {spare : List BindingId} {heap before middle after : Heap}

theorem Mutable.live {id : BindingId} (mutable : heap.Mutable id) : heap.Live id := by
  obtain ⟨binding, there, -⟩ := mutable
  exact ⟨binding, there⟩

/-- What may be changed is not found as a constant. -/
theorem Mutable.differs {id : BindingId} {binding : Binding} (mutable : heap.Mutable id)
    (constant : binding.constant = true) : heap.bindings.get? id ≠ some binding := by
  obtain ⟨found, there, plain⟩ := mutable
  rw [there]
  rintro ⟨⟩
  rw [plain] at constant
  cases constant

/-- Fewer bindings are set aside. -/
theorem Shielded.subset (shielded : heap.Shielded spare) {fewer : List BindingId}
    (once : fewer.Nodup) (sub : fewer ⊆ spare) : heap.Shielded fewer :=
  { shielded with
    aside := fun member => shielded.aside (sub member)
    unowned := fun member => shielded.unowned (sub member)
    once }

theorem SameConstants.refl (heap : Heap) : SameConstants heap heap :=
  fun _ _ _ => .rfl

theorem SameConstants.trans (first : SameConstants before middle)
    (second : SameConstants middle after) : SameConstants before after :=
  fun id binding constant => (second id binding constant).trans (first id binding constant)

theorem Respects.refl (heap : Heap) : Respects spare heap heap :=
  fun shielded => ⟨shielded, .refl heap⟩

theorem Respects.trans (first : Respects spare before middle)
    (second : Respects spare middle after) : Respects spare before after := by
  intro shielded
  obtain ⟨shielded, same⟩ := first shielded
  obtain ⟨shielded, still⟩ := second shielded
  exact ⟨shielded, same.trans still⟩

/-! ## Bindings -/

theorem Mutable.allocate {id : BindingId} (mutable : heap.Mutable id) (binding : Binding) :
    (heap.allocate binding).2.Mutable id := by
  have live := mutable.live
  obtain ⟨found, there, plain⟩ := mutable
  exact ⟨found, (get?_allocate_of_live live).trans there, plain⟩

theorem Shielded.allocate (shielded : heap.Shielded spare) (binding : Binding) :
    (heap.allocate binding).2.Shielded spare where
  tidy := shielded.tidy.allocate binding
  owned owns := (shielded.owned owns).allocate binding
  aside member := (shielded.aside member).allocate binding
  unowned := shielded.unowned
  once := shielded.once

section

variable {binding : Binding} (plain : binding.constant = false)

include plain

private theorem mutable_allocate : (heap.allocate binding).2.Mutable (heap.allocate binding).1 :=
  ⟨binding, (heap.get?_allocate binding _).trans (if_pos rfl), plain⟩

theorem sameConstants_allocate : SameConstants heap (heap.allocate binding).2 := by
  intro id found constant
  by_cases new : id = (heap.allocate binding).1
  · subst new
    exact iff_of_false ((mutable_allocate plain).differs constant)
      fun there => heap.not_live_allocate binding ⟨found, there⟩
  · rw [get?_allocate, if_neg new]

theorem respects_allocate : Respects spare heap (heap.allocate binding).2 :=
  fun shielded => ⟨shielded.allocate binding, sameConstants_allocate plain⟩

theorem Shielded.sets_aside (shielded : heap.Shielded spare) :
    (heap.allocate binding).2.Shielded ((heap.allocate binding).1 :: spare) := by
  have allocated := shielded.allocate binding
  refine
    { allocated with
      aside := fun member => ?_
      unowned := fun member => ?_
      once := List.nodup_cons.mpr ⟨fun member => ?_, shielded.once⟩ }
  · obtain rfl | member := List.mem_cons.mp member
    · exact mutable_allocate plain
    · exact allocated.aside member
  · obtain rfl | member := List.mem_cons.mp member
    · exact shielded.tidy.not_owns_allocate binding
    · exact allocated.unowned member
  · exact heap.not_live_allocate binding (shielded.aside member).live

theorem respects_declare (scope : ScopeId) : Respects spare heap (heap.declare scope binding).2 := by
  by_cases live : heap.LiveScope scope
  · rw [declare_of_live live]
    intro shielded
    have aside := shielded.sets_aside plain
    refine ⟨⟨shielded.tidy.declared scope binding, fun owns => ?_, fun member => ?_,
      fun member owner owns => ?_, shielded.once⟩, sameConstants_allocate plain⟩
    · obtain owns | ⟨-, rfl, -⟩ := owns_adopt.mp owns
      · exact aside.owned owns
      · exact mutable_allocate plain
    · exact aside.aside (.tail _ member)
    · obtain owns | ⟨-, rfl, -⟩ := owns_adopt.mp owns
      · exact aside.unowned (.tail _ member) owner owns
      · exact (List.nodup_cons.mp aside.once).1 member
  · rw [declare_of_dead live]
    exact .refl heap

end

section

variable {changed : BindingId} {f : Binding → Binding}
  (keeps : ∀ binding, binding.constant = false → (f binding).constant = false)

include keeps

theorem Mutable.modifyBinding {id : BindingId} (mutable : heap.Mutable id) :
    (heap.modifyBinding changed f).Mutable id := by
  obtain ⟨binding, there, plain⟩ := mutable
  by_cases same : id = changed
  · subst same
    refine ⟨f binding, ?_, keeps binding plain⟩
    rw [Heap.modifyBinding, Arena.get?_modify, if_pos rfl, there]
    rfl
  · exact ⟨binding, (get?_modifyBinding_ne same).trans there, plain⟩

theorem respects_modifyBinding (mutable : heap.Mutable changed) :
    Respects spare heap (heap.modifyBinding changed f) := by
  refine fun shielded => ⟨⟨shielded.tidy.modifyBinding changed f,
    fun owns => (shielded.owned owns).modifyBinding keeps,
    fun member => (shielded.aside member).modifyBinding keeps, shielded.unowned, shielded.once⟩, ?_⟩
  intro id found constant
  by_cases same : id = changed
  · subst same
    exact iff_of_false ((mutable.modifyBinding keeps).differs constant) (mutable.differs constant)
  · rw [get?_modifyBinding_ne same]

end

/-- A binding that takes the place of another of its name takes the place of one that may be
changed. -/
theorem respects_redeclare (scope : ScopeId) {binding : Binding} (plain : binding.constant = false) :
    Respects spare heap (heap.redeclare scope binding).2 := by
  unfold Heap.redeclare
  split
  · exact respects_declare plain scope
  · next name _ =>
    intro shielded
    obtain ⟨found, finds, held⟩ | ⟨fails, -⟩ := shielded.tidy.findImmediate scope name
    · rw [finds]
      cases found with
      | none => exact respects_declare plain scope shielded
      | some id =>
        exact respects_modifyBinding (fun _ _ => plain) (shielded.owned (held id rfl)) shielded
    · rw [fails]
      exact ⟨shielded, .refl heap⟩

/-! ## Scopes -/

theorem respects_allocateScope {scope : Scope} (empty : scope.own = #[]) :
    Respects spare heap (heap.allocateScope scope).2 :=
  fun shielded => ⟨⟨shielded.tidy.allocateScope empty,
    fun owns => shielded.owned ((owns_allocateScope empty).mp owns), shielded.aside,
    fun member owner owns => shielded.unowned member owner ((owns_allocateScope empty).mp owns),
    shielded.once⟩, .refl heap⟩

private theorem respects_copyInto (scope : ScopeId) (ids : List BindingId) (heap : Heap)
    (live : heap.LiveScope scope) : Respects spare heap (copyInto scope ids heap).2 := by
  induction ids generalizing heap with
  | nil => exact .refl heap
  | cons id rest ih =>
    unfold copyInto
    split
    · exact .refl heap
    · next binding _ =>
      have declares : Respects spare heap
          (heap.declare scope { binding with constant := false }).2 := respects_declare rfl scope
      rw [declare_of_live live] at declares
      exact declares.trans (ih _ (liveScope_adopt.mpr live))

theorem respects_copyScope (source : ScopeId) : Respects spare heap (heap.copyScope source).2 := by
  unfold Heap.copyScope
  split
  · exact .refl heap
  · next scope _ =>
    let copied : Scope := { parent := scope.parent, parameters := scope.parameters, durable := true }
    have opens : Respects spare heap (heap.allocateScope copied).2 := respects_allocateScope rfl
    have live : (heap.allocateScope copied).2.LiveScope (heap.allocateScope copied).1 :=
      liveScope_allocateScope.mpr (.inl rfl)
    have copies : Respects spare _ _ := respects_copyInto _ scope.own.toList _ live
    dsimp only
    split
    · next result =>
      rw [result] at copies
      exact opens.trans copies
    · next result =>
      rw [result] at copies
      exact opens.trans copies

/-! ## Release -/

theorem Loses.mutable {owner : ScopeId} (loses : heap.Loses owner after) {id : BindingId}
    (mutable : heap.Mutable id) (free : ¬ heap.Owns owner id) : after.Mutable id := by
  obtain ⟨binding, there, plain⟩ := mutable
  exact ⟨binding, (loses.kept free).trans there, plain⟩

/-- With a scope go only bindings that may be changed. -/
theorem respects_freeScope (owner : ScopeId) : Respects spare heap (heap.freeScope owner).2 := by
  by_cases live : heap.LiveScope owner
  · obtain ⟨count, after, frees, loses⟩ := freeScope_of_live live
    rw [frees]
    intro shielded
    refine ⟨⟨shielded.tidy.loses loses, fun owns => ?_, fun member => ?_, fun member other owns => ?_,
      shielded.once⟩, fun id binding constant => ?_⟩
    · obtain ⟨ne, owns⟩ := loses.owns_before owns
      exact loses.mutable (shielded.owned owns) fun held => ne (shielded.tidy.single owns held)
    · exact loses.mutable (shielded.aside member) (shielded.unowned member owner)
    · exact shielded.unowned member other (loses.owns_before owns).2
    · by_cases owns : heap.Owns owner id
      · refine iff_of_false ?_ ((shielded.owned owns).differs constant)
        simp [loses.owned owns]
      · rw [loses.kept owns]
  · rw [freeScope_of_dead live]
    exact .refl heap

theorem respects_releaseScope (owner : ScopeId) :
    Respects spare heap (heap.releaseScope owner).2 := by
  unfold Heap.releaseScope
  split
  · exact .refl heap
  · split
    · exact .refl heap
    · exact respects_freeScope owner

/-- A binding that was set aside can be freed. -/
theorem Shielded.freeBinding {id : BindingId} (shielded : heap.Shielded (id :: spare)) :
    (heap.freeBinding id).2.Shielded spare ∧ SameConstants heap (heap.freeBinding id).2 := by
  obtain ⟨fresh, once⟩ := List.nodup_cons.mp shielded.once
  have keeps {other : BindingId} (mutable : heap.Mutable other) (ne : other ≠ id) :
      (heap.freeBinding id).2.Mutable other := by
    obtain ⟨binding, there, plain⟩ := mutable
    exact ⟨binding, by rw [get?_freeBinding, if_neg ne, there], plain⟩
  refine ⟨⟨shielded.tidy.freeBinding (shielded.unowned (.head _)), fun owns => ?_, fun member => ?_,
    fun member => shielded.unowned (.tail _ member), once⟩, fun other binding constant => ?_⟩
  · refine keeps (shielded.owned owns) ?_
    rintro rfl
    exact shielded.unowned (.head _) _ owns
  · refine keeps (shielded.aside (.tail _ member)) ?_
    rintro rfl
    exact fresh member
  · rw [get?_freeBinding]
    split
    · next same =>
      subst same
      exact iff_of_false (by simp) ((shielded.aside (.head _)).differs constant)
    · exact .rfl

end

end ScopeMachine.Heap
