import ScopeMachine.Proofs.Store.Gains

set_option autoImplicit false

/-!
# Custody

A copy of a method lies on the operand stack until it is called. Until then it alone refers to its
scope, and no name leads to what the scope owns. A heap is guarded when it is tidy, when the waiting
copies are sealed in this way, and when every other scope that a binding refers to is there to last,
or is one of the scopes that were lost. All that makes a heap grow keeps it guarded, and so does the
release of a scope.
-/

namespace ScopeMachine.Heap

/-! ## Guarded heaps -/

/-- A copy that waits for its call: it alone refers to its scope, and nothing owns it. -/
structure Sealed (heap : Heap) (copy : BindingId) (scope : ScopeId) : Prop where
  refers : heap.Refers copy scope
  lasting : heap.Lasting scope
  only : ∀ {id}, heap.Refers id scope → id = copy
  unowned : ∀ owner, ¬ heap.Owns owner copy

/-- No waiting copy refers to the scope. -/
def Unsealed (heap : Heap) (copies : List BindingId) (scope : ScopeId) : Prop :=
  ∀ copy ∈ copies, ¬ heap.Refers copy scope

/-- A scope that bindings may refer to. -/
def Common (heap : Heap) (lost : ScopeId → Prop) (copies : List BindingId) (scope : ScopeId) :
    Prop :=
  (heap.Lasting scope ∨ lost scope) ∧ heap.Unsealed copies scope

/-- A scope in which names may be looked up and declared. -/
def Reachable (heap : Heap) (lost : ScopeId → Prop) (copies : List BindingId) (scope : ScopeId) :
    Prop :=
  (heap.LiveScope scope ∨ lost scope) ∧ heap.Unsealed copies scope

/-- A binding that values and names may lead to. -/
structure Public (heap : Heap) (copies : List BindingId) (id : BindingId) : Prop where
  live : heap.Live id
  other : id ∉ copies
  outside : ∀ {copy owner}, copy ∈ copies → heap.Refers copy owner → ¬ heap.Owns owner id

/-- A tidy heap with waiting copies, in which every scope that a binding refers to will last or was
lost. -/
structure Guarded (lost : ScopeId → Prop) (copies : List BindingId) (heap : Heap) : Prop where
  tidy : heap.Tidy
  refers : ∀ {id scope}, heap.Refers id scope → heap.Lasting scope ∨ lost scope
  dead : ∀ {scope}, lost scope → ¬ heap.LiveScope scope
  sealed : ∀ copy ∈ copies, ∃ scope, heap.Sealed copy scope
  nodup : copies.Nodup

section

variable {lost : ScopeId → Prop} {copies : List BindingId} {heap : Heap}

theorem Guarded.live (guarded : Guarded lost copies heap) {copy : BindingId} (waits : copy ∈ copies) :
    heap.Live copy := by
  obtain ⟨scope, kept⟩ := guarded.sealed copy waits
  exact kept.refers.live

theorem Guarded.unowned (guarded : Guarded lost copies heap) {copy : BindingId}
    (waits : copy ∈ copies) (owner : ScopeId) : ¬ heap.Owns owner copy := by
  obtain ⟨scope, kept⟩ := guarded.sealed copy waits
  exact kept.unowned owner

theorem Guarded.unsealed (guarded : Guarded lost copies heap) {id : BindingId} {scope : ScopeId}
    (refers : heap.Refers id scope) (other : id ∉ copies) : heap.Unsealed copies scope := by
  intro copy waits sharing
  obtain ⟨own, kept⟩ := guarded.sealed copy waits
  cases kept.refers.unique sharing
  cases kept.only refers
  exact other waits

theorem Guarded.common (guarded : Guarded lost copies heap) {id : BindingId} {scope : ScopeId}
    (refers : heap.Refers id scope) (other : id ∉ copies) : heap.Common lost copies scope :=
  ⟨guarded.refers refers, guarded.unsealed refers other⟩

theorem Guarded.public (guarded : Guarded lost copies heap) {id : BindingId} {owner : ScopeId}
    (owns : heap.Owns owner id) (unsealed : heap.Unsealed copies owner) : heap.Public copies id where
  live := guarded.tidy.live owns
  other waits := guarded.unowned waits owner owns
  outside waits refers again := by
    cases guarded.tidy.single owns again
    exact unsealed _ waits refers

theorem Common.reachable {scope : ScopeId} (common : heap.Common lost copies scope) :
    heap.Reachable lost copies scope :=
  ⟨common.1.imp_left Lasting.liveScope, common.2⟩

theorem Reachable.lost_of_dead {scope : ScopeId} (reachable : heap.Reachable lost copies scope)
    (dead : ¬ heap.LiveScope scope) : lost scope :=
  reachable.1.resolve_left dead

theorem Common.dead_or_lasting (guarded : Guarded lost copies heap) {scope : ScopeId}
    (common : heap.Common lost copies scope) : heap.Lasting scope ∨ ¬ heap.LiveScope scope :=
  common.1.imp_right guarded.dead

/-- More scopes may be lost than are known to be. -/
theorem Guarded.mono {more : ScopeId → Prop} (guarded : Guarded lost copies heap)
    (implies : ∀ {scope}, lost scope → more scope)
    (dead : ∀ {scope}, more scope → ¬ heap.LiveScope scope) : Guarded more copies heap :=
  ⟨guarded.tidy, fun refers => (guarded.refers refers).imp_right implies, dead, guarded.sealed,
    guarded.nodup⟩

/-! ### Copies that wait no longer -/

variable {fewer : List BindingId} (sub : List.Sublist fewer copies)

include sub

theorem Guarded.sublist (guarded : Guarded lost copies heap) : Guarded lost fewer heap :=
  ⟨guarded.tidy, guarded.refers, guarded.dead,
    fun copy waits => guarded.sealed copy (sub.subset waits), guarded.nodup.sublist sub⟩

theorem Unsealed.sublist {scope : ScopeId} (unsealed : heap.Unsealed copies scope) :
    heap.Unsealed fewer scope :=
  fun copy waits => unsealed copy (sub.subset waits)

theorem Public.sublist {id : BindingId} (known : heap.Public copies id) : heap.Public fewer id :=
  ⟨known.live, fun waits => known.other (sub.subset waits),
    fun waits => known.outside (sub.subset waits)⟩

omit sub in
theorem Guarded.release (guarded : Guarded lost copies heap) {copy : BindingId}
    (waited : copy ∈ copies) (no : copy ∉ fewer) : heap.Public fewer copy :=
  ⟨guarded.live waited, no, fun _ _ => guarded.unowned waited _⟩

end

/-! ## Growth -/

/-- What is live stays so, scopes gain only bindings that were not there before, and the waiting
copies are not touched. -/
structure Grows (copies : List BindingId) (before after : Heap) : Prop where
  live : ∀ {id}, before.Live id → after.Live id
  scope : ∀ {id scope}, before.scopes.get? id = some scope →
    ∃ larger, after.scopes.get? id = some larger ∧ larger.durable = scope.durable
      ∧ larger.parent = scope.parent
  owns : ∀ {owner id}, after.Owns owner id → before.Owns owner id ∨ ¬ before.Live id
  copies : ∀ {copy}, copy ∈ copies → after.bindings.get? copy = before.bindings.get? copy

/-- A binding that was not there before, and that nothing owns. -/
structure Fresh (before after : Heap) (id : BindingId) : Prop where
  new : ¬ before.Live id
  live : after.Live id
  unowned : ∀ owner, ¬ after.Owns owner id

section

variable {lost : ScopeId → Prop} {copies : List BindingId} {before middle after heap : Heap}

theorem Grows.refl (copies : List BindingId) (heap : Heap) : Grows copies heap heap :=
  ⟨fun live => live, fun there => ⟨_, there, rfl, rfl⟩, .inl, fun _ => rfl⟩

theorem Grows.trans (first : Grows copies before middle) (second : Grows copies middle after) :
    Grows copies before after where
  live live := second.live (first.live live)
  scope there := by
    obtain ⟨larger, there, durable, parent⟩ := first.scope there
    obtain ⟨largest, there, again, still⟩ := second.scope there
    exact ⟨largest, there, again.trans durable, still.trans parent⟩
  owns owns := by
    obtain owns | gone := second.owns owns
    · exact first.owns owns
    · exact .inr fun live => gone (first.live live)
  copies waits := (second.copies waits).trans (first.copies waits)

section

variable (grows : Grows copies before after)

include grows

theorem Grows.liveScope {scope : ScopeId} (live : before.LiveScope scope) :
    after.LiveScope scope := by
  obtain ⟨found, there⟩ := live
  obtain ⟨larger, there, -⟩ := grows.scope there
  exact ⟨larger, there⟩

theorem Grows.lasting {scope : ScopeId} (lasting : before.Lasting scope) : after.Lasting scope := by
  obtain ⟨found, there, durable, top⟩ := lasting
  obtain ⟨larger, there, same, parent⟩ := grows.scope there
  exact ⟨larger, there, same.trans durable, parent.trans top⟩

theorem Grows.fleeting {scope : ScopeId} (fleeting : before.Fleeting scope) :
    after.Fleeting scope := by
  obtain ⟨found, there, brief⟩ := fleeting
  obtain ⟨larger, there, same, -⟩ := grows.scope there
  exact ⟨larger, there, same.trans brief⟩

theorem Grows.refers {copy : BindingId} (waits : copy ∈ copies) {scope : ScopeId} :
    after.Refers copy scope ↔ before.Refers copy scope := by
  unfold Refers
  rw [grows.copies waits]

theorem Grows.unsealed {scope : ScopeId} (unsealed : before.Unsealed copies scope) :
    after.Unsealed copies scope :=
  fun copy waits refers => unsealed copy waits ((grows.refers waits).mp refers)

theorem Grows.common {scope : ScopeId} (common : before.Common lost copies scope) :
    after.Common lost copies scope :=
  ⟨common.1.imp_left grows.lasting, grows.unsealed common.2⟩

theorem Grows.reachable {scope : ScopeId} (reachable : before.Reachable lost copies scope) :
    after.Reachable lost copies scope :=
  ⟨reachable.1.imp_left grows.liveScope, grows.unsealed reachable.2⟩

theorem Grows.not_owns {owner : ScopeId} {id : BindingId} (live : before.Live id)
    (free : ¬ before.Owns owner id) : ¬ after.Owns owner id :=
  fun owns => (grows.owns owns).elim free fun gone => gone live

theorem Grows.public {id : BindingId} (known : before.Public copies id) :
    after.Public copies id where
  live := grows.live known.live
  other := known.other
  outside waits refers :=
    grows.not_owns known.live (known.outside waits ((grows.refers waits).mp refers))

theorem Grows.fresh_left {id : BindingId} (fresh : Fresh after heap id) : Fresh before heap id :=
  ⟨fun live => fresh.new (grows.live live), fresh.live, fresh.unowned⟩

theorem Grows.fresh_right {id : BindingId} (fresh : Fresh heap before id) : Fresh heap after id :=
  ⟨fresh.new, grows.live fresh.live, fun owner => grows.not_owns fresh.live (fresh.unowned owner)⟩

end

theorem Guarded.public_of_fresh (guarded : Guarded lost copies before) {id : BindingId}
    (fresh : Fresh before after id) : after.Public copies id :=
  ⟨fresh.live, fun waits => fresh.new (guarded.live waits), fun _ _ => fresh.unowned _⟩

end

/-! ## Operations -/

section

variable {lost : ScopeId → Prop} {copies : List BindingId} {heap : Heap}
  (guarded : Guarded lost copies heap)

include guarded

/-! ### Bindings -/

theorem Guarded.grows_allocate (binding : Binding) :
    Grows copies heap (heap.allocate binding).2 where
  live live := live_allocate.mpr (.inr live)
  scope there := ⟨_, there, rfl, rfl⟩
  owns := .inl
  copies waits := get?_allocate_of_live (guarded.live waits)

theorem Guarded.fresh_allocate (binding : Binding) :
    Fresh heap (heap.allocate binding).2 (heap.allocate binding).1 where
  new := heap.not_live_allocate binding
  live := live_allocate.mpr (.inl rfl)
  unowned := guarded.tidy.not_owns_allocate binding

/-- A binding can be stored that refers to nothing but a common scope. -/
theorem Guarded.allocate {binding : Binding}
    (common : ∀ scope, binding.scope = some scope → heap.Common lost copies scope) :
    Guarded lost copies (heap.allocate binding).2 where
  tidy := guarded.tidy.allocate binding
  refers refers := by
    obtain ⟨-, refers⟩ | refers := refers_allocate.mp refers
    · exact (common _ refers).1
    · exact guarded.refers refers
  dead := guarded.dead
  sealed copy waits := by
    obtain ⟨scope, kept⟩ := guarded.sealed copy waits
    refine ⟨scope, refers_allocate.mpr (.inr kept.refers), kept.lasting, fun refers => ?_,
      kept.unowned⟩
    obtain ⟨-, refers⟩ | refers := refers_allocate.mp refers
    · exact absurd kept.refers ((common scope refers).2 copy waits)
    · exact kept.only refers
  nodup := guarded.nodup

theorem Guarded.seal {binding : Binding} {scope : ScopeId} (lasting : heap.Lasting scope)
    (unused : ∀ id, ¬ heap.Refers id scope) (own : binding.scope = some scope) :
    Guarded lost ((heap.allocate binding).1 :: copies) (heap.allocate binding).2 := by
  have common : ∀ other, binding.scope = some other → heap.Common lost copies other := by
    rintro other refers
    rw [own] at refers
    cases refers
    exact ⟨.inl lasting, fun copy _ => unused copy⟩
  have allocated := guarded.allocate common
  have fresh := guarded.fresh_allocate binding
  refine ⟨allocated.tidy, allocated.refers, allocated.dead, fun copy waits => ?_,
    List.nodup_cons.mpr ⟨fun waits => fresh.new (guarded.live waits), guarded.nodup⟩⟩
  obtain rfl | waits := List.mem_cons.mp waits
  · refine ⟨scope, refers_allocate.mpr (.inl ⟨rfl, own⟩), lasting, fun refers => ?_, fresh.unowned⟩
    obtain ⟨same, -⟩ | refers := refers_allocate.mp refers
    · exact same
    · exact absurd refers (unused _)
  · exact allocated.sealed copy waits

omit guarded in
theorem Public.seal {binding : Binding} {scope : ScopeId} {id : BindingId}
    (known : heap.Public copies id) (own : binding.scope = some scope) (outside : ¬ heap.Owns scope id) :
    (heap.allocate binding).2.Public ((heap.allocate binding).1 :: copies) id where
  live := live_allocate.mpr (.inr known.live)
  other waits := by
    obtain rfl | waits := List.mem_cons.mp waits
    · exact heap.not_live_allocate binding known.live
    · exact known.other waits
  outside waits refers owns := by
    obtain ⟨-, refers⟩ | refers := refers_allocate.mp refers
    · rw [own] at refers
      cases refers
      exact outside owns
    · obtain rfl | waits := List.mem_cons.mp waits
      · exact heap.not_live_allocate binding refers.live
      · exact known.outside waits refers owns

omit guarded in
theorem grows_modifyBinding {id : BindingId} (other : id ∉ copies) (f : Binding → Binding) :
    Grows copies heap (heap.modifyBinding id f) where
  live live := live_modifyBinding.mpr live
  scope there := ⟨_, there, rfl, rfl⟩
  owns := .inl
  copies waits := get?_modifyBinding_ne fun same => other (same ▸ waits)

theorem Guarded.modifyBinding {id : BindingId} {f : Binding → Binding} (other : id ∉ copies)
    (common : ∀ binding scope, heap.bindings.get? id = some binding →
      (f binding).scope = some scope → heap.Common lost copies scope) :
    Guarded lost copies (heap.modifyBinding id f) where
  tidy := guarded.tidy.modifyBinding id f
  refers refers := by
    obtain ⟨binding, found, refers, -⟩ | refers := Refers.of_modifyBinding refers
    · exact (common binding _ found refers).1
    · exact guarded.refers refers
  dead := guarded.dead
  sealed copy waits := by
    obtain ⟨scope, kept⟩ := guarded.sealed copy waits
    have grows : Grows copies heap (heap.modifyBinding id f) := grows_modifyBinding other f
    refine ⟨scope, (grows.refers waits).mpr kept.refers, kept.lasting, fun refers => ?_, kept.unowned⟩
    obtain ⟨binding, found, refers, -⟩ | refers := Refers.of_modifyBinding refers
    · exact absurd kept.refers ((common binding scope found refers).2 copy waits)
    · exact kept.only refers
  nodup := guarded.nodup

/-! ### Declarations -/

theorem Guarded.grows_declared (owner : ScopeId) (binding : Binding) :
    Grows copies heap (heap.declared owner binding) where
  live live := (guarded.grows_allocate binding).live live
  scope there := get?_adopt_of_some there
  owns owns := by
    obtain owns | ⟨-, rfl, -⟩ := owns_adopt.mp owns
    · exact .inl owns
    · exact .inr (heap.not_live_allocate binding)
  copies waits := (guarded.grows_allocate binding).copies waits

theorem Guarded.declared {owner : ScopeId} {binding : Binding}
    (common : ∀ scope, binding.scope = some scope → heap.Common lost copies scope) :
    Guarded lost copies (heap.declared owner binding) := by
  have allocated := guarded.allocate common
  have fresh := guarded.fresh_allocate binding
  have grows := guarded.grows_declared owner binding
  refine
    { tidy := guarded.tidy.declared owner binding
      refers := fun refers => ?_
      dead := fun gone live => allocated.dead gone (liveScope_adopt.mp live)
      sealed := fun copy waits => ?_
      nodup := guarded.nodup }
  · obtain lasting | gone := allocated.refers refers
    · obtain ⟨scope, there, durable, top⟩ := lasting
      obtain ⟨larger, there, same, parent⟩ := get?_adopt_of_some there
      exact .inl ⟨larger, there, same.trans durable, parent.trans top⟩
    · exact .inr gone
  · obtain ⟨scope, kept⟩ := guarded.sealed copy waits
    obtain ⟨own, still⟩ := allocated.sealed copy waits
    have same := still.refers.unique ((grows.refers waits).mpr kept.refers)
    subst same
    refine ⟨own, still.refers, grows.lasting kept.lasting, still.only, fun other owns => ?_⟩
    obtain owns | ⟨-, rfl, -⟩ := owns_adopt.mp owns
    · exact still.unowned other owns
    · exact fresh.new (guarded.live waits)

theorem Guarded.public_declared {owner : ScopeId} (unsealed : heap.Unsealed copies owner)
    (binding : Binding) : (heap.declared owner binding).Public copies (heap.allocate binding).1 := by
  have grows := guarded.grows_declared owner binding
  have fresh := guarded.fresh_allocate binding
  refine ⟨fresh.live, fun waits => fresh.new (guarded.live waits), fun waits refers owns => ?_⟩
  obtain owns | ⟨rfl, -, -⟩ := owns_adopt.mp owns
  · exact fresh.unowned _ owns
  · exact grows.unsealed unsealed _ waits refers

/-! ### Scopes -/

omit guarded in
theorem grows_allocateScope {scope : Scope} (empty : scope.own = #[]) :
    Grows copies heap (heap.allocateScope scope).2 where
  live live := live
  scope there := ⟨_, (get?_allocateScope_of_live ⟨_, there⟩).trans there, rfl, rfl⟩
  owns owns := .inl ((owns_allocateScope empty).mp owns)
  copies _ := rfl

theorem Guarded.allocateScope {scope : Scope} (empty : scope.own = #[])
    (found : ¬ lost (heap.allocateScope scope).1) :
    Guarded lost copies (heap.allocateScope scope).2 := by
  have grows : Grows copies heap (heap.allocateScope scope).2 := grows_allocateScope empty
  refine
    { tidy := guarded.tidy.allocateScope empty
      refers := fun refers => (guarded.refers refers).imp_left grows.lasting
      dead := fun gone live => ?_
      sealed := fun copy waits => ?_
      nodup := guarded.nodup }
  · obtain rfl | live := liveScope_allocateScope.mp live
    · exact found gone
    · exact guarded.dead gone live
  · obtain ⟨own, kept⟩ := guarded.sealed copy waits
    exact ⟨own, kept.refers, grows.lasting kept.lasting, kept.only, fun owner owns =>
      kept.unowned owner ((owns_allocateScope empty).mp owns)⟩

omit guarded in
theorem lasting_allocateScope {scope : Scope} (durable : scope.durable = true)
    (top : scope.parent = none) :
    (heap.allocateScope scope).2.Lasting (heap.allocateScope scope).1 :=
  ⟨scope, by rw [get?_allocateScope, if_pos rfl], durable, top⟩

/-- Nothing refers to a new scope. -/
theorem Guarded.unused_allocateScope {scope : Scope} (found : ¬ lost (heap.allocateScope scope).1)
    (id : BindingId) : ¬ heap.Refers id (heap.allocateScope scope).1 := by
  intro refers
  obtain lasting | gone := guarded.refers refers
  · exact heap.not_live_allocateScope scope lasting.liveScope
  · exact found gone

/-- Copying bindings into a scope does not fail, and refers to no other scopes than before. -/
theorem Guarded.copyInto {scope : ScopeId} {ids : List BindingId}
    (known : ∀ id ∈ ids, heap.Public copies id) :
    ∃ after, Heap.copyInto scope ids heap = (none, after) ∧ Guarded lost copies after
      ∧ Grows copies heap after
      ∧ ∀ {id other}, after.Refers id other → ∃ earlier, heap.Refers earlier other := by
  induction ids generalizing heap with
  | nil => exact ⟨heap, rfl, guarded, .refl copies heap, fun refers => ⟨_, refers⟩⟩
  | cons first rest ih =>
    obtain ⟨binding, reads, there⟩ := binding_of_live (known first (.head _)).live
    have common : ∀ other, ({ binding with constant := false } : Binding).scope = some other →
        heap.Common lost copies other :=
      fun other refers => guarded.common ⟨binding, there, refers⟩ (known first (.head _)).other
    have grows := guarded.grows_declared scope { binding with constant := false }
    obtain ⟨after, copied, still, more, earlier⟩ :=
      ih (guarded.declared common) fun id member => grows.public (known id (.tail _ member))
    refine ⟨after, ?_, still, grows.trans more, fun refers => ?_⟩
    · simp only [Heap.copyInto, reads]
      exact copied
    · obtain ⟨id, refers⟩ := earlier refers
      obtain ⟨-, refers⟩ | refers := refers_allocate.mp refers
      · exact ⟨first, binding, there, refers⟩
      · exact ⟨id, refers⟩

section

variable {source copy : ScopeId} {scope : Scope} {middle after : Heap}

omit guarded

private theorem copyScope_snd (reads : heap.scope source = .ok scope)
    (opens : heap.allocateScope
      { parent := scope.parent, parameters := scope.parameters, durable := true } = (copy, middle)) :
    (heap.copyScope source).2 = (Heap.copyInto copy scope.own.toList middle).2 := by
  simp only [Heap.copyScope, reads, opens]
  split <;> simp_all

private theorem copyScope_of_copyInto (reads : heap.scope source = .ok scope)
    (opens : heap.allocateScope
      { parent := scope.parent, parameters := scope.parameters, durable := true } = (copy, middle))
    (copies : Heap.copyInto copy scope.own.toList middle = (none, after)) :
    heap.copyScope source = (.ok copy, after) := by
  simp only [Heap.copyScope, reads, opens, copies]

end

theorem Guarded.copyScope {source : ScopeId} (common : heap.Common lost copies source)
    (found : ∀ {scope}, lost scope → ¬ (heap.copyScope source).2.LiveScope scope) :
    heap.copyScope source = (.error (.scope source), heap) ∧ lost source
      ∨ ∃ scope after, heap.copyScope source = (.ok (heap.allocateScope scope).1, after)
        ∧ Guarded lost copies after ∧ Grows copies heap after
        ∧ after.Lasting (heap.allocateScope scope).1
        ∧ (∀ id, ¬ after.Refers id (heap.allocateScope scope).1) ∧ scope.own = #[]
        ∧ Gains (· = (heap.allocateScope scope).1) (fun _ => False) (heap.allocateScope scope).2
          after := by
  by_cases live : heap.LiveScope source
  case neg =>
    exact .inl ⟨by rw [Heap.copyScope, scope_of_dead live], common.reachable.lost_of_dead live⟩
  obtain ⟨scope, there, -, top⟩ := common.1.resolve_right fun gone => guarded.dead gone live
  have reads : heap.scope source = .ok scope := by simp [Heap.scope, there]
  let copied : Scope := { parent := scope.parent, parameters := scope.parameters, durable := true }
  let copy := (heap.allocateScope copied).1
  let middle := (heap.allocateScope copied).2
  have empty : copied.own = #[] := rfl
  have grows : Grows copies heap middle := grows_allocateScope empty
  have lasting : middle.Lasting copy := lasting_allocateScope rfl top
  -- the copied bindings keep the new scope alive, so that it is none of the lost ones
  have kept : (heap.copyScope source).2.LiveScope copy := by
    have stays (ids : List BindingId) (heap : Heap) (live : heap.LiveScope copy) :
        (Heap.copyInto copy ids heap).2.LiveScope copy := by
      induction ids generalizing heap with
      | nil => exact live
      | cons id rest ih =>
        unfold Heap.copyInto
        split
        · exact live
        · exact ih _ (liveScope_adopt.mpr live)
    rw [copyScope_snd reads rfl]
    exact stays scope.own.toList middle lasting.liveScope
  have new : ¬ lost copy := fun gone => found gone kept
  have unused := guarded.unused_allocateScope new
  have known : ∀ id ∈ scope.own.toList, middle.Public copies id :=
    fun id member => grows.public (guarded.public ⟨scope, there, member⟩ common.2)
  obtain ⟨after, copies, still, more, earlier⟩ :=
    (guarded.allocateScope empty new).copyInto known
  refine .inr ⟨copied, after, ?_, still, grows.trans more, more.lasting lasting,
    fun id refers => ?_, rfl, ?_⟩
  · exact copyScope_of_copyInto reads rfl copies
  · obtain ⟨id, refers⟩ := earlier refers
    exact unused id refers
  · have gains : Gains (· = copy) (fun _ => False) middle
        (Heap.copyInto copy scope.own.toList middle).2 :=
      @gains_copyInto (· = copy) _ middle copy rfl lasting.liveScope _
    rwa [copies] at gains

/-! ### Release -/

/-- A heap without one of its unsealed scopes is guarded if the scope, where something refers to it
still, is among the lost ones. -/
theorem Guarded.loses {more : ScopeId → Prop} {owner : ScopeId} {after : Heap}
    (loses : heap.Loses owner after) (unsealed : heap.Unsealed copies owner)
    (implies : ∀ {scope}, lost scope → more scope)
    (dead : ∀ {scope}, more scope → ¬ after.LiveScope scope)
    (stranded : ∀ {id}, after.Refers id owner → more owner) : Guarded more copies after where
  tidy := guarded.tidy.loses loses
  refers {id scope} refers := by
    by_cases same : scope = owner
    · subst same
      exact .inr (stranded refers)
    · obtain lasting | gone := guarded.refers (loses.refers_before refers).2
      · exact .inl (loses.lasting lasting same)
      · exact .inr (implies gone)
  dead := dead
  sealed copy waits := by
    obtain ⟨scope, kept⟩ := guarded.sealed copy waits
    have ne : scope ≠ owner := fun same => unsealed copy waits (same ▸ kept.refers)
    refine ⟨scope, ?_, loses.lasting kept.lasting ne,
      fun refers => kept.only (loses.refers_before refers).2,
      fun other owns => kept.unowned other (loses.owns_before owns).2⟩
    unfold Refers
    rw [loses.kept (kept.unowned owner)]
    exact kept.refers
  nodup := guarded.nodup

/-- Nothing refers to a scope that goes with its block. -/
theorem Guarded.unreferred {scope : ScopeId} (fleeting : heap.Fleeting scope) (id : BindingId) :
    ¬ heap.Refers id scope := by
  intro refers
  obtain lasting | gone := guarded.refers refers
  · exact lasting.not_fleeting fleeting
  · exact guarded.dead gone fleeting.liveScope

omit guarded in
theorem Public.loses {owner : ScopeId} {after : Heap} {id : BindingId}
    (known : heap.Public copies id) (loses : heap.Loses owner after) (free : ¬ heap.Owns owner id) :
    after.Public copies id :=
  ⟨loses.live known.live free, known.other, fun waits refers owns =>
    known.outside waits (loses.refers_before refers).2 (loses.owns_before owns).2⟩

omit guarded in
theorem refers_of_freeBinding {id other : BindingId} {scope : ScopeId}
    (refers : (heap.freeBinding id).2.Refers other scope) : heap.Refers other scope := by
  obtain ⟨binding, there, refers⟩ := refers
  rw [get?_freeBinding] at there
  split at there
  · cases there
  · exact ⟨binding, there, refers⟩

theorem Guarded.freeBinding {id : BindingId} (other : id ∉ copies)
    (unowned : ∀ owner, ¬ heap.Owns owner id) : Guarded lost copies (heap.freeBinding id).2 where
  tidy := guarded.tidy.freeBinding unowned
  refers refers := guarded.refers (refers_of_freeBinding refers)
  dead := guarded.dead
  sealed copy waits := by
    obtain ⟨scope, kept⟩ := guarded.sealed copy waits
    refine ⟨scope, ?_, kept.lasting, fun refers => kept.only (refers_of_freeBinding refers),
      kept.unowned⟩
    have ne : copy ≠ id := by
      rintro rfl
      exact other waits
    unfold Refers
    rw [get?_freeBinding, if_neg ne]
    exact kept.refers
  nodup := guarded.nodup

omit guarded in
theorem Public.freeBinding {id freed : BindingId} (known : heap.Public copies id) (ne : id ≠ freed) :
    (heap.freeBinding freed).2.Public copies id :=
  ⟨live_freeBinding known.live ne, known.other, fun waits refers =>
    known.outside waits (refers_of_freeBinding refers)⟩

end

end ScopeMachine.Heap
