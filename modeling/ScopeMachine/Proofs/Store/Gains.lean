import ScopeMachine.Proofs.Store.Provenance

set_option autoImplicit false

/-!
# Gains

What a heap has more than before, and who owns it. As long as no scope is made or freed, all that is
new belongs to one of the places that were meant for it, or is one of the bindings that stand alone.
-/

namespace ScopeMachine.Heap

/-- A heap with the same scopes as before and with more bindings. Those that are new belong to given
scopes, or are among given ones. -/
structure Gains (places : ScopeId → Prop) (alone : BindingId → Prop) (before after : Heap) : Prop where
  scopes : ∀ {scope}, after.LiveScope scope ↔ before.LiveScope scope
  live : ∀ {id}, before.Live id → after.Live id
  owned : ∀ {scope id}, before.Owns scope id → after.Owns scope id
  owns : ∀ {scope id}, after.Owns scope id → before.Owns scope id ∨ ¬ before.Live id
  covered : ∀ {id}, after.Live id →
    before.Live id ∨ (∃ scope, places scope ∧ after.Owns scope id) ∨ alone id

section

variable {places : ScopeId → Prop} {alone : BindingId → Prop} {heap middle after : Heap}

theorem Gains.refl (heap : Heap) : Gains places alone heap heap :=
  ⟨.rfl, id, id, .inl, .inl⟩

theorem Gains.trans (first : Gains places alone heap middle)
    (second : Gains places alone middle after) : Gains places alone heap after where
  scopes := second.scopes.trans first.scopes
  live held := second.live (first.live held)
  owned held := second.owned (first.owned held)
  owns held := by
    obtain held | new := second.owns held
    · exact first.owns held
    · exact .inr fun live => new (first.live live)
  covered held := by
    obtain held | made := second.covered held
    · obtain held | ⟨scope, place, owns⟩ | held := first.covered held
      · exact .inl held
      · exact .inr (.inl ⟨scope, place, second.owned owns⟩)
      · exact .inr (.inr held)
    · exact .inr made

theorem Gains.mono {wider : ScopeId → Prop} {more : BindingId → Prop}
    (gains : Gains places alone heap after) (places_le : ∀ {scope}, places scope → wider scope)
    (alone_le : ∀ {id}, alone id → more id) : Gains wider more heap after :=
  { gains with
    covered := fun held => by
      obtain held | ⟨scope, place, owns⟩ | held := gains.covered held
      · exact .inl held
      · exact .inr (.inl ⟨scope, places_le place, owns⟩)
      · exact .inr (.inr (alone_le held)) }

theorem gains_allocate {binding : Binding} (held : alone (heap.allocate binding).1) :
    Gains places alone heap (heap.allocate binding).2 where
  scopes := .rfl
  live := fun live => live_allocate.mpr (.inr live)
  owned := id
  owns := .inl
  covered := fun live => by
    obtain rfl | live := live_allocate.mp live
    · exact .inr (.inr held)
    · exact .inl live

theorem gains_modifyBinding (id : BindingId) (f : Binding → Binding) :
    Gains places alone heap (heap.modifyBinding id f) :=
  ⟨.rfl, live_modifyBinding.mpr, fun held => held, .inl, fun held => .inl (live_modifyBinding.mp held)⟩

private theorem gains_declared {scope : ScopeId} (place : places scope) (there : heap.LiveScope scope)
    (binding : Binding) : Gains places alone heap (heap.declared scope binding) where
  scopes := liveScope_adopt
  live := fun live => live_allocate.mpr (.inr live)
  owned := fun owns => owns_adopt.mpr (.inl owns)
  owns := fun owns => by
    obtain owns | ⟨-, rfl, -⟩ := owns_adopt.mp owns
    · exact .inl owns
    · exact .inr (not_live_allocate heap binding)
  covered := fun live => by
    obtain rfl | live := live_allocate.mp live
    · exact .inr (.inl ⟨scope, place, owns_adopt.mpr (.inr ⟨rfl, rfl, there⟩)⟩)
    · exact .inl live

theorem gains_declare {scope : ScopeId} (place : places scope) (binding : Binding) :
    Gains places alone heap (heap.declare scope binding).2 := by
  by_cases there : heap.LiveScope scope
  · rw [declare_of_live there]
    exact gains_declared place there binding
  · rw [declare_of_dead there]
    exact .refl heap

theorem gains_redeclare {scope : ScopeId} (place : places scope) (binding : Binding) :
    Gains places alone heap (heap.redeclare scope binding).2 := by
  unfold Heap.redeclare
  split
  · exact gains_declare place binding
  · split
    · exact .refl heap
    · exact gains_modifyBinding _ _
    · exact gains_declare place binding

theorem gains_copyInto {scope : ScopeId} (place : places scope) (there : heap.LiveScope scope)
    (ids : List BindingId) : Gains places alone heap (copyInto scope ids heap).2 := by
  induction ids generalizing heap with
  | nil => exact .refl heap
  | cons id rest ih =>
    unfold copyInto
    split
    · exact .refl heap
    · next binding _ =>
      have first : Gains places alone heap (heap.declared scope { binding with constant := false }) :=
        gains_declared place there _
      exact first.trans (ih (first.scopes.mpr there))

end

end ScopeMachine.Heap
