import ScopeMachine.Proofs.Store.Tally

set_option autoImplicit false

/-!
# Clearing

Scopes that are freed one after the other take with them what they own and nothing else. What is
stored afterwards, even in a slot that has become free, has a handle that was not live before.
-/

namespace ScopeMachine.Heap

/-- A heap from which some scopes are gone with all that they owned, and nothing else. -/
structure Clears (gone : List ScopeId) (before after : Heap) : Prop where
  closed : ∀ {scope}, scope ∈ gone → ¬ after.LiveScope scope
  scopes : ∀ {scope}, scope ∉ gone → after.scopes.get? scope = before.scopes.get? scope
  owned : ∀ {scope id}, scope ∈ gone → before.Owns scope id → ¬ after.Live id
  bindings : ∀ {id}, (∀ scope ∈ gone, ¬ before.Owns scope id) →
    after.bindings.get? id = before.bindings.get? id
  vacates : ∃ slots, Vacates slots before after

section

variable {gone : List ScopeId} {heap middle after : Heap} {scope : ScopeId} {id : BindingId}

theorem clears_nil (heap : Heap) : Clears [] heap heap :=
  ⟨nofun, fun _ => rfl, nofun, fun _ => rfl, _, .refl heap⟩

namespace Clears

theorem back (clears : Clears gone heap after) (live : after.Live id) : heap.Live id := by
  obtain ⟨slots, vacates⟩ := clears.vacates
  exact vacates.back live

theorem owns (clears : Clears gone heap after) :
    after.Owns scope id ↔ heap.Owns scope id ∧ scope ∉ gone := by
  by_cases freed : scope ∈ gone
  · exact ⟨fun owns => absurd owns.liveScope (clears.closed freed), fun owns => absurd freed owns.2⟩
  · unfold Owns
    rw [clears.scopes freed]
    exact ⟨fun owns => ⟨owns, freed⟩, And.left⟩

theorem liveScope (clears : Clears gone heap after) :
    after.LiveScope scope ↔ heap.LiveScope scope ∧ scope ∉ gone := by
  by_cases freed : scope ∈ gone
  · exact ⟨fun live => absurd live (clears.closed freed), fun live => absurd freed live.2⟩
  · unfold LiveScope
    rw [clears.scopes freed]
    exact ⟨fun live => ⟨live, freed⟩, And.left⟩

/-- What is still there is as it was. -/
theorem same (clears : Clears gone heap after) (live : after.Live id) :
    after.bindings.get? id = heap.bindings.get? id :=
  clears.bindings fun _ freed owns => clears.owned freed owns live

/-- One more scope is freed first. -/
theorem cons (live : heap.LiveScope scope)
    (rest : Clears gone (heap.freeScope scope).2 after) : Clears (scope :: gone) heap after := by
  obtain ⟨count, left, frees, loses⟩ := freeScope_of_live live
  obtain ⟨slots, vacates, -⟩ := freeScope_vacates live
  obtain ⟨more, later⟩ := rest.vacates
  rw [frees] at rest vacates later
  refine ⟨fun member alive => ?_, fun {other} outside => ?_, fun {other id} member owns alive => ?_,
    fun free => ?_, _, vacates.trans later⟩
  · have before := (rest.liveScope.mp alive).1
    obtain rfl | member := List.mem_cons.mp member
    · exact loses.not_liveScope before
    · exact rest.closed member alive
  · obtain ⟨ne, outside⟩ : other ≠ scope ∧ other ∉ gone := by simpa using outside
    rw [rest.scopes outside, loses.get?_of_ne ne]
  · by_cases same : other = scope
    · obtain ⟨value, there⟩ := rest.back alive
      rw [loses.owned (same ▸ owns)] at there
      cases there
    · have inside := (List.mem_cons.mp member).resolve_left same
      obtain ⟨found, there, held⟩ := owns
      exact rest.owned inside ⟨found, (loses.get?_of_ne same).trans there, held⟩ alive
  · rw [rest.bindings fun other member owns => free other (.tail _ member) (loses.owns_before owns).2,
      loses.kept (free scope (.head _))]

/-- A slot that has become free comes with another generation. -/
theorem new (clears : Clears gone heap after) (value : Binding) :
    ¬ heap.Live (after.allocate value).1 := by
  rintro ⟨found, there⟩
  obtain ⟨slots, vacates⟩ := clears.vacates
  have now : after.bindings.generation (after.allocate value).1.index
      = (after.allocate value).1.generation := by
    have stored : (after.allocate value).2.bindings.get? (after.allocate value).1 = some value := by
      rw [get?_allocate, if_pos rfl]
    rw [← after.bindings.generation_allocate value]
    exact Arena.generation_of_get? _ stored
  by_cases freed : slots (after.allocate value).1.index
  · rw [vacates.freed freed, Arena.generation_of_get? _ there] at now
    exact absurd now (by simp)
  · exact after.not_live_allocate value ((vacates.kept freed).mpr ⟨found, there⟩)

end Clears

end

end ScopeMachine.Heap
