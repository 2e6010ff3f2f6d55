import Mathlib
import ScopeMachine.Proofs.Store.Naming

set_option autoImplicit false

/-!
# How often slots are freed

A tally says how often each slot of a binding was freed. As long as no slot was freed so often that
its generation begins anew, every listed handle is known to have been given out. What a release adds to
the tally of a slot is bounded by the number of scopes that it frees.
-/

namespace ScopeMachine

/-- The slot holds a value. -/
def Slot.isOccupied {α : Type} : Slot α → Bool
  | .occupied _ _ => true
  | .vacant _ _ => false

namespace Arena

variable {region α : Type} (arena : Arena region α)

/-- The number of slots that hold a value. -/
def occupied : Nat :=
  arena.slots.countP Slot.isOccupied

theorem occupied_le_size : arena.occupied ≤ arena.slots.size :=
  Array.countP_le_size

private theorem occupied_modify (changed : Handle region) (f : α → α) :
    (arena.modify changed f).occupied = arena.occupied := by
  have same : (arena.modify changed f).slots.map Slot.isOccupied = arena.slots.map Slot.isOccupied := by
    refine Array.ext_getElem? fun index => ?_
    simp only [modify, Array.getElem?_map, Array.getElem?_modify]
    split
    · cases arena.slots[index]? with
      | none => rfl
      | some slot =>
        cases slot with
        | occupied generation value =>
          by_cases own : generation = changed.generation <;> simp [own, Slot.isOccupied]
        | vacant generation next => rfl
    · rfl
  have counted (other : Arena region α) :
      other.occupied = (other.slots.map Slot.isOccupied).countP id := by
    rw [Array.countP_map]
    rfl
  rw [counted, counted, same]

/-- A release empties one slot. -/
theorem occupied_free {freed : Handle region} {value : α} (found : arena.get? freed = some value) :
    (arena.free freed).2.occupied + 1 = arena.occupied := by
  simp only [free, found, occupied]
  unfold get? at found
  cases slot : arena.slots[freed.index]? with
  | none => simp [slot] at found
  | some held =>
    cases held with
    | vacant generation next => simp [slot] at found
    | occupied generation held =>
      obtain ⟨inside, here⟩ := Array.getElem?_eq_some_iff.mp slot
      have some_ : 0 < arena.slots.countP Slot.isOccupied :=
        Array.countP_pos_iff.mpr ⟨_, Array.getElem_mem inside, by rw [here]; rfl⟩
      rw [Array.setIfInBounds, dif_pos inside, Array.countP_set inside, here]
      simp only [Slot.isOccupied, if_true, Bool.false_eq_true, if_false]
      omega

/-- Only one handle of a slot finds anything. -/
theorem eq_of_get? {first second : Handle region} {value other : α}
    (found : arena.get? first = some value) (again : arena.get? second = some other)
    (same : first.index = second.index) : first = second := by
  refine Handle.ext same ?_
  rw [← arena.generation_of_get? found, ← arena.generation_of_get? again, same]

end Arena

namespace Heap

/-! ## Tallies -/

/-- The tally is how often each slot was freed, and listed handles that are stale have a generation
that their slot has had before. -/
structure Tallied (count : Nat → Nat) (heap : Heap) : Prop where
  generation : ∀ index, heap.bindings.generation index = UInt32.ofNat (count index)
  dealt : ∀ {owner id}, heap.Owns owner id →
    heap.Live id ∨ ∃ earlier < count id.index, id.generation = UInt32.ofNat earlier

variable {heap middle after : Heap} {count : Nat → Nat}

theorem Tallied.settled (tallied : heap.Tallied count) (few : ∀ index, count index < 2 ^ 32) :
    heap.Settled := by
  intro owner id owns
  refine (tallied.dealt owns).imp_right ?_
  rintro ⟨earlier, less, generation⟩
  rw [tallied.generation, generation, UInt32.lt_iff_toNat_lt,
    UInt32.toNat_ofNat_of_lt' (Nat.lt_trans less (few _)), UInt32.toNat_ofNat_of_lt' (few _)]
  exact less

theorem Tallied.adds (tallied : heap.Tallied count) (adds : Adds heap after) : after.Tallied count := by
  refine ⟨fun index => (adds.generation index).trans (tallied.generation index), fun owns => ?_⟩
  obtain owns | live := adds.owns owns
  · exact (tallied.dealt owns).imp_left adds.live
  · exact .inl live

/-! ## Releases -/

/-- What was freed in between adds to the tally, for each slot at most once for every scope that was
freed. -/
def Spends (before after : Heap) : Prop :=
  ∃ spent : Nat → Nat,
    (∀ index, spent index + after.scopes.occupied ≤ before.scopes.occupied)
      ∧ ∀ count, before.Tallied count → after.Tallied fun index => count index + spent index

theorem spends_of_adds (adds : Adds heap after)
    (same : after.scopes.occupied = heap.scopes.occupied) : Spends heap after :=
  ⟨fun _ => 0, fun _ => by simp [same], fun _ tallied => tallied.adds adds⟩

theorem Spends.refl (heap : Heap) : Spends heap heap :=
  spends_of_adds (.refl heap) rfl

theorem Spends.trans (first : Spends heap middle) (second : Spends middle after) :
    Spends heap after := by
  obtain ⟨spent, less, tallies⟩ := first
  obtain ⟨more, fewer, adds⟩ := second
  refine ⟨fun index => spent index + more index, fun index => ?_, fun count tallied => ?_⟩
  · have before := less index
    have later := fewer index
    dsimp only
    omega
  · simpa only [Nat.add_assoc] using adds _ (tallies count tallied)

theorem occupied_declare (owner : ScopeId) (binding : Binding) :
    (heap.declare owner binding).2.scopes.occupied = heap.scopes.occupied := by
  by_cases live : heap.LiveScope owner
  · rw [declare_of_live live]
    exact Arena.occupied_modify _ owner _
  · rw [declare_of_dead live]

theorem occupied_redeclare (owner : ScopeId) (binding : Binding) :
    (heap.redeclare owner binding).2.scopes.occupied = heap.scopes.occupied := by
  unfold Heap.redeclare
  split
  · exact occupied_declare owner binding
  · split
    · rfl
    · rfl
    · exact occupied_declare owner binding

/-- Some bindings were freed, no two of them from the same slot. -/
structure Vacates (slots : Nat → Prop) (before after : Heap) : Prop where
  freed : ∀ {index}, slots index →
    after.bindings.generation index = before.bindings.generation index + 1
  others : ∀ {index}, ¬ slots index →
    after.bindings.generation index = before.bindings.generation index
  there : ∀ {index}, slots index → ∃ id : BindingId, id.index = index ∧ before.Live id
  gone : ∀ {id : BindingId}, slots id.index → ¬ after.Live id
  kept : ∀ {id : BindingId}, ¬ slots id.index → (after.Live id ↔ before.Live id)

theorem Vacates.back {slots : Nat → Prop} (vacates : Vacates slots heap after) {id : BindingId}
    (live : after.Live id) : heap.Live id := by
  by_cases freed : slots id.index
  · exact absurd live (vacates.gone freed)
  · exact (vacates.kept freed).mp live

theorem Vacates.refl (heap : Heap) : Vacates (fun _ => False) heap heap :=
  ⟨False.elim, fun _ => rfl, False.elim, False.elim, fun _ => .rfl⟩

/-- A slot that was freed is empty, so it is not freed again. -/
theorem Vacates.trans {slots more : Nat → Prop} (first : Vacates slots heap middle)
    (second : Vacates more middle after) :
    Vacates (fun index => slots index ∨ more index) heap after := by
  have apart {index : Nat} (freed : slots index) : ¬ more index := by
    intro again
    obtain ⟨id, rfl, live⟩ := second.there again
    exact first.gone freed live
  refine ⟨?_, fun none => ?_, ?_, ?_, fun none => ?_⟩
  · rintro index (freed | freed)
    · exact (second.others (apart freed)).trans (first.freed freed)
    · rw [second.freed freed, first.others fun again => apart again freed]
  · exact (second.others (none ∘ .inr)).trans (first.others (none ∘ .inl))
  · rintro index (freed | freed)
    · exact first.there freed
    · obtain ⟨id, same, live⟩ := second.there freed
      exact ⟨id, same, first.back live⟩
  · rintro id (freed | freed)
    · exact fun live => first.gone freed (second.back live)
    · exact second.gone freed
  · exact (second.kept (none ∘ .inr)).trans (first.kept (none ∘ .inl))

private theorem vacates_freeBinding (heap : Heap) (id : BindingId) :
    Vacates (fun index => index = id.index ∧ heap.Live id) heap (heap.freeBinding id).2 := by
  by_cases live : heap.Live id
  · obtain ⟨value, found⟩ := live
    have generation (index : Nat) : (heap.freeBinding id).2.bindings.generation index
        = if index = id.index then id.generation + 1 else heap.bindings.generation index :=
      Arena.generation_free heap.bindings found index
    refine ⟨?_, fun {index} other => ?_, ?_, ?_, fun {other} apart => ?_⟩
    · rintro index ⟨rfl, -⟩
      rw [generation, if_pos rfl, heap.bindings.generation_of_get? found]
    · rw [generation, if_neg fun same => other ⟨same, value, found⟩]
    · rintro index ⟨rfl, -⟩
      exact ⟨id, rfl, value, found⟩
    · rintro other ⟨same, -⟩ ⟨left, there⟩
      rw [get?_freeBinding] at there
      split at there
      · cases there
      · next ne => exact ne (heap.bindings.eq_of_get? there found same)
    · have ne : other ≠ id := fun same => apart ⟨congrArg Handle.index same, value, found⟩
      unfold Live
      rw [get?_freeBinding, if_neg ne]
  · have same : (heap.freeBinding id).2 = heap := by
      have none : heap.bindings.get? id = none := by
        cases found : heap.bindings.get? id with
        | none => rfl
        | some value => exact absurd ⟨value, found⟩ live
      obtain ⟨bindings, scopes⟩ := heap
      simp only [freeBinding, Arena.free, none]
    rw [same]
    exact ⟨fun freed => absurd freed.2 live, fun _ => rfl, fun freed => absurd freed.2 live,
      fun freed => absurd freed.2 live, fun _ => .rfl⟩

private theorem vacates_freeBindings (ids : List BindingId) (count : Nat) (heap : Heap) :
    ∃ slots, Vacates slots heap (ids.foldl (fun (freed, heap) id =>
      let (found, heap) := heap.freeBinding id
      (if found then freed + 1 else freed, heap)) (count, heap)).2 := by
  induction ids generalizing heap count with
  | nil => exact ⟨_, .refl heap⟩
  | cons id rest ih =>
    rw [List.foldl_cons]
    obtain ⟨slots, vacates⟩ := ih (if (heap.freeBinding id).1 then count + 1 else count)
      (heap.freeBinding id).2
    exact ⟨_, (vacates_freeBinding heap id).trans vacates⟩

/-- What is freed at once adds one to the tally of its slots. -/
theorem Vacates.tallied {slots : Nat → Prop} [DecidablePred slots] (vacates : Vacates slots heap after)
    (owns : ∀ {owner id}, after.Owns owner id → heap.Owns owner id) (tallied : heap.Tallied count) :
    after.Tallied fun index => count index + if slots index then 1 else 0 := by
  refine ⟨fun index => ?_, fun {owner id} owned => ?_⟩
  · by_cases freed : slots index
    · rw [vacates.freed freed, tallied.generation, if_pos freed, UInt32.ofNat_add]
      rfl
    · rw [vacates.others freed, tallied.generation, if_neg freed, Nat.add_zero]
  · obtain live | ⟨earlier, less, generation⟩ := tallied.dealt (owns owned)
    · by_cases freed : slots id.index
      · obtain ⟨value, found⟩ := live
        refine .inr ⟨count id.index, by rw [if_pos freed]; omega, ?_⟩
        rw [← tallied.generation, heap.bindings.generation_of_get? found]
      · exact .inl ((vacates.kept freed).mpr live)
    · exact .inr ⟨earlier, by omega, generation⟩

/-- What is freed with a scope is paid for by the scope. -/
theorem Vacates.spends {slots : Nat → Prop} (vacates : Vacates slots heap after)
    (owns : ∀ {owner id}, after.Owns owner id → heap.Owns owner id)
    (scope : after.scopes.occupied + 1 = heap.scopes.occupied) : Spends heap after := by
  classical
  refine ⟨fun index => if slots index then 1 else 0, fun index => ?_,
    fun count tallied => vacates.tallied owns tallied⟩
  dsimp only
  split <;> omega

theorem freeScope_vacates {owner : ScopeId} (live : heap.LiveScope owner) :
    ∃ slots, Vacates slots heap (heap.freeScope owner).2
      ∧ (heap.freeScope owner).2.scopes.occupied + 1 = heap.scopes.occupied := by
  obtain ⟨scope, found⟩ := live
  obtain ⟨bindings, scopes⟩ := heap
  have freed : (scopes.free owner).1 = some scope := by rw [Arena.free_fst]; exact found
  have less := scopes.occupied_free found
  simp only [freeScope]
  generalize scopes.free owner = result at freed less ⊢
  obtain ⟨_, left⟩ := result
  cases freed
  obtain ⟨same, -⟩ := freeBindings_spec scope.own.toList 0 ⟨bindings, left⟩
  obtain ⟨slots, vacates⟩ := vacates_freeBindings scope.own.toList 0 ⟨bindings, left⟩
  refine ⟨slots, ⟨vacates.freed, vacates.others, vacates.there, vacates.gone, vacates.kept⟩, ?_⟩
  exact (congrArg (Arena.occupied · + 1) same).trans less

theorem spends_freeScope (owner : ScopeId) : Spends heap (heap.freeScope owner).2 := by
  obtain same | ⟨live, loses⟩ := freeScope_cases heap owner
  · rw [same]
    exact .refl heap
  · obtain ⟨slots, vacates, less⟩ := freeScope_vacates live
    exact vacates.spends (fun owns => (loses.owns_before owns).2) less

theorem spends_releaseScope (owner : ScopeId) : Spends heap (heap.releaseScope owner).2 := by
  unfold Heap.releaseScope
  split
  · exact .refl heap
  · split
    · exact .refl heap
    · exact spends_freeScope owner

/-- A binding that is freed after a scope is paid for by the scope as well. -/
theorem spends_freeScope_freeBinding {owner : ScopeId} (live : heap.LiveScope owner) (id : BindingId) :
    Spends heap ((heap.freeScope owner).2.freeBinding id).2 := by
  obtain ⟨slots, vacates, less⟩ := freeScope_vacates live
  obtain same | ⟨-, loses⟩ := freeScope_cases heap owner
  · rw [same] at less
    omega
  · exact (vacates.trans (vacates_freeBinding _ id)).spends
      (fun owns => (loses.owns_before owns).2) less

end Heap

end ScopeMachine
