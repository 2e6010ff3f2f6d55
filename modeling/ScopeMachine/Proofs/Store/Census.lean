import ScopeMachine.Proofs.Store.Tally

set_option autoImplicit false

/-!
# Census

The handles under which an arena finds values, as a list. There are as many of them as slots that hold
a value. So what an arena holds more than another is known from the handles that find more in it.
-/

namespace ScopeMachine.Arena

variable {region α : Type}

/-- The handle under which the value of a slot is found. -/
def handle? : Slot α × Nat → Option (Handle region)
  | (.occupied generation _, index) => some ⟨index, generation⟩
  | (.vacant _ _, _) => none

/-- The handles under which values are found, in the order of their slots. -/
def handles (arena : Arena region α) : List (Handle region) :=
  arena.slots.toList.zipIdx.filterMap handle?

theorem mem_handles {arena : Arena region α} {handle : Handle region} :
    handle ∈ arena.handles ↔ ∃ value, arena.get? handle = some value := by
  simp only [handles, List.mem_filterMap, Prod.exists, List.mem_zipIdx_iff_getElem?,
    Array.getElem?_toList]
  constructor
  · rintro ⟨slot, index, there, found⟩
    cases slot with
    | vacant generation next => cases found
    | occupied generation value =>
      cases found
      exact ⟨value, by simp [get?, there]⟩
  · rintro ⟨value, found⟩
    unfold get? at found
    split at found
    · next generation held there =>
      split at found
      · next same => exact ⟨_, _, there, by rw [handle?, same]⟩
      · cases found
    · cases found

private theorem nodup_handles (arena : Arena region α) : arena.handles.Nodup := by
  have places : (arena.slots.toList.zipIdx.map Prod.snd).Nodup := by
    rw [List.zipIdx_map_snd]
    exact List.nodup_range'
  -- equal handles have equal indices, and every slot is listed with an index of its own
  refine List.Pairwise.filterMap _ (fun first second apart handle here other there same => ?_)
    (List.pairwise_map.mp places)
  rcases first with ⟨slot, index⟩
  rcases second with ⟨next, place⟩
  cases slot <;> cases here
  cases next <;> cases there
  cases same
  exact apart rfl

theorem length_handles (arena : Arena region α) : arena.handles.length = arena.occupied := by
  have each : (fun entry : Slot α × Nat => (handle? entry : Option (Handle region)).isSome)
      = Slot.isOccupied ∘ Prod.fst := by
    funext entry
    obtain ⟨slot, index⟩ := entry
    cases slot <;> rfl
  rw [handles, List.length_filterMap_eq_countP, each, ← List.countP_map, List.zipIdx_map_fst,
    Array.countP_toList]
  rfl

/-- What is found in an arena and not in another makes the difference of their numbers. -/
theorem occupied_eq_add {before after : Arena region α} {more : List (Handle region)}
    (once : more.Nodup) (new : ∀ handle ∈ more, before.get? handle = none)
    (found : ∀ handle, (∃ value, after.get? handle = some value)
      ↔ (∃ value, before.get? handle = some value) ∨ handle ∈ more) :
    after.occupied = before.occupied + more.length := by
  have apart : ∀ handle ∈ before.handles, handle ∉ more := by
    intro handle member inside
    obtain ⟨value, there⟩ := mem_handles.mp member
    rw [new handle inside] at there
    cases there
  have whole : (before.handles ++ more).Nodup :=
    List.nodup_append.mpr ⟨before.nodup_handles, once, fun handle member other inside same =>
      apart handle member (same ▸ inside)⟩
  have same : after.handles.Perm (before.handles ++ more) := by
    refine (List.perm_ext_iff_of_nodup after.nodup_handles whole).mpr fun handle => ?_
    rw [mem_handles, found, List.mem_append, mem_handles]
  rw [← length_handles, same.length_eq, List.length_append, length_handles]

end ScopeMachine.Arena
