import ScopeMachine.Store.Heap

set_option autoImplicit false

/-!
# Arenas as maps

What a handle finds after each operation of an arena. A new handle finds nothing before, and no
operation changes what another handle finds. Only the release of a value moves the generation of a
slot on, by one.
-/

namespace ScopeMachine.Arena

variable {region α : Type} (arena : Arena region α)

private theorem get?_push (value : α) (handle : Handle region) :
    (arena.push value).2.get? handle
      = if handle = (arena.push value).1 then some value else arena.get? handle := by
  simp only [push, get?, Handle.ext_iff]
  by_cases last : handle.index = arena.slots.size
  · rw [last, Array.getElem?_push_size, Array.getElem?_eq_none (Nat.le_refl _)]
    by_cases first : handle.generation = 0
    · simp [first]
    · simp [first, Ne.symm first]
  · rw [Array.getElem?_push, if_neg last, if_neg (by simp [last])]

/-- A value is stored in a new slot, or in a vacant one under its generation. -/
theorem allocate_cases (value : α) :
    arena.allocate value = arena.push value
      ∨ ∃ index generation next, arena.slots[index]? = some (.vacant generation next)
        ∧ arena.allocate value = (⟨index, generation⟩,
          { slots := arena.slots.setIfInBounds index (.occupied generation value)
            freeHead := next
            size := arena.size + 1 }) := by
  unfold allocate
  cases arena.freeHead with
  | none => exact .inl rfl
  | some index =>
    match found : arena.slots[index]? with
    | none | some (.occupied _ _) => exact .inl (by simp [found])
    | some (.vacant generation next) =>
      exact .inr ⟨index, generation, next, found, by simp [found]⟩

/-- The handle of a stored value finds it, and every other handle finds what it found before. -/
theorem get?_allocate (value : α) (handle : Handle region) :
    (arena.allocate value).2.get? handle
      = if handle = (arena.allocate value).1 then some value else arena.get? handle := by
  obtain pushed | ⟨index, generation, next, found, reused⟩ := arena.allocate_cases value
  · rw [pushed]
    exact arena.get?_push value handle
  · obtain ⟨inside, -⟩ := Array.getElem?_eq_some_iff.mp found
    rw [reused]
    simp only [get?, Handle.ext_iff]
    by_cases here : handle.index = index
    · rw [here, Array.getElem?_setIfInBounds_self_of_lt inside, found]
      by_cases same : handle.generation = generation
      · simp [same]
      · simp [same, Ne.symm same]
    · rw [Array.getElem?_setIfInBounds_ne (Ne.symm here), if_neg (by simp [here])]

/-- A new handle found nothing before. -/
theorem get?_allocate_fresh (value : α) : arena.get? (arena.allocate value).1 = none := by
  obtain pushed | ⟨index, generation, next, found, reused⟩ := arena.allocate_cases value
  · rw [pushed]
    simp [push, get?]
  · rw [reused]
    simp [get?, found]

/-- A change is seen through its handle only. -/
theorem get?_modify (changed handle : Handle region) (f : α → α) :
    (arena.modify changed f).get? handle
      = if handle = changed then (arena.get? handle).map f else arena.get? handle := by
  simp only [modify, get?, Handle.ext_iff, Array.getElem?_modify]
  by_cases here : handle.index = changed.index
  · rw [if_pos here.symm]
    match arena.slots[handle.index]? with
    | none | some (.vacant _ _) => simp
    | some (.occupied generation value) =>
      by_cases same : generation = changed.generation
      · by_cases own : handle.generation = changed.generation
        · simp [here, same, own]
        · simp [same, own, Ne.symm own]
      · by_cases own : handle.generation = changed.generation
        · simp [same, own]
        · simp [same, own]
  · rw [if_neg (Ne.symm here), if_neg (by simp [here])]

theorem free_fst (handle : Handle region) : (arena.free handle).1 = arena.get? handle := by
  unfold free
  split <;> simp_all

/-- A freed handle finds nothing, and every other handle finds what it found before. -/
theorem get?_free (freed handle : Handle region) :
    (arena.free freed).2.get? handle = if handle = freed then none else arena.get? handle := by
  unfold free
  cases found : arena.get? freed with
  | none =>
    by_cases same : handle = freed
    · simp [same, found]
    · simp [same]
  | some value =>
    simp only [get?] at found
    match slot : arena.slots[freed.index]? with
    | none | some (.vacant _ _) => simp [slot] at found
    | some (.occupied generation value) =>
      obtain ⟨inside, -⟩ := Array.getElem?_eq_some_iff.mp slot
      have same : generation = freed.generation := by
        by_cases same : generation = freed.generation
        · exact same
        · simp [slot, same] at found
      simp only [get?, Handle.ext_iff]
      by_cases here : handle.index = freed.index
      · rw [here, Array.getElem?_setIfInBounds_self_of_lt inside, slot]
        by_cases own : handle.generation = freed.generation
        · simp [own]
        · simp [same, own, Ne.symm own]
      · rw [Array.getElem?_setIfInBounds_ne (Ne.symm here), if_neg (by simp [here])]

/-! ## Generations -/

/-- The generation of a slot, which is that of its value or of the next one; a slot that was never
used has the first generation. -/
def generation (index : Nat) : UInt32 :=
  match arena.slots[index]? with
  | some (.occupied generation _) => generation
  | some (.vacant generation _) => generation
  | none => 0

/-- A handle that finds something has the generation of its slot. -/
theorem generation_of_get? {handle : Handle region} {value : α}
    (found : arena.get? handle = some value) : arena.generation handle.index = handle.generation := by
  unfold get? at found
  unfold generation
  split at found
  · next generation value slot =>
    simp only [slot]
    split at found
    · assumption
    · cases found
  · cases found

theorem generation_allocate (value : α) (index : Nat) :
    (arena.allocate value).2.generation index = arena.generation index := by
  obtain pushed | ⟨place, generation, next, found, reused⟩ := arena.allocate_cases value
  · rw [pushed]
    simp only [push, Arena.generation, Array.getElem?_push]
    by_cases last : index = arena.slots.size
    · rw [if_pos last, last, Array.getElem?_eq_none (Nat.le_refl _)]
    · rw [if_neg last]
  · obtain ⟨inside, -⟩ := Array.getElem?_eq_some_iff.mp found
    rw [reused]
    simp only [Arena.generation]
    by_cases here : index = place
    · rw [here, Array.getElem?_setIfInBounds_self_of_lt inside, found]
    · rw [Array.getElem?_setIfInBounds_ne (Ne.symm here)]

theorem generation_modify (changed : Handle region) (f : α → α) (index : Nat) :
    (arena.modify changed f).generation index = arena.generation index := by
  simp only [modify, generation, Array.getElem?_modify]
  by_cases here : changed.index = index
  · rw [if_pos here]
    match arena.slots[index]? with
    | none | some (.vacant _ _) => rfl
    | some (.occupied generation value) =>
      by_cases same : generation = changed.generation <;> simp [same]
  · rw [if_neg here]

/-- A release moves the generation of the slot on by one, and that of no other slot. -/
theorem generation_free {freed : Handle region} {value : α} (found : arena.get? freed = some value)
    (index : Nat) :
    (arena.free freed).2.generation index
      = if index = freed.index then freed.generation + 1 else arena.generation index := by
  have inside : freed.index < arena.slots.size := by
    unfold get? at found
    split at found
    · next slot => exact (Array.getElem?_eq_some_iff.mp slot).1
    · cases found
  simp only [free, found, generation]
  by_cases here : index = freed.index
  · rw [here, Array.getElem?_setIfInBounds_self_of_lt inside, if_pos rfl]
  · rw [Array.getElem?_setIfInBounds_ne (Ne.symm here), if_neg here]

end ScopeMachine.Arena
