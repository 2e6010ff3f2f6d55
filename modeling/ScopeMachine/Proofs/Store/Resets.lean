import ScopeMachine.Proofs.Store.FreshHandles

set_option autoImplicit false

/-!
# Handles across resets

A reset revokes every handle of an arena, but it also forgets the generations of the slots. So a
handle from before the reset stays revoked only until its slot comes to the generation of the handle
again. From then on it finds the values of others, until the slot has passed that generation.
-/

namespace ScopeMachine

variable {region α : Type}

/-- What happens to an arena. -/
inductive Arena.Event (region α : Type) where
  | used (use : Use region α)
  | reset

/-- What has happened to an arena so far. -/
structure Chronicle (region α : Type) where
  /-- The handles handed out before the last reset. -/
  former : List (Handle region) := []
  /-- The account of the uses since then. -/
  current : Account region α := {}

/-- All handles handed out so far. -/
def Chronicle.issued (chronicle : Chronicle region α) : List (Handle region) :=
  chronicle.current.issued ++ chronicle.former

def Arena.Event.happen (state : Arena region α × Chronicle region α) :
    Arena.Event region α → Arena region α × Chronicle region α
  | .used use =>
    ((use.perform (state.1, state.2.current)).1,
      { state.2 with current := (use.perform (state.1, state.2.current)).2 })
  | .reset => (state.1.reset, { former := state.2.issued })

/-- An arena, empty at first, after a sequence of uses and resets, with the chronicle of them. -/
def Arena.afterEvents (events : List (Arena.Event region α)) :
    Arena region α × Chronicle region α :=
  events.foldl Arena.Event.happen ({}, {})

/-- No slot was freed so often that its generation came round. -/
def Account.Unwrapped (account : Account region α) : Prop :=
  ∀ index, account.freed.count index < UInt32.size

/-- No operation finds a value through the handle, or changes anything. -/
structure Arena.Revoked (arena : Arena region α) (handle : Handle region) : Prop where
  get? : arena.get? handle = none
  contains : arena.contains handle = false
  modify : ∀ f, arena.modify handle f = arena
  free : arena.free handle = (none, arena)

private theorem Arena.revoked_iff (arena : Arena region α) {handle : Handle region} :
    arena.Revoked handle ↔ arena.get? handle = none := by
  constructor
  · intro revoked
    exact revoked.get?
  · intro stale
    constructor
    · exact stale
    · rw [contains, stale]
      rfl
    · exact arena.modify_of_stale stale
    · rw [free, stale]

/-- The slot holds a value. -/
def Arena.Taken (arena : Arena region α) (index : Nat) : Prop :=
  ∃ generation value, arena.slots[index]? = some (.occupied generation value)

private theorem Arena.isSome_get?_iff (arena : Arena region α) {handle : Handle region} :
    (arena.get? handle).isSome
      ↔ arena.Taken handle.index ∧ arena.generation handle.index = handle.generation := by
  constructor
  · intro finds
    obtain ⟨value, found⟩ := Option.isSome_iff_exists.mp finds
    refine ⟨?_, arena.generation_of_get? found⟩
    unfold get? at found
    split at found
    · next generation value slot => exact ⟨generation, value, slot⟩
    · cases found
  · rintro ⟨⟨generation, value, slot⟩, same⟩
    simp only [Arena.generation, slot] at same
    simp [get?, slot, same]

/-! ## Handles that uses can hand out -/

namespace Account.Describes

variable {state : Arena region α × Account region α} (describes : state.2.Describes state.1)

include describes

/-- A handle finds a value exactly while its slot holds one and was freed as often as the generation
of the handle says. -/
theorem isSome_get?_iff (few : state.2.Unwrapped) {handle : Handle region} :
    (state.1.get? handle).isSome
      ↔ state.1.Taken handle.index
        ∧ state.2.freed.count handle.index = handle.generation.toNat := by
  have count : UInt32.ofNat (state.2.freed.count handle.index) = handle.generation
      ↔ state.2.freed.count handle.index = handle.generation.toNat := by
    rw [← UInt32.toNat_inj, UInt32.toNat_ofNat_of_lt' (few handle.index)]
  rw [state.1.isSome_get?_iff, describes.generation, count]

private theorem get?_of_passed {handle : Handle region}
    (passed : handle.generation.toNat < state.2.freed.count handle.index)
    {uses : List (Use region α)} (few : (uses.foldl Use.perform state).2.Unwrapped) :
    (uses.foldl Use.perform state).1.get? handle = none := by
  have later := describes.performAll few
  have mono := (Use.freed_foldl uses state).sublist.count_le handle.index
  rw [← Option.not_isSome_iff_eq_none, later.isSome_get?_iff few]
  rintro ⟨-, count⟩
  omega

private theorem ahead_allocate (value : α) (index : Nat) :
    state.2.waiting.tail.length + (index + 1 - (state.1.allocate value).2.slots.size)
      = state.2.waiting.length + (index + 1 - state.1.slots.size) - 1 := by
  obtain ⟨none, -, grows⟩ | ⟨place, generation, next, rest, first, -, -, -, reuses⟩ :=
    describes.allocate_cases value
  · have size : (state.1.allocate value).2.slots.size = state.1.slots.size + 1 := by
      rw [grows]
      exact Array.size_push _
    rw [size, none, List.tail_nil, List.length_nil]
    omega
  · have size : (state.1.allocate value).2.slots.size = state.1.slots.size := by
      rw [reuses]
      exact Array.size_setIfInBounds
    rw [size, first, List.tail_cons, List.length_cons]
    omega

/-- Values that are stored one after another fill every slot in the end. -/
theorem exists_taken (few : state.2.Unwrapped) (value : α) (index : Nat) :
    ∃ uses : List (Use region α), (uses.foldl Use.perform state).1.Taken index
      ∧ (uses.foldl Use.perform state).2.freed = state.2.freed := by
  -- The slots that wait are filled before the arena grows.
  generalize ahead : state.2.waiting.length + (index + 1 - state.1.slots.size) = steps
  induction steps generalizing state with
  | zero =>
    refine ⟨[], ?_, rfl⟩
    have inside : index < state.1.slots.size := by omega
    have slot := Array.getElem?_eq_getElem inside
    cases content : state.1.slots[index] with
    | occupied generation value => exact ⟨generation, value, content ▸ slot⟩
    | vacant generation next =>
      have waits := describes.waiting (content ▸ slot)
      have none : state.2.waiting = [] := List.eq_nil_of_length_eq_zero (by omega)
      rw [none] at waits
      cases waits
  | succ steps ih =>
    have nearer := describes.ahead_allocate value index
    rw [ahead] at nearer
    have next := describes.perform few (.allocate value)
    obtain ⟨uses, taken, freed⟩ := ih next few nearer
    exact ⟨.allocate value :: uses, taken, freed⟩

private theorem exists_retaken (value : α) {index : Nat} (taken : state.1.Taken index) :
    ∃ uses : List (Use region α), (uses.foldl Use.perform state).1.Taken index
      ∧ (uses.foldl Use.perform state).2.freed = index :: state.2.freed := by
  obtain ⟨generation, old, slot⟩ := taken
  have found : state.1.get? ⟨index, generation⟩ = some old := by simp [Arena.get?, slot]
  have books : state.2.release ⟨index, generation⟩ = _ :=
    if_pos (by rw [← describes.held, found]; rfl)
  have next := describes.free ⟨index, generation⟩
  refine ⟨[.free ⟨index, generation⟩, .allocate value], ?_, ?_⟩
  · obtain ⟨none, -, -⟩ | ⟨place, current, link, rest, first, -, vacant, -, reuses⟩ :=
      next.allocate_cases value
    · rw [books] at none
      cases none
    · rw [books] at first
      obtain ⟨rfl, rfl⟩ := List.cons.inj first
      obtain ⟨inside, -⟩ := Array.getElem?_eq_some_iff.mp vacant
      refine ⟨current, value, ?_⟩
      simp only [List.foldl_cons, List.foldl_nil, Use.perform, reuses]
      exact Array.getElem?_setIfInBounds_self_of_lt inside
  · simp only [List.foldl_cons, List.foldl_nil, Use.perform, issue, books]

private theorem exists_freed (few : state.2.Unwrapped) (value : α) {index : Nat}
    (taken : state.1.Taken index) {times : Nat} (ahead : state.2.freed.count index ≤ times)
    (bound : times < UInt32.size) :
    ∃ uses : List (Use region α), (uses.foldl Use.perform state).1.Taken index
      ∧ (uses.foldl Use.perform state).2.freed.count index = times
      ∧ (uses.foldl Use.perform state).2.Unwrapped := by
  obtain ⟨gap, sum⟩ := Nat.exists_eq_add_of_le ahead
  clear ahead
  induction gap generalizing state with
  | zero => exact ⟨[], taken, sum.symm, few⟩
  | succ gap ih =>
    obtain ⟨uses, retaken, freed⟩ := describes.exists_retaken value taken
    have fewer : (uses.foldl Use.perform state).2.Unwrapped := by
      intro other
      rw [freed]
      by_cases same : other = index
      · rw [same, List.count_cons_self]
        omega
      · rw [List.count_cons_of_ne (Ne.symm same)]
        exact few other
    have nearer : times = (uses.foldl Use.perform state).2.freed.count index + gap := by
      rw [freed, List.count_cons_self]
      omega
    obtain ⟨more, again, count, last⟩ := ih (describes.performAll fewer) fewer retaken nearer
    refine ⟨uses ++ more, ?_, ?_, ?_⟩ <;> rw [List.foldl_append]
    · exact again
    · exact count
    · exact last

/-- Uses can bring a slot to every generation that it has not passed, and store any value there. -/
theorem exists_found (few : state.2.Unwrapped) {handle : Handle region}
    (ahead : state.2.freed.count handle.index ≤ handle.generation.toNat) (value : α) :
    ∃ uses : List (Use region α), (uses.foldl Use.perform state).2.Unwrapped
      ∧ (uses.foldl Use.perform state).1.get? handle = some value := by
  obtain ⟨filling, taken, same⟩ := describes.exists_taken few value handle.index
  have filled : (filling.foldl Use.perform state).2.Unwrapped := by
    intro index
    rw [same]
    exact few index
  have described := describes.performAll filled
  obtain ⟨turning, retaken, count, turned⟩ :=
    described.exists_freed filled value taken (same ▸ ahead) handle.generation.toNat_lt
  have finds := (described.performAll turned).isSome_get?_iff turned |>.mpr ⟨retaken, count⟩
  obtain ⟨old, found⟩ := Option.isSome_iff_exists.mp finds
  refine ⟨filling ++ turning ++ [Use.modify handle fun _ => value], ?_, ?_⟩ <;>
    rw [List.foldl_append, List.foldl_append]
  · exact turned
  · simp only [List.foldl_cons, List.foldl_nil, Use.perform]
    rw [Arena.get?_modify, if_pos rfl, found]
    rfl

end Account.Describes

/-! ## Uses and resets -/

private theorem Arena.Event.foldl_uses (uses : List (Use region α))
    (state : Arena region α × Chronicle region α) :
    (uses.map Arena.Event.used).foldl happen state
      = ((uses.foldl Use.perform (state.1, state.2.current)).1,
        { state.2 with current := (uses.foldl Use.perform (state.1, state.2.current)).2 }) := by
  induction uses generalizing state with
  | nil => rfl
  | cons use rest ih => exact ih (happen state (.used use))

/-- The account of the uses since the last reset stays true of the arena. -/
theorem Arena.Event.describes_happen {state : Arena region α × Chronicle region α}
    (describes : state.2.current.Unwrapped → state.2.current.Describes state.1)
    (event : Arena.Event region α) (few : (event.happen state).2.current.Unwrapped) :
    (event.happen state).2.current.Describes (event.happen state).1 := by
  cases event with
  | used use =>
    have later : ([use].foldl Use.perform (state.1, state.2.current)).2.Unwrapped := few
    have now := Use.count_freed_lt later
    have current : (state.1, state.2.current).2.Describes (state.1, state.2.current).1 :=
      describes now
    exact current.perform now use
  | reset => exact Account.describes_empty

private theorem Arena.Event.describes_foldl {state : Arena region α × Chronicle region α}
    (describes : state.2.current.Unwrapped → state.2.current.Describes state.1)
    (events : List (Arena.Event region α)) (few : (events.foldl happen state).2.current.Unwrapped) :
    (events.foldl happen state).2.current.Describes (events.foldl happen state).1 := by
  induction events generalizing state with
  | nil => exact describes few
  | cons event rest ih => exact ih (describes_happen describes event) few

private theorem Arena.afterEvents_describes {events : List (Arena.Event region α)}
    (few : (Arena.afterEvents events).2.current.Unwrapped) :
    (Arena.afterEvents events).2.current.Describes (Arena.afterEvents events).1 :=
  Arena.Event.describes_foldl (fun _ => Account.describes_empty) events few

private theorem Arena.afterEvents_append_uses {events : List (Arena.Event region α)}
    {arena : Arena region α} {chronicle : Chronicle region α}
    (done : Arena.afterEvents events = (arena, chronicle)) (uses : List (Use region α)) :
    Arena.afterEvents (events ++ uses.map .used)
      = ((uses.foldl Use.perform (arena, chronicle.current)).1,
        { chronicle with current := (uses.foldl Use.perform (arena, chronicle.current)).2 }) := by
  have folded : events.foldl Arena.Event.happen ({}, {}) = (arena, chronicle) := done
  rw [Arena.afterEvents, List.foldl_append, folded, Arena.Event.foldl_uses]

/-- A handle from before a reset is revoked as long as the uses since the last reset have not handed
it out again, whatever they are. If they have, it finds what others have stored under it. It finds a
value exactly while its slot holds one and was freed since the last reset as often as its generation
says. Once the slot was freed more often, the handle is revoked until the next reset at least. But
as long as it was not, and so right after any reset, there are uses that make the handle find any
value. -/
theorem Arena.revoked_until_reissued (before after : List (Arena.Event region α))
    {arena : Arena region α} {chronicle : Chronicle region α}
    (done : Arena.afterEvents (before ++ .reset :: after) = (arena, chronicle))
    (few : chronicle.current.Unwrapped) :
    ∀ handle ∈ (Arena.afterEvents before).2.issued,
      (handle ∉ chronicle.current.issued → arena.Revoked handle)
        ∧ arena.get? handle = chronicle.current.held handle
        ∧ (arena.Revoked handle ↔ ¬ (arena.Taken handle.index
          ∧ chronicle.current.freed.count handle.index = handle.generation.toNat))
        ∧ (handle.generation.toNat < chronicle.current.freed.count handle.index →
          ∀ more : List (Use region α),
            (Arena.afterEvents (before ++ .reset :: after ++ more.map .used)).2.current.Unwrapped →
              (Arena.afterEvents (before ++ .reset :: after ++ more.map .used)).1.Revoked handle)
        ∧ (chronicle.current.freed.count handle.index ≤ handle.generation.toNat →
          ∀ value, ∃ more : List (Use region α),
            (Arena.afterEvents (before ++ .reset :: after ++ more.map .used)).2.current.Unwrapped
              ∧ (Arena.afterEvents (before ++ .reset :: after ++ more.map .used)).1.get? handle
                = some value) := by
  have describes : (arena, chronicle.current).2.Describes (arena, chronicle.current).1 := by
    have along := @Arena.afterEvents_describes region α (before ++ .reset :: after)
    rw [done] at along
    exact along few
  intro handle _
  refine ⟨?_, describes.held handle, ?_, ?_, ?_⟩
  · intro fresh
    rw [arena.revoked_iff, describes.held, ← Option.not_isSome_iff_eq_none]
    intro holds
    exact fresh (describes.issued holds)
  · rw [arena.revoked_iff, ← Option.not_isSome_iff_eq_none, describes.isSome_get?_iff few]
  · intro passed more later
    rw [Arena.afterEvents_append_uses done more] at later ⊢
    rw [Arena.revoked_iff]
    exact describes.get?_of_passed passed later
  · intro ahead value
    obtain ⟨more, later, found⟩ := describes.exists_found few ahead value
    refine ⟨more, ?_⟩
    rw [Arena.afterEvents_append_uses done more]
    exact ⟨later, found⟩

/-- A slot is used, freed, and used again. -/
def usedTwice : List (Arena.Event Unit Nat) :=
  [.used (.allocate 1), .used (.free ⟨0, 0⟩), .used (.allocate 2)]

/-- The arena is reset, and the slot is used for the first time once more. -/
def usedAnew : List (Arena.Event Unit Nat) :=
  usedTwice ++ .reset :: [.used (.allocate 3)]

theorem usedAnew_revoked :
    (Arena.afterEvents usedTwice).2.issued = [⟨0, 1⟩, ⟨0, 0⟩]
      ∧ (Arena.afterEvents usedAnew).2.current.Unwrapped
      ∧ (Arena.afterEvents usedAnew).1.get? ⟨0, 0⟩ = some 3
      ∧ (Arena.afterEvents usedAnew).1.Revoked ⟨0, 1⟩
      ∧ ∃ more : List (Use Unit Nat),
        (Arena.afterEvents (usedAnew ++ more.map .used)).1.get? ⟨0, 1⟩ = some 4 := by
  have few : (Arena.afterEvents usedAnew).2.current.Unwrapped := by
    intro index
    exact Nat.lt_of_le_of_lt List.count_le_length (by decide)
  have revoked := Arena.revoked_until_reissued usedTwice [.used (.allocate 3)] rfl few
  obtain ⟨-, found, -⟩ := revoked ⟨0, 0⟩ (.tail _ (.head _))
  obtain ⟨fresh, -, -, -, revives⟩ := revoked ⟨0, 1⟩ (.head _)
  obtain ⟨more, -, finds⟩ := revives (by decide) 4
  exact ⟨rfl, few, found, fresh (by decide), more, finds⟩

end ScopeMachine
