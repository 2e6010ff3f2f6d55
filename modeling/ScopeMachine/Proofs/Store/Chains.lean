import Mathlib.Data.Finset.Card
import ScopeMachine.Proofs.Store.Census

set_option autoImplicit false

/-!
# Chains of scopes

A search for a name climbs from a scope to the one it inherits from, as long as it finds nothing. All
scopes on the way are live, and there are no more of them than slots. So a search that has climbed more
levels than that has come back to one of them, and climbs on without end.
-/

namespace ScopeMachine.Heap

/-- The scope that a search goes on to, where a scope does not have the name itself. -/
def above? (heap : Heap) (name : String) (scope : ScopeId) : Option ScopeId :=
  match heap.findImmediate scope name with
  | .ok none => (heap.scopes.get? scope).bind Scope.parent
  | _ => none

/-- The scope that a search gets to, some levels up. -/
def climb (heap : Heap) (name : String) : Nat → ScopeId → Option ScopeId
  | 0, scope => some scope
  | levels + 1, scope => (heap.above? name scope).bind (heap.climb name levels)

section

variable {heap : Heap} {name : String} {scope : ScopeId}

private theorem findAmong_ne_endless (ids : List BindingId) :
    heap.findAmong name ids ≠ .error .endless := by
  induction ids with
  | nil => simp [findAmong]
  | cons id rest ih =>
    unfold findAmong Heap.binding
    cases heap.bindings.get? id with
    | none => simp
    | some value =>
      dsimp only
      split
      · simp
      · exact ih

theorem findImmediate_ne_endless : heap.findImmediate scope name ≠ .error .endless := by
  unfold findImmediate Heap.scope
  cases heap.scopes.get? scope with
  | none => simp
  | some found => exact findAmong_ne_endless _

end

section

variable {heap : Heap}

theorem binding_ne_endless (id : BindingId) : heap.binding id ≠ .error .endless := by
  unfold binding
  split <;> simp

theorem scope_ne_endless (id : ScopeId) : heap.scope id ≠ .error .endless := by
  unfold Heap.scope
  split <;> simp

theorem declare_ne_endless (scope : ScopeId) (binding : Binding) :
    (heap.declare scope binding).1 ≠ .error .endless := by
  unfold declare
  split <;> simp

theorem redeclare_ne_endless (scope : ScopeId) (binding : Binding) :
    (heap.redeclare scope binding).1 ≠ .error .endless := by
  unfold redeclare
  split
  · exact declare_ne_endless scope binding
  · next name _ =>
    have immediate : heap.findImmediate scope name ≠ .error .endless := findImmediate_ne_endless
    split
    · next failed =>
      rw [failed] at immediate
      simpa using immediate
    · simp
    · exact declare_ne_endless scope binding

private theorem copyInto_ne_endless (scope : ScopeId) (ids : List BindingId) (heap : Heap) :
    (copyInto scope ids heap).1 ≠ some .endless := by
  induction ids generalizing heap with
  | nil => exact nofun
  | cons id rest ih =>
    have reads := @binding_ne_endless heap id
    unfold copyInto
    split
    · next failed =>
      rw [failed] at reads
      simpa using reads
    · exact ih _

theorem copyScope_ne_endless (source : ScopeId) : (heap.copyScope source).1 ≠ .error .endless := by
  have reads := @scope_ne_endless heap source
  unfold copyScope
  split
  · next failed =>
    rw [failed] at reads
    simpa using reads
  · next found _ =>
    have copies := copyInto_ne_endless
      (heap.allocateScope
        { parent := found.parent, parameters := found.parameters, durable := true }).1
      found.own.toList
      (heap.allocateScope
        { parent := found.parent, parameters := found.parameters, durable := true }).2
    dsimp only
    split
    · simp
    · next failed =>
      rw [failed] at copies
      simpa using copies

theorem freeScope_ne_endless (id : ScopeId) : (heap.freeScope id).1 ≠ .error .endless := by
  unfold freeScope
  dsimp only
  split <;> simp

theorem releaseScope_ne_endless (id : ScopeId) : (heap.releaseScope id).1 ≠ .error .endless := by
  have reads := @scope_ne_endless heap id
  unfold releaseScope
  split
  · next failed =>
    rw [failed] at reads
    simpa using reads
  · split
    · simp
    · exact freeScope_ne_endless id

end

section

variable {heap : Heap} {name : String} {scope : ScopeId}

private theorem above?_liveScope {parent : ScopeId} (higher : heap.above? name scope = some parent) :
    heap.LiveScope scope := by
  unfold above? at higher
  split at higher
  · obtain ⟨found, there, -⟩ := Option.bind_eq_some_iff.mp higher
    exact ⟨found, there⟩
  · cases higher

/-- A search runs out of levels where it gets to a scope beyond the last of them. -/
theorem findWithin_endless (levels : Nat) (scope : ScopeId) :
    heap.findWithin name levels scope = .error .endless ↔ (heap.climb name levels scope).isSome := by
  induction levels generalizing scope with
  | zero => simp [findWithin, climb]
  | succ levels ih =>
    have here : heap.findImmediate scope name ≠ .error .endless := findImmediate_ne_endless
    unfold findWithin climb above? Heap.scope
    generalize heap.findImmediate scope name = found at here ⊢
    match found with
    | .error stale => simpa using here
    | .ok (some id) => simp
    | .ok none =>
      cases heap.scopes.get? scope with
      | none => simp
      | some level =>
        cases up : level.parent with
        | none => simp [up]
        | some parent => simpa [up] using ih parent

private theorem climb_add (first second : Nat) (scope : ScopeId) :
    heap.climb name (first + second) scope
      = (heap.climb name first scope).bind (heap.climb name second) := by
  induction first generalizing scope with
  | zero => simp [climb]
  | succ first ih =>
    rw [Nat.succ_add, climb, climb, Option.bind_assoc]
    exact congrArg _ (funext ih)

/-- The scopes that a search comes by are live, but for the last one. -/
theorem climb_live {levels earlier : Nat} (less : earlier < levels)
    (climbs : (heap.climb name levels scope).isSome) :
    ∃ level, heap.climb name earlier scope = some level ∧ heap.LiveScope level := by
  obtain ⟨last, reached⟩ := Option.isSome_iff_exists.mp climbs
  obtain ⟨more, rfl⟩ := Nat.exists_eq_add_of_lt less
  rw [Nat.add_assoc, climb_add] at reached
  obtain ⟨level, there, further⟩ := Option.bind_eq_some_iff.mp reached
  obtain ⟨parent, higher, -⟩ := Option.bind_eq_some_iff.mp further
  exact ⟨level, there, above?_liveScope higher⟩

/-- A search that climbs more levels than there are slots comes by a scope twice. -/
theorem climb_returns (climbs : (heap.climb name (heap.scopes.slots.size + 1) scope).isSome) :
    ∃ first second, first < second ∧ second ≤ heap.scopes.slots.size
      ∧ heap.climb name first scope = heap.climb name second scope := by
  have inside : ∀ level ∈ Finset.range (heap.scopes.slots.size + 1),
      heap.climb name level scope ∈ (heap.scopes.handles.map some).toFinset := by
    intro level member
    obtain ⟨reached, there, live⟩ := climb_live (Finset.mem_range.mp member) climbs
    rw [there]
    simpa using Arena.mem_handles.mpr live
  have fewer : (heap.scopes.handles.map some).toFinset.card
      < (Finset.range (heap.scopes.slots.size + 1)).card := by
    rw [Finset.card_range, Nat.lt_succ_iff]
    calc (heap.scopes.handles.map some).toFinset.card
      _ ≤ (heap.scopes.handles.map some).length := List.toFinset_card_le _
      _ = heap.scopes.occupied := by rw [List.length_map, heap.scopes.length_handles]
      _ ≤ heap.scopes.slots.size := heap.scopes.occupied_le_size
  obtain ⟨first, low, second, high, apart, same⟩ :=
    Finset.exists_ne_map_eq_of_card_lt_of_maps_to fewer inside
  have below {level : Nat} (member : level ∈ Finset.range (heap.scopes.slots.size + 1)) :
      level ≤ heap.scopes.slots.size := Nat.lt_succ_iff.mp (Finset.mem_range.mp member)
  obtain less | more := Nat.lt_or_gt_of_ne apart
  · exact ⟨first, second, less, below high, same⟩
  · exact ⟨second, first, more, below low, same.symm⟩

/-- From a scope that it comes by twice, a search climbs any number of levels. -/
theorem climb_forever (climbs : (heap.climb name (heap.scopes.slots.size + 1) scope).isSome)
    (levels : Nat) : (heap.climb name levels scope).isSome := by
  obtain ⟨first, second, less, small, same⟩ := climb_returns climbs
  induction levels using Nat.strong_induction_on with
  | _ levels ih =>
    by_cases low : levels < heap.scopes.slots.size + 1
    · obtain ⟨level, there, -⟩ := climb_live low climbs
      simp [there]
    · -- the way from the second visit on is the one from the first visit on, which is not as long
      obtain ⟨more, rfl⟩ := Nat.exists_eq_add_of_le (Nat.le_trans small (by omega : _ ≤ levels))
      rw [climb_add, ← same, ← climb_add]
      exact ih (first + more) (by omega)

/-- A search in inherited scopes never ends if and only if no number of levels is enough for it. -/
theorem findInherited_endless :
    heap.findInherited scope name = .error .endless
      ↔ ∀ levels, heap.findWithin name levels scope = .error .endless := by
  refine ⟨fun endless levels => ?_, fun all => all _⟩
  exact (findWithin_endless levels scope).mpr (climb_forever ((findWithin_endless _ scope).mp endless) levels)

/-- More levels do not change what a search ends with. -/
theorem findWithin_mono {levels more : Nat} (enough : levels ≤ more) {scope : ScopeId}
    (ends : heap.findWithin name levels scope ≠ .error .endless) :
    heap.findWithin name more scope = heap.findWithin name levels scope := by
  induction levels generalizing more scope with
  | zero => exact absurd rfl ends
  | succ levels ih =>
    obtain ⟨more, rfl⟩ := Nat.exists_eq_add_one_of_ne_zero (Nat.ne_zero_of_lt enough)
    unfold findWithin at ends ⊢
    split
    · rfl
    · rfl
    · next missing =>
      rw [missing] at ends
      split
      · rfl
      · next found =>
        rw [found] at ends
        dsimp only at ends
        split
        · rfl
        · next up =>
          rw [up] at ends
          exact ih (Nat.le_of_succ_le_succ enough) ends

/-- What a search in inherited scopes ends with is what it ends with when enough levels are allowed, be
they as many as they may. -/
theorem findInherited_eq_iff {result : Except Stale (Option BindingId)} (ends : result ≠ .error .endless) :
    heap.findInherited scope name = result ↔ ∃ levels, heap.findWithin name levels scope = result := by
  refine ⟨fun found => ⟨_, found⟩, ?_⟩
  rintro ⟨levels, rfl⟩
  have total : heap.findInherited scope name ≠ .error .endless := fun endless =>
    ends (findInherited_endless.mp endless levels)
  obtain small | large := Nat.le_total levels (heap.scopes.slots.size + 1)
  · exact findWithin_mono small ends
  · exact (findWithin_mono large total).symm

theorem findInherited_congr {after : Heap}
    (same : ∀ levels, after.findWithin name levels scope = heap.findWithin name levels scope) :
    after.findInherited scope name = heap.findInherited scope name := by
  by_cases endless : heap.findInherited scope name = .error .endless
  · rw [endless, findInherited_endless]
    exact fun levels => (same levels).trans (findInherited_endless.mp endless levels)
  · exact (findInherited_eq_iff endless).mpr ⟨_, same _⟩

end

end ScopeMachine.Heap
