import ScopeMachine.Proofs.Store.Naming

set_option autoImplicit false

/-!
# Lookups

What a search at one level finds: the first binding with the name in the list of the scope. Bindings
that are declared in a scope come behind those that are there, so a name that the scope has already
keeps its binding.
-/

namespace ScopeMachine.Heap

def firstAmong (heap : Heap) (name : String) (ids : List BindingId) : Option BindingId :=
  ids.find? fun id => heap.nameOf id = some name

def first (heap : Heap) (owner : ScopeId) (name : String) : Option BindingId :=
  (heap.scopes.get? owner).bind fun scope => heap.firstAmong name scope.own.toList

section

variable {heap after : Heap} {owner : ScopeId} {name : String}

private theorem findAmong_eq {ids : List BindingId} (live : ∀ id ∈ ids, heap.Live id) :
    heap.findAmong name ids = .ok (heap.firstAmong name ids) := by
  induction ids with
  | nil => rfl
  | cons id rest ih =>
    obtain ⟨binding, reads, -⟩ := binding_of_live (live id (.head _))
    have later := ih fun other member => live other (.tail _ member)
    simp only [findAmong, reads, firstAmong, List.find?_cons, nameOf_of_binding reads]
    split
    · next same => simp [same]
    · next other => simpa [other, firstAmong] using later

private theorem mem_of_findAmong {ids : List BindingId} {id : BindingId}
    (found : heap.findAmong name ids = .ok (some id)) : id ∈ ids := by
  induction ids with
  | nil => cases found
  | cons first rest ih =>
    unfold findAmong at found
    split at found
    · cases found
    · split at found
      · cases found
        exact .head _
      · exact .tail _ (ih found)

theorem findImmediate_owns {id : BindingId}
    (found : heap.findImmediate owner name = .ok (some id)) : heap.Owns owner id := by
  unfold Heap.findImmediate Heap.scope at found
  cases there : heap.scopes.get? owner with
  | none => simp [there] at found
  | some scope =>
    rw [there] at found
    exact ⟨scope, there, mem_of_findAmong found⟩

theorem findImmediate_eq {scope : Scope} (there : heap.scopes.get? owner = some scope)
    (live : ∀ id, heap.Owns owner id → heap.Live id) :
    heap.findImmediate owner name = .ok (heap.first owner name) := by
  have reads : heap.scope owner = .ok scope := by simp [Heap.scope, there]
  rw [Heap.findImmediate, reads, first, there, Option.bind_some]
  exact findAmong_eq fun id member => live id ⟨scope, there, member⟩

theorem Tidy.findImmediate_eq (tidy : heap.Tidy) (live : heap.LiveScope owner) (name : String) :
    heap.findImmediate owner name = .ok (heap.first owner name) := by
  obtain ⟨scope, there⟩ := live
  exact Heap.findImmediate_eq there fun _ owns => tidy.live owns

private theorem nameOf_congr {id : BindingId} (same : after.bindings.get? id = heap.bindings.get? id) :
    after.nameOf id = heap.nameOf id := by
  rw [nameOf, same, nameOf]

/-- Only the names count for which binding is first. -/
theorem firstAmong_congr {ids : List BindingId} (same : ∀ id ∈ ids, after.nameOf id = heap.nameOf id) :
    after.firstAmong name ids = heap.firstAmong name ids := by
  induction ids with
  | nil => rfl
  | cons id rest ih =>
    have later := ih fun other member => same other (.tail _ member)
    unfold firstAmong at later ⊢
    rw [List.find?_cons, List.find?_cons, same id (.head _), later]

private theorem findAmong_congr {ids : List BindingId}
    (same : ∀ id ∈ ids, after.bindings.get? id = heap.bindings.get? id) :
    after.findAmong name ids = heap.findAmong name ids := by
  induction ids with
  | nil => rfl
  | cons id rest ih =>
    have later := ih fun other member => same other (.tail _ member)
    simp only [findAmong, Heap.binding, same id (.head _), later]

/-- Among bindings that are known, the search is one through their names. -/
theorem firstAmong_map {made : List (BindingId × Binding)}
    (holds : ∀ entry ∈ made, heap.bindings.get? entry.1 = some entry.2) :
    heap.firstAmong name (made.map Prod.fst)
      = (made.find? fun entry => entry.2.name = some name).map Prod.fst := by
  induction made with
  | nil => rfl
  | cons entry rest ih =>
    have later := ih fun other member => holds other (.tail _ member)
    have here : heap.nameOf entry.1 = entry.2.name := by simp [nameOf, holds entry (.head _)]
    unfold firstAmong at later ⊢
    rw [List.map_cons, List.find?_cons, List.find?_cons, here]
    split
    · rfl
    · exact later

theorem first_owns {id : BindingId} (found : heap.first owner name = some id) :
    heap.Owns owner id ∧ heap.nameOf id = some name := by
  obtain ⟨scope, there, found⟩ := Option.bind_eq_some_iff.mp found
  exact ⟨⟨scope, there, List.mem_of_find?_eq_some found⟩, by simpa using List.find?_some found⟩

/-! ## Levels that stay as they are -/

/-- A scope and the bindings that it owns have not changed. -/
structure Untouched (owner : ScopeId) (before after : Heap) : Prop where
  scope : after.scopes.get? owner = before.scopes.get? owner
  own : ∀ id, before.Owns owner id → after.bindings.get? id = before.bindings.get? id

theorem Untouched.findImmediate (same : Untouched owner heap after) :
    after.findImmediate owner name = heap.findImmediate owner name := by
  have search {scope : Scope} (there : heap.scopes.get? owner = some scope) :
      after.findAmong name scope.own.toList = heap.findAmong name scope.own.toList :=
    findAmong_congr fun id member => same.own id ⟨scope, there, member⟩
  unfold Heap.findImmediate Heap.scope
  rw [same.scope]
  cases there : heap.scopes.get? owner with
  | none => rfl
  | some scope => exact search there

theorem Untouched.owns (same : Untouched owner heap after) {id : BindingId} :
    after.Owns owner id ↔ heap.Owns owner id := by
  unfold Owns
  rw [same.scope]

end

/-! ## Declarations in order -/

/-- A heap with some bindings declared in a scope, in order, and nothing else changed. -/
structure Declares (owner : ScopeId) (made : List (BindingId × Binding)) (before after : Heap) :
    Prop where
  own : ∃ scope, before.scopes.get? owner = some scope
    ∧ after.scopes.get? owner = some { scope with own := scope.own ++ (made.map Prod.fst).toArray }
  others : ∀ other, other ≠ owner → after.scopes.get? other = before.scopes.get? other
  new : ∀ id ∈ made.map Prod.fst, ¬ before.Live id
  holds : ∀ entry ∈ made, after.bindings.get? entry.1 = some entry.2
  kept : ∀ id, id ∉ made.map Prod.fst → after.bindings.get? id = before.bindings.get? id
  once : (made.map Prod.fst).Nodup

section

variable {owner : ScopeId} {heap middle after : Heap} {made more : List (BindingId × Binding)}

theorem declares_nil (live : heap.LiveScope owner) : Declares owner [] heap heap := by
  obtain ⟨scope, there⟩ := live
  exact ⟨⟨scope, there, by simpa using there⟩, by simp, by simp, by simp, by simp, by simp⟩

theorem declares_declared (live : heap.LiveScope owner) (binding : Binding) :
    Declares owner [((heap.allocate binding).1, binding)] heap (heap.declared owner binding) := by
  have reads (id : BindingId) : (heap.declared owner binding).bindings.get? id
      = if id = (heap.allocate binding).1 then some binding else heap.bindings.get? id :=
    heap.get?_allocate binding id
  obtain ⟨scope, there⟩ := live
  refine ⟨⟨scope, there, ?_⟩, fun other ne => ?_, ?_, ?_, fun id other => ?_, by simp⟩
  · have adopted : (heap.declared owner binding).scopes.get? owner = _ := get?_adopt owner
    rw [if_pos rfl, scopes_allocate, there] at adopted
    simpa [Array.push] using adopted
  · have adopted : (heap.declared owner binding).scopes.get? other = _ := get?_adopt other
    rwa [if_neg ne] at adopted
  · simpa using heap.not_live_allocate binding
  · simp [reads]
  · rw [reads, if_neg (by simpa using other)]

namespace Declares

variable (first : Declares owner made heap middle)

include first

theorem live {id : BindingId} (live : heap.Live id) : middle.Live id := by
  obtain ⟨binding, there⟩ := live
  exact ⟨binding, by rw [first.kept id fun member => first.new id member ⟨binding, there⟩, there]⟩

theorem get?_of_live {id : BindingId} (live : heap.Live id) :
    middle.bindings.get? id = heap.bindings.get? id :=
  first.kept id fun member => first.new id member live

theorem trans (second : Declares owner more middle after) :
    Declares owner (made ++ more) heap after := by
  obtain ⟨scope, there, larger⟩ := first.own
  obtain ⟨_, again, largest⟩ := second.own
  cases larger.symm.trans again
  have apart (id : BindingId) (member : id ∈ made.map Prod.fst) : id ∉ more.map Prod.fst := by
    intro later
    obtain ⟨entry, inside, rfl⟩ := List.mem_map.mp member
    exact second.new _ later ⟨_, first.holds entry inside⟩
  refine ⟨⟨scope, there, by simpa using largest⟩,
    fun other ne => (second.others other ne).trans (first.others other ne), fun id member => ?_,
    fun entry member => ?_, fun id other => ?_, ?_⟩
  · rw [List.map_append] at member
    obtain member | member := List.mem_append.mp member
    · exact first.new id member
    · exact fun live => second.new id member (first.live live)
  · obtain member | member := List.mem_append.mp member
    · rw [second.kept _ (apart _ (List.mem_map_of_mem member)), first.holds entry member]
    · exact second.holds entry member
  · rw [List.map_append, List.mem_append, not_or] at other
    rw [second.kept id other.2, first.kept id other.1]
  · rw [List.map_append]
    exact first.once.append second.once fun id here there => apart id here there

/-- A name leads to the binding that it led to before, or else to the first new one that has it. -/
theorem first_eq (live : ∀ id, heap.Owns owner id → heap.Live id) (name : String) :
    middle.first owner name = (heap.first owner name).or
      ((made.find? fun entry => entry.2.name = some name).map Prod.fst) := by
  obtain ⟨scope, there, larger⟩ := first.own
  have old : middle.firstAmong name scope.own.toList = heap.firstAmong name scope.own.toList :=
    firstAmong_congr fun id member =>
      nameOf_congr (first.get?_of_live (live id ⟨scope, there, member⟩))
  have new : middle.firstAmong name (made.map Prod.fst)
      = (made.find? fun entry => entry.2.name = some name).map Prod.fst :=
    firstAmong_map first.holds
  have both : middle.firstAmong name (scope.own.toList ++ made.map Prod.fst)
      = (middle.firstAmong name scope.own.toList).or
        (middle.firstAmong name (made.map Prod.fst)) := List.find?_append ..
  rw [Heap.first, Heap.first, there, larger, Option.bind_some, Option.bind_some, ← old, ← new, ← both]
  simp

/-- What a scope owns is live after declarations in it, if it was before. -/
theorem own_live (live : ∀ id, heap.Owns owner id → heap.Live id) (id : BindingId)
    (owns : middle.Owns owner id) : middle.Live id := by
  obtain ⟨scope, there, larger⟩ := first.own
  obtain ⟨_, again, member⟩ := owns
  cases larger.symm.trans again
  have split : id ∈ scope.own.toList ∨ id ∈ made.map Prod.fst := by simpa using member
  obtain old | new := split
  · exact first.live (live id ⟨scope, there, old⟩)
  · obtain ⟨entry, inside, rfl⟩ := List.mem_map.mp new
    exact ⟨_, first.holds entry inside⟩

end Declares

end

/-! ## Declarations in place of others -/

/-- A heap in which a name of a scope leads to a given value, as other names lead to what they led to
before. Only one binding has changed: the one that had the name in the scope, or else a new one. -/
structure Rebinds (owner : ScopeId) (name : String) (id : BindingId) (value : Binding)
    (before after : Heap) : Prop where
  found : after.first owner name = some id
  holds : after.bindings.get? id = some value
  others : ∀ other, other ≠ name → after.first owner other = before.first owner other
  kept : ∀ {other}, before.Live other → other ≠ id →
    after.bindings.get? other = before.bindings.get? other
  place : before.Owns owner id ∨ ¬ before.Live id
  owns : ∀ {other held}, after.Owns other held → before.Owns other held ∨ ¬ before.Live held

section

variable {heap : Heap} {owner : ScopeId} {name : String} {value : Binding} {id : BindingId}

private theorem rebinds_modifyBinding (named : value.name = some name) (tidy : heap.Tidy)
    (found : heap.first owner name = some id) :
    Rebinds owner name id value heap (heap.modifyBinding id fun _ => value) := by
  obtain ⟨owns, called⟩ := first_owns found
  have reads : (heap.modifyBinding id fun _ => value).bindings.get? id = some value := by
    obtain ⟨old, there⟩ := tidy.live owns
    unfold modifyBinding
    dsimp only
    rw [Arena.get?_modify, if_pos rfl, there, Option.map_some]
  have names (other : BindingId) :
      (heap.modifyBinding id fun _ => value).nameOf other = heap.nameOf other := by
    by_cases same : other = id
    · rw [same, called, nameOf, reads, Option.bind_some, named]
    · exact nameOf_congr (get?_modifyBinding_ne same)
  have firsts (other : String) :
      (heap.modifyBinding id fun _ => value).first owner other = heap.first owner other := by
    unfold first
    rw [show (heap.modifyBinding id fun _ => value).scopes = heap.scopes from rfl]
    congr 1
    exact funext fun scope => firstAmong_congr fun held _ => names held
  exact ⟨(firsts name).trans found, reads, fun other _ => firsts other,
    fun _ ne => get?_modifyBinding_ne ne, .inl owns, .inl⟩

private theorem rebinds_declared (named : value.name = some name) (tidy : heap.Tidy)
    (live : heap.LiveScope owner) (missing : heap.first owner name = none) :
    Rebinds owner name (heap.allocate value).1 value heap (heap.declared owner value) := by
  have declares := declares_declared live value
  have own : ∀ id, heap.Owns owner id → heap.Live id := fun _ owns => tidy.live owns
  refine ⟨?_, declares.holds (_, value) (by simp), fun other ne => ?_, fun alive _ => declares.get?_of_live alive,
    .inr (heap.not_live_allocate value), fun owns => ?_⟩
  · rw [declares.first_eq own, missing]
    simp [named]
  · have new : ¬ value.name = some other := by
      rw [named]
      exact fun same => ne (Option.some.inj same).symm
    rw [declares.first_eq own]
    simp [new]
  · obtain owns | ⟨-, rfl, -⟩ := owns_adopt.mp owns
    · exact .inl owns
    · exact .inr (heap.not_live_allocate value)

theorem redeclare_rebinds (tidy : heap.Tidy) (live : heap.LiveScope owner)
    (named : value.name = some name) :
    ∃ id after, heap.redeclare owner value = (.ok id, after) ∧ after.Tidy ∧ after.LiveScope owner
      ∧ Rebinds owner name id value heap after := by
  obtain ⟨scope, there⟩ := live
  have finds : heap.findImmediate owner name = .ok (heap.first owner name) :=
    findImmediate_eq there fun _ owns => tidy.live owns
  unfold Heap.redeclare
  rw [named]
  dsimp only
  rw [finds]
  cases found : heap.first owner name with
  | some id =>
    exact ⟨id, _, rfl, tidy.modifyBinding _ _, ⟨scope, there⟩,
      rebinds_modifyBinding named tidy found⟩
  | none =>
    exact ⟨_, _, declare_of_live ⟨scope, there⟩ value, tidy.declared owner value,
      liveScope_adopt.mpr ⟨scope, there⟩, rebinds_declared named tidy ⟨scope, there⟩ found⟩

end

end ScopeMachine.Heap
