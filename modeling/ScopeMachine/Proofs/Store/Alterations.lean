import ScopeMachine.Proofs.Store.Chains
import ScopeMachine.Proofs.Store.Levels
import ScopeMachine.Proofs.Store.Lookup

set_option autoImplicit false

/-!
# Alterations

An object is a binding with the scope that holds its attributes. Whatever is done to an object, one
change after the other, leaves every binding alone that is not part of it, and every other scope. So what
is found through another binding stays the same, as long as the two have no part in common.
-/

namespace ScopeMachine.Heap

/-- The binding is the object itself, or one of its attributes. -/
def Part (heap : Heap) (object : BindingId) (place : Option ScopeId) (id : BindingId) : Prop :=
  id = object ∨ ∃ scope ∈ place, heap.Owns scope id

/-- A change of an object: a part of it is assigned to or changed otherwise, an attribute is declared, or
something is freed. -/
inductive Alters (object : BindingId) (place : Option ScopeId) (before : Heap) : Heap → Prop where
  | modify {id : BindingId} (part : before.Part object place id) (f : Binding → Binding) :
      Alters object place before (before.modifyBinding id f)
  | declare {scope : ScopeId} (own : scope ∈ place) (value : Binding) :
      Alters object place before (before.declare scope value).2
  | redeclare {scope : ScopeId} (own : scope ∈ place) (value : Binding) :
      Alters object place before (before.redeclare scope value).2
  | freeBinding {id : BindingId} (part : before.Part object place id) :
      Alters object place before (before.freeBinding id).2
  | freeScope {scope : ScopeId} (own : scope ∈ place) :
      Alters object place before (before.freeScope scope).2

/-- Changes of an object, one after the other. -/
abbrev Alterations (object : BindingId) (place : Option ScopeId) : Heap → Heap → Prop :=
  Relation.ReflTransGen (Alters object place)

/-- What is not part of an object is as it was, and has not become part of it. -/
structure Spares (object : BindingId) (place : Option ScopeId) (before after : Heap) : Prop where
  bindings : ∀ {id}, before.Live id → ¬ before.Part object place id →
    after.bindings.get? id = before.bindings.get? id ∧ ¬ after.Part object place id
  scopes : ∀ {scope}, scope ∉ place → after.scopes.get? scope = before.scopes.get? scope

section

variable {object : BindingId} {place : Option ScopeId} {heap middle after : Heap}

theorem Spares.refl (object : BindingId) (place : Option ScopeId) (heap : Heap) :
    Spares object place heap heap :=
  ⟨fun _ apart => ⟨rfl, apart⟩, fun _ => rfl⟩

theorem Spares.trans (first : Spares object place heap middle) (second : Spares object place middle after) :
    Spares object place heap after where
  bindings := by
    intro id live apart
    obtain ⟨same, still⟩ := first.bindings live apart
    obtain ⟨value, there⟩ := live
    obtain ⟨again, last⟩ := second.bindings ⟨value, same.trans there⟩ still
    exact ⟨again.trans same, last⟩
  scopes other := (second.scopes other).trans (first.scopes other)

/-! ## Single changes -/

private theorem spares_modifyBinding {id : BindingId} (part : heap.Part object place id)
    (f : Binding → Binding) : Spares object place heap (heap.modifyBinding id f) where
  bindings _ apart := ⟨get?_modifyBinding_ne fun same => apart (same ▸ part), apart⟩
  scopes _ := rfl

/-- A new attribute has a handle that no live binding has. -/
theorem spares_declare {owner : ScopeId} (own : owner ∈ place) (value : Binding) :
    Spares object place heap (heap.declare owner value).2 := by
  by_cases there : heap.LiveScope owner
  · have declares := declares_declared there value
    rw [declare_of_live there]
    refine ⟨fun {id} live apart => ⟨declares.get?_of_live live, ?_⟩, fun other => declares.others _ ?_⟩
    · rintro (same | ⟨scope, inside, owns⟩)
      · exact apart (.inl same)
      · obtain owns | ⟨-, rfl, -⟩ := owns_adopt.mp owns
        · exact apart (.inr ⟨scope, inside, owns⟩)
        · exact heap.not_live_allocate value live
    · rintro rfl
      exact other own
  · rw [declare_of_dead there]
    exact .refl object place heap

private theorem spares_redeclare {owner : ScopeId} (own : owner ∈ place) (value : Binding) :
    Spares object place heap (heap.redeclare owner value).2 := by
  unfold Heap.redeclare
  cases value.name with
  | none => exact spares_declare own value
  | some name =>
    cases found : heap.findImmediate owner name with
    | error stale =>
      simp only [found]
      exact .refl object place heap
    | ok held =>
      cases held with
      | none =>
        simp only [found]
        exact spares_declare own value
      | some id =>
        simp only [found]
        exact spares_modifyBinding (.inr ⟨owner, own, findImmediate_owns found⟩) _

private theorem spares_freeBinding {id : BindingId} (part : heap.Part object place id) :
    Spares object place heap (heap.freeBinding id).2 where
  bindings _ apart := by
    refine ⟨?_, apart⟩
    rw [get?_freeBinding, if_neg]
    rintro rfl
    exact apart part
  scopes _ := rfl

private theorem spares_freeScope {owner : ScopeId} (own : owner ∈ place) :
    Spares object place heap (heap.freeScope owner).2 := by
  by_cases there : heap.LiveScope owner
  · obtain ⟨count, after, frees, loses⟩ := freeScope_of_live there
    rw [frees]
    refine ⟨fun {id} _ apart => ⟨loses.kept fun owns => apart (.inr ⟨owner, own, owns⟩), ?_⟩,
      fun {scope} other => loses.get?_of_ne ?_⟩
    · rintro (same | ⟨scope, inside, owns⟩)
      · exact apart (.inl same)
      · exact apart (.inr ⟨scope, inside, (loses.owns_before owns).2⟩)
    · rintro rfl
      exact other own
  · rw [freeScope_of_dead there]
    exact .refl object place heap

theorem Alters.spares (alters : Alters object place heap after) : Spares object place heap after := by
  cases alters with
  | modify part f => exact spares_modifyBinding part f
  | declare own value => exact spares_declare own value
  | redeclare own value => exact spares_redeclare own value
  | freeBinding part => exact spares_freeBinding part
  | freeScope own => exact spares_freeScope own

private theorem spares_of_alterations (alterations : Alterations object place heap after) :
    Spares object place heap after := by
  induction alterations with
  | refl => exact .refl object place heap
  | tail _ last ih => exact ih.trans last.spares

/-- A scope other than that of the object, none of whose bindings is part of it. -/
theorem Spares.untouched (spares : Spares object place heap after) (tidy : heap.Tidy) {scope : ScopeId}
    (other : scope ∉ place) (apart : ¬ heap.Owns scope object) : Untouched scope heap after where
  scope := spares.scopes other
  own id owns := by
    refine (spares.bindings (tidy.live owns) ?_).1
    rintro (rfl | ⟨owner, own, again⟩)
    · exact apart owns
    · exact other (tidy.single owns again ▸ own)

end

/-! ## Searches -/

/-- A search has the same result in both heaps, and what it finds is the same. -/
def SameFinding (search : Heap → Except Stale (Option BindingId)) (before after : Heap) : Prop :=
  search after = search before
    ∧ ∀ id, search before = .ok (some id) → after.bindings.get? id = before.bindings.get? id

private theorem Untouched.sameFinding {owner : ScopeId} {heap after : Heap} (same : Untouched owner heap after)
    (name : String) : SameFinding (·.findImmediate owner name) heap after :=
  ⟨same.findImmediate, fun id found => same.own id (findImmediate_owns found)⟩

section

variable {heap after : Heap} {name : String}

/-- A search along scopes that have not changed goes the same way. -/
theorem findWithin_congr {levels : Nat} {scope : ScopeId}
    (same : ∀ level, Relation.ReflTransGen heap.Inherits scope level → Untouched level heap after) :
    after.findWithin name levels scope = heap.findWithin name levels scope := by
  induction levels generalizing scope with
  | zero => rfl
  | succ levels ih =>
    have here := same scope .refl
    simp only [findWithin, here.findImmediate, Heap.scope, here.scope]
    cases there : heap.scopes.get? scope with
    | none => rfl
    | some found =>
      cases up : found.parent with
      | none => simp only [up]
      | some parent =>
        have higher := ih fun level climbs => same level (.head ⟨found, there, up⟩ climbs)
        simp only [up, higher]

/-- What a search finds belongs to one of the scopes on its way. -/
theorem owns_of_findWithin {levels : Nat} {scope : ScopeId} {id : BindingId}
    (found : heap.findWithin name levels scope = .ok (some id)) :
    ∃ level, Relation.ReflTransGen heap.Inherits scope level ∧ heap.Owns level id := by
  induction levels generalizing scope with
  | zero => cases found
  | succ levels ih =>
    unfold findWithin at found
    split at found
    · cases found
    · next finds =>
      cases found
      exact ⟨scope, .refl, findImmediate_owns finds⟩
    · split at found
      · cases found
      · next level reads =>
        split at found
        · cases found
        · next parent up =>
          obtain ⟨last, climbs, owns⟩ := ih found
          exact ⟨last, .head ⟨level, scope_eq_ok.mp reads, up⟩ climbs, owns⟩

private theorem sameFinding_findInherited {scope : ScopeId}
    (same : ∀ level, Relation.ReflTransGen heap.Inherits scope level → Untouched level heap after) :
    SameFinding (·.findInherited scope name) heap after := by
  refine ⟨findInherited_congr fun levels => findWithin_congr same, fun id found => ?_⟩
  obtain ⟨level, climbs, owns⟩ := owns_of_findWithin found
  exact (same level climbs).own id owns

end

/-! ## Independence -/

/-- No scope that the given one inherits from is that of the object, or owns the object. -/
def Clear (heap : Heap) (object : BindingId) (place : Option ScopeId) (scope : ScopeId) : Prop :=
  ∀ level, Relation.TransGen heap.Inherits scope level → level ∉ place ∧ ¬ heap.Owns level object

/-- Whatever is done to the object, the binding has its value, and names lead to the same attributes of
it, with the same values. The same holds for what its scope inherits, if nothing of that belongs to the
object. -/
def Independent (heap : Heap) (object : BindingId) (place : Option ScopeId) (id : BindingId) : Prop :=
  ∀ later, Alterations object place heap later →
    later.bindings.get? id = heap.bindings.get? id
      ∧ ∀ scope, heap.Refers id scope → ∀ name,
        SameFinding (·.findImmediate scope name) heap later
          ∧ (heap.Clear object place scope → SameFinding (·.findInherited scope name) heap later)

theorem independent_of_apart {heap : Heap} {object id : BindingId} {place : Option ScopeId} (tidy : heap.Tidy)
    (live : heap.Live id) (apart : ¬ heap.Part object place id)
    (other : ∀ scope, heap.Refers id scope → scope ∉ place ∧ ¬ heap.Owns scope object) :
    heap.Independent object place id := by
  intro later alterations
  have spares := spares_of_alterations alterations
  refine ⟨(spares.bindings live apart).1, fun scope refers name => ?_⟩
  obtain ⟨elsewhere, free⟩ := other scope refers
  have own := spares.untouched tidy elsewhere free
  refine ⟨own.sameFinding name, fun clear => sameFinding_findInherited fun level climbs => ?_⟩
  obtain rfl | above := Relation.reflTransGen_iff_eq_or_transGen.mp climbs
  · exact own
  · obtain ⟨elsewhere, free⟩ := clear level above
    exact spares.untouched tidy elsewhere free

end ScopeMachine.Heap
