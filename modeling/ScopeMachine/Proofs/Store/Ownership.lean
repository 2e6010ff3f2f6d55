import ScopeMachine.Proofs.Store.Arena

set_option autoImplicit false

/-!
# Ownership

What is live in a heap, which scope owns a binding, and which scope a binding refers to, with what
every operation of the heap does to these. A heap is tidy when whatever a scope owns is live and has
no other owner; then a name is looked up without a fault in every live scope. Every operation keeps
a heap tidy, as long as what is freed by itself has no owner.
-/

namespace ScopeMachine.Heap

/-! ## Relations -/

/-- The binding is there. -/
def Live (heap : Heap) (id : BindingId) : Prop :=
  ∃ binding, heap.bindings.get? id = some binding

/-- The scope is there. -/
def LiveScope (heap : Heap) (id : ScopeId) : Prop :=
  ∃ scope, heap.scopes.get? id = some scope

/-- The scope is there and lists the binding as its own. -/
def Owns (heap : Heap) (owner : ScopeId) (id : BindingId) : Prop :=
  ∃ scope, heap.scopes.get? owner = some scope ∧ id ∈ scope.own.toList

/-- The binding is there and has its attributes in the scope. -/
def Refers (heap : Heap) (id : BindingId) (scope : ScopeId) : Prop :=
  ∃ binding, heap.bindings.get? id = some binding ∧ binding.scope = some scope

def scopeOf (heap : Heap) (id : BindingId) : Option ScopeId :=
  (heap.bindings.get? id).bind (·.scope)

/-- A scope for attributes: it outlives the block that made it and inherits nothing. -/
def Lasting (heap : Heap) (id : ScopeId) : Prop :=
  ∃ scope, heap.scopes.get? id = some scope ∧ scope.durable = true ∧ scope.parent = none

/-- A scope that goes with its block. -/
def Fleeting (heap : Heap) (id : ScopeId) : Prop :=
  ∃ scope, heap.scopes.get? id = some scope ∧ scope.durable = false

/-- Scopes own live bindings, each once, and no binding has two owners. -/
structure Tidy (heap : Heap) : Prop where
  live : ∀ {owner id}, heap.Owns owner id → heap.Live id
  nodup : ∀ {owner scope}, heap.scopes.get? owner = some scope → scope.own.toList.Nodup
  single : ∀ {owner other id}, heap.Owns owner id → heap.Owns other id → owner = other

section

variable {heap : Heap} {id : BindingId} {owner scope other : ScopeId}

theorem scopeOf_eq_some : heap.scopeOf id = some scope ↔ heap.Refers id scope := by
  simp [scopeOf, Refers, Option.bind_eq_some_iff]

theorem Refers.live (refers : heap.Refers id scope) : heap.Live id := by
  obtain ⟨binding, found, -⟩ := refers
  exact ⟨binding, found⟩

theorem Refers.unique (refers : heap.Refers id scope) (again : heap.Refers id other) :
    scope = other := by
  obtain ⟨binding, found, first⟩ := refers
  obtain ⟨_, same, second⟩ := again
  rw [found] at same
  cases same
  exact Option.some.inj (first.symm.trans second)

theorem Owns.liveScope (owns : heap.Owns owner id) : heap.LiveScope owner := by
  obtain ⟨scope, found, -⟩ := owns
  exact ⟨scope, found⟩

theorem Lasting.liveScope (lasting : heap.Lasting scope) : heap.LiveScope scope := by
  obtain ⟨found, there, -⟩ := lasting
  exact ⟨found, there⟩

theorem Fleeting.liveScope (fleeting : heap.Fleeting scope) : heap.LiveScope scope := by
  obtain ⟨found, there, -⟩ := fleeting
  exact ⟨found, there⟩

theorem Lasting.not_fleeting (lasting : heap.Lasting scope) : ¬ heap.Fleeting scope := by
  rintro ⟨_, again, fleeting⟩
  obtain ⟨found, there, durable, -⟩ := lasting
  rw [there] at again
  cases again
  rw [durable] at fleeting
  cases fleeting

theorem binding_of_live (live : heap.Live id) :
    ∃ binding, heap.binding id = .ok binding ∧ heap.bindings.get? id = some binding := by
  obtain ⟨binding, found⟩ := live
  exact ⟨binding, by simp [Heap.binding, found], found⟩

theorem scope_eq_ok {found : Scope} :
    heap.scope scope = .ok found ↔ heap.scopes.get? scope = some found := by
  unfold Heap.scope
  split <;> simp_all

theorem scope_of_live (live : heap.LiveScope scope) :
    ∃ found, heap.scope scope = .ok found ∧ heap.scopes.get? scope = some found := by
  obtain ⟨found, there⟩ := live
  exact ⟨found, by simp [Heap.scope, there], there⟩

theorem scope_of_dead (dead : ¬ heap.LiveScope scope) : heap.scope scope = .error (.scope scope) := by
  unfold Heap.scope
  split
  · next found there => exact absurd ⟨found, there⟩ dead
  · rfl

end

/-! ## Names -/

section

variable {heap : Heap}

/-- Among live bindings the search for a name does not fail. -/
theorem findAmong_of_live (name : String) {ids : List BindingId} (live : ∀ id ∈ ids, heap.Live id) :
    ∃ found, heap.findAmong name ids = .ok found ∧ ∀ id ∈ found, id ∈ ids := by
  induction ids with
  | nil => exact ⟨none, rfl, by simp⟩
  | cons first rest ih =>
    obtain ⟨binding, there, -⟩ := binding_of_live (live first (.head _))
    obtain ⟨found, later, member⟩ := ih fun id inside => live id (.tail _ inside)
    simp only [findAmong, there]
    split
    · exact ⟨some first, rfl, by simp⟩
    · exact ⟨found, later, fun id held => .tail _ (member id held)⟩

/-- The search at one level finds what the scope owns, and fails only if the scope is stale. -/
theorem Tidy.findImmediate (tidy : heap.Tidy) (owner : ScopeId) (name : String) :
    (∃ found, heap.findImmediate owner name = .ok found ∧ ∀ id ∈ found, heap.Owns owner id)
      ∨ heap.findImmediate owner name = .error (.scope owner) ∧ ¬ heap.LiveScope owner := by
  by_cases live : heap.LiveScope owner
  · obtain ⟨scope, reads, there⟩ := scope_of_live live
    obtain ⟨found, finds, member⟩ := findAmong_of_live name
      fun id inside => tidy.live ⟨scope, there, inside⟩
    refine .inl ⟨found, ?_, fun id held => ⟨scope, there, member id held⟩⟩
    rw [Heap.findImmediate, reads]
    exact finds
  · refine .inr ⟨?_, live⟩
    rw [Heap.findImmediate, scope_of_dead live]

/-- A scope that inherits nothing is searched at one level, however many are allowed. -/
theorem findWithin_eq {owner : ScopeId} (level : heap.Lasting owner ∨ ¬ heap.LiveScope owner)
    (name : String) (levels : Nat) :
    heap.findWithin name (levels + 1) owner = heap.findImmediate owner name := by
  unfold findWithin
  obtain ⟨scope, there, -, top⟩ | dead := level
  · have reads : heap.scope owner = .ok scope := by simp [Heap.scope, there]
    simp only [reads, top]
    split <;> simp_all
  · have fails : heap.findImmediate owner name = .error (.scope owner) := by
      rw [Heap.findImmediate, scope_of_dead dead]
    rw [fails]

theorem findInherited_eq {owner : ScopeId} (level : heap.Lasting owner ∨ ¬ heap.LiveScope owner)
    (name : String) : heap.findInherited owner name = heap.findImmediate owner name :=
  findWithin_eq level name _

end

/-! ## Allocation -/

section

variable (heap : Heap) (binding : Binding)

theorem scopes_allocate : (heap.allocate binding).2.scopes = heap.scopes :=
  rfl

theorem get?_allocate (id : BindingId) :
    (heap.allocate binding).2.bindings.get? id
      = if id = (heap.allocate binding).1 then some binding else heap.bindings.get? id :=
  heap.bindings.get?_allocate binding id

theorem not_live_allocate : ¬ heap.Live (heap.allocate binding).1 := by
  rintro ⟨found, there⟩
  have none : heap.bindings.get? (heap.allocate binding).1 = Option.none :=
    heap.bindings.get?_allocate_fresh binding
  rw [none] at there
  cases there

variable {heap binding}

theorem get?_allocate_of_live {id : BindingId} (live : heap.Live id) :
    (heap.allocate binding).2.bindings.get? id = heap.bindings.get? id := by
  rw [get?_allocate, if_neg]
  rintro rfl
  exact heap.not_live_allocate binding live

theorem live_allocate {id : BindingId} :
    (heap.allocate binding).2.Live id ↔ id = (heap.allocate binding).1 ∨ heap.Live id := by
  unfold Live
  rw [get?_allocate]
  split
  · next same => simp [same]
  · next other => simp [other]

theorem refers_allocate {id : BindingId} {scope : ScopeId} :
    (heap.allocate binding).2.Refers id scope
      ↔ id = (heap.allocate binding).1 ∧ binding.scope = some scope ∨ heap.Refers id scope := by
  constructor
  · rintro ⟨found, there, refers⟩
    rw [get?_allocate] at there
    split at there
    · next same =>
      cases there
      exact .inl ⟨same, refers⟩
    · exact .inr ⟨found, there, refers⟩
  · rintro (⟨rfl, refers⟩ | refers)
    · exact ⟨binding, by rw [get?_allocate, if_pos rfl], refers⟩
    · have live := refers.live
      obtain ⟨found, there, refers⟩ := refers
      exact ⟨found, by rw [get?_allocate_of_live live, there], refers⟩

end

section

variable (heap : Heap) (scope : Scope)

theorem get?_allocateScope (id : ScopeId) :
    (heap.allocateScope scope).2.scopes.get? id
      = if id = (heap.allocateScope scope).1 then some scope else heap.scopes.get? id :=
  heap.scopes.get?_allocate scope id

theorem not_live_allocateScope : ¬ heap.LiveScope (heap.allocateScope scope).1 := by
  rintro ⟨found, there⟩
  have none : heap.scopes.get? (heap.allocateScope scope).1 = Option.none :=
    heap.scopes.get?_allocate_fresh scope
  rw [none] at there
  cases there

variable {heap scope}

theorem get?_allocateScope_of_live {id : ScopeId} (live : heap.LiveScope id) :
    (heap.allocateScope scope).2.scopes.get? id = heap.scopes.get? id := by
  rw [get?_allocateScope, if_neg]
  rintro rfl
  exact heap.not_live_allocateScope scope live

theorem liveScope_allocateScope {id : ScopeId} :
    (heap.allocateScope scope).2.LiveScope id
      ↔ id = (heap.allocateScope scope).1 ∨ heap.LiveScope id := by
  unfold LiveScope
  rw [get?_allocateScope]
  split
  · next same => simp [same]
  · next other => simp [other]

/-- A new scope owns nothing. -/
theorem owns_allocateScope (empty : scope.own = #[]) {owner : ScopeId} {id : BindingId} :
    (heap.allocateScope scope).2.Owns owner id ↔ heap.Owns owner id := by
  unfold Owns
  rw [get?_allocateScope]
  split
  · next same =>
    subst same
    refine ⟨?_, fun owns => absurd (Owns.liveScope owns) (heap.not_live_allocateScope scope)⟩
    rintro ⟨_, ⟨rfl⟩, member⟩
    simp [empty] at member
  · exact .rfl

end

/-! ## Changes -/

section

variable {heap : Heap} {id : BindingId} {f : Binding → Binding}

theorem live_modifyBinding {other : BindingId} :
    (heap.modifyBinding id f).Live other ↔ heap.Live other := by
  unfold Live modifyBinding
  dsimp only
  rw [Arena.get?_modify]
  split
  · cases heap.bindings.get? other <;> simp
  · exact .rfl

theorem get?_modifyBinding_ne {other : BindingId} (ne : other ≠ id) :
    (heap.modifyBinding id f).bindings.get? other = heap.bindings.get? other := by
  unfold modifyBinding
  dsimp only
  rw [Arena.get?_modify, if_neg ne]

theorem Refers.of_modifyBinding {other : BindingId} {scope : ScopeId}
    (refers : (heap.modifyBinding id f).Refers other scope) :
    (∃ binding, heap.bindings.get? id = some binding ∧ (f binding).scope = some scope ∧ other = id)
      ∨ heap.Refers other scope := by
  obtain ⟨found, there, refers⟩ := refers
  by_cases same : other = id
  · subst same
    unfold modifyBinding at there
    dsimp only at there
    rw [Arena.get?_modify, if_pos rfl] at there
    obtain ⟨binding, before, rfl⟩ := Option.map_eq_some_iff.mp there
    exact .inl ⟨binding, before, refers, rfl⟩
  · rw [get?_modifyBinding_ne same] at there
    exact .inr ⟨found, there, refers⟩

end

section

variable {heap : Heap} {owner : ScopeId} {id : BindingId}

theorem get?_adopt (other : ScopeId) :
    (heap.adopt owner id).scopes.get? other
      = if other = owner then
          (heap.scopes.get? other).map fun scope => { scope with own := scope.own.push id }
        else heap.scopes.get? other :=
  heap.scopes.get?_modify owner other _

theorem owns_adopt {other : ScopeId} {held : BindingId} :
    (heap.adopt owner id).Owns other held
      ↔ heap.Owns other held ∨ other = owner ∧ held = id ∧ heap.LiveScope owner := by
  unfold Owns LiveScope
  rw [get?_adopt]
  split
  · next same =>
    subst same
    cases heap.scopes.get? other with
    | none => simp
    | some scope => simp
  · next ne => simp [ne]

/-- Adoption changes nothing of a scope but what it owns. -/
theorem get?_adopt_of_some {other : ScopeId} {scope : Scope}
    (there : heap.scopes.get? other = some scope) :
    ∃ larger, (heap.adopt owner id).scopes.get? other = some larger
      ∧ larger.durable = scope.durable ∧ larger.parent = scope.parent := by
  rw [get?_adopt]
  split
  · rw [there]
    exact ⟨_, rfl, rfl, rfl⟩
  · exact ⟨scope, there, rfl, rfl⟩

theorem liveScope_adopt {other : ScopeId} :
    (heap.adopt owner id).LiveScope other ↔ heap.LiveScope other := by
  unfold LiveScope
  rw [get?_adopt]
  split
  · cases heap.scopes.get? other <;> simp
  · exact .rfl

end

/-! ## Release -/

section

variable {heap : Heap}

theorem scopes_freeBinding (id : BindingId) : (heap.freeBinding id).2.scopes = heap.scopes :=
  rfl

theorem get?_freeBinding (id other : BindingId) :
    (heap.freeBinding id).2.bindings.get? other
      = if other = id then none else heap.bindings.get? other :=
  heap.bindings.get?_free id other

/-- Freeing bindings one after the other leaves the scopes and all other bindings. -/
theorem freeBindings_spec (ids : List BindingId) (count : Nat) (heap : Heap) :
    (ids.foldl (fun (freed, heap) id =>
        let (found, heap) := heap.freeBinding id
        (if found then freed + 1 else freed, heap)) (count, heap)).2.scopes = heap.scopes
      ∧ ∀ other, (ids.foldl (fun (freed, heap) id =>
        let (found, heap) := heap.freeBinding id
        (if found then freed + 1 else freed, heap)) (count, heap)).2.bindings.get? other
          = if other ∈ ids then none else heap.bindings.get? other := by
  induction ids generalizing heap count with
  | nil => exact ⟨rfl, fun other => by simp⟩
  | cons id rest ih =>
    rw [List.foldl_cons]
    obtain ⟨scopes, bindings⟩ := ih
      (if (heap.freeBinding id).1 then count + 1 else count) (heap.freeBinding id).2
    refine ⟨scopes, fun other => (bindings other).trans ?_⟩
    rw [get?_freeBinding]
    by_cases first : other = id <;> by_cases later : other ∈ rest <;> simp [first, later]

/-- The scope is gone with all that it owned, and the rest of the heap is still there. -/
structure Loses (heap : Heap) (owner : ScopeId) (after : Heap) : Prop where
  passed : after.scopes.generation owner.index = owner.generation + 1
  others : ∀ {index}, index ≠ owner.index →
    after.scopes.generation index = heap.scopes.generation index
  scopes : ∀ other, after.scopes.get? other = if other = owner then none else heap.scopes.get? other
  owned : ∀ {id}, heap.Owns owner id → after.bindings.get? id = none
  kept : ∀ {id}, ¬ heap.Owns owner id → after.bindings.get? id = heap.bindings.get? id

theorem freeScope_of_live {owner : ScopeId} (live : heap.LiveScope owner) :
    ∃ count after, heap.freeScope owner = (.ok count, after) ∧ heap.Loses owner after := by
  obtain ⟨scope, there⟩ := live
  obtain ⟨bindings, scopes⟩ := heap
  have freed : (scopes.free owner).1 = some scope := by rw [Arena.free_fst]; exact there
  have kept := scopes.get?_free owner
  have passed := scopes.generation_free there
  simp only [freeScope]
  generalize scopes.free owner = result at freed kept passed ⊢
  obtain ⟨found, left⟩ := result
  cases freed
  obtain ⟨same, gone⟩ := freeBindings_spec scope.own.toList 0 ⟨bindings, left⟩
  refine ⟨_, _, rfl, ?_, fun {index} ne => ?_, fun other => ?_, fun {id} owns => ?_,
    fun {id} free => ?_⟩
  · exact (congrArg (Arena.generation · owner.index) same).trans
      ((passed owner.index).trans (if_pos rfl))
  · exact (congrArg (Arena.generation · index) same).trans ((passed index).trans (if_neg ne))
  · exact (congrArg (Arena.get? · other) same).trans (kept other)
  · obtain ⟨_, again, member⟩ := owns
    cases there.symm.trans again
    exact (gone id).trans (if_pos member)
  · exact (gone id).trans (if_neg fun member => free ⟨scope, there, member⟩)

theorem freeScope_of_dead {owner : ScopeId} (dead : ¬ heap.LiveScope owner) :
    heap.freeScope owner = (.error (.scope owner), heap) := by
  obtain ⟨bindings, scopes⟩ := heap
  have none : scopes.get? owner = none := by
    cases found : scopes.get? owner with
    | none => rfl
    | some scope => exact absurd ⟨scope, found⟩ dead
  simp [freeScope, Arena.free, none]

/-- A scope that goes with its block is freed when it is released. -/
theorem releaseScope_of_fleeting {owner : ScopeId} (fleeting : heap.Fleeting owner) :
    ∃ count after, heap.releaseScope owner = (.ok count, after) ∧ heap.Loses owner after := by
  obtain ⟨count, after, frees, loses⟩ := freeScope_of_live fleeting.liveScope
  obtain ⟨scope, there, brief⟩ := fleeting
  refine ⟨count, after, ?_, loses⟩
  simp [releaseScope, Heap.scope, there, brief, frees]

namespace Loses

variable {owner : ScopeId} {after : Heap} (loses : heap.Loses owner after)

include loses

theorem get?_of_ne {other : ScopeId} (ne : other ≠ owner) :
    after.scopes.get? other = heap.scopes.get? other := by
  rw [loses.scopes, if_neg ne]

theorem not_liveScope : ¬ after.LiveScope owner := by
  rintro ⟨scope, there⟩
  rw [loses.scopes, if_pos rfl] at there
  cases there

theorem liveScope_before {other : ScopeId} (live : after.LiveScope other) :
    other ≠ owner ∧ heap.LiveScope other := by
  have ne : other ≠ owner := by
    rintro rfl
    exact loses.not_liveScope live
  obtain ⟨scope, there⟩ := live
  rw [loses.get?_of_ne ne] at there
  exact ⟨ne, scope, there⟩

theorem owns_before {other : ScopeId} {id : BindingId} (owns : after.Owns other id) :
    other ≠ owner ∧ heap.Owns other id := by
  obtain ⟨ne, -⟩ := loses.liveScope_before owns.liveScope
  obtain ⟨scope, there, member⟩ := owns
  rw [loses.get?_of_ne ne] at there
  exact ⟨ne, scope, there, member⟩

theorem live {id : BindingId} (live : heap.Live id) (free : ¬ heap.Owns owner id) :
    after.Live id := by
  obtain ⟨binding, there⟩ := live
  exact ⟨binding, by rw [loses.kept free, there]⟩

theorem refers_before {id : BindingId} {scope : ScopeId} (refers : after.Refers id scope) :
    ¬ heap.Owns owner id ∧ heap.Refers id scope := by
  obtain ⟨binding, there, refers⟩ := refers
  have free : ¬ heap.Owns owner id := by
    intro owns
    rw [loses.owned owns] at there
    cases there
  rw [loses.kept free] at there
  exact ⟨free, binding, there, refers⟩

theorem lasting {scope : ScopeId} (lasting : heap.Lasting scope) (ne : scope ≠ owner) :
    after.Lasting scope := by
  unfold Lasting
  rwa [loses.get?_of_ne ne]

theorem fleeting {scope : ScopeId} (fleeting : heap.Fleeting scope) (ne : scope ≠ owner) :
    after.Fleeting scope := by
  unfold Fleeting
  rwa [loses.get?_of_ne ne]

end Loses

theorem live_freeBinding {id other : BindingId} (live : heap.Live other) (ne : other ≠ id) :
    (heap.freeBinding id).2.Live other := by
  obtain ⟨binding, there⟩ := live
  exact ⟨binding, by rw [get?_freeBinding, if_neg ne, there]⟩

end

/-! ## Tidy heaps -/

section

variable {heap : Heap}

def declared (heap : Heap) (owner : ScopeId) (binding : Binding) : Heap :=
  (heap.allocate binding).2.adopt owner (heap.allocate binding).1

theorem declare_of_live {owner : ScopeId} (live : heap.LiveScope owner) (binding : Binding) :
    heap.declare owner binding = (.ok (heap.allocate binding).1, heap.declared owner binding) := by
  obtain ⟨scope, there⟩ := live
  have contains : heap.scopes.contains owner = true := by simp [Arena.contains, there]
  rw [declare, if_pos contains]
  rfl

theorem declare_of_dead {owner : ScopeId} (dead : ¬ heap.LiveScope owner) (binding : Binding) :
    heap.declare owner binding = (.error (.scope owner), heap) := by
  have missing : ¬ heap.scopes.contains owner = true := by
    intro contains
    obtain ⟨scope, there⟩ := Option.isSome_iff_exists.mp contains
    exact dead ⟨scope, there⟩
  rw [declare, if_neg missing]

namespace Tidy

variable (tidy : heap.Tidy)

include tidy

theorem allocate (binding : Binding) : (heap.allocate binding).2.Tidy :=
  ⟨fun owns => live_allocate.mpr (.inr (tidy.live owns)), tidy.nodup, tidy.single⟩

theorem not_owns_allocate (binding : Binding) (owner : ScopeId) :
    ¬ heap.Owns owner (heap.allocate binding).1 :=
  fun owns => heap.not_live_allocate binding (tidy.live owns)

theorem modifyBinding (id : BindingId) (f : Binding → Binding) : (heap.modifyBinding id f).Tidy :=
  ⟨fun owns => live_modifyBinding.mpr (tidy.live owns), tidy.nodup, tidy.single⟩

theorem declared (owner : ScopeId) (binding : Binding) : (heap.declared owner binding).Tidy := by
  have allocated := tidy.allocate binding
  have unowned := tidy.not_owns_allocate binding
  refine ⟨fun owns => ?_, fun {other scope} there => ?_, fun {first second id} owns again => ?_⟩
  · obtain owns | ⟨-, rfl, -⟩ := owns_adopt.mp owns
    · exact allocated.live owns
    · exact live_allocate.mpr (.inl rfl)
  · unfold Heap.declared at there
    rw [get?_adopt] at there
    split at there
    · obtain ⟨scope, found, rfl⟩ := Option.map_eq_some_iff.mp there
      have once := allocated.nodup found
      have absent : (heap.allocate binding).1 ∉ scope.own.toList :=
        fun member => unowned other ⟨scope, found, member⟩
      simp only [Array.toList_push]
      exact List.nodup_append.mpr ⟨once, by simp, by
        rintro held inside _ (_ | ⟨_, ⟨⟩⟩) rfl
        exact absent inside⟩
    · exact allocated.nodup there
  · obtain owns | ⟨rfl, rfl, -⟩ := owns_adopt.mp owns
    · obtain again | ⟨-, rfl, -⟩ := owns_adopt.mp again
      · exact allocated.single owns again
      · exact absurd owns (unowned first)
    · obtain again | ⟨rfl, -, -⟩ := owns_adopt.mp again
      · exact absurd again (unowned second)
      · rfl

theorem allocateScope {scope : Scope} (empty : scope.own = #[]) :
    (heap.allocateScope scope).2.Tidy := by
  refine ⟨fun owns => tidy.live ((owns_allocateScope empty).mp owns), fun {owner stored} there => ?_,
    fun owns again => tidy.single ((owns_allocateScope empty).mp owns)
      ((owns_allocateScope empty).mp again)⟩
  rw [get?_allocateScope] at there
  split at there
  · cases there
    simp [empty]
  · exact tidy.nodup there

theorem loses {owner : ScopeId} {after : Heap} (loses : heap.Loses owner after) : after.Tidy := by
  refine ⟨fun owns => ?_, fun {other scope} there => ?_, fun owns again => ?_⟩
  · obtain ⟨ne, owns⟩ := loses.owns_before owns
    exact loses.live (tidy.live owns) fun held => ne (tidy.single owns held)
  · obtain ⟨ne, -⟩ := loses.liveScope_before ⟨scope, there⟩
    rw [loses.get?_of_ne ne] at there
    exact tidy.nodup there
  · exact tidy.single (loses.owns_before owns).2 (loses.owns_before again).2

theorem freeBinding {id : BindingId} (unowned : ∀ owner, ¬ heap.Owns owner id) :
    (heap.freeBinding id).2.Tidy := by
  refine ⟨fun owns => live_freeBinding (tidy.live owns) ?_, tidy.nodup, tidy.single⟩
  rintro rfl
  exact unowned _ owns

end Tidy

end

end ScopeMachine.Heap
