import ScopeMachine.Proofs.Store.Ownership

set_option autoImplicit false

/-!
# Provenance

Where the bindings of a heap come from. What a running machine stores is plain, or was made of
bindings that were stored before; the scope of its attributes was in use before, or was made for it.
-/

namespace ScopeMachine.Heap

/-! ## Sources -/

/-- Some handle leads to the binding. -/
def Stored (heap : Heap) (value : Binding) : Prop :=
  ∃ id, heap.bindings.get? id = some value

/-- Some binding has its attributes in the scope. -/
def Serves (heap : Heap) (scope : ScopeId) : Prop :=
  ∃ id, heap.Refers id scope

/-- A scope that attributes can be put into. It outlives the block that made it, and its parent, if it
has one, is also the parent of attributes in use. -/
def Suitable (heap : Heap) (scope : ScopeId) : Prop :=
  ∃ found, heap.scopes.get? scope = some found ∧ found.durable = true
    ∧ ∀ parent, found.parent = some parent →
      ∃ other used, heap.Serves other ∧ heap.scopes.get? other = some used
        ∧ used.parent = some parent

/-- A binding that may be stored next. Only where scopes are made does it get attributes that no
binding had before. -/
inductive Drawn (heap : Heap) (grows : Prop) : Binding → Prop where
  | plain {value : Binding} (scope : value.scope = none) (body : value.body = 0)
      (tag : value.tag = value.payload.tag) (constant : value.constant = false) :
      Drawn heap grows value
  | copy {source : Binding} (name : Option String) (stored : heap.Stored source) :
      Drawn heap grows { source with name, constant := false }
  | furnished {source : Binding} {scope : ScopeId} (allowed : grows) (stored : heap.Stored source)
      (suitable : heap.Suitable scope) :
      Drawn heap grows { source with scope := some scope, constant := false }
  | method {scope : ScopeId} (allowed : grows) (suitable : heap.Suitable scope) :
      Drawn heap grows { tag := .method, scope := some scope }

theorem Drawn.constant {heap : Heap} {grows : Prop} {value : Binding}
    (drawn : heap.Drawn grows value) : value.constant = false := by
  cases drawn with
  | plain _ _ _ constant => exact constant
  | copy | furnished | method => rfl

theorem Lasting.suitable {heap : Heap} {scope : ScopeId} (lasting : heap.Lasting scope) :
    heap.Suitable scope := by
  obtain ⟨found, there, durable, top⟩ := lasting
  refine ⟨found, there, durable, fun parent has => ?_⟩
  rw [top] at has
  cases has

theorem Stored.serves {heap : Heap} {value : Binding} {scope : ScopeId} (stored : heap.Stored value)
    (refers : value.scope = some scope) : heap.Serves scope := by
  obtain ⟨id, found⟩ := stored
  exact ⟨id, value, found, refers⟩

/-! ## Copies -/

/-- A scope keeps its place among others, and the parameters of its method. -/
structure SameLevel (before after : Scope) : Prop where
  parent : after.parent = before.parent
  durable : after.durable = before.durable
  parameters : after.parameters = before.parameters

theorem SameLevel.refl (scope : Scope) : SameLevel scope scope :=
  ⟨rfl, rfl, rfl⟩

theorem SameLevel.trans {before middle after : Scope} (first : SameLevel before middle)
    (second : SameLevel middle after) : SameLevel before after :=
  ⟨second.parent.trans first.parent, second.durable.trans first.durable,
    second.parameters.trans first.parameters⟩

section

variable {heap : Heap} {scope : ScopeId}

theorem sameLevel_adopt {owner : ScopeId} {id : BindingId} {found : Scope}
    (there : heap.scopes.get? scope = some found) :
    ∃ larger, (heap.adopt owner id).scopes.get? scope = some larger ∧ SameLevel found larger := by
  rw [get?_adopt]
  split
  · rw [there]
    exact ⟨_, rfl, rfl, rfl, rfl⟩
  · exact ⟨found, there, .refl found⟩

theorem sameLevel_of_adopt {owner : ScopeId} {id : BindingId} {larger : Scope}
    (there : (heap.adopt owner id).scopes.get? scope = some larger) :
    ∃ found, heap.scopes.get? scope = some found ∧ SameLevel found larger := by
  rw [get?_adopt] at there
  split at there
  · obtain ⟨found, held, rfl⟩ := Option.map_eq_some_iff.mp there
    exact ⟨found, held, rfl, rfl, rfl⟩
  · exact ⟨larger, there, .refl larger⟩

theorem get?_of_binding {id : BindingId} {value : Binding} (reads : heap.binding id = .ok value) :
    heap.bindings.get? id = some value := by
  unfold Heap.binding at reads
  split at reads
  · cases reads
    assumption
  · cases reads

theorem Stored.of_allocate {binding value : Binding} (stored : (heap.allocate binding).2.Stored value) :
    heap.Stored value ∨ value = binding := by
  obtain ⟨id, found⟩ := stored
  rw [get?_allocate] at found
  split at found
  · cases found
    exact .inr rfl
  · exact .inl ⟨id, found⟩

/-- All bindings after copying into a scope were there, or are copies of some that were. -/
theorem Stored.of_copyInto (ids : List BindingId) (heap : Heap) {value : Binding}
    (stored : (copyInto scope ids heap).2.Stored value) :
    heap.Stored value ∨ ∃ source, heap.Stored source ∧ value = { source with constant := false } := by
  induction ids generalizing heap with
  | nil => exact .inl stored
  | cons first rest ih =>
    unfold copyInto at stored
    split at stored
    · exact .inl stored
    · next binding reads =>
      have copied : heap.Stored binding := ⟨first, get?_of_binding reads⟩
      have earlier {value : Binding} (stored : (heap.declared scope
          { binding with constant := false }).Stored value) :
          heap.Stored value ∨ value = { binding with constant := false } :=
        Stored.of_allocate stored
      obtain same | ⟨source, original, rfl⟩ := ih _ stored
      · obtain before | rfl := earlier same
        · exact .inl before
        · exact .inr ⟨binding, copied, rfl⟩
      · obtain before | rfl := earlier original
        · exact .inr ⟨source, before, rfl⟩
        · exact .inr ⟨binding, copied, rfl⟩

/-- Bindings that are there stay while others are copied. -/
theorem get?_copyInto (ids : List BindingId) (heap : Heap) {id : BindingId} {value : Binding}
    (found : heap.bindings.get? id = some value) :
    (copyInto scope ids heap).2.bindings.get? id = some value := by
  induction ids generalizing heap with
  | nil => exact found
  | cons first rest ih =>
    unfold copyInto
    split
    · exact found
    · exact ih _ ((get?_allocate_of_live ⟨value, found⟩).trans found)

private theorem scopes_copyInto (scope : ScopeId) (ids : List BindingId) (heap : Heap) {other : ScopeId} {found : Scope}
    (there : heap.scopes.get? other = some found) :
    ∃ larger, (copyInto scope ids heap).2.scopes.get? other = some larger
      ∧ SameLevel found larger := by
  induction ids generalizing heap found with
  | nil => exact ⟨found, there, .refl found⟩
  | cons first rest ih =>
    unfold copyInto
    split
    · exact ⟨found, there, .refl found⟩
    · next binding reads =>
      obtain ⟨larger, there, same⟩ : ∃ larger, ((heap.allocate
          { binding with constant := false }).2.adopt scope (heap.allocate
          { binding with constant := false }).1).scopes.get? other = some larger
          ∧ SameLevel found larger := sameLevel_adopt there
      obtain ⟨last, there, again⟩ := ih _ there
      exact ⟨last, there, same.trans again⟩

theorem copyScope_cases (heap : Heap) (source : ScopeId) :
    (∃ stale, heap.copyScope source = (.error stale, heap))
      ∨ ∃ found, heap.scopes.get? source = some found
        ∧ (heap.copyScope source).2 = (copyInto (heap.allocateScope
            { parent := found.parent, parameters := found.parameters, durable := true }).1
          found.own.toList (heap.allocateScope
            { parent := found.parent, parameters := found.parameters, durable := true }).2).2
        ∧ ∀ copy, (heap.copyScope source).1 = .ok copy → copy = (heap.allocateScope
            { parent := found.parent, parameters := found.parameters, durable := true }).1 := by
  unfold Heap.copyScope Heap.scope
  cases known : heap.scopes.get? source with
  | none => exact .inl ⟨_, rfl⟩
  | some found =>
    refine .inr ⟨found, rfl, ?_⟩
    dsimp only
    split
    · next same => exact ⟨by rw [same], fun copy made => by cases made; rfl⟩
    · next same => exact ⟨by rw [same], fun copy made => by cases made⟩

theorem Stored.of_copyScope {source : ScopeId} {value : Binding}
    (stored : (heap.copyScope source).2.Stored value) :
    heap.Stored value ∨ ∃ source, heap.Stored source ∧ value = { source with constant := false } := by
  obtain ⟨stale, fails⟩ | ⟨_, _, after, -⟩ := copyScope_cases heap source
  · rw [fails] at stored
    exact .inl stored
  · rw [after] at stored
    have copied := Stored.of_copyInto _ _ stored
    exact copied

theorem get?_copyScope {source : ScopeId} {id : BindingId} {value : Binding}
    (found : heap.bindings.get? id = some value) :
    (heap.copyScope source).2.bindings.get? id = some value := by
  obtain ⟨stale, fails⟩ | ⟨_, _, after, -⟩ := copyScope_cases heap source
  · rw [fails]
    exact found
  · rw [after]
    exact get?_copyInto _ _ found

theorem suitable_allocateScope {made : Scope} (durable : made.durable = true)
    (top : made.parent = none) :
    (heap.allocateScope made).2.Suitable (heap.allocateScope made).1 :=
  Lasting.suitable ⟨made, (get?_allocateScope _ _ _).trans (if_pos rfl), durable, top⟩

/-- The copy of a scope whose attributes are in use can be put to use. -/
theorem suitable_copyScope {source copy : ScopeId} (serves : heap.Serves source)
    (made : (heap.copyScope source).1 = .ok copy) : (heap.copyScope source).2.Suitable copy := by
  obtain ⟨stale, fails⟩ | ⟨found, there, after, names⟩ := copyScope_cases heap source
  · rw [fails] at made
    cases made
  · obtain rfl := names copy made
    rw [after]
    obtain ⟨larger, copied, parent, durable, -⟩ := scopes_copyInto (heap.allocateScope
        { parent := found.parent, parameters := found.parameters, durable := true }).1
      found.own.toList _ ((get?_allocateScope _ _ _).trans (if_pos rfl))
    refine ⟨larger, copied, durable, fun above has => ?_⟩
    obtain ⟨id, binding, stored, refers⟩ := serves
    obtain ⟨used, still, level, -⟩ := scopes_copyInto (heap.allocateScope
        { parent := found.parent, parameters := found.parameters, durable := true }).1
      found.own.toList (heap.allocateScope
        { parent := found.parent, parameters := found.parameters, durable := true }).2
      ((get?_allocateScope_of_live ⟨found, there⟩).trans there)
    refine ⟨source, used, ⟨id, binding, get?_copyInto _ _ stored, refers⟩, still, ?_⟩
    rw [level, ← has, parent]

/-- The copy of a scope has the same parameters. -/
theorem parameters_copyScope {source copy : ScopeId} (made : (heap.copyScope source).1 = .ok copy) :
    ∃ found copied, heap.scopes.get? source = some found
      ∧ (heap.copyScope source).2.scopes.get? copy = some copied
      ∧ copied.parameters = found.parameters := by
  obtain ⟨stale, fails⟩ | ⟨found, there, after, names⟩ := copyScope_cases heap source
  · rw [fails] at made
    cases made
  · obtain rfl := names copy made
    let made : Scope := { parent := found.parent, parameters := found.parameters, durable := true }
    have opened : (heap.allocateScope made).2.scopes.get? (heap.allocateScope made).1 = some made :=
      (get?_allocateScope _ _ _).trans (if_pos rfl)
    obtain ⟨larger, copied, same⟩ := scopes_copyInto (heap.allocateScope made).1 found.own.toList _ opened
    exact ⟨found, larger, there, after ▸ copied, same.parameters⟩

/-! ## Changes and releases -/

theorem Stored.of_modifyBinding {id : BindingId} {f : Binding → Binding} {value : Binding}
    (stored : (heap.modifyBinding id f).Stored value) :
    heap.Stored value ∨ ∃ source, heap.bindings.get? id = some source ∧ value = f source := by
  obtain ⟨other, found⟩ := stored
  rw [modifyBinding, Arena.get?_modify] at found
  split at found
  · next same =>
    cases known : heap.bindings.get? other with
    | none =>
      rw [known] at found
      cases found
    | some source =>
      rw [known] at found
      cases found
      exact .inr ⟨source, same ▸ known, rfl⟩
  · exact .inl ⟨other, found⟩

theorem Stored.of_declare {made value : Binding}
    (stored : (heap.declare scope made).2.Stored value) : heap.Stored value ∨ value = made := by
  by_cases live : heap.LiveScope scope
  · rw [declare_of_live live] at stored
    exact Stored.of_allocate stored
  · rw [declare_of_dead live] at stored
    exact .inl stored

theorem Stored.of_redeclare {made value : Binding}
    (stored : (heap.redeclare scope made).2.Stored value) : heap.Stored value ∨ value = made := by
  unfold Heap.redeclare at stored
  split at stored
  · exact Stored.of_declare stored
  · split at stored
    · exact .inl stored
    · exact (Stored.of_modifyBinding stored).imp_right fun ⟨_, _, same⟩ => same
    · exact Stored.of_declare stored

theorem freeScope_cases (heap : Heap) (owner : ScopeId) :
    (heap.freeScope owner).2 = heap
      ∨ heap.LiveScope owner ∧ heap.Loses owner (heap.freeScope owner).2 := by
  by_cases live : heap.LiveScope owner
  · obtain ⟨count, after, frees, loses⟩ := freeScope_of_live live
    rw [frees]
    exact .inr ⟨live, loses⟩
  · rw [freeScope_of_dead live]
    exact .inl rfl

theorem releaseScope_cases (heap : Heap) (owner : ScopeId) :
    (heap.releaseScope owner).2 = heap
      ∨ heap.LiveScope owner ∧ heap.Loses owner (heap.releaseScope owner).2 := by
  unfold Heap.releaseScope
  split
  · exact .inl rfl
  · split
    · exact .inl rfl
    · exact freeScope_cases heap owner

theorem Stored.of_loses {owner : ScopeId} {after : Heap} {value : Binding}
    (loses : heap.Loses owner after) (stored : after.Stored value) : heap.Stored value := by
  obtain ⟨id, found⟩ := stored
  by_cases owns : heap.Owns owner id
  · rw [loses.owned owns] at found
    cases found
  · exact ⟨id, (loses.kept owns).symm.trans found⟩

theorem Stored.of_freeBinding {id : BindingId} {value : Binding}
    (stored : (heap.freeBinding id).2.Stored value) : heap.Stored value := by
  obtain ⟨other, found⟩ := stored
  rw [get?_freeBinding] at found
  split at found
  · cases found
  · exact ⟨other, found⟩

end

end ScopeMachine.Heap
