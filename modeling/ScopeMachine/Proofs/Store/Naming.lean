import Mathlib.Data.List.Nodup
import ScopeMachine.Proofs.Store.Provenance

set_option autoImplicit false

/-!
# Names of scopes

What a scope declares under which name: the entries of a scope are the live bindings with a name in
its list of own bindings. A new handle is in no list, as long as every listed handle was given out;
then each change of the heap adds entries at the end, or takes some away.
-/

namespace ScopeMachine.Heap

/-! ## Entries -/

def nameOf (heap : Heap) (id : BindingId) : Option String :=
  (heap.bindings.get? id).bind (·.name)

def entry (id : BindingId) (name : Option String) : List (BindingId × String) :=
  (name.map (id, ·)).toList

/-- The named ones among some bindings, with their names. -/
def named (heap : Heap) (ids : List BindingId) : List (BindingId × String) :=
  ids.filterMap fun id => (heap.nameOf id).map (id, ·)

/-- The named bindings that a scope owns. -/
def entries (heap : Heap) (owner : ScopeId) : List (BindingId × String) :=
  match heap.scopes.get? owner with
  | some scope => heap.named scope.own.toList
  | none => []

/-- No scope owns two live bindings with the same name. -/
def NamesUnique (heap : Heap) : Prop :=
  ∀ owner first second name, heap.Owns owner first → heap.Owns owner second →
    heap.nameOf first = some name → heap.nameOf second = some name → first = second

/-- No scope lists a named binding twice. -/
def Once (heap : Heap) : Prop :=
  ∀ owner, ((heap.entries owner).map Prod.fst).Nodup

/-- No scope lists a name twice. -/
def Distinct (heap : Heap) : Prop :=
  ∀ owner, ((heap.entries owner).map Prod.snd).Nodup

/-- The handle was given out: its binding is there, or its slot was freed since. -/
def Dealt (heap : Heap) (id : BindingId) : Prop :=
  heap.Live id ∨ id.generation < heap.bindings.generation id.index

/-- All handles that scopes list were given out. -/
def Settled (heap : Heap) : Prop :=
  ∀ owner id, heap.Owns owner id → heap.Dealt id

section

variable {heap : Heap} {owner : ScopeId} {id : BindingId} {name : String}

private theorem mem_named {ids : List BindingId} :
    (id, name) ∈ heap.named ids ↔ id ∈ ids ∧ heap.nameOf id = some name := by
  simp only [named, List.mem_filterMap, Option.map_eq_some_iff, Prod.mk.injEq]
  constructor
  · rintro ⟨_, member, _, found, rfl, rfl⟩
    exact ⟨member, found⟩
  · rintro ⟨member, found⟩
    exact ⟨id, member, name, found, rfl, rfl⟩

theorem mem_entries : (id, name) ∈ heap.entries owner ↔ heap.Owns owner id ∧ heap.nameOf id = some name := by
  unfold entries Owns
  cases heap.scopes.get? owner with
  | none => simp
  | some scope => simp [mem_named]

private theorem eq_of_mem_entry {other : BindingId} {name : Option String}
    (member : other ∈ (entry id name).map Prod.fst) : other = id := by
  cases name <;> simp_all [entry]

private theorem nodup_entry (name : Option String) : ((entry id name).map Prod.fst).Nodup := by
  cases name <;> simp [entry]

private theorem names_entry (name : Option String) : (entry id name).map Prod.snd = name.toList := by
  cases name <;> rfl

private theorem entries_of_get? {scope : Scope} (found : heap.scopes.get? owner = some scope) :
    heap.entries owner = heap.named scope.own.toList := by
  simp [entries, found]

theorem entries_of_dead (dead : ¬ heap.LiveScope owner) : heap.entries owner = [] := by
  unfold entries
  split
  · next scope found => exact absurd ⟨scope, found⟩ dead
  · rfl

theorem live_of_nameOf (found : heap.nameOf id = some name) : heap.Live id := by
  obtain ⟨binding, there, -⟩ := Option.bind_eq_some_iff.mp found
  exact ⟨binding, there⟩

private theorem nameOf_of_dead (dead : ¬ heap.Live id) : heap.nameOf id = none := by
  cases found : heap.nameOf id with
  | none => rfl
  | some name => exact absurd (live_of_nameOf found) dead

private theorem named_congr {after : Heap} {ids : List BindingId}
    (same : ∀ id ∈ ids, after.nameOf id = heap.nameOf id) : after.named ids = heap.named ids :=
  List.filterMap_congr fun id member => by rw [same id member]

private theorem named_append (first second : List BindingId) :
    heap.named (first ++ second) = heap.named first ++ heap.named second :=
  List.filterMap_append

/-- Where no name is listed twice, names are unique. -/
theorem Distinct.unique (distinct : heap.Distinct) : heap.NamesUnique := by
  intro owner first second name owns again here there
  have inside := mem_entries.mpr ⟨owns, here⟩
  have inside' := mem_entries.mpr ⟨again, there⟩
  have same := List.inj_on_of_nodup_map (distinct owner) inside inside' rfl
  exact (Prod.mk.inj same).1

/-- Where no binding is listed twice and names are unique, no name is listed twice. -/
theorem Once.distinct (once : heap.Once) (unique : heap.NamesUnique) : heap.Distinct := by
  intro owner
  refine List.Nodup.map_on ?_ (once owner).of_map
  rintro ⟨first, name⟩ here ⟨second, _⟩ there rfl
  obtain ⟨owns, here⟩ := mem_entries.mp here
  obtain ⟨again, there⟩ := mem_entries.mp there
  rw [unique owner first second name owns again here there]

/-- In a tidy heap no binding is listed twice. -/
theorem Tidy.once (tidy : heap.Tidy) : heap.Once := by
  intro owner
  unfold entries
  split
  · next scope found =>
    have part : ((heap.named scope.own.toList).map Prod.fst).Sublist scope.own.toList := by
      generalize scope.own.toList = ids
      induction ids with
      | nil => exact .refl _
      | cons id rest ih =>
        simp only [named, List.filterMap_cons] at ih ⊢
        cases heap.nameOf id with
        | none => exact ih.cons _
        | some name => exact ih.cons_cons _
    exact (tidy.nodup found).sublist part
  · exact .nil

/-- The next handle to be given out was not given out before. -/
theorem not_dealt_allocate (heap : Heap) (binding : Binding) :
    ¬ heap.Dealt (heap.allocate binding).1 := by
  rintro (live | passed)
  · exact heap.not_live_allocate binding live
  · have there : (heap.allocate binding).2.bindings.get? (heap.allocate binding).1 = some binding :=
      (heap.get?_allocate binding _).trans (if_pos rfl)
    have same : heap.bindings.generation (heap.allocate binding).1.index
        = (heap.allocate binding).1.generation :=
      (heap.bindings.generation_allocate binding _).symm.trans (Arena.generation_of_get? _ there)
    rw [same] at passed
    exact UInt32.lt_irrefl _ passed

theorem Settled.not_owns_allocate (settled : heap.Settled) (binding : Binding) (owner : ScopeId) :
    ¬ heap.Owns owner (heap.allocate binding).1 :=
  fun owns => heap.not_dealt_allocate binding (settled owner _ owns)

end

/-! ## Changes that add entries -/

section

variable {heap : Heap} {binding : Binding}

private theorem nameOf_allocate (id : BindingId) :
    (heap.allocate binding).2.nameOf id
      = if id = (heap.allocate binding).1 then binding.name else heap.nameOf id := by
  unfold nameOf
  rw [get?_allocate]
  split <;> rfl

theorem Settled.entries_allocate (settled : heap.Settled) (owner : ScopeId) :
    (heap.allocate binding).2.entries owner = heap.entries owner := by
  unfold entries
  rw [scopes_allocate]
  split
  · next scope found =>
    refine named_congr fun id member => ?_
    rw [nameOf_allocate, if_neg]
    rintro rfl
    exact settled.not_owns_allocate binding owner ⟨scope, found, member⟩
  · rfl

private theorem entries_adopt {owner : ScopeId} {id : BindingId} (other : ScopeId) (live : heap.LiveScope owner) :
    (heap.adopt owner id).entries other
      = if other = owner then heap.entries other ++ heap.named [id] else heap.entries other := by
  by_cases same : other = owner
  · subst same
    obtain ⟨scope, found⟩ := live
    have larger : (heap.adopt other id).scopes.get? other
        = some { scope with own := scope.own.push id } := by
      rw [get?_adopt, if_pos rfl, found]
      rfl
    rw [if_pos rfl, entries_of_get? larger, entries_of_get? found, ← named_append, Array.toList_push]
    rfl
  · rw [if_neg same]
    unfold entries
    rw [get?_adopt, if_neg same]
    rfl

private theorem Settled.entries_declared (settled : heap.Settled) {owner : ScopeId} (live : heap.LiveScope owner)
    (other : ScopeId) :
    (heap.declared owner binding).entries other
      = if other = owner then
          heap.entries other ++ entry (heap.allocate binding).1 binding.name
        else heap.entries other := by
  have new : (heap.allocate binding).2.named [(heap.allocate binding).1]
      = entry (heap.allocate binding).1 binding.name := by
    simp only [named, entry, List.filterMap_cons, List.filterMap_nil, nameOf_allocate, if_pos]
    cases binding.name <;> rfl
  have there : (heap.allocate binding).2.LiveScope owner := live
  rw [declared, entries_adopt other there, settled.entries_allocate, new]

theorem entries_modifyBinding {changed : BindingId} {f : Binding → Binding}
    (keeps : ∀ value, heap.bindings.get? changed = some value → (f value).name = value.name)
    (owner : ScopeId) : (heap.modifyBinding changed f).entries owner = heap.entries owner := by
  have names (id : BindingId) : (heap.modifyBinding changed f).nameOf id = heap.nameOf id := by
    unfold nameOf modifyBinding
    dsimp only
    rw [Arena.get?_modify]
    split
    · next same =>
      subst same
      cases found : heap.bindings.get? id with
      | none => rfl
      | some value => exact keeps value found
    · rfl
  unfold entries
  rw [show (heap.modifyBinding changed f).scopes = heap.scopes from rfl]
  split
  · exact named_congr fun id _ => names id
  · rfl

theorem entries_allocateScope {scope : Scope} (empty : scope.own = #[]) (owner : ScopeId) :
    (heap.allocateScope scope).2.entries owner = heap.entries owner := by
  by_cases live : heap.LiveScope owner
  · unfold entries
    rw [get?_allocateScope_of_live live]
    rfl
  · rw [entries_of_dead live]
    unfold entries
    rw [get?_allocateScope]
    split
    · next scope found =>
      split at found
      · cases found
        simp [empty, named]
      · exact absurd ⟨scope, found⟩ live
    · rfl

end

/-! ## Searches -/

section

variable {heap : Heap} {owner : ScopeId} {name : String}

theorem nameOf_of_binding {id : BindingId} {value : Binding} (reads : heap.binding id = .ok value) :
    heap.nameOf id = value.name := by
  rw [nameOf, get?_of_binding reads]
  rfl

private theorem findAmong_none {ids : List BindingId} (searched : heap.findAmong name ids = .ok none) :
    ∀ id ∈ ids, heap.nameOf id ≠ some name := by
  induction ids with
  | nil => simp
  | cons first rest ih =>
    simp only [findAmong] at searched
    split at searched
    · cases searched
    · next value reads =>
      split at searched
      · cases searched
      · next other =>
        intro id member
        obtain rfl | member := List.mem_cons.mp member
        · rwa [nameOf_of_binding reads]
        · exact ih searched id member

private theorem findAmong_some {ids : List BindingId} {id : BindingId}
    (searched : heap.findAmong name ids = .ok (some id)) : heap.nameOf id = some name := by
  induction ids with
  | nil => cases searched
  | cons first rest ih =>
    simp only [findAmong] at searched
    split at searched
    · cases searched
    · next value reads =>
      split at searched
      · next same =>
        cases searched
        rw [nameOf_of_binding reads, same]
      · exact ih searched

theorem findImmediate_some {id : BindingId} (searched : heap.findImmediate owner name = .ok (some id)) :
    heap.nameOf id = some name := by
  unfold Heap.findImmediate at searched
  split at searched
  · cases searched
  · exact findAmong_some searched

/-- A name that is not found in a scope is none of its names. -/
theorem not_mem_of_findImmediate (searched : heap.findImmediate owner name = .ok none) :
    name ∉ (heap.entries owner).map Prod.snd := by
  unfold Heap.findImmediate at searched
  split at searched
  · cases searched
  · next scope reads =>
    have found : heap.scopes.get? owner = some scope := by
      unfold Heap.scope at reads
      split at reads
      · cases reads
        assumption
      · cases reads
    rw [entries_of_get? found, List.mem_map]
    rintro ⟨⟨id, _⟩, member, rfl⟩
    obtain ⟨member, has⟩ := mem_named.mp member
    exact findAmong_none searched id member has

end

/-! ## Changes that take entries away -/

/-- No scope has more entries than before. -/
def Trims (before after : Heap) : Prop :=
  ∀ owner, (after.entries owner).Sublist (before.entries owner)

section

variable {heap middle after : Heap}

theorem Trims.refl (heap : Heap) : Trims heap heap :=
  fun _ => .refl _

theorem Trims.trans (first : Trims heap middle) (second : Trims middle after) : Trims heap after :=
  fun owner => (second owner).trans (first owner)

theorem trims_of_eq (same : ∀ owner, after.entries owner = heap.entries owner) : Trims heap after :=
  fun owner => by rw [same owner]

theorem Once.trims (once : heap.Once) (trims : Trims heap after) : after.Once :=
  fun owner => (once owner).sublist ((trims owner).map Prod.fst)

theorem Distinct.trims (distinct : heap.Distinct) (trims : Trims heap after) : after.Distinct :=
  fun owner => (distinct owner).sublist ((trims owner).map Prod.snd)

/-- Bindings that lose their names take their entries with them. -/
theorem named_sublist (ids : List BindingId)
    (lost : ∀ id, after.nameOf id = none ∨ after.nameOf id = heap.nameOf id) :
    (after.named ids).Sublist (heap.named ids) := by
  induction ids with
  | nil => exact .refl _
  | cons id rest ih =>
    simp only [named, List.filterMap_cons] at ih ⊢
    obtain none | same := lost id
    · rw [none]
      cases heap.nameOf id with
      | none => exact ih
      | some name => exact ih.cons _
    · rw [same]
      cases heap.nameOf id with
      | none => exact ih
      | some name => exact ih.cons_cons _

theorem Loses.trims {owner : ScopeId} (loses : heap.Loses owner after) : Trims heap after := by
  intro other
  unfold entries
  rw [loses.scopes]
  split
  · next scope found =>
    split at found
    · cases found
    · rw [found]
      refine named_sublist _ fun id => ?_
      unfold nameOf
      by_cases owns : heap.Owns owner id
      · exact .inl (by rw [loses.owned owns]; rfl)
      · exact .inr (by rw [loses.kept owns])
  · exact List.nil_sublist _

theorem trims_freeScope (owner : ScopeId) : Trims heap (heap.freeScope owner).2 := by
  obtain same | ⟨-, loses⟩ := freeScope_cases heap owner
  · rw [same]
    exact .refl heap
  · exact loses.trims

theorem trims_releaseScope (owner : ScopeId) : Trims heap (heap.releaseScope owner).2 := by
  obtain same | ⟨-, loses⟩ := releaseScope_cases heap owner
  · rw [same]
    exact .refl heap
  · exact loses.trims

theorem trims_freeBinding (id : BindingId) : Trims heap (heap.freeBinding id).2 := by
  intro owner
  unfold entries
  rw [scopes_freeBinding]
  split
  · refine named_sublist _ fun other => ?_
    unfold nameOf
    rw [get?_freeBinding]
    split
    · exact .inl rfl
    · exact .inr rfl
  · exact .refl _

/-- A binding without a name adds no entry, whatever its handle was before. -/
theorem entries_allocate_unnamed {binding : Binding} (unnamed : binding.name = none) (owner : ScopeId) :
    (heap.allocate binding).2.entries owner = heap.entries owner := by
  have names (id : BindingId) : (heap.allocate binding).2.nameOf id = heap.nameOf id := by
    rw [nameOf_allocate]
    split
    · next same => rw [unnamed, same, nameOf_of_dead (heap.not_live_allocate binding)]
    · rfl
  unfold entries
  rw [scopes_allocate]
  split
  · exact named_congr fun id _ => names id
  · rfl

theorem entries_declare_unnamed {binding : Binding} (unnamed : binding.name = none)
    (scope owner : ScopeId) : (heap.declare scope binding).2.entries owner = heap.entries owner := by
  by_cases live : heap.LiveScope scope
  · have new : (heap.allocate binding).2.named [(heap.allocate binding).1] = [] := by
      simp [named, nameOf_allocate, unnamed]
    have there : (heap.allocate binding).2.LiveScope scope := live
    rw [declare_of_live live, declared, entries_adopt owner there, entries_allocate_unnamed unnamed,
      new, List.append_nil, ite_self]
  · rw [declare_of_dead live]

end

/-! ## Changes that free nothing -/

/-- Nothing was freed, and scopes list what they did and what is there. -/
structure Adds (before after : Heap) : Prop where
  generation : ∀ index, after.bindings.generation index = before.bindings.generation index
  live : ∀ {id}, before.Live id → after.Live id
  owns : ∀ {owner id}, after.Owns owner id → before.Owns owner id ∨ after.Live id

section

variable {heap middle after : Heap}

theorem Adds.refl (heap : Heap) : Adds heap heap :=
  ⟨fun _ => rfl, id, .inl⟩

theorem Adds.trans (first : Adds heap middle) (second : Adds middle after) : Adds heap after := by
  refine ⟨fun index => (second.generation index).trans (first.generation index),
    fun live => second.live (first.live live), fun owns => ?_⟩
  obtain owns | live := second.owns owns
  · exact (first.owns owns).imp_right second.live
  · exact .inr live

theorem Adds.dealt (adds : Adds heap after) {id : BindingId} (dealt : heap.Dealt id) : after.Dealt id :=
  dealt.imp adds.live fun passed => by rwa [adds.generation]

theorem Settled.adds (settled : heap.Settled) (adds : Adds heap after) : after.Settled := by
  intro owner id owns
  obtain owns | live := adds.owns owns
  · exact adds.dealt (settled owner id owns)
  · exact .inl live

theorem adds_allocate (binding : Binding) : Adds heap (heap.allocate binding).2 :=
  ⟨heap.bindings.generation_allocate binding, fun live => live_allocate.mpr (.inr live), .inl⟩

private theorem adds_declared (owner : ScopeId) (binding : Binding) : Adds heap (heap.declared owner binding) := by
  refine (adds_allocate binding).trans ⟨fun _ => rfl, id, fun owns => ?_⟩
  obtain owns | ⟨-, rfl, -⟩ := owns_adopt.mp owns
  · exact .inl owns
  · exact .inr (live_allocate.mpr (.inl rfl))

theorem adds_declare (owner : ScopeId) (binding : Binding) : Adds heap (heap.declare owner binding).2 := by
  by_cases live : heap.LiveScope owner
  · rw [declare_of_live live]
    exact adds_declared owner binding
  · rw [declare_of_dead live]
    exact .refl heap

theorem adds_modifyBinding (changed : BindingId) (f : Binding → Binding) :
    Adds heap (heap.modifyBinding changed f) :=
  ⟨heap.bindings.generation_modify changed f, live_modifyBinding.mpr, .inl⟩

theorem adds_redeclare (owner : ScopeId) (binding : Binding) :
    Adds heap (heap.redeclare owner binding).2 := by
  unfold Heap.redeclare
  split
  · exact adds_declare owner binding
  · split
    · exact .refl heap
    · exact adds_modifyBinding _ _
    · exact adds_declare owner binding

theorem adds_allocateScope {scope : Scope} (empty : scope.own = #[]) :
    Adds heap (heap.allocateScope scope).2 :=
  ⟨fun _ => rfl, id, fun owns => .inl ((owns_allocateScope empty).mp owns)⟩

private theorem adds_copyInto (scope : ScopeId) (ids : List BindingId) (heap : Heap) :
    Adds heap (copyInto scope ids heap).2 := by
  induction ids generalizing heap with
  | nil => exact .refl heap
  | cons first rest ih =>
    unfold copyInto
    split
    · exact .refl heap
    · exact (adds_declared scope _).trans (ih _)

theorem adds_copyScope (source : ScopeId) : Adds heap (heap.copyScope source).2 := by
  obtain ⟨stale, fails⟩ | ⟨found, -, after, -⟩ := copyScope_cases heap source
  · rw [fails]
    exact .refl heap
  · rw [after]
    exact (adds_allocateScope rfl).trans (adds_copyInto _ _ _)

end

/-! ## Declarations -/

section

variable {heap : Heap} (settled : heap.Settled)

include settled

theorem Once.declare (once : heap.Once) (scope : ScopeId) (binding : Binding) :
    (heap.declare scope binding).2.Once := by
  by_cases live : heap.LiveScope scope
  · rw [declare_of_live live]
    intro owner
    rw [settled.entries_declared live]
    split
    · rw [List.map_append]
      refine (once owner).append (nodup_entry _) fun id member new => ?_
      cases eq_of_mem_entry new
      obtain ⟨⟨_, name⟩, member, rfl⟩ := List.mem_map.mp member
      exact settled.not_owns_allocate binding owner (mem_entries.mp member).1
    · exact once owner
  · rw [declare_of_dead live]
    exact once

theorem Distinct.declare (distinct : heap.Distinct) (scope : ScopeId) (binding : Binding)
    (absent : ∀ name, binding.name = some name → name ∉ (heap.entries scope).map Prod.snd) :
    (heap.declare scope binding).2.Distinct := by
  by_cases live : heap.LiveScope scope
  · rw [declare_of_live live]
    intro owner
    rw [settled.entries_declared live]
    split
    · next same =>
      subst same
      rw [List.map_append, names_entry]
      refine (distinct owner).append (by cases binding.name <;> simp) fun name member new => ?_
      exact absent name (Option.mem_toList.mp new) member
    · exact distinct owner
  · rw [declare_of_dead live]
    exact distinct

theorem Settled.mem_names_declare {scope : ScopeId} {binding : Binding} {name : String}
    (member : name ∈ ((heap.declare scope binding).2.entries scope).map Prod.snd) :
    name ∈ (heap.entries scope).map Prod.snd ∨ binding.name = some name := by
  by_cases live : heap.LiveScope scope
  · rw [declare_of_live live, settled.entries_declared live, if_pos rfl, List.map_append, names_entry]
      at member
    exact (List.mem_append.mp member).imp_right Option.mem_toList.mp
  · rw [declare_of_dead live] at member
    exact .inl member

theorem Once.redeclare (once : heap.Once) (scope : ScopeId) (binding : Binding) :
    (heap.redeclare scope binding).2.Once := by
  unfold Heap.redeclare
  split
  · exact once.declare settled scope binding
  · next name named =>
    split
    · exact once
    · next id found =>
      have same (value : Binding) (there : heap.bindings.get? id = some value) :
          binding.name = value.name := by
        have has := findImmediate_some found
        rw [nameOf, there] at has
        exact named.trans has.symm
      exact once.trims (trims_of_eq (entries_modifyBinding same))
    · exact once.declare settled scope binding

/-- Declaring a name in place of itself, or where it is missing, doubles none. -/
theorem Distinct.redeclare (distinct : heap.Distinct) (scope : ScopeId) (binding : Binding) :
    (heap.redeclare scope binding).2.Distinct := by
  unfold Heap.redeclare
  split
  · next unnamed =>
    exact distinct.trims (trims_of_eq (entries_declare_unnamed unnamed scope))
  · next name named =>
    split
    · exact distinct
    · next id found =>
      have same (value : Binding) (there : heap.bindings.get? id = some value) :
          binding.name = value.name := by
        have has := findImmediate_some found
        rw [nameOf, there] at has
        exact named.trans has.symm
      exact distinct.trims (trims_of_eq (entries_modifyBinding same))
    · next absent =>
      refine distinct.declare settled scope binding fun other again => ?_
      cases named.symm.trans again
      exact not_mem_of_findImmediate absent

end

/-! ## Copies -/

section

variable {heap : Heap}

private theorem nameOf_declared {owner : ScopeId} {binding : Binding} {id : BindingId} (dealt : heap.Dealt id) :
    (heap.declared owner binding).nameOf id = heap.nameOf id := by
  have names : (heap.declared owner binding).nameOf id = (heap.allocate binding).2.nameOf id := rfl
  rw [names, nameOf_allocate, if_neg]
  rintro rfl
  exact heap.not_dealt_allocate binding dealt

/-- Copying adds entries to one scope: new handles under names that were copied. -/
theorem copyInto_entries {copy : ScopeId} (ids : List BindingId) (settled : heap.Settled)
    (live : heap.LiveScope copy) (dealt : ∀ id ∈ ids, heap.Dealt id) :
    (∀ other, other ≠ copy → (copyInto copy ids heap).2.entries other = heap.entries other)
      ∧ ∃ added, (copyInto copy ids heap).2.entries copy = heap.entries copy ++ added
        ∧ added.map Prod.snd <+: (heap.named ids).map Prod.snd
        ∧ (added.map Prod.fst).Nodup ∧ ∀ id ∈ added.map Prod.fst, ¬ heap.Dealt id := by
  induction ids generalizing heap with
  | nil => exact ⟨fun _ _ => rfl, [], by simp [copyInto], by simp [named], by simp, by simp⟩
  | cons first rest ih =>
    unfold copyInto
    split
    · exact ⟨fun _ _ => rfl, [], by simp, by simp, by simp, by simp⟩
    · next value reads =>
      let binding : Binding := { value with constant := false }
      have adds : Adds heap (heap.declared copy binding) := adds_declared copy binding
      have open_ : (heap.declared copy binding).LiveScope copy := liveScope_adopt.mpr live
      obtain ⟨others, added, entries, names, once, new⟩ := ih (settled.adds adds) open_
        fun id member => adds.dealt (dealt id (.tail _ member))
      have made : (heap.declared copy binding).Dealt (heap.allocate binding).1 :=
        .inl (live_allocate.mpr (.inl rfl))
      have kept : (heap.declared copy binding).named rest = heap.named rest :=
        named_congr fun id member => nameOf_declared (dealt id (.tail _ member))
      have head : (heap.named (first :: rest)).map Prod.snd
          = value.name.toList ++ (heap.named rest).map Prod.snd := by
        simp only [named, List.filterMap_cons, nameOf_of_binding reads]
        cases value.name <;> rfl
      refine ⟨fun other ne => (others other ne).trans ?_,
        entry (heap.allocate binding).1 value.name ++ added, ?_, ?_, ?_, ?_⟩
      · rw [settled.entries_declared live, if_neg ne]
      · refine entries.trans ?_
        rw [settled.entries_declared live, if_pos rfl, List.append_assoc]
      · rw [head, List.map_append, names_entry]
        rw [kept] at names
        exact (List.prefix_append_right_inj _).mpr names
      · rw [List.map_append]
        refine (nodup_entry _).append once fun id here there => ?_
        exact new id there (eq_of_mem_entry here ▸ made)
      · intro id member
        rw [List.map_append] at member
        obtain here | there := List.mem_append.mp member
        · exact eq_of_mem_entry here ▸ heap.not_dealt_allocate binding
        · exact fun old => new id there (adds.dealt old)

/-- The copy of a scope has the names of the scope, or the first of them if a stale handle got in the
way, under new handles. -/
theorem copyScope_entries (settled : heap.Settled) (source : ScopeId) :
    Trims heap (heap.copyScope source).2
      ∨ ∃ copy, (∀ other, other ≠ copy → (heap.copyScope source).2.entries other = heap.entries other)
        ∧ ((heap.copyScope source).2.entries copy).map Prod.snd
          <+: (heap.entries source).map Prod.snd
        ∧ (((heap.copyScope source).2.entries copy).map Prod.fst).Nodup := by
  obtain ⟨stale, fails⟩ | ⟨found, there, after, -⟩ := copyScope_cases heap source
  · rw [fails]
    exact .inl (.refl heap)
  · let scope : Scope := { parent := found.parent, parameters := found.parameters, durable := true }
    have adds : Adds heap (heap.allocateScope scope).2 := adds_allocateScope rfl
    have dealt (id : BindingId) (member : id ∈ found.own.toList) :
        (heap.allocateScope scope).2.Dealt id :=
      settled source id ⟨found, there, member⟩
    obtain ⟨others, added, entries, names, once, -⟩ := copyInto_entries found.own.toList
      (settled.adds adds) (liveScope_allocateScope.mpr (.inl rfl)) dealt
    have empty : (heap.allocateScope scope).2.entries (heap.allocateScope scope).1 = [] := by
      rw [entries_allocateScope rfl, entries_of_dead (heap.not_live_allocateScope scope)]
    rw [empty, List.nil_append] at entries
    rw [after]
    refine .inr ⟨(heap.allocateScope scope).1, fun other ne => ?_, ?_, ?_⟩
    · exact (others other ne).trans (entries_allocateScope rfl other)
    · rw [entries, entries_of_get? there]
      exact names
    · rw [entries]
      exact once

theorem Once.copyScope (once : heap.Once) (settled : heap.Settled) (source : ScopeId) :
    (heap.copyScope source).2.Once := by
  obtain trims | ⟨copy, others, -, new⟩ := copyScope_entries settled source
  · exact once.trims trims
  · intro owner
    by_cases same : owner = copy
    · exact same ▸ new
    · rw [others owner same]
      exact once owner

/-- The copy of a scope without doubled names has none. -/
theorem Distinct.copyScope (distinct : heap.Distinct) (settled : heap.Settled) (source : ScopeId) :
    (heap.copyScope source).2.Distinct := by
  obtain trims | ⟨copy, others, names, -⟩ := copyScope_entries settled source
  · exact distinct.trims trims
  · intro owner
    by_cases same : owner = copy
    · subst same
      exact (distinct source).sublist names.sublist
    · rw [others owner same]
      exact distinct owner

end

end ScopeMachine.Heap
