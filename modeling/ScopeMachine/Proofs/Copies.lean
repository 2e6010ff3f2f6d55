import ScopeMachine.Proofs.Machine.Edits
import ScopeMachine.Proofs.Store.Alterations

set_option autoImplicit false

/-!
# Copies

A copy is a new binding with a new scope, in which there is a copy of each attribute of the source. Main
result: in a tidy heap, copying succeeds, changes nothing that was there, and the copy and its source
have no part in common. So they lead to like values at first, and to their own ones from then on.
-/

namespace ScopeMachine

open Heap

namespace Heap

/-! ## Copies of attributes -/

/-- An entry that is a copy of a binding. -/
def Twin (heap : Heap) (id : BindingId) (entry : BindingId × Binding) : Prop :=
  ∃ value, heap.bindings.get? id = some value ∧ entry.2 = { value with constant := false }

/-- The scope of a binding; one that has none counts as having no attributes. -/
def levelOf (heap : Heap) (value : Binding) : Scope :=
  (value.scope.bind heap.scopes.get?).getD {}

/-- A heap with a new scope, in which there are copies of what another scope owns. -/
structure Duplicates (original : Scope) (place : ScopeId) (made : List (BindingId × Binding))
    (before after : Heap) : Prop where
  tidy : after.Tidy
  fresh : ¬ before.LiveScope place
  level : after.scopes.get? place
    = some { original with own := (made.map Prod.fst).toArray, durable := true }
  new : ∀ id ∈ made.map Prod.fst, ¬ before.Live id
  holds : ∀ entry ∈ made, after.bindings.get? entry.1 = some entry.2
  twins : List.Forall₂ before.Twin original.own.toList made
  scopes : ∀ {scope}, before.LiveScope scope → after.scopes.get? scope = before.scopes.get? scope
  bindings : ∀ {id}, before.Live id → after.bindings.get? id = before.bindings.get? id

section

variable {heap middle after : Heap} {place : ScopeId} {made : List (BindingId × Binding)}
  {original : Scope}

/-- Where all are live, all are copied, in order. The copies that are made in between do not change what
is copied later. -/
theorem copyInto_declares {ids : List BindingId} (live : ∀ id ∈ ids, heap.Live id)
    (same : ∀ {id}, heap.Live id → middle.bindings.get? id = heap.bindings.get? id)
    (there : middle.LiveScope place) (tidy : middle.Tidy) :
    ∃ made after, copyInto place ids middle = (none, after) ∧ Declares place made middle after
      ∧ after.Tidy ∧ List.Forall₂ heap.Twin ids made := by
  induction ids generalizing middle with
  | nil => exact ⟨[], middle, rfl, declares_nil there, tidy, .nil⟩
  | cons id rest ih =>
    obtain ⟨value, found⟩ := live id (.head _)
    have held : middle.bindings.get? id = some value := (same ⟨value, found⟩).trans found
    have reads : middle.binding id = .ok value := by simp [Heap.binding, held]
    have first := declares_declared there { value with constant := false }
    have placed : (middle.declared place { value with constant := false }).LiveScope place :=
      liveScope_adopt.mpr there
    obtain ⟨made, after, copies, declares, neat, twins⟩ := ih
      (fun other member => live other (.tail _ member))
      (fun {other} known => by
        obtain ⟨entry, inside⟩ := known
        have kept := same ⟨entry, inside⟩
        exact (first.get?_of_live ⟨entry, kept.trans inside⟩).trans kept)
      placed (tidy.declared place _)
    refine ⟨_, after, ?_, first.trans declares, neat, .cons ⟨value, found, rfl⟩ twins⟩
    rw [copyInto, reads]
    exact copies

/-- A scope is copied into a new one. -/
theorem copyInto_duplicates (tidy : heap.Tidy) (live : ∀ id ∈ original.own.toList, heap.Live id)
    {copy : Scope} (empty : copy = { original with own := #[], durable := true }) :
    ∃ made after, copyInto (heap.allocateScope copy).1 original.own.toList (heap.allocateScope copy).2
        = (none, after)
      ∧ Duplicates original (heap.allocateScope copy).1 made heap after := by
  have bare : copy.own = #[] := by rw [empty]
  have there : (heap.allocateScope copy).2.LiveScope (heap.allocateScope copy).1 :=
    liveScope_allocateScope.mpr (.inl rfl)
  have same {id : BindingId} (_ : heap.Live id) :
      (heap.allocateScope copy).2.bindings.get? id = heap.bindings.get? id := rfl
  obtain ⟨made, after, copies, declares, neat, twins⟩ :=
    copyInto_declares live same there (tidy.allocateScope bare)
  refine ⟨made, after, copies, neat, heap.not_live_allocateScope copy, ?_, declares.new, declares.holds,
    twins, fun {scope} known => ?_, declares.get?_of_live⟩
  · obtain ⟨level, first, larger⟩ := declares.own
    rw [get?_allocateScope, if_pos rfl, empty] at first
    cases first
    simpa using larger
  · rw [declares.others scope, get?_allocateScope_of_live known]
    rintro rfl
    exact heap.not_live_allocateScope copy known

namespace Duplicates

variable (duplicates : Duplicates original place made heap after)

include duplicates

theorem allocate (value : Binding) : Duplicates original place made heap (after.allocate value).2 :=
  { duplicates with
    tidy := duplicates.tidy.allocate value
    holds := fun entry member => (get?_allocate_of_live ⟨_, duplicates.holds entry member⟩).trans
      (duplicates.holds entry member)
    bindings := fun known => by
      obtain ⟨held, there⟩ := known
      have same := duplicates.bindings ⟨held, there⟩
      exact (get?_allocate_of_live ⟨held, same.trans there⟩).trans same }

private theorem mem_of_owns {id : BindingId} (owns : after.Owns place id) : id ∈ made.map Prod.fst := by
  obtain ⟨level, there, member⟩ := owns
  cases there.symm.trans duplicates.level
  simpa using member

theorem untouched (tidy : heap.Tidy) {scope : ScopeId} (known : heap.LiveScope scope) :
    Untouched scope heap after :=
  ⟨duplicates.scopes known, fun _ owns => duplicates.bindings (tidy.live owns)⟩

/-- The search for an attribute goes the same way among the copies. -/
theorem twin_of_find (name : String) :
    Option.Rel heap.Twin (heap.firstAmong name original.own.toList)
        (made.find? fun entry => entry.2.name = some name) := by
  have twins := duplicates.twins
  clear duplicates
  generalize original.own.toList = ids at twins
  induction twins with
  | nil => exact .none
  | @cons id entry rest later twin _ ih =>
    obtain ⟨value, there, same⟩ := twin
    have called : heap.nameOf id = entry.2.name := by simp [nameOf, there, same]
    unfold firstAmong at ih ⊢
    rw [List.find?_cons, List.find?_cons, called]
    split
    · exact .some ⟨value, there, same⟩
    · exact ih

end Duplicates

end

/-! ## Searches that agree -/

/-- Two searches fail alike, or find nothing, or find bindings that are equal up to being constant. -/
inductive Agrees (heap : Heap) :
    Except Stale (Option BindingId) → Except Stale (Option BindingId) → Prop where
  | stale (stale : Stale) : Agrees heap (.error stale) (.error stale)
  | missing : Agrees heap (.ok none) (.ok none)
  | found {copy original : BindingId} {held value : Binding}
      (copied : heap.bindings.get? copy = some held)
      (there : heap.bindings.get? original = some value)
      (alike : { held with constant := false } = { value with constant := false }) :
      Agrees heap (.ok (some copy)) (.ok (some original))

section

variable {heap : Heap} {name : String}

private theorem live_of_findWithin {fuel : Nat} {scope : ScopeId} {id : BindingId}
    (found : heap.findWithin name fuel scope = .ok (some id)) : heap.Live id := by
  induction fuel generalizing scope with
  | zero => cases found
  | succ fuel ih =>
    unfold findWithin at found
    split at found
    · cases found
    · next finds =>
      cases found
      exact live_of_nameOf (findImmediate_some finds)
    · split at found
      · cases found
      · split at found
        · cases found
        · exact ih found

private theorem agrees_findWithin (fuel : Nat) (scope : ScopeId) :
    heap.Agrees (heap.findWithin name fuel scope) (heap.findWithin name fuel scope) := by
  cases found : heap.findWithin name fuel scope with
  | error stale => exact .stale stale
  | ok held =>
    cases held with
    | none => exact .missing
    | some id =>
      obtain ⟨value, there⟩ := live_of_findWithin found
      exact .found there there rfl

private theorem agrees_findInherited {copy original : ScopeId} {level upper : Scope}
    (copied : heap.scopes.get? copy = some level) (there : heap.scopes.get? original = some upper)
    (parent : level.parent = upper.parent)
    (agrees : heap.Agrees (heap.findImmediate copy name) (heap.findImmediate original name)) :
    heap.Agrees (heap.findInherited copy name) (heap.findInherited original name) := by
  have reads : heap.scope copy = .ok level := by simp [Heap.scope, copied]
  have again : heap.scope original = .ok upper := by simp [Heap.scope, there]
  unfold findInherited findWithin
  simp only [reads, again, parent]
  generalize heap.findImmediate copy name = first at agrees ⊢
  generalize heap.findImmediate original name = second at agrees ⊢
  cases agrees with
  | stale => exact .stale _
  | found copied there alike => exact .found copied there alike
  | missing =>
    cases upper.parent with
    | none => exact .missing
    | some above => exact agrees_findWithin _ above

end

/-! ## Copies of bindings -/

/-- A copy of a binding, with a scope of its own. It is like its source but never constant, and so is
each of its attributes. Whatever was there before is as it was. -/
structure Copies (value : Binding) (copy : BindingId) (place : ScopeId) (before after : Heap) :
    Prop where
  tidy : after.Tidy
  fresh : ¬ before.Live copy
  holds : after.bindings.get? copy = some { value with scope := some place, constant := false }
  freshScope : ¬ before.LiveScope place
  level : ∃ level, after.scopes.get? place = some level ∧ level.durable = true
    ∧ level.parent = (before.levelOf value).parent
    ∧ level.parameters = (before.levelOf value).parameters
  attributes : ∀ {id}, after.Owns place id → ¬ before.Live id ∧ id ≠ copy
  bindings : ∀ {id}, before.Live id → after.bindings.get? id = before.bindings.get? id
  scopes : ∀ {scope}, before.LiveScope scope → after.scopes.get? scope = before.scopes.get? scope
  members : ∀ name, after.Agrees (after.findImmediate place name)
    (value.scope.elim (.ok none) (after.findImmediate · name))
  inherited : ∀ name, after.Agrees (after.findInherited place name)
    (value.scope.elim (.ok none) (after.findInherited · name))

section

variable {heap after : Heap} {value : Binding} {place : ScopeId} {made : List (BindingId × Binding)}

private theorem levelOf_live (tidy : heap.Tidy) :
    ∀ id ∈ (heap.levelOf value).own.toList, heap.Live id := by
  intro id member
  unfold levelOf at member
  cases there : value.scope.bind heap.scopes.get? with
  | none =>
    rw [there] at member
    cases member
  | some level =>
    rw [there] at member
    obtain ⟨scope, -, found⟩ := Option.bind_eq_some_iff.mp there
    exact tidy.live ⟨level, found, member⟩

namespace Duplicates

variable (duplicates : Duplicates (heap.levelOf value) place made heap after) (tidy : heap.Tidy)

include duplicates

theorem first (name : String) :
    after.first place name = (made.find? fun entry => entry.2.name = some name).map Prod.fst := by
  rw [Heap.first, duplicates.level, Option.bind_some, ← firstAmong_map duplicates.holds]

include tidy

/-- A name leads to an attribute of the copy if and only if it leads to one of the source. -/
theorem members (bound : ∀ scope ∈ value.scope, heap.LiveScope scope) (name : String) :
    after.Agrees (after.findImmediate place name)
      (value.scope.elim (.ok none) (after.findImmediate · name)) := by
  have search := duplicates.tidy.findImmediate_eq ⟨_, duplicates.level⟩ name
  have twin := duplicates.twin_of_find name
  have source : value.scope.elim (.ok none) (after.findImmediate · name)
      = .ok (heap.firstAmong name (heap.levelOf value).own.toList) := by
    cases has : value.scope with
    | none => simp [levelOf, has, firstAmong]
    | some scope =>
      obtain ⟨level, there⟩ := bound scope has
      have same := duplicates.untouched tidy ⟨level, there⟩
      simp only [Option.elim_some, same.findImmediate]
      rw [tidy.findImmediate_eq ⟨level, there⟩, Heap.first, there, levelOf, has, Option.bind_some,
        Option.bind_some, there]
      rfl
  rw [search, source, duplicates.first]
  generalize heap.firstAmong name (heap.levelOf value).own.toList = found at twin
  cases found' : made.find? fun entry => entry.2.name = some name with
  | none =>
    rw [found'] at twin
    cases twin
    exact .missing
  | some entry =>
    rw [found'] at twin
    cases twin with
    | some twin =>
      obtain ⟨held, there, same⟩ := twin
      refine .found (duplicates.holds entry (List.mem_of_find?_eq_some found'))
        ((duplicates.bindings ⟨held, there⟩).trans there) ?_
      rw [same]

/-- What is inherited is the same, since the parent is. -/
theorem inherited (bound : ∀ scope ∈ value.scope, heap.LiveScope scope) (name : String) :
    after.Agrees (after.findInherited place name)
      (value.scope.elim (.ok none) (after.findInherited · name)) := by
  have members := duplicates.members tidy bound name
  cases has : value.scope with
  | none =>
    rw [has] at members
    have level := duplicates.level
    have lasting : after.Lasting place := ⟨_, level, rfl, by simp [levelOf, has]⟩
    rw [findInherited_eq (.inl lasting)]
    exact members
  | some scope =>
    rw [has] at members
    obtain ⟨upper, there⟩ := bound scope has
    refine agrees_findInherited duplicates.level
      ((duplicates.scopes ⟨upper, there⟩).trans there) ?_ members
    simp [levelOf, has, there]

/-- A binding is copied with the copies of its attributes. -/
theorem copies (bound : ∀ scope ∈ value.scope, heap.LiveScope scope) :
    Copies value (after.allocate { value with scope := some place, constant := false }).1 place heap
      (after.allocate { value with scope := some place, constant := false }).2 := by
  have grown := duplicates.allocate { value with scope := some place, constant := false }
  have dead := after.not_live_allocate { value with scope := some place, constant := false }
  refine ⟨grown.tidy, fun live => ?_, ?_, duplicates.fresh, ⟨_, grown.level, rfl, rfl, rfl⟩,
    fun {id} owns => ⟨duplicates.new id (grown.mem_of_owns owns), ?_⟩, grown.bindings, grown.scopes,
    grown.members tidy bound, grown.inherited tidy bound⟩
  · obtain ⟨held, there⟩ := live
    exact dead ⟨held, (duplicates.bindings ⟨held, there⟩).trans there⟩
  · rw [get?_allocate, if_pos rfl]
  · rintro rfl
    obtain ⟨entry, inside, same⟩ := List.mem_map.mp (grown.mem_of_owns owns)
    exact dead ⟨entry.2, same ▸ duplicates.holds entry inside⟩

end Duplicates

end

/-! ## Copy and source -/

namespace Copies

variable {before after later : Heap} {value : Binding} {source copy : BindingId} {place : ScopeId}
  {levels : List ScopeId} (copies : Copies value copy place before after) (tidy : before.Tidy)

include copies

private theorem not_mem_scope (bound : ∀ scope ∈ value.scope, before.LiveScope scope) : place ∉ value.scope :=
  fun same => copies.freshScope (bound place same)

private theorem ne_source (there : before.bindings.get? source = some value) : source ≠ copy := by
  rintro rfl
  exact copies.fresh ⟨value, there⟩

private theorem not_owns_source (there : before.bindings.get? source = some value) :
    ¬ after.Owns place source :=
  fun owns => (copies.attributes owns).1 ⟨value, there⟩

/-- What a scope inherits from is what it inherited from before, where that was there. -/
theorem inherited_before {scope parent level : ScopeId} (first : before.Inherits scope parent)
    (live : ∀ level, Relation.TransGen before.Inherits scope level → before.LiveScope level)
    (climbs : Relation.ReflTransGen after.Inherits parent level) :
    Relation.TransGen before.Inherits scope level := by
  induction climbs with
  | refl => exact .single first
  | tail _ last ih =>
    obtain ⟨found, there, up⟩ := last
    exact ih.tail ⟨found, (copies.scopes (live _ ih)).symm.trans there, up⟩

/-- The copy inherits nothing from its source where the source does not inherit it itself. -/
theorem clear_copy (live : ∀ scope ∈ value.scope, ∀ level,
      Relation.TransGen before.Inherits scope level → before.LiveScope level)
    (free : ∀ scope ∈ value.scope, before.Clear source (some scope) scope) :
    after.Clear source value.scope place := by
  intro level climbs
  obtain ⟨parent, ⟨found, there, up⟩, higher⟩ := Relation.TransGen.head'_iff.mp climbs
  obtain ⟨_, again, -, same, -⟩ := copies.level
  cases there.symm.trans again
  rw [up] at same
  cases has : value.scope with
  | none => simp [levelOf, has] at same
  | some scope =>
    have first : before.Inherits scope parent := by
      cases known : before.scopes.get? scope with
      | none => simp [levelOf, has, known] at same
      | some upper => exact ⟨upper, known, by simpa [levelOf, has, known] using same.symm⟩
    have before_ := copies.inherited_before first (live scope has) higher
    obtain ⟨elsewhere, apart⟩ := free scope has level before_
    refine ⟨elsewhere, fun owns => apart ?_⟩
    obtain ⟨held, inside, member⟩ := owns
    exact ⟨held, (copies.scopes (live scope has level before_)).symm.trans inside, member⟩

include tidy

theorem untouched {scope : ScopeId} (live : before.LiveScope scope) : Untouched scope before after :=
  ⟨copies.scopes live, fun _ owns => copies.bindings (tidy.live owns)⟩

private theorem not_owns_copy {scope : ScopeId} (live : before.LiveScope scope) : ¬ after.Owns scope copy :=
  fun owns => copies.fresh (tidy.live ((copies.untouched tidy live).owns.mp owns))

private theorem source_independent (there : before.bindings.get? source = some value)
    (bound : ∀ scope ∈ value.scope, before.LiveScope scope) :
    after.Independent copy (some place) source := by
  have kept : after.bindings.get? source = some value := (copies.bindings ⟨value, there⟩).trans there
  refine independent_of_apart copies.tidy ⟨value, kept⟩ ?_ fun scope refers => ?_
  · rintro (same | ⟨scope, own, owns⟩)
    · exact copies.ne_source there same
    · cases own
      exact copies.not_owns_source there owns
  · have own : scope ∈ value.scope := by
      obtain ⟨_, again, own⟩ := refers
      cases kept.symm.trans again
      exact own
    refine ⟨?_, copies.not_owns_copy tidy (bound scope own)⟩
    rintro ⟨⟩
    exact copies.not_mem_scope bound own

private theorem copy_independent (there : before.bindings.get? source = some value)
    (bound : ∀ scope ∈ value.scope, before.LiveScope scope) :
    after.Independent source value.scope copy := by
  refine independent_of_apart copies.tidy ⟨_, copies.holds⟩ ?_ fun scope refers => ?_
  · rintro (same | ⟨scope, own, owns⟩)
    · exact copies.ne_source there same.symm
    · exact copies.not_owns_copy tidy (bound scope own) owns
  · have own : scope = place := by
      obtain ⟨_, again, own⟩ := refers
      cases copies.holds.symm.trans again
      exact (Option.some.inj own).symm
    rw [own]
    exact ⟨copies.not_mem_scope bound, copies.not_owns_source there⟩

/-- The source inherits nothing from its copy where all is there that it inherits from. -/
theorem clear_source {scope : ScopeId} (bound : before.LiveScope scope)
    (live : ∀ level, Relation.TransGen before.Inherits scope level → before.LiveScope level) :
    after.Clear copy (some place) scope := by
  intro level climbs
  obtain ⟨parent, ⟨found, there, up⟩, higher⟩ := Relation.TransGen.head'_iff.mp climbs
  have first : before.Inherits scope parent := ⟨found, (copies.scopes bound).symm.trans there, up⟩
  have known := live level (copies.inherited_before first live higher)
  refine ⟨?_, copies.not_owns_copy tidy known⟩
  rintro ⟨⟩
  exact copies.freshScope known

end Copies

end Heap

namespace Action

variable {machine : Machine} {value : Binding}

private theorem copyAttributes_duplicates (tidy : machine.heap.Tidy)
    (bound : ∀ scope ∈ value.scope, machine.heap.LiveScope scope) :
    ∃ place made heap, copyAttributes value machine = .ok place { machine with heap }
      ∧ Duplicates (machine.heap.levelOf value) place made machine.heap heap := by
  obtain ⟨made, after, copies, duplicates⟩ := copyInto_duplicates tidy (levelOf_live tidy)
    (Eq.refl { machine.heap.levelOf value with own := #[], durable := true })
  refine ⟨_, made, after, ?_, duplicates⟩
  unfold copyAttributes
  cases has : value.scope with
  | none =>
    have bare : machine.heap.levelOf value = {} := by simp [levelOf, has]
    rw [bare] at copies ⊢
    cases copies
    rfl
  | some scope =>
    obtain ⟨level, there⟩ := bound scope has
    have reads : machine.heap.scope scope = .ok level := by simp [Heap.scope, there]
    have known : machine.heap.levelOf value = level := by simp [levelOf, has, there]
    rw [known] at copies ⊢
    refine attempt_of_ok ?_
    rw [Heap.copyScope, reads]
    dsimp only
    rw [copies]

/-- Copying a binding succeeds where its attributes are there. -/
theorem copyBinding_copies {source : BindingId} (tidy : machine.heap.Tidy)
    (there : machine.heap.bindings.get? source = some value)
    (bound : ∀ scope ∈ value.scope, machine.heap.LiveScope scope) :
    ∃ copy place heap, copyBinding source machine = .ok copy { machine with heap }
      ∧ Copies value copy place machine.heap heap := by
  obtain ⟨place, made, heap, copies, duplicates⟩ := copyAttributes_duplicates tidy bound
  refine ⟨_, place, _, ?_, duplicates.copies tidy bound⟩
  exact (bind_of_ok (binding_of_get? there)).trans (bind_of_ok copies)

end Action

/-- In a tidy heap, a binding whose attributes are there is copied. The copy is a new binding with a new
scope, and nothing that was there has changed. Names lead to like attributes, inherited ones included.
From then on, whatever is done to the copy and to its attributes, the source and its attributes stay as
they are, and conversely. The same holds for what they inherit, as long as they do not inherit from each
other. -/
theorem copies_independent {names : NamePool} {operand : Nat} {machine : Machine} {source : BindingId}
    {rest : List StackItem} {value : Binding} (tidy : machine.heap.Tidy)
    (stack : machine.stack = .binding source :: rest)
    (there : machine.heap.bindings.get? source = some value)
    (bound : ∀ scope ∈ value.scope, machine.heap.LiveScope scope) :
    ∃ copy place heap,
      Action.step names .copy operand machine
        = .ok .next { machine with heap, stack := .binding copy :: rest }
      ∧ Copies value copy place machine.heap heap
      ∧ heap.Independent copy (some place) source ∧ heap.Independent source value.scope copy := by
  have neat : Tidy { machine with stack := rest }.heap := tidy
  obtain ⟨copy, place, heap, copied, copies⟩ := Action.copyBinding_copies neat there bound
  have steps : Action.step names .copy operand machine
      = (Action.copyBinding source >>= fun id => Action.push id >>= fun _ => pure .next)
        { machine with stack := rest } := by
    simp only [Action.step, Action.andNext, bind_assoc]
    exact Action.bind_of_ok (Action.popBinding_top stack)
  refine ⟨copy, place, heap, ?_, copies, copies.source_independent tidy there bound,
    copies.copy_independent tidy there bound⟩
  rw [steps, Action.bind_of_ok copied]
  rfl

/-! ## A box in a room -/

namespace Machine

/-- A scope, one that inherits from it, and one apart from them. -/
def rooms : Heap :=
  let (outer, heap) := ({} : Heap).newScope none true
  let (_, heap) := heap.newScope (some outer) true
  (heap.newScope none true).2

/-- A machine with a binding on the stack whose attributes are in the scope that inherits. The binding
itself belongs to the given scope. -/
def boxed (owner : ScopeId) : Machine :=
  { boot {} [] {} with
    heap := (rooms.declare owner { name := some "box", tag := .object, scope := some ⟨1, 0⟩ }).2
    stack := [.binding ⟨0, 0⟩] }

end Machine

/-- A copy inherits its source where the source does. When the source is freed then, a name that the copy
inherits does not lead to it any more. Where the copy is given the attributes of the source, what is
declared in them is declared for the source as well. -/
theorem inherited_source_lost :
    ∃ copy place heap, Action.step {} .copy 0 (Machine.boxed ⟨0, 0⟩)
        = .ok .next { Machine.boxed ⟨0, 0⟩ with heap, stack := [.binding copy] }
      ∧ (∃ later, Alterations ⟨0, 0⟩ (some ⟨1, 0⟩) heap later
        ∧ heap.findInherited place "box" = .ok (some ⟨0, 0⟩)
        ∧ later.findInherited place "box" = .error (.binding ⟨0, 0⟩))
      ∧ ∃ later id, (heap.modifyBinding copy fun copied => { copied with scope := some ⟨1, 0⟩ }).declare
          ⟨1, 0⟩ { name := some "lid" } = (.ok id, later)
        ∧ heap.findImmediate ⟨1, 0⟩ "lid" = .ok none
        ∧ later.findImmediate ⟨1, 0⟩ "lid" = .ok (some id) := by
  refine ⟨⟨1, 0⟩, ⟨3, 0⟩, _, rfl, ⟨_, .single (.freeBinding (.inl rfl)), by cbv, by cbv⟩, ?_⟩
  exact ⟨_, _, rfl, by cbv, by cbv⟩

namespace Machine

private theorem tidy_boxed : (boxed ⟨2, 0⟩).heap.Tidy := by
  have empty : ({} : Heap).Tidy := ⟨nofun, nofun, nofun⟩
  have tidy : rooms.Tidy := ((empty.allocateScope rfl).allocateScope rfl).allocateScope rfl
  exact tidy.declared ⟨2, 0⟩ _

/-- There are three scopes, and only one of them inherits. -/
theorem boxed_inherits {scope parent : ScopeId} (inherits : (boxed ⟨2, 0⟩).heap.Inherits scope parent) :
    scope = ⟨1, 0⟩ ∧ parent = ⟨0, 0⟩ := by
  obtain ⟨found, there, up⟩ := inherits
  have handles : (boxed ⟨2, 0⟩).heap.scopes.handles = [⟨0, 0⟩, ⟨1, 0⟩, ⟨2, 0⟩] := by cbv
  have member := Arena.mem_handles.mpr ⟨found, there⟩
  rw [handles] at member
  fin_cases member <;> cases there <;> cases up
  exact ⟨rfl, rfl⟩

private theorem boxed_inherited {level : ScopeId}
    (climbs : Relation.TransGen (boxed ⟨2, 0⟩).heap.Inherits ⟨1, 0⟩ level) : level = ⟨0, 0⟩ := by
  obtain ⟨_, _, last⟩ := Relation.TransGen.tail'_iff.mp climbs
  exact (boxed_inherits last).2

end Machine

/-- A binding that is kept apart is copied, and the copy inherits from the same scope. What is done to one
of the two does not change what the other inherits. -/
theorem boxed_apart :
    ∃ copy place heap, Action.step {} .copy 0 (Machine.boxed ⟨2, 0⟩)
        = .ok .next { Machine.boxed ⟨2, 0⟩ with heap, stack := [.binding copy] }
      ∧ (∀ later, Alterations copy (some place) heap later → ∀ name,
        SameFinding (·.findInherited ⟨1, 0⟩ name) heap later)
      ∧ ∀ later, Alterations ⟨0, 0⟩ (some ⟨1, 0⟩) heap later → ∀ name,
        SameFinding (·.findInherited place name) heap later := by
  have tidy := Machine.tidy_boxed
  have there : (Machine.boxed ⟨2, 0⟩).heap.bindings.get? ⟨0, 0⟩
      = some { name := some "box", tag := .object, scope := some ⟨1, 0⟩ } := by cbv
  have inner : (Machine.boxed ⟨2, 0⟩).heap.LiveScope ⟨1, 0⟩ := ⟨_, by cbv⟩
  have live {level : ScopeId}
      (climbs : Relation.TransGen (Machine.boxed ⟨2, 0⟩).heap.Inherits ⟨1, 0⟩ level) :
      (Machine.boxed ⟨2, 0⟩).heap.LiveScope level := by
    rw [Machine.boxed_inherited climbs]
    exact ⟨_, by cbv⟩
  have free : (Machine.boxed ⟨2, 0⟩).heap.Clear ⟨0, 0⟩ (some ⟨1, 0⟩) ⟨1, 0⟩ := by
    intro level climbs
    rw [Machine.boxed_inherited climbs]
    refine ⟨by decide, ?_⟩
    rintro ⟨_, level, member⟩
    cases level
    cases member
  obtain ⟨copy, place, heap, copied, copies, source, conversely⟩ :=
    copies_independent tidy rfl there (by rintro _ ⟨⟩; exact inner)
  have kept : heap.bindings.get? ⟨0, 0⟩ = _ := (copies.bindings ⟨_, there⟩).trans there
  refine ⟨copy, place, heap, copied, fun later alterations name => ?_, fun later alterations name => ?_⟩
  · exact ((source later alterations).2 ⟨1, 0⟩ ⟨_, kept, rfl⟩ name).2
      (copies.clear_source tidy inner fun _ climbs => live climbs)
  · refine ((conversely later alterations).2 place ⟨_, copies.holds, rfl⟩ name).2 ?_
    exact copies.clear_copy (by rintro _ ⟨⟩ _ climbs; exact live climbs) (by rintro _ ⟨⟩; exact free)

end ScopeMachine
