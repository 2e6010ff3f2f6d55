import Mathlib.Logic.Relation
import ScopeMachine.Proofs.Store.Provenance

set_option autoImplicit false

/-!
# Levels

A block inherits from the scope around it, and attributes are kept in scopes that inherit nothing. A
heap is leveled when this holds of all handles that were ever given out, also of those that are stale
by now. Then the links to parents lead down a ranking, and a new block makes no link that closes a
cycle.
-/

namespace ScopeMachine.Heap

/-! ## Handles and links -/

/-- The scope is there and inherits from the other one. -/
def Inherits (heap : Heap) (scope parent : ScopeId) : Prop :=
  ∃ found, heap.scopes.get? scope = some found ∧ found.parent = some parent

/-- The handle was given out: its scope is there, or its slot was freed since. -/
def Issued (heap : Heap) (scope : ScopeId) : Prop :=
  heap.LiveScope scope ∨ scope.generation < heap.scopes.generation scope.index

/-- Scopes for attributes outlive blocks and inherit nothing. -/
def Grounded (heap : Heap) : Prop :=
  ∀ ⦃scope⦄, heap.Serves scope → heap.LiveScope scope → heap.Lasting scope

/-- A grounded heap in which all handles were given out, with a ranking of the scopes that leads from
each to its parent. -/
structure Leveled (heap : Heap) (rank : ScopeId → Nat) : Prop where
  grounded : heap.Grounded
  served : ∀ {scope}, heap.Serves scope → heap.Issued scope
  parents : ∀ {scope parent}, heap.Inherits scope parent → heap.Issued parent
  ranked : ∀ {scope parent}, heap.Inherits scope parent → rank parent < rank scope

section

variable {heap : Heap}

theorem Inherits.liveScope {scope parent : ScopeId} (inherits : heap.Inherits scope parent) :
    heap.LiveScope scope := by
  obtain ⟨found, there, -⟩ := inherits
  exact ⟨found, there⟩

theorem Lasting.not_inherits {scope parent : ScopeId} (lasting : heap.Lasting scope) :
    ¬ heap.Inherits scope parent := by
  rintro ⟨_, again, has⟩
  obtain ⟨found, there, -, top⟩ := lasting
  cases there.symm.trans again
  cases top.symm.trans has

/-- The next handle to be given out was not given out before. -/
theorem not_issued_allocateScope (heap : Heap) (scope : Scope) :
    ¬ heap.Issued (heap.allocateScope scope).1 := by
  rintro (live | passed)
  · exact heap.not_live_allocateScope scope live
  · have there : (heap.allocateScope scope).2.scopes.get? (heap.allocateScope scope).1 = some scope :=
      (heap.get?_allocateScope scope _).trans (if_pos rfl)
    have same : heap.scopes.generation (heap.allocateScope scope).1.index
        = (heap.allocateScope scope).1.generation :=
      (heap.scopes.generation_allocate scope _).symm.trans (Arena.generation_of_get? _ there)
    rw [same] at passed
    exact UInt32.lt_irrefl _ passed

/-- Where no attributes inherit, a scope that they can be put into inherits nothing. -/
theorem Grounded.lasting (grounded : heap.Grounded) {scope : ScopeId} (suitable : heap.Suitable scope) :
    heap.Lasting scope := by
  obtain ⟨found, there, durable, above⟩ := suitable
  refine ⟨found, there, durable, ?_⟩
  cases has : found.parent with
  | none => rfl
  | some parent =>
    obtain ⟨other, used, serves, known, inherits⟩ := above parent has
    exact absurd ⟨used, known, inherits⟩ (grounded serves ⟨used, known⟩).not_inherits

/-- A block holds no attributes. -/
theorem Grounded.unserved (grounded : heap.Grounded) {scope : ScopeId}
    (fleeting : heap.Fleeting scope) : ¬ heap.Serves scope :=
  fun serves => (grounded serves fleeting.liveScope).not_fleeting fleeting

/-- Links that lead down a ranking have no cycle. -/
theorem Leveled.acyclic {rank : ScopeId → Nat} (leveled : heap.Leveled rank) (scope : ScopeId) :
    ¬ Relation.TransGen heap.Inherits scope scope := by
  have lower {first last : ScopeId} (chain : Relation.TransGen heap.Inherits first last) :
      rank last < rank first := by
    induction chain with
    | single link => exact leveled.ranked link
    | tail _ link ih => exact Nat.lt_trans (leveled.ranked link) ih
  exact fun cycle => Nat.lt_irrefl _ (lower cycle)

/-- The search from attributes on goes no further than their own level. -/
theorem Leveled.findWithin {rank : ScopeId → Nat} (leveled : heap.Leveled rank) {scope : ScopeId}
    (serves : heap.Serves scope) (name : String) (levels : Nat) :
    heap.findWithin name (levels + 1) scope = heap.findImmediate scope name := by
  refine findWithin_eq ?_ name levels
  by_cases live : heap.LiveScope scope
  · exact .inl (leveled.grounded serves live)
  · exact .inr live

end

/-! ## Changes -/

/-- The scopes of two heaps are the same but for what they own. -/
structure SameScopes (before after : Heap) : Prop where
  forth : ∀ {scope found}, before.scopes.get? scope = some found →
    ∃ larger, after.scopes.get? scope = some larger ∧ SameLevel found larger
  back : ∀ {scope larger}, after.scopes.get? scope = some larger →
    ∃ found, before.scopes.get? scope = some found ∧ SameLevel found larger
  generation : ∀ index, after.scopes.generation index = before.scopes.generation index

/-- Scopes for attributes were added. -/
structure Widens (before after : Heap) : Prop where
  kept : ∀ {scope found}, before.scopes.get? scope = some found →
    ∃ larger, after.scopes.get? scope = some larger ∧ SameLevel found larger
  made : ∀ {scope}, after.LiveScope scope → before.LiveScope scope ∨ after.Lasting scope
  serves : ∀ {scope}, after.Serves scope → before.Serves scope ∨ after.Lasting scope

/-- Scopes were freed. -/
structure Narrows (before after : Heap) : Prop where
  kept : ∀ {scope left}, after.scopes.get? scope = some left →
    ∃ found, before.scopes.get? scope = some found ∧ SameLevel found left
  passed : ∀ {scope}, before.LiveScope scope → ¬ after.LiveScope scope →
    after.scopes.generation scope.index = scope.generation + 1
  still : ∀ index, after.scopes.generation index = before.scopes.generation index
    ∨ ∃ scope : ScopeId, scope.index = index ∧ before.LiveScope scope ∧ ¬ after.LiveScope scope
  serves : ∀ {scope}, after.Serves scope → before.Serves scope

section

variable {before middle after : Heap}

theorem sameScopes_of_eq (same : after.scopes = before.scopes) : SameScopes before after :=
  ⟨fun there => ⟨_, same ▸ there, .refl _⟩, fun there => ⟨_, same ▸ there, .refl _⟩,
    fun _ => by rw [same]⟩

private theorem sameScopes_adopt (heap : Heap) (owner : ScopeId) (id : BindingId) :
    SameScopes heap (heap.adopt owner id) :=
  ⟨sameLevel_adopt, sameLevel_of_adopt, heap.scopes.generation_modify owner _⟩

theorem SameScopes.trans (first : SameScopes before middle) (second : SameScopes middle after) :
    SameScopes before after := by
  refine ⟨fun there => ?_, fun there => ?_, fun index => ?_⟩
  · obtain ⟨found, there, same⟩ := first.forth there
    obtain ⟨larger, there, again⟩ := second.forth there
    exact ⟨larger, there, same.trans again⟩
  · obtain ⟨found, there, same⟩ := second.back there
    obtain ⟨smaller, there, earlier⟩ := first.back there
    exact ⟨smaller, there, earlier.trans same⟩
  · rw [second.generation, first.generation]

theorem sameScopes_declare (heap : Heap) (owner : ScopeId) (binding : Binding) :
    SameScopes heap (heap.declare owner binding).2 := by
  unfold Heap.declare
  split
  · exact (sameScopes_of_eq (heap.scopes_allocate binding)).trans (sameScopes_adopt _ owner _)
  · exact sameScopes_of_eq rfl

theorem sameScopes_redeclare (heap : Heap) (owner : ScopeId) (binding : Binding) :
    SameScopes heap (heap.redeclare owner binding).2 := by
  unfold Heap.redeclare
  split
  · exact sameScopes_declare heap owner binding
  · split
    · exact sameScopes_of_eq rfl
    · exact sameScopes_of_eq rfl
    · exact sameScopes_declare heap owner binding

theorem sameScopes_copyInto (scope : ScopeId) (ids : List BindingId) (heap : Heap) :
    SameScopes heap (copyInto scope ids heap).2 := by
  induction ids generalizing heap with
  | nil => exact sameScopes_of_eq rfl
  | cons id rest ih =>
    unfold copyInto
    split
    · exact sameScopes_of_eq rfl
    · exact ((sameScopes_of_eq (heap.scopes_allocate _)).trans (sameScopes_adopt _ scope _)).trans
        (ih _)

/-! ### More scopes -/

theorem Widens.lasting (widens : Widens before after) {scope : ScopeId}
    (lasting : before.Lasting scope) : after.Lasting scope := by
  obtain ⟨found, there, durable, top⟩ := lasting
  obtain ⟨larger, there, parent, same, -⟩ := widens.kept there
  exact ⟨larger, there, same.trans durable, parent.trans top⟩

theorem Widens.fleeting (widens : Widens before after) {scope : ScopeId}
    (fleeting : before.Fleeting scope) : after.Fleeting scope := by
  obtain ⟨found, there, brief⟩ := fleeting
  obtain ⟨larger, there, -, same, -⟩ := widens.kept there
  exact ⟨larger, there, same.trans brief⟩

theorem Widens.refl (heap : Heap) : Widens heap heap :=
  ⟨fun there => ⟨_, there, .refl _⟩, .inl, .inl⟩

theorem Widens.trans (first : Widens before middle) (second : Widens middle after) :
    Widens before after := by
  refine ⟨fun there => ?_, fun live => ?_, fun serves => ?_⟩
  · obtain ⟨found, there, same⟩ := first.kept there
    obtain ⟨larger, there, again⟩ := second.kept there
    exact ⟨larger, there, same.trans again⟩
  · obtain live | lasting := second.made live
    · exact (first.made live).imp_right second.lasting
    · exact .inr lasting
  · obtain serves | lasting := second.serves serves
    · exact (first.serves serves).imp_right second.lasting
    · exact .inr lasting

theorem Widens.grounded (widens : Widens before after) (grounded : before.Grounded) :
    after.Grounded := by
  intro scope serves live
  obtain before_ | lasting := widens.serves serves
  · obtain there | lasting := widens.made live
    · exact widens.lasting (grounded before_ there)
    · exact lasting
  · exact lasting

/-- New scopes inherit nothing, so all links were there before. -/
theorem Widens.inherits (widens : Widens before after) {scope parent : ScopeId}
    (inherits : after.Inherits scope parent) : before.Inherits scope parent := by
  obtain ⟨found, there⟩ | lasting := widens.made inherits.liveScope
  · obtain ⟨larger, now, level, -⟩ := widens.kept there
    obtain ⟨_, again, has⟩ := inherits
    cases now.symm.trans again
    exact ⟨found, there, level.symm.trans has⟩
  · exact absurd inherits lasting.not_inherits

/-! ### Fewer scopes -/

theorem Narrows.refl (heap : Heap) : Narrows heap heap :=
  ⟨fun there => ⟨_, there, .refl _⟩, fun live dead => absurd live dead, fun _ => .inl rfl,
    fun serves => serves⟩

theorem Narrows.liveScope (narrows : Narrows before after) {scope : ScopeId}
    (live : after.LiveScope scope) : before.LiveScope scope := by
  obtain ⟨left, there⟩ := live
  obtain ⟨found, there, -⟩ := narrows.kept there
  exact ⟨found, there⟩

theorem Narrows.trans (first : Narrows before middle) (second : Narrows middle after) :
    Narrows before after := by
  refine ⟨fun there => ?_, fun {scope} live dead => ?_, fun index => ?_,
    fun serves => first.serves (second.serves serves)⟩
  · obtain ⟨found, there, same⟩ := second.kept there
    obtain ⟨earlier, there, before_⟩ := first.kept there
    exact ⟨earlier, there, before_.trans same⟩
  · by_cases between : middle.LiveScope scope
    · exact second.passed between dead
    · have passed := first.passed live between
      obtain same | ⟨other, index, ⟨found, there⟩, -⟩ := second.still scope.index
      · exact same.trans passed
      · -- a slot that was freed once is not freed again, for it was not used in between
        obtain ⟨left, known⟩ := live
        obtain ⟨earlier, again, -⟩ := first.kept there
        have now := Arena.generation_of_get? _ there
        have held := Arena.generation_of_get? _ again
        have own := Arena.generation_of_get? _ known
        rw [index] at now held
        rw [passed, ← held, own] at now
        exact absurd now (by simp)
  · obtain same | ⟨scope, here, live, dead⟩ := second.still index
    · obtain before_ | ⟨scope, here, live, dead⟩ := first.still index
      · exact .inl (same.trans before_)
      · exact .inr ⟨scope, here, live, fun again => dead (second.liveScope again)⟩
    · exact .inr ⟨scope, here, first.liveScope live, dead⟩

theorem Narrows.grounded (narrows : Narrows before after) (grounded : before.Grounded) :
    after.Grounded := by
  intro scope serves live
  obtain ⟨left, there⟩ := live
  obtain ⟨found, known, parent, durable, -⟩ := narrows.kept there
  obtain ⟨_, again, lasts, top⟩ := grounded (narrows.serves serves) ⟨found, known⟩
  cases known.symm.trans again
  exact ⟨left, there, durable.trans lasts, parent.trans top⟩

theorem Narrows.inherits (narrows : Narrows before after) {scope parent : ScopeId}
    (inherits : after.Inherits scope parent) : before.Inherits scope parent := by
  obtain ⟨left, there, has⟩ := inherits
  obtain ⟨found, known, level, -⟩ := narrows.kept there
  exact ⟨found, known, level.symm.trans has⟩

theorem SameScopes.narrows (same : SameScopes before after)
    (serves : ∀ {scope}, after.Serves scope → before.Serves scope) : Narrows before after := by
  refine ⟨same.back, fun ⟨found, there⟩ dead => ?_, fun index => .inl (same.generation index), serves⟩
  obtain ⟨larger, there, -⟩ := same.forth there
  exact absurd ⟨larger, there⟩ dead

theorem Loses.narrows {owner : ScopeId} (loses : before.Loses owner after)
    (live : before.LiveScope owner) : Narrows before after := by
  have dead := loses.not_liveScope
  refine ⟨fun {scope left} there => ?_, fun {scope} alive gone => ?_, fun index => ?_,
    fun ⟨id, refers⟩ => ⟨id, (loses.refers_before refers).2⟩⟩
  · obtain ⟨ne, -⟩ := loses.liveScope_before ⟨left, there⟩
    exact ⟨left, (loses.get?_of_ne ne).symm.trans there, .refl left⟩
  · by_cases same : scope = owner
    · rw [same]
      exact loses.passed
    · obtain ⟨found, there⟩ := alive
      exact absurd ⟨found, (loses.get?_of_ne same).trans there⟩ gone
  · by_cases here : index = owner.index
    · exact .inr ⟨owner, here.symm, live, dead⟩
    · exact .inl (loses.others here)

end

/-! ## Leveled heaps -/

/-- No generation has begun anew. -/
def Onward (before after : Heap) : Prop :=
  ∀ index, before.scopes.generation index ≤ after.scopes.generation index

section

variable {before after : Heap} {rank : ScopeId → Nat} (onward : Onward before after)

include onward

theorem Widens.issued (widens : Widens before after) {scope : ScopeId} (issued : before.Issued scope) :
    after.Issued scope := by
  obtain ⟨found, there⟩ | passed := issued
  · obtain ⟨larger, there, -⟩ := widens.kept there
    exact .inl ⟨larger, there⟩
  · exact .inr (UInt32.lt_of_lt_of_le passed (onward _))

theorem Narrows.issued (narrows : Narrows before after) {scope : ScopeId}
    (issued : before.Issued scope) : after.Issued scope := by
  obtain ⟨found, there⟩ | passed := issued
  · by_cases live : after.LiveScope scope
    · exact .inl live
    · have later := onward scope.index
      have passed := narrows.passed ⟨found, there⟩ live
      rw [Arena.generation_of_get? _ there] at later
      exact .inr (UInt32.lt_of_le_of_ne later (by simp [passed]))
  · exact .inr (UInt32.lt_of_lt_of_le passed (onward _))

theorem Leveled.widens (leveled : before.Leveled rank) (widens : Widens before after) :
    after.Leveled rank := by
  refine ⟨widens.grounded leveled.grounded, fun serves => ?_,
    fun inherits => widens.issued onward (leveled.parents (widens.inherits inherits)),
    fun inherits => leveled.ranked (widens.inherits inherits)⟩
  obtain serves | lasting := widens.serves serves
  · exact widens.issued onward (leveled.served serves)
  · exact .inl lasting.liveScope

theorem Leveled.narrows (leveled : before.Leveled rank) (narrows : Narrows before after) :
    after.Leveled rank :=
  ⟨narrows.grounded leveled.grounded,
    fun serves => narrows.issued onward (leveled.served (narrows.serves serves)),
    fun inherits => narrows.issued onward (leveled.parents (narrows.inherits inherits)),
    fun inherits => leveled.ranked (narrows.inherits inherits)⟩

end

section

variable {heap : Heap} {parent : ScopeId}

theorem Issued.allocateScope {scope : ScopeId} (issued : heap.Issued scope) (made : Scope) :
    (heap.allocateScope made).2.Issued scope := by
  obtain live | passed := issued
  · exact .inl (liveScope_allocateScope.mpr (.inr live))
  · refine .inr ?_
    have same : (heap.allocateScope made).2.scopes.generation scope.index
        = heap.scopes.generation scope.index := heap.scopes.generation_allocate made _
    rw [same]
    exact passed

/-- A new block inherits from a scope that was there before it. Nothing leads to the block itself,
since its handle is new. -/
theorem Leveled.opens {rank : ScopeId → Nat} (leveled : heap.Leveled rank) (issued : heap.Issued parent) :
    ∃ rank, (heap.allocateScope { parent := some parent }).2.Leveled rank := by
  have fresh := heap.not_issued_allocateScope { parent := some parent }
  have serves {scope : ScopeId}
      (serves : (heap.allocateScope { parent := some parent }).2.Serves scope) : heap.Serves scope :=
    serves
  have apart {scope : ScopeId} (issued : heap.Issued scope) :
      scope ≠ (heap.allocateScope { parent := some parent }).1 := by
    rintro rfl
    exact fresh issued
  have links {scope above : ScopeId}
      (inherits : (heap.allocateScope { parent := some parent }).2.Inherits scope above) :
      scope = (heap.allocateScope { parent := some parent }).1 ∧ above = parent
        ∨ scope ≠ (heap.allocateScope { parent := some parent }).1 ∧ heap.Inherits scope above := by
    obtain ⟨found, there, has⟩ := inherits
    rw [get?_allocateScope] at there
    split at there
    · next same =>
      cases there
      cases has
      exact .inl ⟨same, rfl⟩
    · next ne => exact .inr ⟨ne, found, there, has⟩
  refine ⟨fun scope => if scope = (heap.allocateScope { parent := some parent }).1
    then rank parent + 1 else rank scope, fun {scope} used live => ?_,
    fun used => (leveled.served (serves used)).allocateScope _, fun inherits => ?_,
    fun {scope above} inherits => ?_⟩
  · have known := leveled.served (serves used)
    obtain same | live := liveScope_allocateScope.mp live
    · exact absurd same (apart known)
    · obtain ⟨found, there, rest⟩ := leveled.grounded (serves used) live
      exact ⟨found, (get?_allocateScope_of_live live).trans there, rest⟩
  · obtain ⟨-, rfl⟩ | ⟨-, inherits⟩ := links inherits
    · exact issued.allocateScope _
    · exact (leveled.parents inherits).allocateScope _
  · obtain ⟨rfl, rfl⟩ | ⟨ne, inherits⟩ := links inherits
    · rw [if_pos rfl, if_neg (apart issued)]
      exact Nat.lt_succ_self _
    · rw [if_neg ne, if_neg (apart (leveled.parents inherits))]
      exact leveled.ranked inherits

end

end ScopeMachine.Heap
