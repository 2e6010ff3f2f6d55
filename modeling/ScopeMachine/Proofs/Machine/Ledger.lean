import ScopeMachine.Proofs.Machine.Edits
import ScopeMachine.Proofs.Store.Gains

set_option autoImplicit false

/-!
# The ledger

Everything in a heap that was not there at an earlier time, and who will free it: scopes that were
opened since, with all that they own, bindings that stand alone, and Booleans that were shared since.
What an instruction stores inside a frame goes to a scope that the frame frees by itself.
-/

namespace ScopeMachine

open Heap

/-! ## Stores inside a frame -/

/-- A Boolean that was shared between two machines. -/
def SharedSince (before after : Machine) (id : BindingId) : Prop :=
  ∃ value, after.interned[Payload.boolean value]? = some id
    ∧ before.interned[Payload.boolean value]? = none

/-- Inside a frame the machine has stored more. All of it belongs to the scope for temporaries or to
other given scopes, shared Booleans apart. -/
structure Stores (names : ScopeId → Prop) (before after : Machine) : Prop where
  frames : after.frames = before.frames
  gains : Gains (fun scope => before.disposable? = some scope ∨ names scope)
    (SharedSince before after) before.heap after.heap
  interned : ∀ {payload : Payload} {id}, before.interned[payload]? = some id →
    after.interned[payload]? = some id
  shared : ∀ {payload : Payload} {id}, after.interned[payload]? = some id →
    before.interned[payload]? = some id ∨ ¬ before.heap.Live id

/-- The licence of an instruction that stays in its frame and makes no scopes. -/
def thrifty (names : ScopeId → Prop) : Licence :=
  ⟨False, False, False, True, fun _ => False, names, False, True, True, True⟩

section

variable {names : ScopeId → Prop} {before middle after : Machine}

private theorem SharedSince.trans_left {id : BindingId}
    (kept : ∀ {payload : Payload} {id}, before.interned[payload]? = some id →
      middle.interned[payload]? = some id) (since : SharedSince middle after id) :
    SharedSince before after id := by
  obtain ⟨value, held, none⟩ := since
  refine ⟨value, held, Option.eq_none_iff_forall_ne_some.mpr fun other known => ?_⟩
  rw [kept known] at none
  cases none

theorem Stores.of_heap {heap : Heap} {stack : List StackItem} {registers : Registers}
    {console : Console} {reports : Array Report} {line : Nat}
    (gains : Gains (fun scope => before.disposable? = some scope ∨ names scope) (fun _ => False)
      before.heap heap) :
    Stores names before { before with heap, stack, registers, console, reports, line } :=
  ⟨rfl, gains.mono id False.elim, id, .inl⟩

theorem Stores.refl (machine : Machine) : Stores names machine machine :=
  ⟨rfl, .refl _, id, .inl⟩

theorem Stores.trans (first : Stores names before middle) (second : Stores names middle after) :
    Stores names before after where
  frames := second.frames.trans first.frames
  gains := by
    have place := Machine.disposable?_of_frames first.frames
    refine (first.gains.mono id ?_).trans (second.gains.mono (fun held => place ▸ held)
      fun since => since.trans_left first.interned)
    rintro id ⟨value, held, none⟩
    exact ⟨value, second.interned held, none⟩
  interned held := second.interned (first.interned held)
  shared held := by
    obtain held | new := second.shared held
    · exact first.shared held
    · exact .inr fun live => new (first.gains.live live)

private theorem stores_intern {payload : Payload}
    (shared : payload = .absent ∨ ∃ value, payload = .boolean value) :
    Stores names before (before.withInterned (Machine.internIn before.nothing payload)).2 := by
  obtain rfl | ⟨value, rfl⟩ := shared
  · exact .refl before
  cases known : before.interned[Payload.boolean value]? with
  | some id =>
    simp only [Machine.withInterned, Machine.internIn_of_some (by simp) known]
    exact .refl before
  | none =>
    simp only [Machine.withInterned, Machine.internIn_of_none (by simp) known]
    refine ⟨rfl, gains_allocate ⟨value, ?_, known⟩, fun {payload id} held => ?_,
      fun {payload id} held => ?_⟩
    · exact Std.HashMap.getElem?_insert_self
    · rw [Std.HashMap.getElem?_insert, if_neg]
      · exact held
      · intro same
        rw [← eq_of_beq same, known] at held
        cases held
    · dsimp only at held
      rw [Std.HashMap.getElem?_insert] at held
      split at held
      · cases held
        exact .inr (not_live_allocate before.heap _)
      · exact .inl held

/-- A change that is thrifty stores for the current frame. -/
theorem Edit.stores (edit : Edit (thrifty names) before after) (held : before.disposable? ≠ none) :
    Stores names before after := by
  cases edit with
  | quiet same frames =>
    simp only [Machine.fixtures, Prod.mk.injEq] at same
    obtain ⟨heap, interned, -⟩ := same
    exact ⟨frames.resolve_right id, heap ▸ .refl _, fun held => interned ▸ held,
      fun held => .inl (interned ▸ held)⟩
  | report | write => exact .of_heap (.refl _)
  | allocate drawn lone => exact absurd lone (by simp [held, thrifty])
  | declare scope drawn place => exact .of_heap (gains_declare (place.imp_left And.left) _)
  | redeclare scope drawn place => exact .of_heap (gains_redeclare (.inr place) _)
  | assign => exact .of_heap (gains_modifyBinding _ _)
  | intern payload shared =>
    obtain absent | boolean | none := shared
    · exact stores_intern (.inl absent)
    · exact stores_intern (.inr boolean)
    · exact absurd none held
  | mark => exact .of_heap (gains_modifyBinding _ _)
  | furnish allowed | openScope _ allowed | freeBinding allowed => exact absurd allowed id
  | allocateScope allowed | copyScope allowed => exact absurd allowed id
  | releaseScope _ allowed | freeScope _ allowed => exact absurd allowed id

theorem Edits.stores (edits : Edits (thrifty names) before after)
    (held : before.disposable? ≠ none) : Stores names before after := by
  induction edits with
  | refl => exact .refl before
  | tail _ last stores =>
    refine stores.trans (last.stores ?_)
    rwa [Machine.disposable?_of_frames stores.frames]

end

/-! ## What is new since an earlier time -/

/-- Nothing is gone since an earlier time. All that is new are scopes that were made and what they
own, bindings that stand alone, and shared Booleans. -/
structure Ledger (start now : Machine) (made : ScopeId → Prop) (alone : BindingId → Prop) :
    Prop where
  scopes : ∀ {scope}, start.heap.LiveScope scope → now.heap.LiveScope scope
  entered : ∀ {scope}, now.heap.LiveScope scope → start.heap.LiveScope scope ∨ made scope
  later : ∀ {scope}, made scope → ¬ start.heap.LiveScope scope
  live : ∀ {id}, start.heap.Live id → now.heap.Live id
  covered : ∀ {id}, now.heap.Live id → start.heap.Live id
    ∨ (∃ scope, made scope ∧ now.heap.Owns scope id) ∨ alone id ∨ SharedSince start now id
  owned : ∀ {scope id}, made scope → now.heap.Owns scope id → ¬ start.heap.Live id
  single : ∀ {id}, alone id → ¬ start.heap.Live id
  interned : ∀ {payload : Payload} {id}, start.interned[payload]? = some id →
    now.interned[payload]? = some id
  shared : ∀ {id}, SharedSince start now id → ¬ start.heap.Live id

theorem ledger_refl (machine : Machine) :
    Ledger machine machine (fun _ => False) (fun _ => False) where
  scopes := id
  entered := .inl
  later := False.elim
  live := id
  covered := .inl
  owned := False.elim
  single := False.elim
  interned := id
  shared := fun ⟨_, held, missing⟩ => by
    rw [missing] at held
    cases held

namespace Ledger

variable {start now after : Machine} {made wider : ScopeId → Prop} {alone more : BindingId → Prop}
  (ledger : Ledger start now made alone)

include ledger

/-- Only the heap and the shared values count. -/
theorem same (heap : after.heap = now.heap) (interned : after.interned = now.interned) :
    Ledger start after made alone := by
  obtain ⟨scopes, entered, later, live, covered, owned, single, kept, shared⟩ := ledger
  unfold SharedSince at covered shared
  rw [← interned] at kept shared covered
  rw [← heap] at scopes entered live covered owned
  exact ⟨scopes, entered, later, live, covered, owned, single, kept, shared⟩

/-- Of the scopes and bindings that count as new, only those that are there matter. -/
theorem reframe (made_le : ∀ {scope}, now.heap.LiveScope scope → made scope → wider scope)
    (made_ge : ∀ {scope}, wider scope → made scope)
    (alone_le : ∀ {id}, now.heap.Live id → alone id → more id)
    (alone_ge : ∀ {id}, more id → alone id) : Ledger start now wider more :=
  { ledger with
    entered := fun live => (ledger.entered live).imp_right (made_le live)
    later := fun held => ledger.later (made_ge held)
    covered := fun live => by
      obtain held | ⟨scope, new, owns⟩ | held | since := ledger.covered live
      · exact .inl held
      · exact .inr (.inl ⟨scope, made_le owns.liveScope new, owns⟩)
      · exact .inr (.inr (.inl (alone_le live held)))
      · exact .inr (.inr (.inr since))
    owned := fun held => ledger.owned (made_ge held)
    single := fun held => ledger.single (alone_ge held) }

/-- A machine with the same heap may count others as new, if what is there stays the same. -/
theorem becomes (heap : after.heap = now.heap) (interned : after.interned = now.interned)
    (made_le : ∀ {scope}, after.heap.LiveScope scope → made scope → wider scope)
    (made_ge : ∀ {scope}, wider scope → made scope)
    (alone_le : ∀ {id}, after.heap.Live id → alone id → more id)
    (alone_ge : ∀ {id}, more id → alone id) : Ledger start after wider more :=
  (ledger.same heap interned).reframe made_le made_ge alone_le alone_ge

/-- What is stored inside a frame belongs to scopes that are new themselves. -/
theorem stores {names : ScopeId → Prop} (stores : Stores names now after)
    (places : ∀ {scope id}, now.disposable? = some scope ∨ names scope →
      after.heap.Owns scope id → ¬ now.heap.Live id → made scope) :
    Ledger start after made alone where
  scopes held := stores.gains.scopes.mpr (ledger.scopes held)
  entered live := ledger.entered (stores.gains.scopes.mp live)
  later := ledger.later
  live held := stores.gains.live (ledger.live held)
  covered {id} live := by
    by_cases before : now.heap.Live id
    · obtain held | ⟨scope, new, owns⟩ | held | ⟨value, held, none⟩ := ledger.covered before
      · exact .inl held
      · exact .inr (.inl ⟨scope, new, stores.gains.owned owns⟩)
      · exact .inr (.inr (.inl held))
      · exact .inr (.inr (.inr ⟨value, stores.interned held, none⟩))
    · obtain live | ⟨scope, place, owns⟩ | since := stores.gains.covered live
      · exact absurd live before
      · exact .inr (.inl ⟨scope, places place owns before, owns⟩)
      · exact .inr (.inr (.inr (since.trans_left ledger.interned)))
  owned new owns := by
    obtain owns | fresh := stores.gains.owns owns
    · exact ledger.owned new owns
    · exact fun held => fresh (ledger.live held)
  single := ledger.single
  interned held := stores.interned (ledger.interned held)
  shared := by
    rintro id ⟨value, held, none⟩
    obtain held | fresh := stores.shared held
    · exact ledger.shared ⟨value, held, none⟩
    · exact fun held => fresh (ledger.live held)

/-- A new scope is made that owns nothing yet. -/
theorem opens {scope : Scope} (empty : scope.own = #[]) :
    Ledger start { now with heap := (now.heap.allocateScope scope).2 }
      (fun other => other = (now.heap.allocateScope scope).1 ∨ made other) alone where
  scopes held := liveScope_allocateScope.mpr (.inr (ledger.scopes held))
  entered live := by
    obtain rfl | live := liveScope_allocateScope.mp live
    · exact .inr (.inl rfl)
    · exact (ledger.entered live).imp_right .inr
  later := by
    rintro _ (rfl | held)
    · exact fun live => not_live_allocateScope now.heap scope (ledger.scopes live)
    · exact ledger.later held
  live := ledger.live
  covered live := by
    obtain held | ⟨owner, new, owns⟩ | rest := ledger.covered live
    · exact .inl held
    · exact .inr (.inl ⟨owner, .inr new, (owns_allocateScope empty).mpr owns⟩)
    · exact .inr (.inr rest)
  owned := by
    rintro _ id (rfl | held) owns
    · exact absurd ((owns_allocateScope empty).mp owns).liveScope
        (not_live_allocateScope now.heap scope)
    · exact ledger.owned held ((owns_allocateScope empty).mp owns)
  single := ledger.single
  interned := ledger.interned
  shared := ledger.shared

/-- Bindings are stored that belong to scopes which are new themselves, or that stand alone. -/
theorem gains {places : ScopeId → Prop} {heap : Heap}
    (gains : Gains places more now.heap heap) (new : ∀ {scope}, places scope → made scope)
    (alone_le : ∀ {id}, alone id → more id) (fresh : ∀ {id}, more id → alone id ∨ ¬ now.heap.Live id) :
    Ledger start { now with heap } made more where
  scopes held := gains.scopes.mpr (ledger.scopes held)
  entered live := ledger.entered (gains.scopes.mp live)
  later := ledger.later
  live held := gains.live (ledger.live held)
  covered live := by
    obtain live | ⟨scope, place, owns⟩ | held := gains.covered live
    · obtain held | ⟨scope, new, owns⟩ | held | since := ledger.covered live
      · exact .inl held
      · exact .inr (.inl ⟨scope, new, gains.owned owns⟩)
      · exact .inr (.inr (.inl (alone_le held)))
      · exact .inr (.inr (.inr since))
    · exact .inr (.inl ⟨scope, new place, owns⟩)
    · exact .inr (.inr (.inl held))
  owned new owns := by
    obtain owns | fresh := gains.owns owns
    · exact ledger.owned new owns
    · exact fun held => fresh (ledger.live held)
  single held live := by
    obtain held | new := fresh held
    · exact ledger.single held live
    · exact new (ledger.live live)
  interned := ledger.interned
  shared := ledger.shared

/-- A new scope is made and filled, and a binding that stands alone. -/
theorem seals {scope : Scope} {heap : Heap} (empty : scope.own = #[])
    (filled : Gains (· = (now.heap.allocateScope scope).1) (fun _ => False)
      (now.heap.allocateScope scope).2 heap) (value : Binding) :
    Ledger start { now with heap := (heap.allocate value).2 }
      (fun other => other = (now.heap.allocateScope scope).1 ∨ made other)
      (fun id => id = (heap.allocate value).1 ∨ alone id) := by
  have opened := ledger.opens empty
  have owning := opened.gains (filled.mono id False.elim) .inl id .inl
  have stores : Gains (fun _ => False) (fun id => id = (heap.allocate value).1 ∨ alone id) heap
      (heap.allocate value).2 := gains_allocate (.inl rfl)
  exact owning.gains stores False.elim .inr fun held =>
    held.elim (fun same => .inr (same ▸ heap.not_live_allocate value)) .inl

/-- A scope that was made since is freed with all that it owns. -/
theorem loses {scope : ScopeId} {left : Heap} (loses : now.heap.Loses scope left)
    (new : made scope) : Ledger start { now with heap := left } made alone where
  scopes {other} held := by
    obtain ⟨found, there⟩ := ledger.scopes held
    refine ⟨found, ?_⟩
    rw [loses.get?_of_ne, there]
    rintro rfl
    exact ledger.later new held
  entered live := ledger.entered (loses.liveScope_before live).2
  later := ledger.later
  live held := loses.live (ledger.live held) fun owns => ledger.owned new owns held
  covered {id} live := by
    have free : ¬ now.heap.Owns scope id := by
      intro owns
      obtain ⟨value, there⟩ := live
      rw [loses.owned owns] at there
      cases there
    have before : now.heap.Live id := by
      obtain ⟨value, there⟩ := live
      exact ⟨value, (loses.kept free).symm.trans there⟩
    obtain held | ⟨owner, new, owns⟩ | rest := ledger.covered before
    · exact .inl held
    · refine .inr (.inl ⟨owner, new, ?_⟩)
      obtain ⟨found, there, member⟩ := owns
      refine ⟨found, (loses.get?_of_ne ?_).trans there, member⟩
      rintro rfl
      exact free ⟨found, there, member⟩
    · exact .inr (.inr rest)
  owned new owns := ledger.owned new (loses.owns_before owns).2
  single := ledger.single
  interned := ledger.interned
  shared := ledger.shared

end Ledger

end ScopeMachine
