import ScopeMachine.Proofs.Store.Arena

set_option autoImplicit false

/-!
# Arenas hand out fresh handles

An arena beside an account of its uses. The account is a map from handles to values, where a new
handle differs from all earlier ones, and a pile of vacated slots. However an arena is used, the
account describes it, as long as no slot is freed so often that its generation wraps around.
-/

namespace ScopeMachine

variable {region α : Type}

/-- One use of an arena. -/
inductive Use (region α : Type) where
  | allocate (value : α)
  | get (handle : Handle region)
  | modify (handle : Handle region) (f : α → α)
  | free (handle : Handle region)

/-- What the uses of an arena amount to. -/
structure Account (region α : Type) where
  /-- The handles handed out, the latest in front. -/
  issued : List (Handle region) := []
  /-- The value last written through a handle, until the handle is freed. -/
  held : Handle region → Option α := fun _ => none
  /-- The slots that wait for a new value, the one freed last in front. -/
  waiting : List Nat := []
  /-- The slots that were freed, each as often as it was. -/
  freed : List Nat := []

namespace Account

variable (account : Account region α)

def issue (handle : Handle region) (value : α) : Account region α :=
  { account with
    issued := handle :: account.issued
    held := fun other => if other = handle then some value else account.held other
    waiting := account.waiting.tail }

def write (handle : Handle region) (f : α → α) : Account region α :=
  { account with
    held := fun other =>
      if other = handle then (account.held other).map f else account.held other }

/-- A handle is freed once only. -/
def release (handle : Handle region) : Account region α :=
  if (account.held handle).isSome then
    { account with
      held := fun other => if other = handle then none else account.held other
      waiting := handle.index :: account.waiting
      freed := handle.index :: account.freed }
  else account

/-- The number of handles that hold a value. -/
def live : Nat :=
  account.issued.countP fun handle => (account.held handle).isSome

end Account

def Use.perform (state : Arena region α × Account region α) :
    Use region α → Arena region α × Account region α
  | .allocate value =>
    ((state.1.allocate value).2, state.2.issue (state.1.allocate value).1 value)
  | .get _ => state
  | .modify handle f => (state.1.modify handle f, state.2.write handle f)
  | .free handle => ((state.1.free handle).2, state.2.release handle)

def Arena.afterUses (arena : Arena region α) (uses : List (Use region α)) :
    Arena region α × Account region α :=
  uses.foldl Use.perform (arena, {})

/-- The slots on the way of a link, each of them vacant and linked to the next. -/
inductive Arena.Chain (arena : Arena region α) : Option Nat → List Nat → Prop
  | done : Chain arena none []
  | link {index : Nat} {generation : UInt32} {next : Option Nat} {rest : List Nat}
      (slot : arena.slots[index]? = some (.vacant generation next))
      (onwards : Chain arena next rest) : Chain arena (some index) (index :: rest)

/-- A value that is freed leaves a vacant slot, which leads to the one freed before. -/
theorem Arena.free_of_get? (arena : Arena region α) {handle : Handle region} {value : α}
    (found : arena.get? handle = some value) :
    arena.free handle = (some value,
      { slots := arena.slots.setIfInBounds handle.index (.vacant (handle.generation + 1) arena.freeHead)
        freeHead := some handle.index
        size := arena.size - 1 }) := by
  rw [free, found]

private theorem Arena.slots_modify_vacant (arena : Arena region α) {changed : Handle region} {f : α → α}
    {index : Nat} {generation : UInt32} {next : Option Nat} :
    (arena.modify changed f).slots[index]? = some (.vacant generation next)
      ↔ arena.slots[index]? = some (.vacant generation next) := by
  simp only [modify, Array.getElem?_modify]
  split
  · cases arena.slots[index]? with
    | none => simp
    | some slot =>
      cases slot with
      | occupied current value =>
        by_cases same : current = changed.generation <;> simp [same]
      | vacant current link => simp
  · rfl

namespace Arena.Chain

variable {arena after : Arena region α} {head : Option Nat} {path : List Nat}

theorem vacant (chain : arena.Chain head path) {index : Nat} (member : index ∈ path) :
    ∃ generation next, arena.slots[index]? = some (.vacant generation next) := by
  induction chain with
  | done => cases member
  | link slot onwards ih =>
    obtain rfl | member := List.mem_cons.mp member
    · exact ⟨_, _, slot⟩
    · exact ih member

/-- A chain stays as long as its slots do. -/
theorem imp (chain : arena.Chain head path)
    (same : ∀ {index generation next}, index ∈ path →
      arena.slots[index]? = some (.vacant generation next) →
      after.slots[index]? = some (.vacant generation next)) : after.Chain head path := by
  induction chain with
  | done => exact .done
  | link slot onwards ih =>
    exact .link (same (.head _) slot) (ih fun member => same (.tail _ member))

end Arena.Chain

/-! ## One use -/

/-- An account that is true of an arena. -/
structure Account.Describes (account : Account region α) (arena : Arena region α) : Prop where
  held : ∀ handle, arena.get? handle = account.held handle
  issued : ∀ {handle}, (account.held handle).isSome → handle ∈ account.issued
  nodup : account.issued.Nodup
  size : arena.size = account.live
  chain : arena.Chain arena.freeHead account.waiting
  apart : account.waiting.Nodup
  waiting : ∀ {index generation next}, arena.slots[index]? = some (.vacant generation next) →
    index ∈ account.waiting
  inside : ∀ handle ∈ account.issued, handle.index < arena.slots.size
  generation : ∀ index, arena.generation index = UInt32.ofNat (account.freed.count index)
  /-- Handles have generations that their slots have had. -/
  past : ∀ handle ∈ account.issued, handle.generation.toNat ≤ account.freed.count handle.index
  /-- A handle that is freed has an earlier generation than its slot. -/
  ended : ∀ handle ∈ account.issued, account.held handle = none →
    handle.generation.toNat < account.freed.count handle.index

namespace Account

variable {account : Account region α} {arena : Arena region α}

theorem describes_empty : ({} : Account region α).Describes {} where
  held _ := rfl
  issued held := by cases held
  nodup := .nil
  size := rfl
  chain := .done
  apart := .nil
  waiting slot := by simp at slot
  inside _ member := by cases member
  generation _ := rfl
  past _ member := by cases member
  ended _ member := by cases member

/-- The count of the handles that hold a value, when one of them is freed. -/
theorem live_release {handle : Handle region} (nodup : account.issued.Nodup)
    (member : handle ∈ account.issued) (holds : (account.held handle).isSome) :
    account.live = (account.release handle).live + 1 := by
  have perm := List.perm_cons_erase member
  have gone : handle ∉ account.issued.erase handle := nodup.not_mem_erase
  have others : (account.issued.erase handle).countP (fun other => (account.held other).isSome)
      = (account.issued.erase handle).countP
        (fun other => (if other = handle then none else account.held other).isSome) := by
    refine List.countP_congr fun other inside => ?_
    have apart : other ≠ handle := fun same => gone (same ▸ inside)
    rw [if_neg apart]
  simp only [live, release, if_pos holds]
  rw [perm.countP_eq, perm.countP_eq, List.countP_cons, List.countP_cons, others, if_pos holds]
  simp

namespace Describes

variable (describes : account.Describes arena)

include describes

/-- The slot freed last is used first, and without a vacant slot the arena grows. -/
theorem allocate_cases (value : α) :
    (account.waiting = [] ∧ arena.freeHead = none ∧ arena.allocate value = arena.push value)
      ∨ ∃ index generation next rest, account.waiting = index :: rest
        ∧ arena.freeHead = some index ∧ arena.slots[index]? = some (.vacant generation next)
        ∧ arena.Chain next rest
        ∧ arena.allocate value = (⟨index, generation⟩,
          { slots := arena.slots.setIfInBounds index (.occupied generation value)
            freeHead := next
            size := arena.size + 1 }) := by
  have chain := describes.chain
  generalize freed : arena.freeHead = head at chain
  generalize account.waiting = waiting at chain
  cases chain with
  | done => exact .inl ⟨rfl, rfl, by rw [Arena.allocate, freed]⟩
  | @link index generation next rest slot onwards =>
    exact .inr ⟨index, generation, next, rest, rfl, rfl, slot, onwards, by
      simp [Arena.allocate, freed, slot]⟩

/-- A new handle differs from all earlier ones. -/
theorem fresh (few : ∀ index, account.freed.count index < UInt32.size) (value : α) :
    (arena.allocate value).1 ∉ account.issued := by
  intro member
  obtain ⟨-, -, grows⟩ | ⟨index, generation, next, rest, -, -, slot, -, reuses⟩ :=
    describes.allocate_cases value
  · rw [grows] at member
    exact Nat.lt_irrefl _ (describes.inside _ member)
  · rw [reuses] at member
    have gone : account.held ⟨index, generation⟩ = none := by
      rw [← describes.held]
      simp [Arena.get?, slot]
    have same : generation = UInt32.ofNat (account.freed.count index) := by
      rw [← describes.generation]
      simp [Arena.generation, slot]
    have before : generation.toNat < account.freed.count index := describes.ended _ member gone
    rw [same, UInt32.toNat_ofNat_of_lt' (few index)] at before
    exact Nat.lt_irrefl _ before

private theorem slots_allocate (value : α) :
    (arena.allocate value).1.index < (arena.allocate value).2.slots.size
      ∧ arena.slots.size ≤ (arena.allocate value).2.slots.size
      ∧ (arena.allocate value).2.size = arena.size + 1
      ∧ (arena.allocate value).2.Chain (arena.allocate value).2.freeHead account.waiting.tail
      ∧ ∀ {index generation next},
        (arena.allocate value).2.slots[index]? = some (.vacant generation next) →
          index ∈ account.waiting.tail := by
  obtain ⟨empty, head, grows⟩ | ⟨index, generation, next, rest, first, -, slot, onwards, reuses⟩ :=
    describes.allocate_cases value
  · rw [grows, empty]
    refine ⟨by simp [Arena.push], by simp [Arena.push], rfl, ?_, fun {index generation next} slot => ?_⟩
    · rw [show (arena.push value).2.freeHead = none from head]
      exact .done
    · simp only [Arena.push, Array.getElem?_push] at slot
      split at slot
      · cases slot
      · have member := describes.waiting slot
        rw [empty] at member
        cases member
  · have apart := describes.apart
    rw [first] at apart
    have other := (List.nodup_cons.mp apart).1
    obtain ⟨inside, -⟩ := Array.getElem?_eq_some_iff.mp slot
    rw [reuses, first]
    refine ⟨by simpa using inside, by simp, rfl, onwards.imp fun {place _ _} member slot => ?_,
      fun {place generation next} there => ?_⟩
    · have ne : index ≠ place := fun same => other (same ▸ member)
      exact (Array.getElem?_setIfInBounds_ne ne).trans slot
    · by_cases here : index = place
      · subst here
        rw [Array.getElem?_setIfInBounds_self_of_lt inside] at there
        cases there
      · rw [Array.getElem?_setIfInBounds_ne here] at there
        have member := describes.waiting there
        rw [first] at member
        exact (List.mem_cons.mp member).resolve_left (Ne.symm here)

theorem allocate (few : ∀ index, account.freed.count index < UInt32.size) (value : α) :
    (account.issue (arena.allocate value).1 value).Describes (arena.allocate value).2 := by
  have fresh := describes.fresh few value
  obtain ⟨inside, grows, size, chain, waiting⟩ := describes.slots_allocate value
  have stored := (arena.get?_allocate value (arena.allocate value).1).trans (if_pos rfl)
  have current := Arena.generation_of_get? _ stored
  rw [arena.generation_allocate, describes.generation] at current
  refine
    { held := fun handle => ?_
      issued := fun {handle} holds => ?_
      nodup := List.nodup_cons.mpr ⟨fresh, describes.nodup⟩
      size := ?_
      chain := chain
      apart := describes.apart.tail
      waiting := waiting
      inside := fun handle member => ?_
      generation := fun index => (arena.generation_allocate value index).trans (describes.generation index)
      past := fun handle member => ?_
      ended := fun handle member gone => ?_ }
  · rw [arena.get?_allocate, describes.held]
    rfl
  · by_cases same : handle = (arena.allocate value).1
    · exact same ▸ .head _
    · exact .tail _ (describes.issued (by simpa [issue, same] using holds))
  · have others : account.issued.countP (fun handle => (account.held handle).isSome)
        = account.issued.countP (fun other => (if other = (arena.allocate value).1 then some value
          else account.held other).isSome) := by
      refine List.countP_congr fun other member => ?_
      have apart : other ≠ (arena.allocate value).1 := fun same => fresh (same ▸ member)
      rw [if_neg apart]
    rw [size, describes.size, live, others]
    simp [live, issue]
  · obtain rfl | member := List.mem_cons.mp member
    · exact inside
    · exact Nat.lt_of_lt_of_le (describes.inside handle member) grows
  · obtain rfl | member := List.mem_cons.mp member
    · rw [← current, UInt32.toNat_ofNat_of_lt' (few _)]
      exact Nat.le_refl _
    · exact describes.past handle member
  · obtain rfl | member := List.mem_cons.mp member
    · simp [issue] at gone
    · have apart : handle ≠ (arena.allocate value).1 := fun same => fresh (same ▸ member)
      exact describes.ended handle member (by simpa [issue, apart] using gone)

theorem modify (handle : Handle region) (f : α → α) :
    (account.write handle f).Describes (arena.modify handle f) := by
  have holds (other : Handle region) :
      ((account.write handle f).held other).isSome = (account.held other).isSome := by
    simp only [write]
    split <;> simp
  refine
    { held := fun other => ?_
      issued := fun {other} held => describes.issued (holds other ▸ held)
      nodup := describes.nodup
      size := describes.size.trans (List.countP_congr fun other _ => by rw [holds other])
      chain := describes.chain.imp fun _ slot => arena.slots_modify_vacant.mpr slot
      apart := describes.apart
      waiting := fun slot => describes.waiting (arena.slots_modify_vacant.mp slot)
      inside := fun other member => ?_
      generation := fun index => (arena.generation_modify handle f index).trans (describes.generation index)
      past := describes.past
      ended := fun other member gone => describes.ended other member ?_ }
  · rw [arena.get?_modify, describes.held]
    rfl
  · simpa [Arena.modify] using describes.inside other member
  · rw [← Option.not_isSome_iff_eq_none, ← holds other, gone]
    simp

theorem free (handle : Handle region) :
    (account.release handle).Describes (arena.free handle).2 := by
  cases found : arena.get? handle with
  | none =>
    have held : account.held handle = none := describes.held handle ▸ found
    simpa [Arena.free, found, release, held] using describes
  | some value =>
    have held : account.held handle = some value := describes.held handle ▸ found
    have holds : (account.held handle).isSome := by rw [held]; rfl
    have member := describes.issued holds
    have inside := describes.inside handle member
    have count := describes.generation handle.index
    rw [arena.generation_of_get? found] at count
    have occupied {generation : UInt32} {next : Option Nat} :
        arena.slots[handle.index]? ≠ some (.vacant generation next) := by
      intro slot
      simp [Arena.get?, slot] at found
    have outside : handle.index ∉ account.waiting := fun waits => by
      obtain ⟨_, _, slot⟩ := describes.chain.vacant waits
      exact occupied slot
    have size := describes.size.trans (live_release describes.nodup member holds)
    have more (index : Nat) :
        account.freed.count index ≤ (handle.index :: account.freed).count index := by
      exact (List.sublist_cons_self _ _).count_le _
    have slots := congrArg Prod.snd (arena.free_of_get? found)
    have books : account.release handle = _ := if_pos holds
    rw [books] at size ⊢
    refine
      { held := fun other => ?_
        issued := fun {other} held => ?_
        nodup := describes.nodup
        size := ?_
        chain := ?_
        apart := List.nodup_cons.mpr ⟨outside, describes.apart⟩
        waiting := fun {index generation next} slot => ?_
        inside := fun other member => ?_
        generation := fun index => ?_
        past := fun other member => Nat.le_trans (describes.past other member) (more other.index)
        ended := fun other member gone => ?_ }
    · rw [arena.get?_free, describes.held]
    · by_cases same : other = handle
      · exact same ▸ member
      · exact describes.issued (by simpa [same] using held)
    · rw [slots]
      exact Nat.sub_eq_of_eq_add size
    · rw [slots]
      refine .link (Array.getElem?_setIfInBounds_self_of_lt inside)
        (describes.chain.imp fun {index _ _} waits slot => ?_)
      have ne : handle.index ≠ index := fun same => outside (same ▸ waits)
      exact (Array.getElem?_setIfInBounds_ne ne).trans slot
    · by_cases here : handle.index = index
      · exact here ▸ .head _
      · rw [slots] at slot
        rw [Array.getElem?_setIfInBounds_ne here] at slot
        exact .tail _ (describes.waiting slot)
    · rw [slots]
      simpa using describes.inside other member
    · rw [arena.generation_free found, List.count_cons]
      by_cases here : index = handle.index
      · subst here
        rw [if_pos rfl, count]
        simp [UInt32.ofNat_add]
      · rw [if_neg here, describes.generation]
        simp [Ne.symm here]
    · by_cases here : other.index = handle.index
      · have before := describes.past other member
        rw [here] at before ⊢
        simpa using Nat.lt_succ_of_le before
      · refine Nat.lt_of_lt_of_le (describes.ended other member ?_) (more other.index)
        have apart : other ≠ handle := fun same => here (same ▸ rfl)
        simpa [apart] using gone

end Describes

end Account

/-! ## All uses -/

section

variable {state : Arena region α × Account region α}

theorem Use.freed_foldl (uses : List (Use region α)) (state : Arena region α × Account region α) :
    state.2.freed <:+ (uses.foldl perform state).2.freed := by
  induction uses generalizing state with
  | nil => exact List.suffix_rfl
  | cons use rest ih =>
    refine List.IsSuffix.trans ?_ (ih (perform state use))
    cases use with
    | allocate value => exact List.suffix_rfl
    | get handle => exact List.suffix_rfl
    | modify handle f => exact List.suffix_rfl
    | free handle =>
      simp only [perform, Account.release]
      split
      · exact List.suffix_cons _ _
      · exact List.suffix_rfl

theorem Use.count_freed_lt {uses : List (Use region α)}
    (few : ∀ index, (uses.foldl perform state).2.freed.count index < UInt32.size) (index : Nat) :
    state.2.freed.count index < UInt32.size :=
  Nat.lt_of_le_of_lt ((freed_foldl uses state).sublist.count_le index) (few index)

namespace Account.Describes

variable (describes : state.2.Describes state.1)

include describes

theorem perform (few : ∀ index, state.2.freed.count index < UInt32.size) (use : Use region α) :
    (use.perform state).2.Describes (use.perform state).1 := by
  cases use with
  | allocate value => exact describes.allocate few value
  | get handle => exact describes
  | modify handle f => exact describes.modify handle f
  | free handle => exact describes.free handle

theorem performAll {uses : List (Use region α)}
    (few : ∀ index, (uses.foldl Use.perform state).2.freed.count index < UInt32.size) :
    (uses.foldl Use.perform state).2.Describes (uses.foldl Use.perform state).1 := by
  induction uses generalizing state with
  | nil => exact describes
  | cons use rest ih => exact ih (describes.perform (Use.count_freed_lt few) use) few

/-- A handle that was freed holds nothing after any further use. -/
theorem stays_freed {handle : Handle region} (member : handle ∈ state.2.issued)
    (gone : state.2.held handle = none) {uses : List (Use region α)}
    (few : ∀ index, (uses.foldl Use.perform state).2.freed.count index < UInt32.size) :
    (uses.foldl Use.perform state).2.held handle = none := by
  induction uses generalizing state with
  | nil => exact gone
  | cons use rest ih =>
    have now := Use.count_freed_lt few
    refine ih (describes.perform now use) ?_ ?_ few
    · cases use with
      | allocate value => exact .tail _ member
      | get other => exact member
      | modify other f => exact member
      | free other =>
        simp only [Use.perform, release]
        split <;> exact member
    · cases use with
      | allocate value =>
        have other : handle ≠ (state.1.allocate value).1 := fun same =>
          describes.fresh now value (same ▸ member)
        simpa [Use.perform, issue, other] using gone
      | get other => exact gone
      | modify other f => simp [Use.perform, write, gone]
      | free other =>
        simp only [Use.perform, release]
        split
        · simp [gone]
        · exact gone

end Account.Describes

end

/-- A change through a stale handle changes nothing. -/
theorem Arena.modify_of_stale (arena : Arena region α) {handle : Handle region}
    (stale : arena.get? handle = none) (f : α → α) : arena.modify handle f = arena := by
  have same : (arena.modify handle f).slots = arena.slots := by
    refine Array.ext_getElem? fun index => ?_
    simp only [modify, Array.getElem?_modify]
    split
    · next here =>
      subst here
      simp only [get?] at stale
      cases slot : arena.slots[handle.index]? with
      | none => rfl
      | some content =>
        cases content with
        | occupied generation value =>
          have apart : generation ≠ handle.generation := fun own => by simp [slot, own] at stale
          simp [apart]
        | vacant generation next => rfl
    · rfl
  have whole : arena.modify handle f = { arena with slots := (arena.modify handle f).slots } := rfl
  rw [whole, same]

/-- However an arena is used, starting from an empty one, it is a map whose keys are fresh, if no
slot is freed so often that its generation wraps around. New handles differ from all earlier ones. A
handle finds the value last written through it until it is freed, and nothing ever after. It is freed
once, and the arena counts the handles that were not. The links lead through the vacant slots, each
once, from the one freed last, which is used first. -/
theorem Arena.fresh_keyed_map {start arena : Arena region α} {account : Account region α}
    (empty : start = {} ∨ ∃ used : Arena region α, start = used.reset) (uses : List (Use region α))
    (done : start.afterUses uses = (arena, account))
    (few : ∀ index, account.freed.count index < UInt32.size) :
    account.issued.Nodup
      ∧ (∀ value, (arena.allocate value).1 ∉ account.issued)
      ∧ (∀ handle, arena.get? handle = account.held handle)
      ∧ (∀ handle ∈ account.issued, account.held handle = none → ∀ more,
        (∀ index, (start.afterUses (uses ++ more)).2.freed.count index < UInt32.size) →
          (start.afterUses (uses ++ more)).1.get? handle = none)
      ∧ (∀ handle f, (arena.modify handle f).get? handle = (account.held handle).map f
        ∧ (account.held handle = none → arena.modify handle f = arena))
      ∧ (∀ handle, (arena.free handle).1 = account.held handle
        ∧ (account.held handle = none → (arena.free handle).2 = arena))
      ∧ arena.size = account.live
      ∧ arena.Chain arena.freeHead account.waiting
      ∧ account.waiting.Nodup
      ∧ (∀ index, index ∈ account.waiting
        ↔ ∃ generation next, arena.slots[index]? = some (.vacant generation next))
      ∧ (∀ index, arena.freeHead = some index →
        ∃ generation next, arena.slots[index]? = some (.vacant generation next))
      ∧ ∀ value, (arena.allocate value).1.index = account.waiting.head?.getD arena.slots.size := by
  have blank : start = {} := by
    obtain rfl | ⟨used, rfl⟩ := empty <;> rfl
  subst blank
  have state : uses.foldl Use.perform (({} : Arena region α), ({} : Account region α))
      = (arena, account) := done
  have describes : account.Describes arena := by
    have along := @Account.Describes.performAll region α ({}, {}) Account.describes_empty uses
    rw [state] at along
    exact along few
  refine ⟨describes.nodup, describes.fresh few, describes.held, fun handle member gone more later => ?_,
    fun handle f => ⟨?_, fun gone => ?_⟩, fun handle => ⟨?_, fun gone => ?_⟩, describes.size,
    describes.chain, describes.apart, fun index => ⟨describes.chain.vacant, ?_⟩, fun index head => ?_,
    fun value => ?_⟩
  · have after : Arena.afterUses {} (uses ++ more) = more.foldl Use.perform (arena, account) := by
      rw [Arena.afterUses, List.foldl_append, state]
    rw [after] at later ⊢
    have still := @Account.Describes.performAll region α (arena, account) describes more later
    rw [still.held]
    exact @Account.Describes.stays_freed region α (arena, account) describes handle member gone more later
  · rw [arena.get?_modify, if_pos rfl, describes.held]
  · exact arena.modify_of_stale ((describes.held handle).trans gone) f
  · exact (arena.free_fst handle).trans (describes.held handle)
  · rw [Arena.free, describes.held, gone]
  · rintro ⟨generation, next, slot⟩
    exact describes.waiting slot
  · have chain := describes.chain
    rw [head] at chain
    generalize account.waiting = waiting at chain
    cases chain with
    | link slot onwards => exact ⟨_, _, slot⟩
  · obtain ⟨none, -, grows⟩ | ⟨index, generation, next, rest, first, -, -, -, reuses⟩ :=
      describes.allocate_cases value
    · rw [grows, none]
      rfl
    · rw [reuses, first]
      rfl

/-- Two values are stored, the first is freed, and its slot is used again. -/
def reuse : List (Use Unit Nat) :=
  [.allocate 1, .allocate 2, .free ⟨0, 0⟩, .allocate 3, .modify ⟨0, 1⟩ (· + 4)]

theorem reuse_fresh :
    (∀ index, (Arena.afterUses {} reuse).2.freed.count index < UInt32.size)
      ∧ (Arena.afterUses {} reuse).2.issued = [⟨0, 1⟩, ⟨1, 0⟩, ⟨0, 0⟩]
      ∧ (∀ value, ((Arena.afterUses {} reuse).1.allocate value).1
        ∉ (Arena.afterUses {} reuse).2.issued)
      ∧ (Arena.afterUses {} reuse).1.get? ⟨0, 1⟩ = some 7
      ∧ (Arena.afterUses {} reuse).1.get? ⟨0, 0⟩ = none
      ∧ (Arena.afterUses {} reuse).1.size = 2 := by
  have few : ∀ index, (Arena.afterUses {} reuse).2.freed.count index < UInt32.size := fun index =>
    Nat.lt_of_le_of_lt List.count_le_length (by decide)
  obtain ⟨-, fresh, held, -, -, -, size, -⟩ := Arena.fresh_keyed_map (.inl rfl) reuse rfl few
  exact ⟨few, rfl, fresh, held _, held _, size⟩

end ScopeMachine
