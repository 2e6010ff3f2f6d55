import ScopeMachine.Proofs.CallEntry
import ScopeMachine.Proofs.Store.Clearing

set_option autoImplicit false

/-!
# Returns

What a return does to the heap. The value that it hands on is as it was, even where it had to be
copied out of a scope that goes. What goes is what the frame owned, and no more than one binding is
new.
-/

namespace ScopeMachine

open Assembly Heap

/-! ## Shedding -/

section

variable {scopes more : List ScopeId} {keep kept last : Option BindingId}
  {machine middle after : Machine} {heap : Heap} {value : Binding}

theorem FreesScopes.append (first : FreesScopes scopes keep kept machine middle)
    (second : FreesScopes more kept last middle after) : FreesScopes (scopes ++ more) keep last machine after := by
  induction first with
  | done => exact second
  | next apart rescues live _ ih => exact .next apart rescues live (ih second)

/-- A new binding belongs to the innermost scope of the current frame at most. -/
theorem Machine.owns_housed {owner : ScopeId} {id : BindingId}
    (owns : (machine.housed heap value).Owns owner id) :
    heap.Owns owner id ∨ machine.disposable? = some owner ∧ id = (heap.allocate value).1 := by
  unfold Machine.housed at owns
  split at owns
  · next scope held =>
    obtain owns | ⟨rfl, rfl, -⟩ := owns_adopt.mp owns
    · exact .inl owns
    · exact .inr ⟨held, rfl⟩
  · exact .inl owns

private theorem Machine.get?_housed (machine : Machine) (heap : Heap) (value : Binding) (id : BindingId) :
    (machine.housed heap value).bindings.get? id
      = if id = (heap.allocate value).1 then some value else heap.bindings.get? id := by
  unfold Machine.housed
  split <;> exact heap.get?_allocate value id

theorem FreesScopes.apart (freesScopes : FreesScopes scopes keep kept machine after) :
    ∀ scope ∈ scopes, machine.disposable? ≠ some scope := by
  induction freesScopes with
  | done => simp
  | next apart rescues live _ ih =>
    intro other member
    obtain rfl | member := List.mem_cons.mp member
    · exact apart
    · cases rescues <;> exact ih other member

/-- Nothing is rescued if what is kept belongs to no scope but one of the calling frame. -/
theorem FreesScopes.stays (freesScopes : FreesScopes scopes keep kept machine after)
    (place : ∀ id ∈ keep, ∀ owner, machine.heap.Owns owner id → machine.disposable? = some owner) :
    kept = keep ∧ Clears scopes machine.heap after.heap := by
  induction freesScopes with
  | done => exact ⟨rfl, clears_nil _⟩
  | @next scope scopes keep kept last machine middle after apart rescues live _ ih =>
    cases rescues with
    | escaped owns => exact absurd (place _ rfl _ owns) apart
    | free =>
      obtain ⟨count, left, frees, loses⟩ := freeScope_of_live live
      rw [frees] at ih
      obtain ⟨rfl, clears⟩ := ih fun id member owner owns => place id member owner (loses.owns_before owns).2
      refine ⟨rfl, .cons live ?_⟩
      rwa [frees]

/-- What is kept stays, or it is copied once, before the scope that it belongs to is freed. -/
theorem FreesScopes.cases (freesScopes : FreesScopes scopes keep kept machine after) (tidy : machine.heap.Tidy) :
    kept = keep ∧ Clears scopes machine.heap after.heap
      ∨ ∃ first last middle id value, scopes = first ++ last
        ∧ (∀ scope ∈ last, machine.disposable? ≠ some scope) ∧ keep = some id
        ∧ Clears first machine.heap middle ∧ middle.bindings.get? id = some value
        ∧ kept = some (middle.allocate value.escaped).1
        ∧ Clears last (machine.housed middle value.escaped) after.heap := by
  induction freesScopes with
  | done => exact .inl ⟨rfl, clears_nil _⟩
  | @next scope scopes keep kept last machine middle after apart rescues live later ih =>
    cases rescues with
    | free =>
      obtain ⟨count, left, frees, loses⟩ := freeScope_of_live live
      obtain ⟨rfl, clears⟩ | ⟨first, others, inner, id, value, rfl, outside, same, clears, rest⟩ :=
        ih (by rw [frees]; exact tidy.loses loses)
      · exact .inl ⟨rfl, .cons live clears⟩
      · exact .inr ⟨scope :: first, others, inner, id, value, rfl, outside, same, .cons live clears, rest⟩
    | @escaped id value owns there =>
      let held : Machine := { machine with heap := machine.housed machine.heap value.escaped }
      have new (owner : ScopeId) (owns : held.heap.Owns owner
          (machine.heap.allocate value.escaped).1) : machine.disposable? = some owner :=
        (Machine.owns_housed owns).elim
          (fun before => absurd before (tidy.not_owns_allocate _ owner)) And.left
      have free : ∀ id ∈ some (machine.heap.allocate value.escaped).1, ¬ held.heap.Owns scope id := by
        rintro _ ⟨⟩ owns
        exact apart (new scope owns)
      have whole : FreesScopes (scope :: scopes) (some (machine.heap.allocate value.escaped).1) last held after :=
        .next apart (.free free) live later
      obtain ⟨rfl, clears⟩ := whole.stays (by rintro _ ⟨⟩; exact new)
      exact .inr ⟨[], scope :: scopes, machine.heap, id, value, rfl, whole.apart, rfl, clears_nil _, there,
        rfl, clears⟩

private theorem Machine.liveScope_housed {scope : ScopeId} :
    (machine.housed heap value).LiveScope scope ↔ heap.LiveScope scope := by
  unfold Machine.housed
  split
  · exact liveScope_adopt
  · exact .rfl

/-- A new binding is listed in the innermost scope of the current frame, behind what that scope owns,
and nowhere else. -/
theorem Machine.level_housed (machine : Machine) (value : Binding) {scope : ScopeId} {found : Scope}
    (there : heap.scopes.get? scope = some found) :
    (machine.housed heap value).scopes.get? scope
      = if machine.disposable? = some scope then
          some { found with own := found.own.push (heap.allocate value).1 }
        else some found := by
  unfold Machine.housed
  split
  · next place held =>
    have level : (heap.declared place value).scopes.get? scope
        = if scope = place then (heap.scopes.get? scope).map fun scope =>
            { scope with own := scope.own.push (heap.allocate value).1 }
          else heap.scopes.get? scope := get?_adopt scope
    rw [level, there, held]
    by_cases same : scope = place
    · rw [if_pos same, if_pos (same ▸ rfl)]
      rfl
    · rw [if_neg same, if_neg fun again => same (Option.some.inj again).symm]
  · next absent =>
    rw [absent, if_neg nofun]
    exact there

/-- Scopes are gone with all that they owned. Nothing else is gone or changed, and nothing is new but
what is kept, which the scope at `place` owns then. -/
structure Heap.Releases (gone : List ScopeId) (place : Option ScopeId) (kept : Option BindingId)
    (before after : Heap) : Prop where
  scopes : ∀ {scope}, after.LiveScope scope ↔ before.LiveScope scope ∧ scope ∉ gone
  levels : ∀ {scope found}, before.scopes.get? scope = some found → scope ∉ gone →
    after.scopes.get? scope = some found
      ∨ place = some scope ∧ ∃ id, kept = some id ∧ ¬ before.Live id
        ∧ after.scopes.get? scope = some { found with own := found.own.push id }
  owned : ∀ {scope id}, scope ∈ gone → before.Owns scope id → ¬ after.Live id
  bindings : ∀ {id}, before.Live id → (∀ scope ∈ gone, ¬ before.Owns scope id) →
    after.bindings.get? id = before.bindings.get? id
  created : ∀ {id}, after.Live id → before.Live id ∨ kept = some id

theorem Heap.Clears.releases {gone : List ScopeId} {place : Option ScopeId} {before after : Heap}
    (clears : Clears gone before after) : Releases gone place kept before after where
  scopes := clears.liveScope
  levels there outside := .inl ((clears.scopes outside).trans there)
  owned := clears.owned
  bindings _ free := clears.bindings free
  created live := .inl (clears.back live)

theorem FreesScopes.releases (freesScopes : FreesScopes scopes keep kept machine after) (tidy : machine.heap.Tidy) :
    Releases scopes machine.disposable? kept machine.heap after.heap := by
  obtain ⟨-, clears⟩ | ⟨first, last, middle, id, value, rfl, -, -, clears, -, rfl, rest⟩ :=
    freesScopes.cases tidy
  · exact clears.releases
  have new := clears.new value.escaped
  have housed {id : BindingId} (live : machine.heap.Live id) :
      (machine.housed middle value.escaped).bindings.get? id = middle.bindings.get? id := by
    rw [machine.get?_housed, if_neg (by rintro rfl; exact new live)]
  refine ⟨?_, fun {scope found} there outside => ?_, fun {scope id} member owns alive => ?_,
    fun {id} live free => ?_, fun {id} live => ?_⟩
  · intro scope
    rw [rest.liveScope, Machine.liveScope_housed, clears.liveScope, List.mem_append, not_or, and_assoc]
  · rw [List.mem_append, not_or] at outside
    have level := machine.level_housed value.escaped ((clears.scopes outside.1).trans there)
    split at level
    · next held => exact .inr ⟨held, _, rfl, new, (rest.scopes outside.2).trans level⟩
    · exact .inl ((rest.scopes outside.2).trans level)
  · have live := tidy.live owns
    have before : middle.Live id := by
      obtain ⟨found, there⟩ := rest.back alive
      exact ⟨found, (housed live).symm.trans there⟩
    by_cases freed : scope ∈ first
    · exact clears.owned freed owns before
    · have inside := (List.mem_append.mp member).resolve_left freed
      obtain ⟨level, there, listed⟩ := clears.owns.mpr ⟨owns, freed⟩
      have still := machine.level_housed value.escaped there
      split at still
      · exact rest.owned inside ⟨_, still, by simp [listed]⟩ alive
      · exact rest.owned inside ⟨_, still, listed⟩ alive
  · rw [rest.bindings fun scope member owns => ?_, housed live,
      clears.bindings fun scope member => free scope (List.mem_append_left _ member)]
    obtain owns | ⟨-, rfl⟩ := Machine.owns_housed owns
    · exact free scope (List.mem_append_right _ member) (clears.owns.mp owns).1
    · exact new live
  · obtain ⟨found, there⟩ := rest.back live
    rw [machine.get?_housed] at there
    split at there
    · next same => exact .inr (congrArg some same.symm)
    · exact .inl (clears.back ⟨found, there⟩)

/-- What a frame hands on has kept its content. -/
structure Heap.Survives (before after : Heap) (id result : BindingId) : Prop where
  content : ∃ value copy, before.bindings.get? id = some value
    ∧ after.bindings.get? result = some copy ∧ copy.tag = value.tag ∧ copy.scope = value.scope
    ∧ copy.body = value.body ∧ copy.payload = value.payload
  other : result = id ∨ ¬ before.Live result

theorem FreesScopes.survives (freesScopes : FreesScopes scopes keep kept machine after) (tidy : machine.heap.Tidy)
    (live : ∀ id ∈ kept, after.heap.Live id) {id : BindingId} (member : id ∈ keep) :
    ∃ result, kept = some result ∧ machine.heap.Survives after.heap id result := by
  obtain ⟨rfl, clears⟩ | ⟨first, last, middle, _, value, rfl, outside, rfl, clears, there, rfl, rest⟩ :=
    freesScopes.cases tidy
  · obtain ⟨value, there⟩ := live id member
    have before := clears.same ⟨value, there⟩
    exact ⟨id, member, ⟨value, value, before.symm.trans there, there, rfl, rfl, rfl, rfl⟩, .inl rfl⟩
  · cases member
    have before := clears.same ⟨value, there⟩
    obtain ⟨copy, held⟩ := live _ rfl
    have same := rest.same ⟨copy, held⟩
    rw [machine.get?_housed, if_pos rfl] at same
    exact ⟨_, rfl, ⟨value, value.escaped, before.symm.trans there, same, rfl, rfl, rfl, rfl⟩,
      .inr (clears.new _)⟩

end

/-! ## Leaving a frame -/

/-- The scopes of a frame are gone, with all that they owned and with the method that it ran on.
Nothing else is gone or changed, and nothing is new but what is kept, which the scope at `place` owns
then. -/
structure Heap.FreesFrame (frame : Frame) (place : Option ScopeId) (kept : Option BindingId)
    (before after : Heap) : Prop where
  scopes : ∀ scope, before.LiveScope scope ∧ ¬ after.LiveScope scope ↔ scope ∈ frame.estate
  bindings : ∀ id, before.Live id ∧ ¬ after.Live id
    ↔ id = frame.receiver ∨ ∃ scope ∈ frame.estate, before.Owns scope id
  opened : ∀ scope, after.LiveScope scope → before.LiveScope scope
  created : ∀ id, after.Live id → before.Live id ∨ kept = some id
  levels : ∀ scope found, before.scopes.get? scope = some found → after.LiveScope scope →
    after.scopes.get? scope = some found
      ∨ place = some scope ∧ ∃ id, kept = some id ∧ ¬ before.Live id
        ∧ after.scopes.get? scope = some { found with own := found.own.push id }
  untouched : ∀ id, before.Live id → after.Live id →
    after.bindings.get? id = before.bindings.get? id

theorem Heap.Releases.freesFrame {frame : Frame} {place : Option ScopeId} {kept : Option BindingId}
    {before after : Heap} (releases : Releases frame.estate place kept before after) (tidy : before.Tidy)
    (live : ∀ scope ∈ frame.estate, before.LiveScope scope) (receiver : before.Live frame.receiver) :
    FreesFrame frame place kept before (after.freeBinding frame.receiver).2 := by
  have remains {id : BindingId} : (after.freeBinding frame.receiver).2.Live id
      ↔ id ≠ frame.receiver ∧ after.Live id := by
    unfold Live
    rw [get?_freeBinding]
    split
    · next same => simp [same]
    · next other => simp [other]
  refine ⟨fun scope => ?_, fun id => ?_, fun scope alive => (releases.scopes.mp alive).1,
    fun id alive => releases.created (remains.mp alive).2,
    fun scope found there alive => releases.levels there (releases.scopes.mp alive).2,
    fun id alive still => ?_⟩
  · refine ⟨fun ⟨alive, gone⟩ => ?_, fun inside => ⟨live scope inside, fun alive => ?_⟩⟩
    · exact Classical.byContradiction fun outside => gone (releases.scopes.mpr ⟨alive, outside⟩)
    · exact (releases.scopes.mp alive).2 inside
  · constructor
    · rintro ⟨⟨value, there⟩, gone⟩
      by_cases same : id = frame.receiver
      · exact .inl same
      · refine .inr (Classical.byContradiction fun free => gone (remains.mpr ⟨same, value, ?_⟩))
        rw [releases.bindings ⟨value, there⟩ fun scope inside owns => free ⟨scope, inside, owns⟩, there]
    · rintro (rfl | ⟨scope, inside, owns⟩)
      · exact ⟨receiver, fun alive => (remains.mp alive).1 rfl⟩
      · exact ⟨tidy.live owns, fun alive => releases.owned inside owns (remains.mp alive).2⟩
  · obtain ⟨other, alive_after⟩ := remains.mp still
    rw [get?_freeBinding, if_neg other]
    exact releases.bindings alive fun scope inside owns => releases.owned inside owns alive_after

section

variable {frame : Frame} {keep rest kept : Option BindingId} {machine middle after : Machine}
  (freesScopes : FreesScopes frame.localScopes keep rest machine middle)
  (disposes : DisposesMethodCopy { frame with localScopes := [] } rest middle kept after)
  (tidy : machine.heap.Tidy)

include freesScopes disposes tidy

theorem DisposesMethodCopy.back {scope : ScopeId} (live : after.heap.LiveScope scope) :
    machine.heap.LiveScope scope := by
  cases disposes with
  | absent | kept => exact ((freesScopes.releases tidy).scopes.mp live).1
  | freed own later => exact (((freesScopes.append later).releases tidy).scopes.mp live).1

/-- What a frame hands on is live, with the content of what was chosen. -/
theorem DisposesMethodCopy.survives (live : ∀ id ∈ kept, after.heap.Live id) {id : BindingId}
    (member : id ∈ keep) : ∃ result, kept = some result ∧ machine.heap.Survives after.heap id result := by
  cases disposes with
  | absent | kept => exact freesScopes.survives tidy live member
  | @freed scope _ left own later =>
    have stays : ∀ id ∈ kept,
        (left.heap.freeBinding frame.receiver).2.bindings.get? id = left.heap.bindings.get? id := by
      intro id inside
      obtain ⟨value, there⟩ := live id inside
      rw [get?_freeBinding] at there ⊢
      split at there
      · cases there
      · next other => rw [if_neg other]
    obtain ⟨result, rfl, survives⟩ := (freesScopes.append later).survives tidy
      (fun id inside => by
        obtain ⟨value, there⟩ := live id inside
        exact ⟨value, (stays id inside).symm.trans there⟩) member
    obtain ⟨value, copy, before, there, same⟩ := survives.content
    exact ⟨result, rfl, ⟨value, copy, before, (stays result rfl).trans there, same⟩, survives.other⟩

theorem DisposesMethodCopy.freesFrame (live : ∀ id ∈ kept, after.heap.Live id) {own : ScopeId}
    (method : frame.methodScope = some own)
    (scopes : ∀ scope ∈ frame.estate, machine.heap.LiveScope scope)
    (receiver : machine.heap.Live frame.receiver)
    (free : ∀ id ∈ keep, id ≠ frame.receiver ∧ ¬ machine.heap.Refers id own)
    (found : keep.isSome) :
    machine.heap.FreesFrame frame machine.disposable? kept after.heap := by
  cases disposes with
  | absent absent => cases absent.symm.trans method
  | @kept _ result again member needs =>
    cases again.symm.trans method
    obtain ⟨id, rfl⟩ := Option.isSome_iff_exists.mp found
    obtain ⟨unlike, unbound⟩ := free id rfl
    obtain ⟨_, same, survives⟩ := freesScopes.survives tidy live (rfl : id ∈ some id)
    cases same.symm.trans member
    obtain rfl | refers := needs
    · exact absurd (survives.other.resolve_right fun gone => gone receiver) (Ne.symm unlike)
    · obtain ⟨value, copy, before, there, -, scope, -⟩ := survives.content
      obtain ⟨_, again, refers⟩ := refers
      cases there.symm.trans again
      exact absurd ⟨value, before, scope.symm.trans refers⟩ unbound
  | @freed scope _ left again later =>
    cases again.symm.trans method
    have estate : frame.estate = frame.localScopes ++ [own] := by rw [Frame.estate, method]; rfl
    have releases := (freesScopes.append later).releases tidy
    rw [← estate] at releases
    exact releases.freesFrame tidy scopes receiver

end

/-! ## Returns of a run -/

/-- What a return yields: the value that it is given, or else what the program has come to. A call
without a value yields its caller, or the method where there is no caller. -/
def Machine.chosen? (machine : Machine) (frame : Frame) (callers : List Frame) (operand : Nat) :
    Option BindingId :=
  if operand ≠ 0 then
    match machine.stack with
    | .binding id :: _ => some id
    | _ => none
  else if callers.isEmpty then
    machine.registers.lastResult
  else
    (machine.heap.bindings.get? frame.caller).map fun caller =>
      if caller.isNull then frame.receiver else frame.caller

theorem Action.yielded_chosen {frame : Frame} {callers : List Frame} {explicit keep : Option BindingId}
    {operand : Nat} {machine reduced after : Machine}
    (yields : Action.yielded frame callers.isEmpty explicit reduced = .ok keep after)
    (top : if operand ≠ 0 then ∃ id, machine.stack.head? = some (.binding id) ∧ explicit = some id
      else explicit = none)
    (heap : reduced.heap = machine.heap) (registers : reduced.registers = machine.registers) :
    keep = machine.chosen? frame callers operand ∧ (callers ≠ [] → keep.isSome) := by
  unfold Machine.chosen?
  by_cases more : operand ≠ 0
  · rw [if_pos more] at top ⊢
    obtain ⟨id, head, rfl⟩ := top
    obtain ⟨rest, stack⟩ := List.head?_eq_some_iff.mp head
    cases yields
    exact ⟨by rw [stack], fun _ => rfl⟩
  · rw [if_neg more] at top ⊢
    subst top
    cases callers with
    | nil =>
      cases yields
      exact ⟨congrArg Registers.lastResult registers, fun call => absurd rfl call⟩
    | cons calling others =>
      have yields : (binding frame.caller >>= fun value =>
          if value.isNull then pure (some frame.receiver) else pure (some frame.caller)) reduced
          = .ok keep after := yields
      rw [if_neg (by simp)]
      cases there : machine.heap.bindings.get? frame.caller with
      | none =>
        have fails : binding frame.caller reduced
            = .error (.staleHandle (.binding frame.caller)) reduced := by
          simp [binding, inspect, Heap.binding, heap, there]
        rw [bind_of_error fails] at yields
        cases yields
      | some value =>
        have reads : binding frame.caller reduced = .ok value reduced := by
          simp [binding, inspect, Heap.binding, heap, there]
        rw [bind_of_ok reads] at yields
        rw [Option.map_some]
        split at yields
        · cases yields
          simp_all
        · cases yields
          simp_all

/-- A call has returned. The calling frame has on its stack what was chosen, or a copy of it, and where
the method is not needed for that the frame has been freed. A copy belongs to the innermost scope of
the calling frame, if there is one that the frame frees by itself. -/
structure Machine.HandsBack (before : Machine) (frame : Frame) (callers : List Frame) (operand : Nat)
    (after : Machine) : Prop where
  frames : after.frames = callers
  yields : ∃ id pushed own rest, before.chosen? frame callers operand = some id
    ∧ after.stack = .binding pushed :: rest ∧ rest <:+ before.stack ∧ rest.length = frame.stackMark
    ∧ before.heap.Survives after.heap id pushed ∧ frame.methodScope = some own
    ∧ (id ≠ frame.receiver → ¬ before.heap.Refers id own →
      before.heap.FreesFrame frame after.disposable? (some pushed) after.heap)

section

variable {lost : ScopeId → Prop} {source : Program} {machine after : Machine} {frame calling : Frame}
  {others : List Frame} {below : Shape} {explicit kept : Option BindingId}
  (leftFrame : LeftFrame lost source machine frame (calling :: others) below explicit kept after)

include leftFrame

/-- A frame that is handed a result goes on with it on its stack, in order. -/
theorem LeftFrame.resumes {more : ScopeId → Prop} (loss : Loss lost more machine.frames after.heap) :
    ∃ final, Action.resumed frame kept after = .ok (.goto frame.returnAddress) final
      ∧ final.heap = after.heap ∧ final.interned = after.interned ∧ final.frames = calling :: others
      ∧ final.stack = .binding (kept.getD after.nothing) :: after.stack
      ∧ InOrder more (.value :: below) final := by
  obtain ⟨_, waiting, -, spans⟩ := leftFrame.back (by simp)
  obtain ⟨inner, rfl, -, lowest⟩ := spans.replace []
  obtain ⟨final, result, frames, inOrder⟩ :=
    (leftFrame.order loss).resumes leftFrame.frames leftFrame.fits leftFrame.values
      (fun held member => by
        rw [leftFrame.fits.length]
        exact Nat.le_trans (lowest held member) (by simp)) leftFrame.saved leftFrame.safe
  refine ⟨final, result, ?_⟩
  rw [Action.resumed_eq leftFrame.frames] at result
  obtain ⟨fault, focuses⟩ | ⟨localScope, focuses⟩ :=
    Action.refocus_cases (Action.handed frame calling kept after)
  · rw [Action.bind_of_error focuses] at result
    cases result
  · rw [Action.bind_of_ok focuses] at result
    cases result
    exact ⟨rfl, rfl, leftFrame.frames, rfl, inOrder⟩

private theorem LeftFrame.hands (dead : ∀ {scope}, lost scope → ¬ after.heap.LiveScope scope) :
    ∃ final, Action.resumed frame kept after = .ok (.goto frame.returnAddress) final
      ∧ final.heap = after.heap ∧ final.frames = calling :: others
      ∧ final.stack = .binding (kept.getD after.nothing) :: after.stack := by
  let more (scope : ScopeId) : Prop :=
    lost scope ∨ frame.methodScope = some scope ∧ after.heap.Stranded scope
  have loss : Loss lost more machine.frames after.heap := by
    refine ⟨.inl, fun {scope} gone => gone.elim dead (·.2.dead), fun head own stranded => ?_⟩
    rw [leftFrame.current] at head
    cases head
    exact .inr ⟨own, stranded⟩
  obtain ⟨final, result, heap, -, frames, stack, -⟩ := leftFrame.resumes loss
  exact ⟨final, result, heap, frames, stack⟩

end

section

variable {program : Program} {compiled : Compiled} (accepted : program.compile = .ok compiled)
  (shape : program.wellShaped = true) (addressable : Addressable program compiled)

include accepted shape addressable

/-- In a run in which no stranded scope comes alive again, a return from the program ends the run with
what the program has come to, and a return from a call hands its result back. The result is live and
has the content of what was chosen before anything was freed. -/
theorem returns_settle (config : Config) (input : List UInt8) (steps : Nat) {before : Machine}
    (good : (Machine.boot config input compiled.pools).StrandsForGood compiled steps)
    (reached : (Machine.boot config input compiled.pools).run compiled steps = .running before)
    {operand : Nat} (next : before.nextOpcode? compiled = some .return)
    (given : before.nextOperand? compiled = some operand) :
    ∃ frame callers, before.frames = frame :: callers
      ∧ if callers = [] then
          ∃ result after, before.advance compiled = .finished result after
            ∧ ∀ id, before.chosen? frame callers operand = some id →
              ∃ last, result = some last ∧ before.heap.Survives after.heap id last
        else ∃ after, before.advance compiled = .running after
          ∧ before.HandsBack frame callers operand after := by
  have counts : True → program.wellShaped = true := fun _ => shape
  obtain ⟨offset, ⟨command, line, depth, kinds⟩, stands, rfl, ⟨-, atCell⟩, -, advances⟩ :=
    placedInOrder_dispatch accepted shape addressable good reached next (by simp) given
  have flows := flows_image accepted counts stands
  obtain ⟨spanning, spans, inOrder⟩ := atCell
  obtain ⟨frame, callers, below, explicit, kept, after, -, leftFrame, top, result⟩ :=
    leftFrame_return flows inOrder spans rfl
  obtain ⟨keep, rest, middle, yields, freesScopes, disposes⟩ := leftFrame.frees
  have order := inOrder.order
  have tidy : before.heap.Tidy := order.guarded.tidy
  have live : ∀ id ∈ kept, after.heap.Live id := fun id member => (leftFrame.safe id member).live
  obtain ⟨rfl, found⟩ := Action.yielded_chosen yields top rfl rfl
  have survives {id : BindingId} (member : before.chosen? frame callers operand = some id) :
      ∃ result, kept = some result ∧ before.heap.Survives after.heap id result :=
    disposes.survives freesScopes tidy live member
  refine ⟨frame, callers, leftFrame.current, ?_⟩
  simp only at result
  rw [result] at advances
  cases callers with
  | nil =>
    rw [if_pos rfl]
    exact ⟨kept, after, advances, fun id chosen => survives chosen⟩
  | cons calling others =>
    rw [if_neg (by simp)]
    obtain ⟨final, resumes, heap, frames, stack⟩ :=
      leftFrame.hands fun lost alive => order.guarded.dead lost (disposes.back freesScopes tidy alive)
    rw [leftFrame.current] at order
    obtain ⟨own, method⟩ := Option.isSome_iff_exists.mp (order.estates.calls List.suffix_rfl (by simp))
    obtain ⟨id, chosen⟩ := Option.isSome_iff_exists.mp (found (by simp))
    obtain ⟨pushed, rfl, stays⟩ := survives chosen
    rw [if_neg (by simp), resumes] at advances
    refine ⟨_, advances, frames, id, pushed, own, after.stack, chosen, stack, leftFrame.suffix,
      leftFrame.height, heap ▸ stays, method, fun unlike unbound => ?_⟩
    have frees := disposes.freesFrame freesScopes tidy live method
      (fun scope inside => order.estates.liveScope (.head _) inside)
      (order.holds (.head _) .receiver).live (fun other member => by
        cases chosen.symm.trans member
        exact ⟨unlike, unbound⟩) (found (by simp))
    have place : (final.goto frame.returnAddress).disposable?
        = Machine.disposable? { before with stack := after.stack, frames := calling :: others } :=
      Machine.disposable?_of_frames frames
    rw [place]
    exact heap ▸ frees

end

/-! ## Returns that do not settle -/

/-- A call returns a value that does not need its method, and another scope than those of its frame is
not as it was. -/
def Machine.DisturbsCaller (before : Machine) (compiled : Compiled) : Prop :=
  ∃ operand after frame callers id own scope level, before.nextOpcode? compiled = some .return
    ∧ before.nextOperand? compiled = some operand ∧ before.advance compiled = .running after
    ∧ before.frames = frame :: callers ∧ callers ≠ [] ∧ before.chosen? frame callers operand = some id
    ∧ frame.methodScope = some own ∧ id ≠ frame.receiver ∧ ¬ before.heap.Refers id own
    ∧ scope ∉ frame.estate ∧ before.heap.scopes.get? scope = some level
    ∧ after.heap.LiveScope scope ∧ after.heap.scopes.get? scope ≠ some level

/-- The program returns what it has come to, which is no live binding. -/
def Machine.LosesResult (before : Machine) (compiled : Compiled) : Prop :=
  ∃ frame result after, before.nextOpcode? compiled = some .return
    ∧ before.nextOperand? compiled = some 0 ∧ before.frames = [frame]
    ∧ before.chosen? frame [] 0 = some result
    ∧ before.advance compiled = .finished (some result) after ∧ ¬ after.heap.Live result

/-- Calls a method from a block. -/
def mirrorInside : Program where
  main := [.statement (.define (.name "mirror") ["value"]),
    .block [.statement (.giveBack (some (.name "value")))],
    .block [.statement (.call none "mirror" [.integer 5])]]

private theorem accepted_mirrorInside : ∃ compiled, mirrorInside.compile = .ok compiled :=
  ⟨_, by cbv⟩

private theorem addressable_mirrorInside {compiled : Compiled} (accepted : mirrorInside.compile = .ok compiled) :
    Addressable mirrorInside compiled := by
  have code : size (image mirrorInside) = 27 := by cbv
  have names : (Pools.ofProgram mirrorInside).names.size = 2 := by cbv
  have constants : (Pools.ofProgram mirrorInside).constants.size = 4 := by cbv
  exact addressable_of_image accepted (by decide) (code ▸ by decide) (names ▸ by decide)
    (constants ▸ by decide)

/-- The block that the call is made from gains the copy of what the method yields. -/
theorem mirrorInside_disturbs :
    ∃ compiled before, mirrorInside.compile = .ok compiled ∧ mirrorInside.wellShaped = true
      ∧ Addressable mirrorInside compiled
      ∧ (Machine.boot {} [] compiled.pools).run compiled 20 = .running before
      ∧ before.DisturbsCaller compiled := by
  obtain ⟨compiled, accepted⟩ := accepted_mirrorInside
  have operands : mirrorInside.operands? 20 = some (some .return, some 1, [.binding ⟨9, 0⟩],
      [some { name := some "value", tag := .integer, payload := .integer 5 }]) := by cbv
  have held : (mirrorInside.dispatch? 20).map (fun passed =>
      (passed.1.frames.map fun frame => (frame.receiver, frame.methodScope, frame.localScopes),
        passed.1.heap.scopes.get? ⟨5, 0⟩, passed.2.heap.scopes.get? ⟨5, 0⟩))
      = some ([(⟨8, 0⟩, some ⟨6, 0⟩, []), (⟨0, 0⟩, none, [⟨5, 0⟩])],
          some { parent := some ⟨0, 0⟩ }, some { own := #[⟨10, 0⟩], parent := some ⟨0, 0⟩ }) := by
    cbv
  simp only [Program.dispatch?, Program.operands?, accepted] at held operands
  cases reached : (Machine.boot {} [] compiled.pools).run compiled 20 with
  | finished | failed => simp [reached] at held
  | running before =>
    cases advanced : before.advance compiled with
    | finished | failed => simp [reached, advanced] at held
    | running after =>
      simp only [reached, Progress.machine, Option.some.injEq, Prod.mk.injEq] at operands
      obtain ⟨next, operand, stack, values⟩ := operands
      simp only [reached, advanced, Option.map_some, Option.some.injEq, Prod.mk.injEq] at held
      obtain ⟨frames, level, grown⟩ := held
      obtain ⟨frame, callers, current, method, below⟩ := List.map_eq_cons_iff.mp frames
      obtain ⟨receiver, own, blocks⟩ : frame.receiver = ⟨8, 0⟩ ∧ frame.methodScope = some ⟨6, 0⟩
        ∧ frame.localScopes = [] := by simpa using method
      rw [stack] at values
      simp only [List.map_cons, List.cons.injEq] at values
      refine ⟨compiled, before, accepted, by decide, addressable_mirrorInside accepted, reached, 1, after,
        frame, callers, ⟨9, 0⟩, ⟨6, 0⟩, ⟨5, 0⟩, _, next, operand, advanced, current, ?_, ?_, own, ?_, ?_,
        ?_, level, ⟨_, grown⟩, ?_⟩
      · rintro rfl
        cases below
      · rw [Machine.chosen?, if_pos (by decide), stack]
      · rw [receiver]
        decide
      · rintro ⟨value, there, refers⟩
        cases there.symm.trans values.1
        cases refers
      · rw [Frame.estate, blocks, own]
        decide
      · rw [grown]
        decide

/-- The machine in front of the last return. -/
def revivedEnd : Machine := (revivedLast.run revivedCode 4).machine

private theorem revivedEnd_reached {compiled : Compiled} (bare : compiled.unindexed = revivedCode) :
    (Machine.boot {} (List.replicate (2 ^ 32 - 3 + 1) 10 ++ [120]) compiled.pools).run compiled
      (67 + (2 ^ 32 - 3) * 15 + 40 + 4) = .running revivedEnd := by
  have last : revivedLast.run revivedCode 4 = .running revivedEnd := by cbv
  rw [← bare, Machine.run_unindexed] at last
  rw [Machine.run_add, revivedLast_reached bare]
  exact last

private theorem revivedEnd_advance :
    (revivedEnd.nextOpcode? revivedCode, revivedEnd.nextOperand? revivedCode,
      revivedEnd.frames.length, revivedEnd.registers.lastResult,
      match revivedEnd.advance revivedCode with
        | .finished result after => some (result, after.heap.bindings.get? ⟨18, 2 ^ 32 - 1⟩)
        | _ => none)
      = (some .return, some 0, 1, some ⟨18, 2 ^ 32 - 1⟩, some (some ⟨18, 2 ^ 32 - 1⟩, none)) := by
  cbv

private theorem revivedEnd_loses {compiled : Compiled} (bare : compiled.unindexed = revivedCode) :
    revivedEnd.LosesResult compiled := by
  have holds := revivedEnd_advance
  rw [← bare, Machine.advance_unindexed] at holds
  simp only [Prod.mk.injEq] at holds
  obtain ⟨next, operand, frames, last, ends⟩ := holds
  obtain ⟨frame, current⟩ := List.length_eq_one_iff.mp frames
  cases advanced : revivedEnd.advance compiled with
  | running | failed => simp [advanced] at ends
  | finished result after =>
    simp only [advanced, Option.some.injEq, Prod.mk.injEq] at ends
    obtain ⟨rfl, gone⟩ := ends
    exact ⟨frame, _, after, next, operand, current, last, advanced, fun ⟨value, there⟩ => by
      cases gone.symm.trans there⟩

/-- A return may change a scope of the calling frame, and it may end the program with a binding that
went with a scope which had come alive again. -/
theorem returns_unsettled :
    (∃ compiled before, mirrorInside.compile = .ok compiled ∧ mirrorInside.wellShaped = true
      ∧ Addressable mirrorInside compiled
      ∧ (Machine.boot {} [] compiled.pools).run compiled 20 = .running before
      ∧ before.DisturbsCaller compiled)
    ∧ ∃ compiled input steps before, revived.compile = .ok compiled ∧ revived.wellShaped = true
      ∧ Addressable revived compiled
      ∧ (Machine.boot {} input compiled.pools).run compiled steps = .running before
      ∧ before.LosesResult compiled := by
  obtain ⟨compiled, accepted, bare⟩ := accepted_revived
  exact ⟨mirrorInside_disturbs, compiled, _, _, _, accepted, by decide, addressable_revived accepted,
    revivedEnd_reached bare, revivedEnd_loses bare⟩

/-! ## A return that settles -/

theorem mirror_hands_back :
    ∃ compiled before frame callers after, mirror.compile = .ok compiled ∧ mirror.wellShaped = true
      ∧ Addressable mirror compiled
      ∧ (Machine.boot {} [] compiled.pools).StrandsForGood compiled 19
      ∧ (Machine.boot {} [] compiled.pools).run compiled 19 = .running before
      ∧ before.frames = frame :: callers ∧ callers ≠ [] ∧ before.advance compiled = .running after
      ∧ before.HandsBack frame callers 1 after
      ∧ ∃ pushed, before.heap.FreesFrame frame after.disposable? (some pushed) after.heap := by
  obtain ⟨compiled, accepted⟩ := accepted_mirror
  have shape : mirror.wellShaped = true := by decide
  have addressable := addressable_mirror accepted
  have good := Program.strandsForGood 19 accepted (by cbv)
  have operands : mirror.operands? 19 = some (some .return, some 1, [.binding ⟨9, 0⟩],
      [some { name := some "value", tag := .integer, payload := .integer 5 }]) := by cbv
  have held : (mirror.dispatch? 19).map (fun passed =>
      passed.1.frames.map fun frame => (frame.receiver, frame.methodScope))
      = some [(⟨8, 0⟩, some ⟨5, 0⟩), (⟨0, 0⟩, none)] := by cbv
  simp only [Program.dispatch?, Program.operands?, accepted] at held operands
  cases reached : (Machine.boot {} [] compiled.pools).run compiled 19 with
  | finished | failed => simp [reached] at held
  | running before =>
    simp only [reached, Progress.machine, Option.some.injEq, Prod.mk.injEq] at operands
    obtain ⟨next, operand, stack, values⟩ := operands
    obtain ⟨frame, callers, frames, settles⟩ :=
      returns_settle accepted shape addressable {} [] 19 good reached next operand
    cases advanced : before.advance compiled with
    | finished | failed => simp [reached, advanced] at held
    | running last =>
      simp only [reached, advanced, Option.map_some, Option.some.injEq, frames, List.map_cons,
        List.cons.injEq, Prod.mk.injEq] at held
      obtain ⟨⟨receiver, method⟩, below⟩ := held
      have call : callers ≠ [] := by
        rintro rfl
        cases below
      rw [if_neg call] at settles
      obtain ⟨after, advances, hands⟩ := settles
      obtain ⟨id, pushed, own, rest, chosen, -, -, -, -, again, frees⟩ := hands.yields
      have top : some (⟨9, 0⟩ : BindingId) = some id := by
        rw [← chosen, Machine.chosen?, if_pos (by decide), stack]
      cases top
      cases method.symm.trans again
      rw [stack] at values
      simp only [List.map_cons, List.cons.injEq] at values
      refine ⟨compiled, before, frame, callers, after, accepted, shape, addressable, good, reached,
        frames, call, advances, hands, pushed, frees ?_ ?_⟩
      · rw [receiver]
        decide
      · rintro ⟨value, there, refers⟩
        cases there.symm.trans values.1
        cases refers

end ScopeMachine
