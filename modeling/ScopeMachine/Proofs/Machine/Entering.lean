import ScopeMachine.Proofs.Machine.Leaving

set_option autoImplicit false

/-!
# Entering blocks and frames

A machine in order stays so when it opens a block, when it makes a copy, which then waits for its
call, and when it calls a copy that has waited: the scope that the copy alone referred to becomes the
scope of a new frame, and nothing that the machine holds belongs to it.
-/

namespace ScopeMachine

open Heap

section

variable {lost : ScopeId → Prop} {copies : List BindingId} {frame : Frame} {callers : List Frame}
  {machine : Machine}

/-! ## Blocks -/

/-- A new scope becomes the innermost block of the uppermost frame. -/
theorem Order.opens (order : Order lost copies (frame :: callers) machine) {scope : Scope}
    (empty : scope.own = #[]) (brief : scope.durable = false)
    (found : ¬ lost (machine.heap.allocateScope scope).1) :
    Order lost copies
      ({ frame with
        localScopes := (machine.heap.allocateScope scope).1 :: frame.localScopes } :: callers)
      { machine with heap := (machine.heap.allocateScope scope).2 } := by
  have grows : Grows copies machine.heap (machine.heap.allocateScope scope).2 :=
    grows_allocateScope empty
  have new := machine.heap.not_live_allocateScope scope
  have grown : Order lost copies (frame :: callers)
      { machine with heap := (machine.heap.allocateScope scope).2 } :=
    order.went (.of_heap grows) (order.guarded.allocateScope empty found)
      (fun member other => grows.public (order.items member other)) fun _ _ => rfl
  have estates := grown.estates
  have lasting {scope : ScopeId} (own : frame.methodScope = some scope) := estates.lasting (.head _) own
  have receivers (owner : ScopeId) := estates.receivers (List.mem_cons_self : frame ∈ _) owner
  have call : callers ≠ [] → frame.methodScope.isSome := estates.calls List.suffix_rfl
  refine (grown.tail rfl).cons (fun held => ?_) (fun {id} beneath => ?_)
    (estates.tail.cons ?_ ?_ ?_ (fun _ => lasting) receivers call)
  · cases held with
    | caller => exact grown.holds (.head _) .caller
    | receiver => exact grown.holds (.head _) .receiver
    | saved saved => exact grown.holds (.head _) (.saved saved)
  · have upper : Beneath machine frame callers id := by
      refine Beneath.of_heap ?_ ?_ ?_ beneath <;> rfl
    have spares := order.apart List.suffix_rfl upper
    refine ⟨fun held => ?_, spares.other⟩
    obtain rfl | held := List.mem_cons.mp held
    · exact fun owns => new ((owns_allocateScope empty).mp owns).liveScope
    · exact grows.not_owns (order.live_beneath List.suffix_rfl upper) (spares.unowned held)
  · refine List.nodup_cons.mpr ⟨fun held => new ?_, estates.once⟩
    exact order.estates.liveScope (.head _) held
  · intro other held
    obtain rfl | held := List.mem_cons.mp held
    · refine ⟨?_, fun lower member held => new (order.estates.liveScope (.tail _ member) held)⟩
      rintro same
      exact new (same ▸ order.estates.program.1.liveScope)
    · exact ⟨(estates.disjoint held).1, fun lower member => (estates.disjoint held).2 member⟩
  · intro other held
    obtain rfl | held := List.mem_cons.mp held
    · exact ⟨scope, by rw [get?_allocateScope, if_pos rfl], brief⟩
    · exact estates.fleeting (.head _) held

/-- A block is opened. -/
theorem Action.enterLocal_ok (order : Order lost copies (frame :: callers) machine)
    (current : machine.frames = frame :: callers) (attached : Attached machine)
    (gone : ∀ {scope}, lost scope → ¬ (final (enterLocal machine)).heap.LiveScope scope) :
    ∃ scope after, enterLocal machine = .ok () after ∧ after.stack = machine.stack
      ∧ after.frames = { frame with localScopes := scope :: frame.localScopes } :: callers
      ∧ Order lost copies after.frames after ∧ Focused lost copies after ∧ Attached after := by
  obtain ⟨_, _, same, caller, receiver⟩ := attached
  rw [current] at same
  cases same
  have result := enterLocal_eq current
  rw [result] at gone
  have found : ¬ lost (machine.heap.allocateScope { parent := some machine.registers.localScope }).1 :=
    fun held => gone held (liveScope_allocateScope.mpr (.inl rfl))
  have opened := order.opens rfl rfl found
  have fleeting := opened.estates.fleeting (.head _) (List.mem_cons_self)
  exact ⟨_, _, result, rfl, rfl, opened.focuses _ caller receiver (fun absent => by cases absent)
    ⟨.inl fleeting.liveScope, Guarded.unsealed_of_fleeting opened.guarded fleeting⟩⟩

/-! ## Copies -/

section

variable {heap : Heap} {own : ScopeId} {value : Binding}
  (grows : Grows copies machine.heap heap) (guarded : Guarded lost copies heap)
  (lasting : heap.Lasting own) (new : ¬ machine.heap.LiveScope own) (refers : value.scope = some own)

include grows new refers

theorem Heap.Public.outside_new {id : BindingId} (known : machine.heap.Public copies id) :
    (heap.allocate value).2.Public ((heap.allocate value).1 :: copies) id :=
  (grows.public known).seal refers fun owns =>
    (grows.owns owns).elim (fun before => new before.liveScope) fun gone => gone known.live

include guarded lasting

theorem Heap.Reachable.outside_new {scope : ScopeId}
    (reachable : machine.heap.Reachable lost copies scope) :
    (heap.allocate value).2.Reachable lost ((heap.allocate value).1 :: copies) scope := by
  have stays := (guarded.grows_allocate value).reachable (grows.reachable reachable)
  refine ⟨stays.1, fun copy waits sharing => ?_⟩
  obtain rfl | waits := List.mem_cons.mp waits
  · obtain ⟨-, same⟩ | earlier := refers_allocate.mp sharing
    · rw [refers] at same
      cases same
      exact reachable.1.elim new fun gone => guarded.dead gone lasting.liveScope
    · exact heap.not_live_allocate value earlier.live
  · exact stays.2 copy waits sharing

/-- A copy with a scope of its own is put on the stack, where it waits. -/
theorem Order.seals {frames : List Frame} (order : Order lost copies frames machine)
    (unused : ∀ id, ¬ heap.Refers id own) {stack : List StackItem}
    (items : ∀ {id}, .binding id ∈ stack → .binding id ∈ machine.stack)
    (below : ∀ frame ∈ frames, (StackItem.binding (heap.allocate value).1 :: stack).drop
        ((StackItem.binding (heap.allocate value).1 :: stack).length - frame.stackMark)
      = machine.stack.drop (machine.stack.length - frame.stackMark)) :
    Order lost ((heap.allocate value).1 :: copies) frames
      { machine with
        heap := (heap.allocate value).2
        stack := .binding (heap.allocate value).1 :: stack } := by
  have whole := grows.trans (guarded.grows_allocate value)
  have receivers {frame : Frame} (member : frame ∈ frames) : machine.heap.Live frame.receiver :=
    (order.holds member .receiver).live
  have estates := order.estates.grows whole receivers
  have unsealed {scope : ScopeId} (live : machine.heap.Lasting scope)
      (free : machine.heap.Unsealed copies scope) :
      (heap.allocate value).2.Unsealed ((heap.allocate value).1 :: copies) scope :=
    (Reachable.outside_new grows guarded lasting new refers ⟨.inl live.liveScope, free⟩).2
  refine
    { guarded := guarded.seal lasting unused refers
      roots := fun root => (order.roots (root.same rfl rfl rfl)).outside_new grows new refers
      items := fun {id} member other => ?_
      holds := fun member held => (order.holds member held).outside_new grows new refers
      apart := fun {frame lower id} part beneath => ?_
      estates :=
        { estates with
          lasting := fun member method => ⟨(estates.lasting member method).1,
            unsealed (order.estates.lasting member method).1
              (order.estates.lasting member method).2⟩
          program := ⟨estates.program.1,
            unsealed order.estates.program.1 order.estates.program.2⟩ } }
  · cases member with
    | head => exact absurd (.head _) other
    | tail _ member =>
      exact (order.items (items member) fun waits => other (.tail _ waits)).outside_new grows new
        refers
  · have before : Beneath machine frame lower id := by
      cases beneath with
      | root root => exact .root (root.same rfl rfl rfl)
      | caller => exact .caller
      | saved saved => exact .saved saved
      | held member held => exact .held member held
      | item inside =>
        rw [below frame (part.subset (.head _))] at inside
        exact .item inside
    exact (order.apart part before).grows (order.live_beneath part before) whole

end

theorem Action.copyBinding_cases (furnished : Furnished lost copies machine) {source : BindingId}
    (known : machine.heap.Public copies source)
    (gone : ∀ {scope}, lost scope → ¬ (final (copyBinding source machine)).heap.LiveScope scope) :
    (∃ fault, copyBinding source machine = .error fault machine ∧ Excused lost fault)
      ∨ ∃ heap scope value, copyBinding source machine
          = .ok (heap.allocate value).1 { machine with heap := (heap.allocate value).2 }
        ∧ Grows copies machine.heap heap ∧ Guarded lost copies heap
        ∧ heap.Lasting (machine.heap.allocateScope scope).1
        ∧ (∀ id, ¬ heap.Refers id (machine.heap.allocateScope scope).1)
        ∧ value.scope = some (machine.heap.allocateScope scope).1 ∧ scope.own = #[]
        ∧ Gains (· = (machine.heap.allocateScope scope).1) (fun _ => False)
          (machine.heap.allocateScope scope).2 heap := by
  have guarded := furnished.guarded
  obtain ⟨value, reads, there⟩ := binding_of_live known.live
  have found : binding source machine = .ok value machine := by simp [binding, inspect, reads]
  have unfolds : copyBinding source machine = (copyAttributes value >>= fun scope =>
      allocate { value with scope := some scope, constant := false }) machine := bind_of_ok found
  rw [unfolds] at gone ⊢
  cases refers : value.scope with
  | none =>
    have made : copyAttributes value machine = .ok (machine.heap.allocateScope { durable := true }).1
        { machine with heap := (machine.heap.allocateScope { durable := true }).2 } := by
      unfold copyAttributes
      rw [refers]
      rfl
    rw [bind_of_ok made] at gone ⊢
    have new : ¬ lost (machine.heap.allocateScope { durable := true }).1 :=
      fun held => gone held (liveScope_allocateScope.mpr (.inl rfl))
    exact .inr ⟨_, { durable := true }, _, rfl, grows_allocateScope rfl,
      guarded.allocateScope rfl new, lasting_allocateScope rfl rfl, guarded.unused_allocateScope new,
      rfl, rfl, .refl _⟩
  | some model =>
    have common := guarded.common ⟨value, there, refers⟩ known.other
    have attributes : copyAttributes value = attempt fun heap => heap.copyScope model := by
      unfold copyAttributes
      rw [refers]
      rfl
    rw [attributes] at gone ⊢
    have copied {scope : ScopeId} (held : lost scope) :
        ¬ (machine.heap.copyScope model).2.LiveScope scope := by
      have dead := gone held
      cases made : machine.heap.copyScope model with
      | mk result heap =>
        cases result with
        | ok copy =>
          rw [bind_of_ok (attempt_of_ok made)] at dead
          exact dead
        | error stale =>
          rw [bind_of_error (attempt_of_error made)] at dead
          exact dead
    obtain ⟨fails, held⟩ | ⟨scope, after, made, still, grows, lasting, unused, empty, gains⟩ :=
      guarded.copyScope common copied
    · exact .inl ⟨_, bind_of_error (attempt_of_error fails), fun same =>
        ⟨model, (Fault.staleHandle.inj same).symm, held⟩⟩
    · exact .inr ⟨after, scope, _, bind_of_ok (attempt_of_ok made), grows, still, lasting, unused,
        rfl, empty, gains⟩

/-! ## Calls -/

namespace Action

/-- Arguments are taken from the stack, and nothing else happens. -/
theorem popArguments_reads {count : Nat} {items rest : List StackItem}
    (stack : machine.stack = items ++ rest) (fits : Fitting (List.replicate count .value) items)
    {arguments : List BindingId} :
    ∃ taken, popArguments count arguments machine
        = .ok (taken ++ arguments) { machine with stack := rest }
      ∧ ∀ id ∈ taken, .binding id ∈ items := by
  induction count generalizing machine items arguments with
  | zero =>
    cases fits.nil
    have same : { machine with stack := rest } = machine := by
      rw [← stack.trans (List.nil_append rest)]
    exact ⟨[], by rw [same]; rfl, by simp⟩
  | succ count ih =>
    obtain ⟨id, others, rfl, fewer⟩ := Fitting.value fits
    obtain ⟨taken, reads, inside⟩ :=
      @ih { machine with stack := others ++ rest } others rfl fewer (id :: arguments)
    have pops : popBinding machine = .ok id { machine with stack := others ++ rest } :=
      popBinding_top stack
    refine ⟨taken ++ [id], ?_, fun other member => ?_⟩
    · rw [popArguments, bind_of_ok pops]
      exact reads.trans (by simp)
    · obtain member | last := List.mem_append.mp member
      · exact .tail _ (inside other member)
      · rw [List.mem_singleton.mp last]
        exact .head _

/-- The operands of a call are taken from the stack, and nothing else happens. -/
theorem callOperands_reads {count : Nat} {items rest : List StackItem}
    (stack : machine.stack = items ++ rest) (fits : Fitting (callTakes count) items)
    (live : ∀ id ∈ picked .copy (callTakes count) items, machine.heap.Live id) :
    ∃ upper method caller target arguments, items = upper ++ [StackItem.binding method, .binding caller]
      ∧ Fitting (List.replicate count .value) upper
      ∧ callOperands count machine
        = .ok (caller, method, target, arguments) { machine with stack := rest }
      ∧ machine.heap.bindings.get? method = some target
      ∧ ∀ id ∈ arguments, .binding id ∈ upper := by
  obtain ⟨upper, lower, rfl, values, two⟩ := fits.of_append
  have weaker : SlotKind.Covers [.value, .value] [.copy, .value] := ⟨rfl, rfl, trivial⟩
  obtain ⟨method, caller, rfl⟩ := (two.covers weaker).two_values
  have waits : method ∈ picked .copy (callTakes count) (upper ++ [StackItem.binding method, .binding caller]) := by
    rw [callTakes, picked_append values]
    exact List.mem_append_right _ (.head _)
  obtain ⟨target, reads, there⟩ := binding_of_live (live method waits)
  obtain ⟨taken, pops, inside⟩ := @popArguments_reads machine count upper
    (.binding method :: .binding caller :: rest) (by simp [stack]) values []
  rw [List.append_nil] at pops
  have found : binding method { machine with stack := rest }
      = .ok target { machine with stack := rest } := by simp [binding, inspect, reads]
  refine ⟨upper, method, caller, target, taken, rfl, values, ?_, there, inside⟩
  unfold callOperands
  rw [bind_of_ok pops, bind_of_ok (popBinding_top rfl), bind_of_ok (popBinding_top rfl),
    bind_of_ok found]
  rfl

private theorem delivers_constructArray (furnished : Furnished lost copies machine) {array : BindingId}
    (known : machine.heap.Public copies array) {value : Binding} {own : ScopeId}
    (there : machine.heap.bindings.get? array = some value) (refers : value.scope = some own)
    (reachable : machine.heap.Reachable lost copies own) {arguments : List BindingId}
    (given : ∀ id ∈ arguments, machine.heap.Public copies id) :
    Delivers lost copies machine machine.stack [.value] (constructArray array arguments) := by
  obtain ⟨size, reads⟩ := arraySize_ok fun id member => (given id member).live
  refine .read reads ?_
  cases size with
  | none => exact delivers_recover furnished rfl _
  | some size =>
    have found : elementScope array machine = .ok own machine := by
      have reads : binding array machine = .ok value machine := by
        simp [binding, inspect, Heap.binding, there]
      unfold elementScope
      rw [bind_of_ok reads, refers]
      rfl
    refine .read found ((works_declareElements furnished reachable _ _).bindDelivers
      fun _ first keeps _ => ?_)
    refine (works_declare_plain keeps.furnished (keeps.reachable reachable) rfl).bindDelivers
      fun _ last again _ => ?_
    exact delivers_push again.furnished (again.stack.trans keeps.stack)
      (again.public (keeps.public known))

end Action

theorem Order.calls {method caller : BindingId} {own : ScopeId} {frames : List Frame}
    {ready : Machine} (order : Order lost (method :: copies) frames machine)
    (own_scope : machine.heap.Sealed method own)
    (alone : ∀ {id}, .binding id ∈ machine.stack → id ≠ method)
    (calling : machine.heap.Public (method :: copies) caller)
    (last : ∀ {id}, machine.registers.lastResult = some id →
      machine.heap.Public (method :: copies) id)
    (keeps : Keeps lost copies machine ready)
    (result : ready.registers.lastResult = machine.registers.lastResult) :
    Order lost copies (Action.newFrame caller method (some own) ready :: frames) ready := by
  have fewer : List.Sublist copies (method :: copies) := List.sublist_cons_self method copies
  have grows := keeps.went.grows
  obtain ⟨absent, -⟩ := List.nodup_cons.mp order.guarded.nodup
  have grown := (order.sublist fewer).keeps keeps
  have estates := order.estates
  have program : ready.programScope = machine.programScope := by
    obtain ⟨_, _, _, _, _, _, _, -, rfl⟩ := keeps.went.continues
    rfl
  have released : machine.heap.Public copies method := order.guarded.release (.head _) absent
  have held {id : BindingId} (known : machine.heap.Public (method :: copies) id) :
      Spares ready.heap (Action.newFrame caller method (some own) ready) id := by
    refine ⟨fun inside => ?_, fun _ same => known.other (same ▸ .head _)⟩
    cases List.mem_singleton.mp inside
    exact grows.not_owns known.live (known.outside (.head _) own_scope.refers)
  refine grown.cons (fun holds => ?_) (fun {id} beneath => ?_) (grown.estates.cons ?_ ?_ ?_ ?_ ?_ fun _ => rfl)
  · cases holds with
    | caller => exact keeps.public (calling.sublist fewer)
    | receiver => exact keeps.public released
    | saved saved => exact keeps.public ((last (result ▸ saved)).sublist fewer)
  · cases beneath with
    | root root =>
      obtain root | fresh := keeps.went.root root
      · exact held (order.roots root)
      · refine ⟨fun _ => fresh.unowned _, fun _ same => fresh.new ?_⟩
        rw [same]
        exact released.live
    | caller => exact held calling
    | saved saved => exact held (last (result ▸ saved))
    | held lower holds => exact held (order.holds lower holds)
    | item inside =>
      have member : .binding id ∈ machine.stack := keeps.stack ▸ List.mem_of_mem_drop inside
      by_cases waits : id ∈ copies
      · refine ⟨fun _ => grows.not_owns (order.live_item member) ?_, fun _ => alone member⟩
        exact order.guarded.unowned (.tail _ waits) _
      · refine held (order.items member fun waited => ?_)
        obtain same | waited := List.mem_cons.mp waited
        · exact alone member same
        · exact waits waited
  · exact List.nodup_cons.mpr ⟨List.not_mem_nil, List.nodup_nil⟩
  · intro scope inside
    cases List.mem_singleton.mp inside
    refine ⟨?_, fun lower member inside => ?_⟩
    · rintro same
      refine estates.program.2 method (.head _) ?_
      rw [← program, ← same]
      exact own_scope.refers
    · obtain block | method_scope := List.mem_append.mp inside
      · exact own_scope.lasting.not_fleeting (estates.fleeting member block)
      · exact (estates.lasting member (Option.mem_toList.mp method_scope)).2 method (.head _)
          own_scope.refers
  · intro scope inside
    cases inside
  · rintro _ ⟨⟩
    refine ⟨grows.lasting own_scope.lasting, grows.unsealed fun copy waits refers => ?_⟩
    rw [own_scope.only refers] at waits
    exact absent waits
  · intro owner
    exact grows.not_owns released.live (own_scope.unowned owner)

end

/-- A machine with the operands of a call taken from its stack. The method is a copy that has waited,
and the machine holds it nowhere else. -/
structure PreparedCall (lost : ScopeId → Prop) (copies : List BindingId) (method caller : BindingId)
    (target : Binding) (arguments : List BindingId) (machine : Machine) : Prop where
  order : Order lost (method :: copies) machine.frames machine
  focused : Focused lost (method :: copies) machine
  target : machine.heap.bindings.get? method = some target
  arguments : ∀ id ∈ arguments, machine.heap.Public (method :: copies) id
  caller : machine.heap.Public (method :: copies) caller
  alone : ∀ {id}, .binding id ∈ machine.stack → id ≠ method

namespace PreparedCall

variable {lost : ScopeId → Prop} {copies : List BindingId} {method caller : BindingId}
  {target : Binding} {arguments : List BindingId} {machine : Machine}
  (prepared : PreparedCall lost copies method caller target arguments machine)

include prepared

/-- The copy alone refers to its scope, and the copies that still wait refer to other ones. -/
theorem own : ∃ own, target.scope = some own ∧ machine.heap.Sealed method own
    ∧ machine.heap.Unsealed copies own := by
  obtain ⟨own, kept⟩ := prepared.order.guarded.sealed method (.head _)
  obtain ⟨absent, -⟩ := List.nodup_cons.mp prepared.order.guarded.nodup
  refine ⟨own, ?_, kept, fun copy waits sharing => absent (kept.only sharing ▸ waits)⟩
  obtain ⟨value, again, refers⟩ := kept.refers
  cases prepared.target.symm.trans again
  exact refers

theorem furnished : Furnished lost copies machine :=
  (prepared.order.sublist (List.sublist_cons_self method copies)).furnished List.suffix_rfl

theorem given : ∀ id ∈ arguments, machine.heap.Public copies id :=
  fun id member => (prepared.arguments id member).sublist (List.sublist_cons_self method copies)

theorem constructs : Delivers lost copies machine machine.stack [.value]
    (Action.constructArray method arguments) := by
  obtain ⟨own, refers, kept, unsealed⟩ := prepared.own
  obtain ⟨absent, -⟩ := List.nodup_cons.mp prepared.order.guarded.nodup
  exact Action.delivers_constructArray prepared.furnished
    (prepared.order.guarded.release (.head _) absent) prepared.target refers
    ⟨.inl kept.lasting.liveScope, unsealed⟩ prepared.given

theorem prepares : Works lost copies machine (fun _ _ => True)
    (Action.checkCall target arguments.length >>= fun _ =>
      Action.bindArguments target none arguments) := by
  obtain ⟨own, refers, kept, unsealed⟩ := prepared.own
  have live (scope : ScopeId) (same : target.scope = some scope) : machine.heap.LiveScope scope := by
    cases refers.symm.trans same
    exact kept.lasting.liveScope
  refine (Action.works_checkCall prepared.furnished live _).bind fun _ after keeps _ => ?_
  refine Action.works_bindArguments keeps.furnished
    (fun scope same => keeps.went.grows.liveScope (live scope same)) (fun scope same => ?_)
    fun id member => keeps.public (prepared.given id member)
  cases refers.symm.trans same
  exact keeps.went.grows.unsealed unsealed

theorem enters {ready : Machine} (keeps : Keeps lost copies machine ready)
    (last : ready.registers.lastResult = machine.registers.lastResult) :
    ∃ after, Action.refocus (Action.opened caller method target.scope ready) = .ok () after
      ∧ after.stack = machine.stack
      ∧ after.frames = Action.newFrame caller method target.scope ready :: machine.frames
      ∧ (after.heap = ready.heap ∧ after.interned = ready.interned)
      ∧ Order lost copies after.frames after ∧ Focused lost copies after ∧ Attached after := by
  obtain ⟨own, refers, kept, -⟩ := prepared.own
  rw [refers]
  have order := prepared.order.calls kept prepared.alone prepared.caller prepared.focused.lastResult keeps last
  rw [← keeps.went.continues.frames] at order ⊢
  have opened : Order lost copies (Action.newFrame caller method (some own) ready :: ready.frames)
      (Action.opened caller method (some own) ready) := order.rearranged order.items fun _ _ => rfl
  obtain ⟨localScope, result, reachable⟩ := Action.refocus_ok (opened.furnished List.suffix_rfl)
    (opened.holds (.head _) .receiver)
  exact ⟨_, result, keeps.stack, rfl, ⟨rfl, rfl⟩,
    order.focuses _ rfl rfl (fun absent => by cases absent) reachable⟩

end PreparedCall

end ScopeMachine
