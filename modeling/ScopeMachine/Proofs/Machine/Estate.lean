import ScopeMachine.Proofs.Machine.Delivery

set_option autoImplicit false

/-!
# Estates

The scopes that the frames of a machine free when they are left, and the bindings that outlive them.
A machine is in order when all that it holds is public, and when the release of a frame spares what is
held beneath it: by the frames of its callers, in their part of the stack, and by the machine itself.
-/

namespace ScopeMachine

open Heap

/-! ## Frames -/

/-- The scopes that are freed with a frame. -/
def Frame.estate (frame : Frame) : List ScopeId :=
  frame.localScopes ++ frame.methodScope.toList

/-- A frame holds a binding. -/
inductive Frame.Holds (frame : Frame) : BindingId → Prop where
  | caller : frame.Holds frame.caller
  | receiver : frame.Holds frame.receiver
  | saved {id : BindingId} : frame.savedResult = some id → frame.Holds id

/-- A binding outlives a frame: it belongs to none of the frame's scopes, and it is not the method
copy that the frame runs on. -/
structure Spares (heap : Heap) (frame : Frame) (id : BindingId) : Prop where
  unowned : ∀ {scope}, scope ∈ frame.estate → ¬ heap.Owns scope id
  other : frame.methodScope.isSome → id ≠ frame.receiver

/-- A machine holds a binding by itself, on its stack or in one of some frames. -/
inductive Retains (machine : Machine) (frames : List Frame) : BindingId → Prop where
  | root {id : BindingId} : machine.Root id → Retains machine frames id
  | item {id : BindingId} : .binding id ∈ machine.stack → Retains machine frames id
  | held {frame : Frame} {id : BindingId} : frame ∈ frames → frame.Holds id →
      Retains machine frames id

/-- A machine holds a binding beneath a frame, given the frames of its callers. -/
inductive Beneath (machine : Machine) (frame : Frame) (callers : List Frame) : BindingId → Prop where
  | root {id : BindingId} : machine.Root id → Beneath machine frame callers id
  | caller : Beneath machine frame callers frame.caller
  | saved {id : BindingId} : frame.savedResult = some id → Beneath machine frame callers id
  | held {lower : Frame} {id : BindingId} : lower ∈ callers → lower.Holds id →
      Beneath machine frame callers id
  | item {id : BindingId} :
      .binding id ∈ machine.stack.drop (machine.stack.length - frame.stackMark) →
      Beneath machine frame callers id

/-- The scopes of the frames and of the program are different ones. Blocks have scopes of their own
kind, the receivers of calls belong to nothing, and every call has a scope of its own. -/
structure Estates (copies : List BindingId) (heap : Heap) (programScope : ScopeId)
    (frames : List Frame) : Prop where
  nodup : (frames.flatMap Frame.estate ++ [programScope]).Nodup
  fleeting : ∀ {frame scope}, frame ∈ frames → scope ∈ frame.localScopes → heap.Fleeting scope
  lasting : ∀ {frame scope}, frame ∈ frames → frame.methodScope = some scope →
    heap.Lasting scope ∧ heap.Unsealed copies scope
  program : heap.Lasting programScope ∧ heap.Unsealed copies programScope
  receivers : ∀ {frame}, frame ∈ frames → ∀ owner, ¬ heap.Owns owner frame.receiver
  calls : ∀ {frame callers}, frame :: callers <:+ frames → callers ≠ [] → frame.methodScope.isSome

/-- A machine in order. The frames are those that are not left yet; the machine may have removed the
uppermost already. -/
structure Order (lost : ScopeId → Prop) (copies : List BindingId) (frames : List Frame)
    (machine : Machine) : Prop where
  guarded : Guarded lost copies machine.heap
  roots : ∀ {id}, machine.Root id → machine.heap.Public copies id
  items : ∀ {id}, .binding id ∈ machine.stack → id ∉ copies → machine.heap.Public copies id
  holds : ∀ {frame id}, frame ∈ frames → frame.Holds id → machine.heap.Public copies id
  apart : ∀ {frame callers id}, frame :: callers <:+ frames → Beneath machine frame callers id →
    Spares machine.heap frame id
  estates : Estates copies machine.heap machine.programScope frames

section

variable {lost : ScopeId → Prop} {copies : List BindingId} {heap after : Heap} {frame : Frame}
  {programScope : ScopeId} {frames : List Frame}

theorem Spares.grows {id : BindingId} (spares : Spares heap frame id) (live : heap.Live id)
    (grows : Grows copies heap after) : Spares after frame id :=
  ⟨fun member => grows.not_owns live (spares.unowned member), spares.other⟩

theorem Estates.tail {callers : List Frame}
    (estates : Estates copies heap programScope (frame :: callers)) :
    Estates copies heap programScope callers where
  nodup := by
    have nodup := estates.nodup
    rw [List.flatMap_cons, List.append_assoc] at nodup
    exact (List.nodup_append.mp nodup).2.1
  fleeting member := estates.fleeting (.tail _ member)
  lasting member := estates.lasting (.tail _ member)
  program := estates.program
  receivers member := estates.receivers (.tail _ member)
  calls part := estates.calls (part.trans (List.suffix_cons frame callers))

theorem Estates.cons {callers : List Frame} (estates : Estates copies heap programScope callers)
    (own : frame.estate.Nodup)
    (apart : ∀ scope ∈ frame.estate, scope ≠ programScope ∧ ∀ lower ∈ callers, scope ∉ lower.estate)
    (fleeting : ∀ scope ∈ frame.localScopes, heap.Fleeting scope)
    (lasting : ∀ scope, frame.methodScope = some scope →
      heap.Lasting scope ∧ heap.Unsealed copies scope)
    (receiver : ∀ owner, ¬ heap.Owns owner frame.receiver)
    (call : callers ≠ [] → frame.methodScope.isSome) :
    Estates copies heap programScope (frame :: callers) where
  nodup := by
    rw [List.flatMap_cons, List.append_assoc]
    refine List.nodup_append.mpr ⟨own, estates.nodup, ?_⟩
    rintro scope inside _ other rfl
    obtain ⟨program, callers⟩ := apart scope inside
    obtain held | rest := List.mem_append.mp other
    · obtain ⟨lower, member, held⟩ := List.mem_flatMap.mp held
      exact callers lower member held
    · exact program (List.mem_singleton.mp rest)
  fleeting member inside := by
    obtain rfl | member := List.mem_cons.mp member
    · exact fleeting _ inside
    · exact estates.fleeting member inside
  lasting member method := by
    obtain rfl | member := List.mem_cons.mp member
    · exact lasting _ method
    · exact estates.lasting member method
  program := estates.program
  receivers member := by
    obtain rfl | member := List.mem_cons.mp member
    · exact receiver
    · exact estates.receivers member
  calls part more := by
    obtain same | part := List.suffix_cons_iff.mp part
    · cases same
      exact call more
    · exact estates.calls part more

theorem Estates.grows (estates : Estates copies heap programScope frames)
    (grows : Grows copies heap after)
    (live : ∀ {frame}, frame ∈ frames → heap.Live frame.receiver) :
    Estates copies after programScope frames where
  nodup := estates.nodup
  fleeting member inside := grows.fleeting (estates.fleeting member inside)
  lasting member own :=
    ⟨grows.lasting (estates.lasting member own).1, grows.unsealed (estates.lasting member own).2⟩
  program := ⟨grows.lasting estates.program.1, grows.unsealed estates.program.2⟩
  receivers member owner := grows.not_owns (live member) (estates.receivers member owner)
  calls := estates.calls

theorem Estates.liveScope (estates : Estates copies heap programScope frames)
    (member : frame ∈ frames) {scope : ScopeId} (inside : scope ∈ frame.estate) :
    heap.LiveScope scope := by
  obtain block | own := List.mem_append.mp inside
  · exact (estates.fleeting member block).liveScope
  · exact (estates.lasting member (Option.mem_toList.mp own)).1.liveScope

theorem Guarded.unsealed_of_fleeting (guarded : Guarded lost copies heap) {scope : ScopeId}
    (fleeting : heap.Fleeting scope) : heap.Unsealed copies scope :=
  fun copy _ => guarded.unreferred fleeting copy

theorem Estates.once {callers : List Frame}
    (estates : Estates copies heap programScope (frame :: callers)) : frame.estate.Nodup := by
  have nodup := estates.nodup
  rw [List.flatMap_cons, List.append_assoc] at nodup
  exact (List.nodup_append.mp nodup).1

theorem Estates.disjoint {callers : List Frame}
    (estates : Estates copies heap programScope (frame :: callers)) {scope : ScopeId}
    (inside : scope ∈ frame.estate) :
    scope ≠ programScope ∧ ∀ {lower}, lower ∈ callers → scope ∉ lower.estate := by
  have nodup := estates.nodup
  rw [List.flatMap_cons, List.append_assoc] at nodup
  have apart := (List.nodup_append.mp nodup).2.2 scope inside
  refine ⟨apart programScope (by simp), fun {lower} member held => ?_⟩
  exact apart scope (List.mem_append_left _ (List.mem_flatMap.mpr ⟨lower, member, held⟩)) rfl

end

/-! ## Machines in order -/

theorem Machine.Root.same {machine after : Machine} {id : BindingId} (root : after.Root id)
    (nothing : after.nothing = machine.nothing) (constants : after.constants = machine.constants)
    (interned : after.interned = machine.interned) : machine.Root id := by
  cases root with
  | nothing => exact nothing ▸ .nothing
  | constant member => exact .constant (constants ▸ member)
  | interned held => exact .interned (interned ▸ held)

section

variable {lost : ScopeId → Prop} {copies : List BindingId} {frames : List Frame}
  {machine after : Machine} (order : Order lost copies frames machine)

include order

theorem Order.live_item {id : BindingId} (member : .binding id ∈ machine.stack) :
    machine.heap.Live id := by
  by_cases waits : id ∈ copies
  · exact order.guarded.live waits
  · exact (order.items member waits).live

theorem Order.live_beneath {frame : Frame} {callers : List Frame} {id : BindingId}
    (part : frame :: callers <:+ frames) (beneath : Beneath machine frame callers id) :
    machine.heap.Live id := by
  have member : frame ∈ frames := part.subset (.head _)
  cases beneath with
  | root root => exact (order.roots root).live
  | caller => exact (order.holds member .caller).live
  | saved saved => exact (order.holds member (.saved saved)).live
  | held lower held => exact (order.holds (part.subset (.tail _ lower)) held).live
  | item inside => exact order.live_item (List.mem_of_mem_drop inside)

/-- The scopes of open blocks and running methods are there. -/
theorem Order.disposable (part : machine.frames <:+ frames) {scope : ScopeId}
    (held : machine.disposable? = some scope) :
    machine.heap.LiveScope scope ∧ machine.heap.Unsealed copies scope := by
  unfold Machine.disposable? at held
  split at held
  · cases held
  · next frame callers current =>
    have member : frame ∈ frames := part.subset (current ▸ .head _)
    obtain block | ⟨-, own⟩ := Option.or_eq_some_iff.mp held
    · have fleeting := order.estates.fleeting member (List.mem_of_mem_head? block)
      exact ⟨fleeting.liveScope, Guarded.unsealed_of_fleeting order.guarded fleeting⟩
    · obtain ⟨lasting, unsealed⟩ := order.estates.lasting member own
      exact ⟨lasting.liveScope, unsealed⟩

theorem Order.furnished (part : machine.frames <:+ frames) : Furnished lost copies machine :=
  ⟨order.guarded, order.roots, ⟨.inl order.estates.program.1, order.estates.program.2⟩,
    order.disposable part⟩

/-- More scopes may be lost than are known to be. -/
theorem Order.mono {more : ScopeId → Prop} (implies : ∀ {scope}, lost scope → more scope)
    (dead : ∀ {scope}, more scope → ¬ machine.heap.LiveScope scope) :
    Order more copies frames machine :=
  { order with guarded := order.guarded.mono implies dead }

theorem Order.sublist {fewer : List BindingId} (sub : List.Sublist fewer copies) :
    Order lost fewer frames machine where
  guarded := order.guarded.sublist sub
  roots root := (order.roots root).sublist sub
  items {id} member no := by
    by_cases waited : id ∈ copies
    · exact order.guarded.release waited no
    · exact (order.items member waited).sublist sub
  holds member held := (order.holds member held).sublist sub
  apart := order.apart
  estates :=
    { order.estates with
      lasting := fun member own => (order.estates.lasting member own).imp_right (·.sublist sub)
      program := order.estates.program.imp_right (·.sublist sub) }

/-- The uppermost frame can be left without a release. -/
theorem Order.tail {frame : Frame} {callers : List Frame} (split : frames = frame :: callers) :
    Order lost copies callers machine := by
  subst split
  exact
    { order with
      holds := fun member => order.holds (.tail _ member)
      apart := fun part => order.apart (part.trans (List.suffix_cons frame callers))
      estates := order.estates.tail }

/-- A frame can be put on top that spares all that is held beneath it. -/
theorem Order.cons {frame : Frame} (holds : ∀ {id}, frame.Holds id → machine.heap.Public copies id)
    (spares : ∀ {id}, Beneath machine frame frames id → Spares machine.heap frame id)
    (estates : Estates copies machine.heap machine.programScope (frame :: frames)) :
    Order lost copies (frame :: frames) machine :=
  { order with
    holds := fun member held => by
      obtain rfl | member := List.mem_cons.mp member
      · exact holds held
      · exact order.holds member held
    apart := fun part beneath => by
      obtain same | part := List.suffix_cons_iff.mp part
      · cases same
        exact spares beneath
      · exact order.apart part beneath
    estates }

/-- Changes of the registers and of the frames in force do not count, and of the stack only what lies
beneath the frames and what is new does. -/
theorem Order.rearranged {stack : List StackItem} {others : List Frame} {registers : Registers}
    {line : Nat}
    (items : ∀ {id}, .binding id ∈ stack → id ∉ copies → machine.heap.Public copies id)
    (below : ∀ frame ∈ frames, stack.drop (stack.length - frame.stackMark)
      = machine.stack.drop (machine.stack.length - frame.stackMark)) :
    Order lost copies frames { machine with stack, frames := others, registers, line } where
  guarded := order.guarded
  roots root := order.roots (root.same rfl rfl rfl)
  items := items
  holds := order.holds
  apart {frame callers id} part beneath := by
    refine order.apart part ?_
    cases beneath with
    | root root => exact .root (root.same rfl rfl rfl)
    | caller => exact .caller
    | saved saved => exact .saved saved
    | held lower held => exact .held lower held
    | item inside =>
      rw [below frame (part.subset (.head _))] at inside
      exact .item inside
  estates := order.estates

/-- Growth keeps a machine in order, if the parts of the stack beneath the frames stay and what is
new on it is public. -/
theorem Order.went (went : Went copies machine after) (guarded : Guarded lost copies after.heap)
    (items : ∀ {id}, .binding id ∈ after.stack → id ∉ copies → after.heap.Public copies id)
    (below : ∀ frame ∈ frames, after.stack.drop (after.stack.length - frame.stackMark)
      = machine.stack.drop (machine.stack.length - frame.stackMark)) :
    Order lost copies frames after := by
  have grows := went.grows
  have receivers : ∀ {frame : Frame}, frame ∈ frames → machine.heap.Live frame.receiver :=
    fun member => (order.holds member .receiver).live
  have program : after.programScope = machine.programScope := by
    obtain ⟨_, _, _, _, _, _, _, -, rfl⟩ := went.continues
    rfl
  refine
    { guarded
      roots := fun root => ?_
      items
      holds := fun member held => grows.public (order.holds member held)
      apart := fun {frame callers id} part beneath => ?_
      estates := program ▸ order.estates.grows grows receivers }
  · obtain root | fresh := went.root root
    · exact grows.public (order.roots root)
    · exact order.guarded.public_of_fresh fresh
  · have member : frame ∈ frames := part.subset (.head _)
    have transport (before : Beneath machine frame callers id) : Spares after.heap frame id :=
      (order.apart part before).grows (order.live_beneath part before) grows
    cases beneath with
    | root root =>
      obtain root | fresh := went.root root
      · exact transport (.root root)
      · refine ⟨fun _ => fresh.unowned _, fun _ same => fresh.new ?_⟩
        rw [same]
        exact receivers member
    | caller => exact transport .caller
    | saved saved => exact transport (.saved saved)
    | held lower held => exact transport (.held lower held)
    | item inside =>
      rw [below frame member] at inside
      exact transport (.item inside)

end

/-! ## Release -/

section

variable {lost more : ScopeId → Prop} {copies : List BindingId} {frames : List Frame}
  {machine : Machine}

theorem Beneath.of_heap {heap : Heap} {frame other : Frame} {callers : List Frame} {id : BindingId}
    (caller : other.caller = frame.caller) (saved : other.savedResult = frame.savedResult)
    (mark : other.stackMark = frame.stackMark)
    (beneath : Beneath { machine with heap } other callers id) : Beneath machine frame callers id := by
  cases beneath with
  | root root => exact .root (root.same rfl rfl rfl)
  | caller => exact caller ▸ .caller
  | saved held => exact .saved (saved ▸ held)
  | held lower held => exact .held lower held
  | item member => exact .item (mark ▸ member)

/-- A scope that is not one of the frames' is freed, and the machine holds nothing that it owned. -/
theorem Order.loses {left : Heap} (order : Order lost copies frames machine) {scope : ScopeId}
    (loses : machine.heap.Loses scope left) (unsealed : machine.heap.Unsealed copies scope)
    (spared : ∀ {id}, Retains machine frames id → ¬ machine.heap.Owns scope id)
    (program : scope ≠ machine.programScope) (others : ∀ frame ∈ frames, scope ∉ frame.estate)
    (implies : ∀ {scope}, lost scope → more scope)
    (dead : ∀ {scope}, more scope → ¬ left.LiveScope scope)
    (stranded : ∀ {id}, left.Refers id scope → more scope) :
    Order more copies frames { machine with heap := left } := by
  have estates := order.estates
  have ne {frame : Frame} (member : frame ∈ frames) {other : ScopeId}
      (held : other ∈ frame.estate) : other ≠ scope := by
    rintro rfl
    exact others frame member held
  refine
    { guarded := order.guarded.loses loses unsealed implies dead stranded
      roots := fun root =>
        (order.roots (root.same rfl rfl rfl)).loses loses (spared (.root (root.same rfl rfl rfl)))
      items := fun member other => (order.items member other).loses loses (spared (.item member))
      holds := fun member held => (order.holds member held).loses loses (spared (.held member held))
      apart := fun part beneath => ?_
      estates :=
        { nodup := estates.nodup
          fleeting := fun member block => loses.fleeting (estates.fleeting member block)
            (ne member (List.mem_append_left _ block))
          lasting := fun member own => ?_
          program := ⟨loses.lasting estates.program.1 (Ne.symm program), fun copy waits refers =>
            estates.program.2 copy waits (loses.refers_before refers).2⟩
          receivers := fun member owner owns =>
            estates.receivers member owner (loses.owns_before owns).2
          calls := estates.calls } }
  · have spares := order.apart part (beneath.of_heap rfl rfl rfl)
    exact ⟨fun member owns => spares.unowned member (loses.owns_before owns).2, spares.other⟩
  · obtain ⟨lasting, unsealed⟩ := estates.lasting member own
    exact ⟨loses.lasting lasting (ne member (List.mem_append_right _ (Option.mem_toList.mpr own))),
      fun copy waits refers => unsealed copy waits (loses.refers_before refers).2⟩

theorem Order.freeBinding (order : Order lost copies frames machine) {freed : BindingId}
    (other : freed ∉ copies) (unowned : ∀ owner, ¬ machine.heap.Owns owner freed)
    (spared : ∀ {id}, Retains machine frames id → id ≠ freed) :
    Order lost copies frames { machine with heap := (machine.heap.freeBinding freed).2 } where
  guarded := order.guarded.freeBinding other unowned
  roots root :=
    (order.roots (root.same rfl rfl rfl)).freeBinding (spared (.root (root.same rfl rfl rfl)))
  items member other := (order.items member other).freeBinding (spared (.item member))
  holds member held := (order.holds member held).freeBinding (spared (.held member held))
  apart part beneath := by
    have spares := order.apart part (beneath.of_heap rfl rfl rfl)
    exact ⟨spares.unowned, spares.other⟩
  estates :=
    { nodup := order.estates.nodup
      fleeting := order.estates.fleeting
      lasting := fun member own => (order.estates.lasting member own).imp_right
        fun unsealed copy waits refers => unsealed copy waits (refers_of_freeBinding refers)
      program := order.estates.program.imp_right
        fun unsealed copy waits refers => unsealed copy waits (refers_of_freeBinding refers)
      receivers := order.estates.receivers
      calls := order.estates.calls }

end

section

variable {lost more : ScopeId → Prop} {copies : List BindingId} {frame : Frame}
  {callers : List Frame} {machine : Machine} {left : Heap}
  (order : Order lost copies (frame :: callers) machine)
  (height : machine.stack.length = frame.stackMark)

include order height

/-- Where the stack ends at the mark of the uppermost frame, all that the machine holds apart from
this frame is spared by it. -/
theorem Order.spares {id : BindingId} (retains : Retains machine callers id) :
    Spares machine.heap frame id := by
  refine order.apart List.suffix_rfl ?_
  cases retains with
  | root root => exact .root root
  | held lower held => exact .held lower held
  | item member =>
    refine .item ?_
    rw [height, Nat.sub_self]
    exact member

theorem Order.closes {scope : ScopeId} {scopes : List ScopeId}
    (blocks : frame.localScopes = scope :: scopes) (loses : machine.heap.Loses scope left) :
    Order lost copies ({ frame with localScopes := scopes } :: callers)
      { machine with heap := left } := by
  have estates := order.estates
  have inside : scope ∈ frame.estate := List.mem_append_left _ (blocks ▸ .head _)
  have fleeting : machine.heap.Fleeting scope :=
    estates.fleeting (.head _) (blocks ▸ List.mem_cons_self)
  obtain ⟨program, others⟩ := estates.disjoint inside
  have below : Order lost copies callers { machine with heap := left } :=
    (order.tail rfl).loses loses (Guarded.unsealed_of_fleeting order.guarded fleeting)
      (fun retains => (order.spares height retains).unowned inside) program
      (fun _ member => others member) (fun held => held)
      (fun held live => order.guarded.dead held (loses.liveScope_before live).2)
      (fun refers => absurd (loses.refers_before refers).2 (order.guarded.unreferred fleeting _))
  have split : frame.estate = scope :: (scopes ++ frame.methodScope.toList) := by
    rw [Frame.estate, blocks, List.cons_append]
  have once := estates.once
  rw [split] at once
  obtain ⟨first, once⟩ := List.nodup_cons.mp once
  have remains {other : ScopeId} (held : other ∈ scopes ++ frame.methodScope.toList) :
      other ∈ frame.estate := split ▸ .tail _ held
  refine below.cons (fun held => ?_) (fun {id} beneath => ?_) ?_
  · cases held with
    | caller =>
      exact (order.holds (.head _) .caller).loses loses
        ((order.apart List.suffix_rfl .caller).unowned inside)
    | receiver =>
      exact (order.holds (.head _) .receiver).loses loses (estates.receivers (.head _) scope)
    | saved saved =>
      exact (order.holds (.head _) (.saved saved)).loses loses
        ((order.apart List.suffix_rfl (.saved saved)).unowned inside)
  · have upper : Beneath machine frame callers id := by
      refine Beneath.of_heap ?_ ?_ ?_ beneath <;> rfl
    have spares := order.apart List.suffix_rfl upper
    exact ⟨fun held owns => spares.unowned (remains held) (loses.owns_before owns).2, spares.other⟩
  · have call : callers ≠ [] → frame.methodScope.isSome := estates.calls List.suffix_rfl
    refine below.estates.cons once (fun other held => ?_) (fun other held => ?_)
      (fun other own => ?_)
      (fun owner owns => estates.receivers (.head _) owner (loses.owns_before owns).2) call
    · obtain ⟨program, others⟩ := estates.disjoint (remains held)
      exact ⟨program, fun lower member => others member⟩
    · refine loses.fleeting (estates.fleeting (.head _) (blocks ▸ .tail _ held)) ?_
      rintro rfl
      exact first (List.mem_append_left _ held)
    · obtain ⟨lasting, unsealed⟩ := estates.lasting (.head _) own
      refine ⟨loses.lasting lasting ?_, fun copy waits refers =>
        unsealed copy waits (loses.refers_before refers).2⟩
      rintro rfl
      exact first (List.mem_append_right _ (Option.mem_toList.mpr own))

/-- The method copy of the uppermost frame is freed with its scope, which counts as lost where
something else refers to it. -/
theorem Order.frees {scope : ScopeId} (own : frame.methodScope = some scope)
    (loses : machine.heap.Loses scope left)
    (implies : ∀ {scope}, lost scope → more scope)
    (dead : ∀ {scope}, more scope → ¬ left.LiveScope scope)
    (stranded : ∀ {id}, (left.freeBinding frame.receiver).2.Refers id scope → more scope) :
    Order more copies callers { machine with heap := (left.freeBinding frame.receiver).2 } := by
  have estates := order.estates
  have inside : scope ∈ frame.estate := List.mem_append_right _ (Option.mem_toList.mpr own)
  have method : frame.methodScope.isSome := Option.isSome_of_eq_some own
  obtain ⟨program, others⟩ := estates.disjoint inside
  -- the order of the two releases does not matter, and without the copy the scope may be unused
  have freed : Order lost copies callers
      { machine with heap := (machine.heap.freeBinding frame.receiver).2 } :=
    (order.tail rfl).freeBinding (order.holds (.head _) .receiver).other
      (estates.receivers (.head _)) fun retains => (order.spares height retains).other method
  have later : (machine.heap.freeBinding frame.receiver).2.Loses scope
      (left.freeBinding frame.receiver).2 := by
    refine ⟨loses.passed, loses.others, loses.scopes, fun {id} owns => ?_, fun {id} free => ?_⟩
    · rw [get?_freeBinding]
      split
      · rfl
      · exact loses.owned owns
    · rw [get?_freeBinding, get?_freeBinding, loses.kept free]
  have unsealed := (estates.lasting (.head _) own).2
  have retained {id : BindingId} (retains : Retains
      { machine with heap := (machine.heap.freeBinding frame.receiver).2 } callers id) :
      Retains machine callers id := by
    cases retains with
    | root root => exact .root (root.same rfl rfl rfl)
    | item member => exact .item member
    | held lower held => exact .held lower held
  exact freed.loses later (fun copy waits refers => unsealed copy waits (refers_of_freeBinding refers))
    (fun retains => (order.spares height (retained retains)).unowned inside) program
    (fun _ member => others member) implies dead stranded

end

end ScopeMachine
