import ScopeMachine.Proofs.Machine.Ledger
import ScopeMachine.Proofs.Machine.Pending
import ScopeMachine.Proofs.Machine.Sparing
import ScopeMachine.Proofs.Returns

set_option autoImplicit false

/-!
# Inside a block

From the opening of a block to its end, all that is new belongs to the blocks and method copies that
are in use: the scopes of the frames above, those of the blocks that are open, and those of the copies
that wait on the stack. Each instruction keeps the books in this way, if it makes nothing that stays.
-/

namespace ScopeMachine

open Assembly Heap

/-! ## Frames that are freed -/

section

variable {scopes : List ScopeId} {keep rest kept : Option BindingId} {frame : Frame}
  {machine middle after : Machine} {place : ScopeId}

theorem FreesScopes.interned (freesScopes : FreesScopes scopes keep kept machine after) :
    after.interned = machine.interned := by
  induction freesScopes with
  | done => rfl
  | next apart rescues live _ ih => cases rescues <;> exact ih

theorem DisposesMethodCopy.interned (disposes : DisposesMethodCopy frame keep machine kept after) :
    after.interned = machine.interned := by
  cases disposes with
  | absent | kept => rfl
  | freed own freesScopes => exact freesScopes.interned

/-- A copy of what is kept belongs to the innermost scope of the calling frame. -/
theorem FreesScopes.places (freesScopes : FreesScopes scopes keep kept machine after) (tidy : machine.heap.Tidy)
    (held : machine.disposable? = some place) (there : machine.heap.LiveScope place) :
    kept = keep ∨ ∃ id, kept = some id ∧ after.heap.Owns place id := by
  obtain ⟨same, -⟩ | ⟨first, last, middle, id, value, rfl, outside, -, clears, -, rfl, rest⟩ :=
    freesScopes.cases tidy
  · exact .inl same
  · refine .inr ⟨_, rfl, rest.owns.mpr ⟨?_, fun member => outside place member held⟩⟩
    have apart : place ∉ first := fun member =>
      freesScopes.apart place (List.mem_append_left _ member) held
    have housed : machine.housed middle value.escaped = middle.declared place value.escaped := by
      unfold Machine.housed
      rw [held]
    rw [housed]
    exact owns_adopt.mpr (.inr ⟨rfl, rfl, clears.liveScope.mpr ⟨there, apart⟩⟩)

theorem DisposesMethodCopy.places (freesScopes : FreesScopes frame.localScopes keep rest machine middle)
    (disposes : DisposesMethodCopy { frame with localScopes := [] } rest middle kept after)
    (tidy : machine.heap.Tidy) (held : machine.disposable? = some place)
    (there : machine.heap.LiveScope place) :
    kept = keep ∨ ∃ id, kept = some id ∧ after.heap.Owns place id := by
  cases disposes with
  | absent | kept => exact freesScopes.places tidy held there
  | freed own later => exact (freesScopes.append later).places tidy held there

end

section

variable {start now : Machine} {made : ScopeId → Prop} {alone : BindingId → Prop} {frame : Frame}
  {place : Option ScopeId} {kept : Option BindingId} {heap : Heap}

/-- A frame is freed that was made since. What it hands on may be new, and belongs to a new scope
then. -/
theorem Ledger.frees (ledger : Ledger start now made alone)
    (frees : now.heap.FreesFrame frame place kept heap) (own : ∀ scope ∈ frame.estate, made scope)
    (receiver : alone frame.receiver)
    (places : ∀ id, kept = some id → ¬ now.heap.Live id → ∃ scope, made scope ∧ heap.Owns scope id) :
    Ledger start { now with heap } (fun scope => made scope ∧ scope ∉ frame.estate)
      (fun id => alone id ∧ id ≠ frame.receiver) := by
  have stays {scope : ScopeId} (live : now.heap.LiveScope scope) (outside : scope ∉ frame.estate) :
      heap.LiveScope scope :=
    Classical.byContradiction fun gone => outside ((frees.scopes scope).mp ⟨live, gone⟩)
  have outside {scope : ScopeId} (live : heap.LiveScope scope) : scope ∉ frame.estate :=
    fun inside => ((frees.scopes scope).mpr inside).2 live
  have kept_apart {id : BindingId} (live : heap.Live id) :
      id ≠ frame.receiver ∧ ∀ scope ∈ frame.estate, ¬ now.heap.Owns scope id := by
    constructor
    · intro same
      exact ((frees.bindings id).mpr (.inl same)).2 live
    · intro scope inside owns
      exact ((frees.bindings id).mpr (.inr ⟨scope, inside, owns⟩)).2 live
  have owned {scope : ScopeId} {id : BindingId} (owns : heap.Owns scope id) :
      now.heap.Owns scope id ∨ ¬ now.heap.Live id := by
    have live := owns.liveScope
    obtain ⟨level, there, listed⟩ := owns
    obtain ⟨found, before⟩ := frees.opened scope live
    obtain same | ⟨-, other, -, new, same⟩ := frees.levels scope found before live
    · cases there.symm.trans same
      exact .inl ⟨level, before, listed⟩
    · cases there.symm.trans same
      rw [Array.toList_push] at listed
      rcases List.mem_append.mp listed with listed | last
      · exact .inl ⟨found, before, listed⟩
      · rw [List.mem_singleton.mp last]
        exact .inr new
  have known {id : BindingId} (live : heap.Live id) (before : now.heap.Live id) :
      start.heap.Live id
        ∨ (∃ scope, (made scope ∧ scope ∉ frame.estate) ∧ heap.Owns scope id)
        ∨ (alone id ∧ id ≠ frame.receiver) ∨ SharedSince start now id := by
    obtain ⟨other, free⟩ := kept_apart live
    obtain held | ⟨scope, new, owns⟩ | single | since := ledger.covered before
    · exact .inl held
    · have apart : scope ∉ frame.estate := fun inside => free scope inside owns
      refine .inr (.inl ⟨scope, ⟨new, apart⟩, ?_⟩)
      have alive := stays owns.liveScope apart
      obtain ⟨level, there, listed⟩ := owns
      obtain same | ⟨-, id, -, -, same⟩ := frees.levels scope level there alive
      · exact ⟨level, same, listed⟩
      · exact ⟨_, same, by simp [listed]⟩
    · exact .inr (.inr (.inl ⟨single, other⟩))
    · exact .inr (.inr (.inr since))
  refine
    { scopes := fun {scope} live => stays (ledger.scopes live) fun inside =>
        ledger.later (own scope inside) live
      entered := fun live => (ledger.entered (frees.opened _ live)).imp_right
        fun new => ⟨new, outside live⟩
      later := fun new => ledger.later new.1
      live := fun {id} live => ?_
      covered := fun {id} live => ?_
      owned := fun new owns live => ?_
      single := fun held => ledger.single held.1
      interned := ledger.interned
      shared := ledger.shared }
  · refine Classical.byContradiction fun gone => ?_
    obtain same | ⟨scope, inside, owns⟩ := (frees.bindings id).mp ⟨ledger.live live, gone⟩
    · exact ledger.single receiver (same ▸ live)
    · exact ledger.owned (own scope inside) owns live
  · by_cases before : now.heap.Live id
    · exact known live before
    · obtain held | same := frees.created id live
      · exact absurd held before
      · obtain ⟨scope, new, owns⟩ := places id same before
        exact .inr (.inl ⟨scope, ⟨new, outside owns.liveScope⟩, owns⟩)
  · obtain before | fresh := owned owns
    · exact ledger.owned new.1 before live
    · exact fresh (ledger.live live)

end

/-! ## Books -/

/-- The number of blocks that are open in the uppermost frame. -/
def Machine.openBlocks (machine : Machine) : Nat :=
  match machine.frames with
  | [] => 0
  | frame :: _ => frame.localScopes.length

/-- A machine has more frames than at an earlier time, or more blocks open in the same frame. -/
def Machine.Within (start machine : Machine) : Prop :=
  start.frames.length < machine.frames.length
    ∨ start.frames.length = machine.frames.length ∧ start.openBlocks < machine.openBlocks

/-- Where the frame of the earlier time is still there with the blocks it had, other frames are above it
or more blocks are open. -/
theorem Machine.within_iff {start machine : Machine} {base : Frame} {callers upper : List Frame}
    {blocks : List ScopeId} (begins : start.frames = base :: callers)
    (current : machine.frames
      = upper ++ { base with localScopes := blocks ++ base.localScopes } :: callers) :
    start.Within machine ↔ upper ≠ [] ∨ blocks ≠ [] := by
  have outermost : start.frames.length = callers.length + 1 := congrArg List.length begins
  have deep : start.openBlocks = base.localScopes.length := by rw [Machine.openBlocks, begins]
  have count : machine.frames.length = upper.length + (callers.length + 1) := by
    rw [current, List.length_append]
    rfl
  unfold Machine.Within
  cases upper with
  | nil =>
    have here : machine.openBlocks = blocks.length + base.localScopes.length := by
      rw [Machine.openBlocks, current]
      exact List.length_append
    rw [count, outermost, deep, here]
    simp [List.length_pos_iff]
  | cons frame upper =>
    rw [count, outermost, List.length_cons]
    simp

/-- A machine that is about to open a block. -/
structure Outset where
  machine : Machine
  base : Frame
  callers : List Frame
  low : Shape
  current : machine.frames = base :: callers
  fits : Fitting low machine.stack

namespace Outset

variable (outset : Outset)

/-- The frames at the outset, with more blocks open in the uppermost one. -/
def outer (blocks : List ScopeId) : List Frame :=
  { outset.base with localScopes := blocks ++ outset.base.localScopes } :: outset.callers

/-- The copies that wait on the stack at the outset. -/
def waiting : List BindingId :=
  picked .copy outset.low outset.machine.stack

private theorem length_waiting : outset.waiting.length = outset.low.count .copy :=
  length_picked_copy outset.fits

private theorem outer_ne_nil (blocks : List ScopeId) : outset.outer blocks ≠ [] :=
  List.cons_ne_nil _ _

end Outset

/-- The scopes that frames, blocks and waiting copies will free. -/
def Made (frames : List Frame) (blocks : List ScopeId) (copies : List BindingId) (heap : Heap)
    (scope : ScopeId) : Prop :=
  scope ∈ frames.flatMap Frame.estate ++ blocks ∨ ∃ copy ∈ copies, heap.Refers copy scope

/-- The bindings that frames free on their own, and copies that wait for this. -/
def Alone (frames : List Frame) (copies : List BindingId) (id : BindingId) : Prop :=
  id ∈ frames.map Frame.receiver ∨ id ∈ copies

/-- A machine inside a block that was opened at an outset, with frames above, blocks open in the frame
of the outset, and copies that were made since and wait on the stack. All that is new belongs to
these. -/
structure Inside (lost : ScopeId → Prop) (source : Program) (outset : Outset) (shape : Shape)
    (frames : List Frame) (blocks : List ScopeId) (kinds : Shape) (copies : List BindingId)
    (machine : Machine) : Prop where
  current : machine.frames = frames ++ outset.outer blocks
  pends : Pends (image source) outset.low (outset.outer blocks) shape frames kinds
  inOrder : InOrder lost kinds machine
  waits : picked .copy kinds machine.stack = copies ++ outset.waiting
  ledger : Ledger outset.machine machine (Made frames blocks copies machine.heap) (Alone frames copies)

/-- The property of a machine that comes to a cell inside a block. -/
def Accounted (lost : ScopeId → Prop) (source : Program) (outset : Outset) : Assertion :=
  fun _ cell machine =>
    ∃ frames blocks kinds copies, blocks ≠ []
      ∧ Inside lost source outset cell.shape frames blocks kinds copies machine

section

variable {lost more : ScopeId → Prop} {source : Program} {outset : Outset} {shape kinds : Shape}
  {frames : List Frame} {blocks : List ScopeId} {copies : List BindingId} {machine after : Machine}

theorem Made.congr {heap other : Heap} {scope : ScopeId}
    (same : ∀ copy ∈ copies, other.Refers copy scope ↔ heap.Refers copy scope) :
    Made frames blocks copies other scope ↔ Made frames blocks copies heap scope := by
  refine or_congr Iff.rfl ⟨?_, ?_⟩
  · rintro ⟨copy, member, refers⟩
    exact ⟨copy, member, (same copy member).mp refers⟩
  · rintro ⟨copy, member, refers⟩
    exact ⟨copy, member, (same copy member).mpr refers⟩

namespace Inside

variable (inside : Inside lost source outset shape frames blocks kinds copies machine)

include inside

theorem mono (implies : ∀ {scope}, lost scope → more scope)
    (dead : ∀ {scope}, more scope → ¬ machine.heap.LiveScope scope) :
    Inside more source outset shape frames blocks kinds copies machine :=
  { inside with inOrder := inside.inOrder.mono implies dead }

theorem moved (ip extended extensions line : Nat) :
    Inside lost source outset shape frames blocks kinds copies
      (machine.moved ip extended extensions line) :=
  ⟨inside.current, inside.pends, inside.inOrder.moved ip extended extensions line, inside.waits,
    inside.ledger.same rfl rfl⟩

theorem arrives {offset : Nat} (leveled : Leveled (image source) offset shape)
    (opened : blocks ≠ []) : (Accounted lost source outset).Arrives (image source) offset machine := by
  obtain ⟨cell, stands, rfl⟩ := leveled
  exact ⟨cell, stands, frames, blocks, kinds, copies, opened, inside⟩

/-- The block of the outset is open as long as there are frames above or blocks. -/
theorem within_iff : outset.machine.Within machine ↔ frames ≠ [] ∨ blocks ≠ [] :=
  Machine.within_iff outset.current inside.current

private theorem waits_of_mem {copy : BindingId} (member : copy ∈ copies) :
    copy ∈ picked .copy kinds machine.stack := by
  rw [inside.waits]
  exact List.mem_append_left _ member

theorem liveScope {scope : ScopeId} (member : scope ∈ frames.flatMap Frame.estate ++ blocks) :
    machine.heap.LiveScope scope := by
  have estates := inside.inOrder.order.estates
  rw [inside.current] at estates
  rcases List.mem_append.mp member with member | member
  · obtain ⟨frame, above, held⟩ := List.mem_flatMap.mp member
    exact estates.liveScope (List.mem_append_left _ above) held
  · refine estates.liveScope (List.mem_append_right _ (.head _)) ?_
    exact List.mem_append_left _ (List.mem_append_left _ member)

/-- What is stored for a while, with given frames on top of those of the outset, goes to a scope that is
freed with the uppermost frame or block. -/
theorem disposable {upper lower : List Frame} {stack : List StackItem} (split : frames = upper ++ lower)
    (opened : blocks ≠ []) :
    ∃ scope, Machine.disposable? { machine with stack, frames := lower ++ outset.outer blocks } = some scope
      ∧ scope ∈ frames.flatMap Frame.estate ++ blocks := by
  subst split
  have estates := inside.inOrder.order.estates
  rw [inside.current] at estates
  cases lower with
  | nil =>
    obtain ⟨block, others, rfl⟩ := List.exists_cons_of_ne_nil opened
    exact ⟨block, rfl, List.mem_append_right _ (.head _)⟩
  | cons frame lower =>
    have part : frame :: (lower ++ outset.outer blocks)
        <:+ upper ++ frame :: lower ++ outset.outer blocks := ⟨upper, by simp⟩
    obtain ⟨own, method⟩ := Option.isSome_iff_exists.mp
      (estates.calls part (by simp [outset.outer_ne_nil]))
    have estate {scope : ScopeId} (member : scope ∈ frame.estate) :
        scope ∈ (upper ++ frame :: lower).flatMap Frame.estate ++ blocks :=
      List.mem_append_left _ (List.mem_flatMap.mpr ⟨frame, by simp, member⟩)
    have held : Machine.disposable?
        { machine with stack, frames := frame :: lower ++ outset.outer blocks }
        = frame.localScopes.head?.or frame.methodScope := rfl
    cases first : frame.localScopes with
    | nil =>
      refine ⟨own, by rw [held, first, method]; rfl, estate ?_⟩
      exact List.mem_append_right _ (Option.mem_toList.mpr method)
    | cons block others =>
      refine ⟨block, by rw [held, first]; rfl, estate ?_⟩
      exact List.mem_append_left _ (first ▸ .head _)

private theorem disposable_here (opened : blocks ≠ []) : ∃ scope, machine.disposable? = some scope
    ∧ scope ∈ frames.flatMap Frame.estate ++ blocks := by
  have current := inside.current
  obtain ⟨scope, held, member⟩ :=
    @disposable _ _ _ _ _ _ _ _ _ inside [] frames machine.stack rfl opened
  refine ⟨scope, ?_, member⟩
  rw [← held]
  exact Machine.disposable?_of_frames current

end Inside

end

/-! ## Returns -/

section

variable {lost : ScopeId → Prop} {source : Program} {shape below kinds : Shape} {frame : Frame}
  {callers frames : List Frame} {explicit kept : Option BindingId} {outset : Outset}
  {blocks : List ScopeId} {copies : List BindingId} {machine after : Machine}

/-- The scopes of the uppermost frame are none of the other frames, blocks or copies. -/
theorem Inside.apart {scope : ScopeId}
    (inside : Inside lost source outset shape (frame :: frames) blocks kinds copies machine)
    (held : scope ∈ frame.estate) :
    scope ∉ frames.flatMap Frame.estate ++ blocks ∧ ∀ copy ∈ copies, ¬ machine.heap.Refers copy scope := by
  have order := inside.inOrder.order
  rw [inside.current] at order
  have estates : Estates _ _ _ (frame :: (frames ++ outset.outer blocks)) := order.estates
  obtain ⟨-, others⟩ := estates.disjoint held
  constructor
  · intro listed
    rcases List.mem_append.mp listed with listed | block
    · obtain ⟨lower, member, below⟩ := List.mem_flatMap.mp listed
      exact others (List.mem_append_left _ member) below
    · refine others (List.mem_append_right _ (.head _)) ?_
      exact List.mem_append_left _ (List.mem_append_left _ block)
  · intro copy member refers
    have waits := inside.waits_of_mem member
    rcases List.mem_append.mp held with block | own
    · exact order.guarded.unreferred (estates.fleeting (.head _) block) copy refers
    · exact (estates.lasting (.head _) (Option.mem_toList.mp own)).2 copy waits refers

/-- No other frame runs on the method of the uppermost one, and it does not wait. -/
theorem Inside.other {id : BindingId}
    (inside : Inside lost source outset shape (frame :: frames) blocks kinds copies machine)
    (held : Alone frames copies id) : id ≠ frame.receiver := by
  have order := inside.inOrder.order
  rw [inside.current] at order
  have call : frames ++ outset.outer blocks ≠ [] := by simp [outset.outer_ne_nil]
  rcases held with receiver | member
  · obtain ⟨lower, above, rfl⟩ := List.mem_map.mp receiver
    exact (order.apart List.suffix_rfl (.held (List.mem_append_left _ above) .receiver)).other
      (order.estates.calls List.suffix_rfl call)
  · rintro rfl
    exact (order.holds (.head _) .receiver).other (inside.waits_of_mem member)

variable (leftFrame : LeftFrame lost source machine frame callers below explicit kept after)

include leftFrame

/-- The copies that wait below a frame are those of the whole stack, if none waits in the frame. -/
theorem LeftFrame.waits (fits : Fitting (shape ++ below) machine.stack) (plain : .copy ∉ shape) :
    picked .copy (shape ++ below) machine.stack = picked .copy below after.stack := by
  obtain ⟨items, stack⟩ := leftFrame.suffix
  obtain ⟨upper, lower, split, above, rest⟩ := fits.of_append
  have height : lower.length = after.stack.length := rest.length.trans leftFrame.fits.length.symm
  obtain ⟨rfl, rfl⟩ := List.append_inj' (split.symm.trans stack.symm) height
  rw [split, picked_append above, picked_copy_nil plain, List.nil_append]

/-- A frame that hands on nothing of its own method is freed. What it hands on belongs to a scope of
those below, if it is new. -/
theorem Inside.frees {operand : Nat}
    (inside : Inside lost source outset shape (frame :: frames) blocks kinds copies machine)
    (opened : blocks ≠ []) (lower : callers = frames ++ outset.outer blocks)
    (top : if operand ≠ 0 then ∃ id, machine.stack.head? = some (.binding id) ∧ explicit = some id
      else explicit = none)
    (free : ∀ frame callers id own, machine.frames = frame :: callers →
      machine.chosen? frame callers operand = some id → frame.methodScope = some own →
      id ≠ frame.receiver ∧ ¬ machine.heap.Refers id own) :
    machine.heap.FreesFrame frame (Machine.disposable? { machine with frames := callers }) kept after.heap
      ∧ (∀ id, kept = some id → ¬ machine.heap.Live id →
        ∃ scope, scope ∈ (frame :: frames).flatMap Frame.estate ++ blocks ∧ after.heap.Owns scope id)
      ∧ after.interned = machine.interned := by
  have order := inside.inOrder.order
  have tidy : machine.heap.Tidy := order.guarded.tidy
  have call : callers ≠ [] := by simp [lower, outset.outer_ne_nil]
  obtain ⟨keep, rest, middle, yields, freesScopes, disposes⟩ := leftFrame.frees
  obtain ⟨rfl, found⟩ := Action.yielded_chosen yields top rfl rfl
  rw [leftFrame.current] at order
  obtain ⟨own, method⟩ := Option.isSome_iff_exists.mp (order.estates.calls List.suffix_rfl call)
  have live : ∀ id ∈ kept, after.heap.Live id := fun id member => (leftFrame.safe id member).live
  refine ⟨?_, fun id same new => ?_, disposes.interned.trans freesScopes.interned⟩
  · have frees := disposes.freesFrame freesScopes tidy live method
      (fun scope inside => order.estates.liveScope (.head _) inside)
      (order.holds (.head _) .receiver).live
      (fun id chosen => free frame callers id own leftFrame.current chosen method) (found call)
    exact frees
  · obtain ⟨place, held, listed⟩ :=
      @Inside.disposable _ _ _ _ _ _ _ _ _ inside [frame] frames after.stack rfl opened
    rw [← lower] at held
    obtain stays | ⟨other, again, owns⟩ :=
      disposes.places freesScopes tidy held (inside.liveScope listed)
    · obtain ⟨result, again, survives⟩ := disposes.survives freesScopes tidy live (stays.symm.trans same)
      obtain ⟨value, copy, before, -⟩ := survives.content
      exact absurd ⟨value, before⟩ new
    · cases same.symm.trans again
      exact ⟨place, listed, owns⟩

end

/-! ## Instructions -/

/-- An instruction makes nothing that stays: it calls no array, it declares names only in scopes that
are new since an earlier time, and it does not return what needs the method that it returns from. -/
structure Machine.MakesNothingLasting (start machine : Machine) (opcode : Opcode) (operand : Nat)
    (after : Machine) : Prop where
  arrays : opcode = .evaluate → ∀ method target, machine.stack[operand]? = some (.binding method) →
    machine.heap.bindings.get? method = some target → target.tag ≠ .array
  names : opcode = .resolveDirect ∨ opcode = .resolveScoped → ∀ scope id, after.heap.Owns scope id →
    ¬ machine.heap.Live id → ¬ start.heap.LiveScope scope
  returns : opcode = .return → ∀ frame callers id own, machine.frames = frame :: callers →
    machine.chosen? frame callers operand = some id → frame.methodScope = some own →
    id ≠ frame.receiver ∧ ¬ machine.heap.Refers id own

namespace Inside

section

variable {lost more : ScopeId → Prop} {source : Program} {outset : Outset} {kinds : Shape}
  {frames : List Frame} {blocks : List ScopeId} {copies : List BindingId}
  {offset limit : Nat} {cell : Cell} {machine after : Machine} {transfer : Transfer}
  (flows : Flows (Pools.ofProgram source) limit (bodies source) True (image source) offset cell)
  (tight : cell.command.Tight cell.shape)
  (inside : Inside lost source outset cell.shape frames blocks kinds copies machine)
  (opened : blocks ≠ [])

include flows tight inside opened

/-- What an instruction stores inside its frame goes to scopes that are new. -/
theorem straight (placed : Placed True source offset cell machine)
    (copy : cell.command.opcode ≠ .copy)
    (evaluate : cell.command.opcode ≠ .evaluate) (returns : cell.command.opcode ≠ .return)
    (enter : cell.command.opcode ≠ .enterLocal) (leave : cell.command.opcode ≠ .leaveLocal)
    (gone : ∀ {scope}, lost scope → ¬ (Action.final (Action.step (Pools.ofProgram source).names
      cell.command.opcode cell.command.operand machine)).heap.LiveScope scope)
    (result : Action.step (Pools.ofProgram source).names cell.command.opcode cell.command.operand
      machine = .ok transfer after)
    (nothingLasting : outset.machine.MakesNothingLasting machine cell.command.opcode cell.command.operand after) :
    cell.command.Passes transfer
      ∧ ∃ kinds, Inside lost source outset (cell.command.shapeAfter cell.shape) frames blocks kinds
        copies after := by
  obtain ⟨under, items, rest, rfl, onTop, pends⟩ := inside.pends.split inside.inOrder inside.current
    (outset.outer_ne_nil blocks) tight.takes
  have kept := onTop.straight flows placed copy evaluate returns enter leave gone
  have edits : Edits (thrifty fun _ => cell.command.opcode = .resolveDirect
      ∨ cell.command.opcode = .resolveScoped) machine after := by
    have places : cell.command.opcode = .resolveDirect ∨ cell.command.opcode = .resolveScoped
        ∨ cell.command.opcode = .evaluate ∨ cell.command.opcode = .evaluateInPlace →
        ScopeId → cell.command.opcode = .resolveDirect ∨ cell.command.opcode = .resolveScoped := by
      rintro (same | same | same | same) _
      · exact .inl same
      · exact .inr same
      · exact absurd same evaluate
      · exact absurd same flows.not_in_place
    have editing : Editing (thrifty fun _ => cell.command.opcode = .resolveDirect
        ∨ cell.command.opcode = .resolveScoped) (Action.step (Pools.ofProgram source).names
        cell.command.opcode cell.command.operand) :=
      Action.editing_step _ _ _ (by simp [enter]) (by simp [copy, tight.defines, evaluate])
        (by simp [leave, returns]) (fun _ => trivial) (by simp [evaluate, returns]) places
        (by simp [enter, leave, evaluate, flows.not_in_place, returns]) (fun _ _ => trivial)
        (fun _ => trivial) fun _ => trivial
    have editing := editing machine
    rw [result] at editing
    exact editing
  rw [result] at kept
  obtain ⟨passes, went, ⟨made, left, new⟩, inOrder⟩ := kept
  obtain ⟨same, -⟩ := onTop.taken (Command.copy_not_taken evaluate)
  obtain ⟨place, held, owned⟩ := inside.disposable_here opened
  have stores := edits.stores (by simp [held])
  have waits := inside.waits
  have ledger := inside.ledger.stores stores fun {scope id} allowed owns fresh => by
    rcases allowed with disposable | resolves
    · cases held.symm.trans disposable
      exact .inl owned
    · have outside := nothingLasting.names resolves scope id owns fresh
      have live := stores.gains.scopes.mp owns.liveScope
      exact (inside.ledger.entered live).resolve_left outside
  have unchanged {scope : ScopeId} : Made frames blocks copies after.heap scope
      ↔ Made frames blocks copies machine.heap scope := Made.congr fun copy member => by
    refine went.grows.refers ?_
    rw [← same]
    exact inside.waits_of_mem member
  refine ⟨passes, _, went.continues.frames.trans inside.current, pends cell.command.gives, inOrder, ?_,
    ledger.reframe (fun _ => unchanged.mpr) unchanged.mp (fun _ => id) id⟩
  rw [left, picked_append new, picked_copy_nil (Command.copy_not_given copy), List.nil_append,
    ← same, waits]

omit opened in
/-- A copy that is put on the stack has a scope of its own. -/
theorem copying (copy : cell.command.opcode = .copy)
    (gone : ∀ {scope}, lost scope → ¬ (Action.final (Action.step (Pools.ofProgram source).names
      cell.command.opcode cell.command.operand machine)).heap.LiveScope scope)
    (result : Action.step (Pools.ofProgram source).names cell.command.opcode cell.command.operand
      machine = .ok transfer after) :
    transfer = .next
      ∧ ∃ kinds copies, Inside lost source outset (cell.command.shapeAfter cell.shape) frames blocks
        kinds copies after := by
  obtain ⟨⟨opcode, operand⟩, line, depth, shape⟩ := cell
  subst copy
  obtain ⟨under, items, rest, rfl, onTop, pends⟩ := inside.pends.split inside.inOrder inside.current
    (outset.outer_ne_nil blocks) tight.takes
  have copied := onTop.copies operand gone
  dsimp only at result
  rw [result] at copied
  obtain ⟨rfl, ⟨scope, heap, value, empty, refers, gains, grows, rfl⟩, inOrder⟩ := copied
  have plain : .copy ∉ (Command.mk .copy operand).takes := Command.copy_not_taken (by simp)
  obtain ⟨same, -⟩ := onTop.taken plain
  have guarded := inside.inOrder.order.guarded
  have waits := inside.waits
  rw [same] at waits
  have booked := inside.ledger.seals empty gains value
  have older {copy : BindingId} (member : copy ∈ copies) {owner : ScopeId} :
      (heap.allocate value).2.Refers copy owner ↔ machine.heap.Refers copy owner := by
    rw [refers_allocate, grows.refers (waits ▸ List.mem_append_left _ member)]
    refine or_iff_right fun new => heap.not_live_allocate value ?_
    exact new.1 ▸ grows.live (guarded.live (inside.waits_of_mem member))
  have newest {owner : ScopeId} : (heap.allocate value).2.Refers (heap.allocate value).1 owner
      ↔ owner = (machine.heap.allocateScope scope).1 := by
    rw [refers_allocate, refers]
    constructor
    · rintro (⟨-, same⟩ | again)
      · exact (Option.some.inj same).symm
      · exact absurd again.live (heap.not_live_allocate value)
    · rintro rfl
      exact .inl ⟨rfl, rfl⟩
  refine ⟨rfl, _, (heap.allocate value).1 :: copies, inside.current, pends [.copy], inOrder, ?_, ?_⟩
  · have top : picked .copy (.copy :: under) (.binding (heap.allocate value).1 :: rest)
        = (heap.allocate value).1 :: picked .copy under rest := by simp [picked]
    refine top.trans ?_
    rw [waits]
    rfl
  · refine booked.becomes rfl rfl ?_ ?_ ?_ ?_
    · rintro owner - (rfl | listed | ⟨copy, member, refers⟩)
      · exact .inr ⟨_, .head _, newest.mpr rfl⟩
      · exact .inl listed
      · exact .inr ⟨copy, .tail _ member, (older member).mpr refers⟩
    · rintro owner (listed | ⟨copy, member, refers⟩)
      · exact .inr (.inl listed)
      · rcases List.mem_cons.mp member with rfl | member
        · exact .inl (newest.mp refers)
        · exact .inr (.inr ⟨copy, member, (older member).mp refers⟩)
    · rintro id - (rfl | receiver | member)
      · exact .inr (.head _)
      · exact .inl receiver
      · exact .inr (.tail _ member)
    · rintro id (receiver | member)
      · exact .inr (.inl receiver)
      · exact (List.mem_cons.mp member).imp (fun same => same) .inr

omit flows tight opened in
/-- A block that is opened is new. -/
theorem entering (room : frames = [] ∨ blocks ≠ []) (enter : cell.command.opcode = .enterLocal)
    (gone : ∀ {scope}, lost scope → ¬ (Action.final (Action.step (Pools.ofProgram source).names
      cell.command.opcode cell.command.operand machine)).heap.LiveScope scope)
    (result : Action.step (Pools.ofProgram source).names cell.command.opcode cell.command.operand
      machine = .ok transfer after) :
    transfer = .next
      ∧ ∃ frames blocks, blocks ≠ [] ∧ Inside lost source outset
        (cell.command.shapeAfter cell.shape) frames blocks kinds copies after := by
  obtain ⟨⟨opcode, operand⟩, line, depth, shape⟩ := cell
  subst enter
  obtain ⟨current, pends, inOrder, waits, ledger⟩ := inside
  dsimp only at result
  have opens := @Ledger.opens _ _ _ _ ledger
    { parent := some machine.registers.localScope } rfl
  cases frames with
  | nil =>
    obtain ⟨registers, entered, steps, rfl, opened⟩ := inOrder.opens operand current gone
    rw [result] at steps
    cases steps
    refine ⟨rfl, [], _ :: blocks, List.cons_ne_nil _ _, rfl, pends, opened, waits, ?_⟩
    refine opens.becomes rfl rfl ?_ ?_ (fun _ => id) id
    · rintro scope - (rfl | listed | waiting)
      · exact .inl (.head _)
      · exact .inl (.tail _ listed)
      · exact .inr waiting
    · rintro scope (listed | waiting)
      · exact (List.mem_cons.mp listed).imp (fun same => same) .inl
      · exact .inr (.inr waiting)
  | cons frame frames =>
    obtain ⟨registers, entered, steps, rfl, opened⟩ := inOrder.opens operand current gone
    rw [result] at steps
    cases steps
    refine ⟨rfl, _ :: frames, blocks, room.resolve_left (by simp), rfl, pends, opened, waits, ?_⟩
    refine opens.becomes rfl rfl ?_ ?_ (fun _ => id) id
    · rintro scope - (rfl | listed | waiting)
      · exact .inl (.head _)
      · exact .inl (.tail _ listed)
      · exact .inr waiting
    · rintro scope (listed | waiting)
      · exact (List.mem_cons.mp listed).imp (fun same => same) .inl
      · exact .inr (.inr waiting)

omit tight in
/-- A block that is closed is freed. -/
theorem leaving (placed : Placed True source offset cell machine)
    (leave : cell.command.opcode = .leaveLocal)
    (result : Action.step (Pools.ofProgram source).names cell.command.opcode cell.command.operand
      machine = .ok transfer after) :
    transfer = .next ∧ cell.shape = []
      ∧ ∃ above behind, (above = [] ∨ behind ≠ []) ∧ (frames = [] → above = [])
        ∧ Inside lost source outset (cell.command.shapeAfter cell.shape) above behind kinds copies
          after := by
  obtain ⟨deep, empty⟩ := flows.deep leave
  obtain ⟨⟨opcode, operand⟩, line, depth, shape⟩ := cell
  subst leave
  cases empty
  obtain ⟨current, pends, inOrder, waits, ledger⟩ := inside
  dsimp only at result
  have spans := pends.spans (outset.outer_ne_nil blocks)
  have guarded := inOrder.order.guarded
  have older {scope : ScopeId} {left : Heap} (loses : machine.heap.Loses scope left)
      {copy : BindingId} (member : copy ∈ copies) {owner : ScopeId} :
      left.Refers copy owner ↔ machine.heap.Refers copy owner := by
    have free := guarded.unowned (waits ▸ List.mem_append_left _ member) scope
    unfold Refers
    rw [loses.kept free]
  cases frames with
  | nil =>
    obtain ⟨block, others, rfl⟩ := List.exists_cons_of_ne_nil opened
    have height : machine.stack.length = outset.base.stackMark := by
      obtain ⟨below, rfl, mark, -⟩ := spans
      exact inOrder.fits.length.trans mark.symm
    obtain ⟨left, registers, closed, steps, rfl, loses, order⟩ :=
      inOrder.closes operand current rfl height
    rw [result] at steps
    cases steps
    refine ⟨rfl, rfl, [], others, .inl rfl, fun _ => rfl, rfl, pends, order, waits, ?_⟩
    refine (ledger.loses loses (.inl (.head _))).becomes rfl rfl ?_ ?_ (fun _ => id) id
    · rintro scope live (listed | ⟨copy, member, refers⟩)
      · refine .inl ((List.mem_cons.mp listed).resolve_left (loses.liveScope_before live).1)
      · exact .inr ⟨copy, member, (older loses member).mpr refers⟩
    · rintro scope (listed | ⟨copy, member, refers⟩)
      · exact .inl (.tail _ listed)
      · exact .inr ⟨copy, member, (older loses member).mp refers⟩
  | cons frame frames =>
    obtain ⟨-, framed⟩ := placed
    rw [current] at framed
    obtain ⟨scope, scopes, held⟩ : ∃ scope scopes, frame.localScopes = scope :: scopes :=
      List.exists_cons_of_length_pos (framed.1 ▸ deep)
    have height : machine.stack.length = frame.stackMark := by
      obtain ⟨below, rfl, mark, -⟩ := spans
      exact inOrder.fits.length.trans mark.symm
    obtain ⟨left, registers, closed, steps, rfl, loses, order⟩ :=
      inOrder.closes operand current held height
    rw [result] at steps
    cases steps
    have parts : (frame :: frames).flatMap Frame.estate ++ blocks
        = scope :: (({ frame with localScopes := scopes } :: frames).flatMap Frame.estate ++ blocks) := by
      simp [Frame.estate, held]
    refine ⟨rfl, rfl, _ :: frames, blocks, .inr opened, by simp, rfl, pends, order, waits, ?_⟩
    refine (ledger.loses loses (.inl (parts ▸ .head _))).becomes rfl rfl ?_ ?_ (fun _ => id) id
    · rintro owner live (listed | ⟨copy, member, refers⟩)
      · rw [parts] at listed
        exact .inl ((List.mem_cons.mp listed).resolve_left (loses.liveScope_before live).1)
      · exact .inr ⟨copy, member, (older loses member).mpr refers⟩
    · rintro owner (listed | ⟨copy, member, refers⟩)
      · exact .inl (parts ▸ .tail _ listed)
      · exact .inr ⟨copy, member, (older loses member).mp refers⟩

/-- A copy that is called becomes the method of a frame, which frees it with its scope. -/
theorem calling (placed : Placed True source offset cell machine)
    (call : cell.command.opcode = .evaluate)
    (here : machine.registers.ip + 1 = offset + cell.command.width)
    (snug : Snug (image source) offset cell)
    (result : Action.step (Pools.ofProgram source).names cell.command.opcode cell.command.operand
      machine = .ok transfer after)
    (nothingLasting : outset.machine.MakesNothingLasting machine cell.command.opcode cell.command.operand after) :
    ∃ body, transfer = .goto body ∧ body ∈ sections source ∧ body ≠ 0
      ∧ ∃ above kinds fewer, Inside lost source outset [] above blocks kinds fewer after := by
  obtain ⟨⟨opcode, operand⟩, line, depth, shape⟩ := cell
  subst call
  obtain ⟨under, items, rest, rfl, onTop, pends⟩ := inside.pends.split inside.inOrder inside.current
    (outset.outer_ne_nil blocks) tight.takes
  obtain ⟨upper, method, caller, target, rfl, values, there, calls⟩ := onTop.calls operand placed.1
  simp only [Action.step] at result
  rw [result] at calls
  have stack : machine.stack = upper ++ [StackItem.binding method, .binding caller] ++ rest := onTop.stack
  rcases calls with ⟨-, array, -⟩ | ⟨rfl, called⟩
  · refine absurd array (nothingLasting.arrays rfl method target ?_ there)
    have count : upper.length = operand := by rw [values.length, List.length_replicate]
    rw [stack, ← count]
    simp
  have picks : picked .copy (Action.callTakes operand ++ under) machine.stack
      = method :: picked .copy under rest := by rw [stack, picked_copy_call values]
  have waits : method :: picked .copy under rest = copies ++ outset.waiting :=
    picks.symm.trans inside.waits
  -- the kinds of the outset lie below what the call takes, so the copy was made since
  have some_ : copies ≠ [] := by
    rintro rfl
    obtain ⟨left, wide⟩ := tight.takes
    obtain ⟨middle, parts⟩ := inside.pends.above
    have total := length_picked_copy onTop.inOrder.fits
    have one : (Command.takes ⟨.evaluate, operand⟩).count .copy = 1 := by
      simp [Command.takes, List.count_replicate]
    rw [inside.waits, parts, ← wide, List.nil_append, outset.length_waiting, List.count_append,
      List.count_append, List.count_append, one] at total
    omega
  obtain ⟨first, fewer, rfl⟩ := List.exists_cons_of_ne_nil some_
  obtain ⟨rfl, remaining⟩ := List.cons.inj waits
  obtain ⟨invoker, own, arguments, ready, refers, bound, registers, left, current, heap, interned⟩ :=
    called.opened
  have edits : Edits (thrifty (· = own)) { machine with stack := rest } ready := by
    have editing : Editing (thrifty (· = own)) (Action.checkCall target arguments.length >>= fun _ =>
        Action.bindArguments target none arguments) :=
      (Action.editing_checkCall target _).bind fun _ => Action.editing_bindArguments
        (fun scope again => Option.some.inj (again.symm.trans refers)) arguments
    have edits := editing { machine with stack := rest }
    rw [bound] at edits
    exact edits
  obtain ⟨place, held, owned⟩ := inside.disposable_here opened
  have disposes : Machine.disposable? { machine with stack := rest } = some place := held
  have stores := edits.stores (by simp [disposes])
  have taken : Ledger outset.machine { machine with stack := rest } _ _ := inside.ledger.same rfl rfl
  have ledger := taken.stores stores fun {scope id} allowed owns fresh => by
    obtain disposable | same := allowed
    · cases disposes.symm.trans disposable
      exact .inl owned
    · exact .inr ⟨method, .head _, target, there, same ▸ refers⟩
  have older {copy : BindingId} (member : copy ∈ fewer) {scope : ScopeId} :
      after.heap.Refers copy scope ↔ machine.heap.Refers copy scope :=
    called.grows.refers (remaining ▸ List.mem_append_left _ member)
  refine ⟨_, rfl, called.body.1, called.body.2, Action.newFrame invoker method (some own) ready :: frames,
    under, fewer, ?_, ?_, called.inOrder, ?_, ?_⟩
  · rw [current, inside.current]
    rfl
  · have pending := pends []
    have address : ready.registers.ip + 1 = machine.registers.ip + 1 :=
      congrArg (·.ip + 1) registers
    have leveled := snug.leveled (flows.next (by simp) (by simp))
    rw [← here, ← address] at leveled
    have mark : ready.stack.length = under.length := by rw [left, onTop.lower.length]
    exact pending.call mark leveled
  · rw [called.stack]
    exact remaining
  · refine ledger.becomes heap interned ?_ ?_ ?_ ?_
    · rintro scope - (listed | ⟨copy, member, again⟩)
      · exact .inl (.tail _ listed)
      · rcases List.mem_cons.mp member with rfl | member
        · obtain ⟨value, found, same⟩ := again
          cases found.symm.trans there
          cases same.symm.trans refers
          exact .inl (.head _)
        · exact .inr ⟨copy, member, (older member).mpr again⟩
    · rintro scope (listed | ⟨copy, member, again⟩)
      · rcases List.mem_cons.mp listed with rfl | listed
        · exact .inr ⟨method, .head _, target, there, refers⟩
        · exact .inl listed
      · exact .inr ⟨copy, .tail _ member, (older member).mp again⟩
    · rintro id - (receiver | member)
      · exact .inl (.tail _ receiver)
      · rcases List.mem_cons.mp member with rfl | member
        · exact .inl (.head _)
        · exact .inr member
    · rintro id (receiver | member)
      · rcases List.mem_cons.mp receiver with rfl | receiver
        · exact .inr (.head _)
        · exact .inl receiver
      · exact .inr (.tail _ member)

/-- A frame that is left is freed, with all that it owned. -/
theorem returning (returns : cell.command.opcode = .return)
    (loss : Loss lost more machine.frames (Action.final (Action.step (Pools.ofProgram source).names
      cell.command.opcode cell.command.operand machine)).heap)
    (result : Action.step (Pools.ofProgram source).names cell.command.opcode cell.command.operand
      machine = .ok transfer after)
    (goes : ∀ value, transfer ≠ .halt value) (within : outset.machine.Within after)
    (nothingLasting : outset.machine.MakesNothingLasting machine cell.command.opcode cell.command.operand after) :
    ∃ address shape, transfer = .goto address ∧ Leveled (image source) address shape
      ∧ ∃ above kinds, Inside more source outset shape above blocks kinds copies after := by
  have spans := inside.pends.spans (outset.outer_ne_nil blocks)
  rw [← inside.current] at spans
  obtain ⟨frame, callers, below, explicit, kept, left, whole, leftFrame, top, steps⟩ :=
    leftFrame_return flows inside.inOrder spans returns
  have parts := leftFrame.current.symm.trans inside.current
  cases callers with
  | nil =>
    have halts : EStateM.Result.ok (Transfer.halt kept) left = .ok transfer after :=
      steps.symm.trans result
    cases halts
    exact absurd rfl (goes kept)
  | cons calling others =>
    rw [steps, if_neg (by simp)] at loss result
    rw [Action.heap_resumed leftFrame.frames] at loss
    obtain ⟨final, resumes, heap, interned, current, stack, inOrder⟩ := leftFrame.resumes loss
    rw [resumes] at result
    cases result
    cases frames with
    | nil =>
      -- the frame of the outset is left itself
      obtain ⟨-, rest⟩ := List.cons.inj parts
      have fewer : after.frames.length = outset.callers.length :=
        congrArg List.length (current.trans rest)
      have more : outset.machine.frames.length = outset.callers.length + 1 :=
        congrArg List.length outset.current
      unfold Machine.Within at within
      omega
    | cons first frames =>
      obtain ⟨rfl, upper⟩ := List.cons.inj parts
      obtain ⟨other, waiting, same, mark, leveled, rest⟩ := inside.pends
      cases List.append_cancel_left (whole.symm.trans same)
      obtain ⟨low, rfl, replaces⟩ := rest.replace
      obtain ⟨frees, places, unchanged⟩ := Inside.frees leftFrame inside opened upper top
        (nothingLasting.returns returns)
      have fits := inside.inOrder.fits
      rw [whole] at fits
      have waits := leftFrame.waits fits (tight.returns returns)
      rw [← whole, inside.waits] at waits
      have older {copy : BindingId} (member : copy ∈ copies) {scope : ScopeId} :
          after.heap.Refers copy scope ↔ machine.heap.Refers copy scope := by
        unfold Refers
        rw [heap, leftFrame.untouched copy (waits ▸ List.mem_append_left _ member)]
      refine ⟨_, .value :: waiting, rfl, leveled, frames, _, ?_, replaces (.value :: waiting), inOrder,
        ?_, ?_⟩
      · exact current.trans upper
      · rw [stack, waits]
        simp [picked]
      · have booked := inside.ledger.frees frees
          (fun scope held => .inl (List.mem_append_left _ (List.mem_flatMap.mpr ⟨frame, .head _, held⟩)))
          (.inl (.head _)) fun id same new => by
            obtain ⟨scope, listed, owns⟩ := places id same new
            exact ⟨scope, .inl listed, owns⟩
        refine booked.becomes heap (interned.trans unchanged) ?_ ?_ ?_ ?_
        · rintro scope - ⟨listed | ⟨copy, member, refers⟩, outside⟩
          · rw [List.flatMap_cons, List.append_assoc] at listed
            exact .inl ((List.mem_append.mp listed).resolve_left outside)
          · exact .inr ⟨copy, member, (older member).mpr refers⟩
        · rintro scope (listed | ⟨copy, member, refers⟩)
          · refine ⟨.inl ?_, fun held => (inside.apart held).1 listed⟩
            rw [List.flatMap_cons, List.append_assoc]
            exact List.mem_append_right _ listed
          · have before := (older member).mp refers
            exact ⟨.inr ⟨copy, member, before⟩, fun held => (inside.apart held).2 copy member before⟩
        · rintro id - ⟨receiver | member, other⟩
          · exact .inl ((List.mem_cons.mp receiver).resolve_left other)
          · exact .inr member
        · rintro id held
          exact ⟨held.imp_left (.tail _), inside.other held⟩

/-- As long as the block of the outset is open, every instruction that makes nothing that stays keeps
the books. -/
theorem step (placed : Placed True source offset cell machine)
    (snug : Snug (image source) offset cell)
    (leads : ∀ body ∈ sections source, body ≠ 0 → Leads True (image source) body 0 [])
    (here : machine.registers.ip + 1 = offset + cell.command.width)
    (result : Action.step (Pools.ofProgram source).names cell.command.opcode cell.command.operand
      machine = .ok transfer after)
    (loss : Loss lost more machine.frames after.heap ∨ cell.command.opcode ≠ .return)
    (implies : ∀ {scope}, lost scope → more scope)
    (dead : ∀ {scope}, more scope → ¬ after.heap.LiveScope scope)
    (goes : ∀ value, transfer ≠ .halt value) (within : outset.machine.Within after)
    (nothingLasting : outset.machine.MakesNothingLasting machine cell.command.opcode cell.command.operand after) :
    (Accounted more source outset).After (image source) (fun _ _ => True) (fun _ _ => True)
      (offset + cell.command.width) (.ok transfer after) := by
  have gone {scope : ScopeId} (held : lost scope) : ¬ (Action.final (Action.step
      (Pools.ofProgram source).names cell.command.opcode cell.command.operand
      machine)).heap.LiveScope scope := by
    rw [result]
    exact dead (implies held)
  by_cases returns : cell.command.opcode = .return
  · obtain ⟨address, shape, rfl, leveled, above, kinds, inner⟩ :=
      inside.returning flows tight opened returns (by
        rw [result]
        exact loss.resolve_right fun other => other returns) result goes within nothingLasting
    exact inner.arrives leveled opened
  by_cases call : cell.command.opcode = .evaluate
  · obtain ⟨body, rfl, member, bound, above, kinds, fewer, inner⟩ :=
      inside.calling flows tight opened placed call here snug result nothingLasting
    exact (inner.mono implies dead).arrives (leveled_of_plain (leads body member bound) (by simp)) opened
  have onward (jump : cell.command.opcode ≠ .jump) := snug.leveled (flows.next jump returns)
  by_cases enter : cell.command.opcode = .enterLocal
  · obtain ⟨rfl, above, behind, more, inner⟩ := inside.entering (.inr opened) enter gone result
    exact (inner.mono implies dead).arrives (onward (by simp [enter])) more
  by_cases leave : cell.command.opcode = .leaveLocal
  · obtain ⟨rfl, -, above, behind, remain, -, inner⟩ := inside.leaving flows opened placed leave result
    have open_ : behind ≠ [] := by
      rcases remain with rfl | open_
      · exact (inner.within_iff.mp within).resolve_left (by simp)
      · exact open_
    exact (inner.mono implies dead).arrives (onward (by simp [leave])) open_
  by_cases copy : cell.command.opcode = .copy
  · obtain ⟨rfl, kinds, copies, inner⟩ := inside.copying flows tight copy gone result
    exact (inner.mono implies dead).arrives (onward (by simp [copy])) opened
  · obtain ⟨passes, kinds, inner⟩ :=
      inside.straight flows tight opened placed copy call returns enter leave gone result nothingLasting
    obtain ⟨rfl, jump⟩ | ⟨rfl, jumps⟩ := passes
    · exact (inner.mono implies dead).arrives (onward jump) opened
    · have level := flows.level jumps trivial
      refine (inner.mono implies dead).arrives (leveled_of_plain (flows.target jumps) ?_) opened
      rw [level]
      exact List.not_mem_nil

end

end Inside

/-! ## Opening and closing -/

private theorem not_made_nil (heap : Heap) (scope : ScopeId) : ¬ Made [] [] [] heap scope := by
  rintro (listed | ⟨copy, member, -⟩)
  · cases listed
  · cases member

private theorem not_alone_nil (id : BindingId) : ¬ Alone [] [] id := by
  rintro (receiver | member)
  · cases receiver
  · cases member

/-- In front of the block nothing is new. -/
theorem Outset.inside {lost : ScopeId → Prop} {source : Program} {shape : Shape} {machine : Machine}
    (outset : Outset) (flat : shape = []) (same : machine.frames = outset.machine.frames)
    (stack : machine.stack = outset.machine.stack) (heap : machine.heap = outset.machine.heap)
    (interned : machine.interned = outset.machine.interned)
    (spans : Spans (image source) shape machine.frames outset.low)
    (inOrder : InOrder lost outset.low machine) :
    Inside lost source outset shape [] [] outset.low [] machine := by
  have current : machine.frames = outset.outer [] := same.trans outset.current
  subst flat
  have waits : picked .copy outset.low machine.stack = [] ++ outset.waiting := by
    rw [stack]
    rfl
  exact ⟨current, ⟨rfl, current ▸ spans⟩, inOrder, waits,
    (ledger_refl outset.machine).becomes heap interned nofun (not_made_nil _ _) nofun
      (not_alone_nil _)⟩

/-- When the block is closed, nothing is new but Booleans that were shared. -/
theorem Inside.closed {lost : ScopeId → Prop} {source : Program} {outset : Outset} {kinds : Shape}
    {copies : List BindingId} {machine : Machine}
    (inside : Inside lost source outset [] [] [] kinds copies machine) :
    Ledger outset.machine machine (fun _ => False) (fun _ => False) := by
  obtain ⟨-, ⟨rfl, -⟩, inOrder, waits, ledger⟩ := inside
  obtain rfl : copies = [] := by
    have all := length_picked_copy inOrder.fits
    rw [waits, List.length_append, outset.length_waiting, List.nil_append] at all
    exact List.eq_nil_of_length_eq_zero (by omega)
  exact ledger.becomes rfl rfl (fun _ => not_made_nil _ _) nofun (fun _ => not_alone_nil _) nofun

end ScopeMachine
