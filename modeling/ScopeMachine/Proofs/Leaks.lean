import Mathlib
import ScopeMachine.Program.Construct
import ScopeMachine.Proofs.Diagnostics
import ScopeMachine.Proofs.RunsInOrder
import ScopeMachine.Proofs.Literals
import ScopeMachine.Proofs.Machine.Inside
import ScopeMachine.Proofs.Store.Census

set_option autoImplicit false

/-!
# Blocks that leave nothing behind

Between the opening of a block and its end, calls and blocks come and go. If nothing is made that is
meant to stay, the heap has the same scopes afterwards as before, and the same bindings, apart from
Booleans that were shared for the first time.
-/

namespace ScopeMachine

open Assembly Heap

/-! ## The statements of a program -/

/-- Returns are statements: none is an operand of anything. -/
def Program.ReturnsStand (program : Program) : Prop :=
  ∀ statement ∈ Block.statements program.main, ∀ part ∈ statement.parts,
    ∀ operand ∈ part.operands, operand.kind ≠ .return

instance (program : Program) : Decidable program.ReturnsStand :=
  inferInstanceAs (Decidable (∀ statement ∈ Block.statements program.main, ∀ part ∈ statement.parts,
    ∀ operand ∈ part.operands, operand.kind ≠ .return))

/-- Every statement has a span, and no span belongs to anything else. -/
theorem Code.Spread.operations {code : Code} {pools : Pools} {block : Block} {start stop : Nat}
    {spans : List Span} (spread : code.Spread pools block start stop spans) :
    spans.map Span.operation = Block.statements block := by
  induction spread with
  | nil => rfl
  | statement _ _ _ _ ih =>
    rw [List.map_cons, ih]
    rfl
  | loop _ _ _ _ _ _ _ inner later =>
    rw [List.map_cons, List.map_append, inner, later]
    rfl
  | block _ _ _ _ _ inner later =>
    rw [List.map_append, inner, later]
    rfl

private theorem Block.expressions_of_wellShaped (block : Block) (shape : Block.wellShaped block = true) :
    ∀ statement ∈ Block.statements block, ∀ operand ∈ statement.operands,
      operand.isExpression = true := by
  induction block using Block.induction with
  | nil => exact nofun
  | statement operation rest ih =>
    simp only [Block.wellShaped, Entry.wellShaped, Bool.and_eq_true] at shape
    intro statement member
    rcases List.mem_append.mp member with here | later
    · cases List.mem_singleton.mp here
      exact (Operation.areExpressions_iff _).mp shape.1.1
    · exact ih shape.2 statement later
  | block body rest inner later =>
    simp only [Block.wellShaped, Entry.wellShaped, Bool.and_eq_true] at shape
    intro statement member
    rcases List.mem_append.mp member with inside | behind
    · exact inner shape.1 statement inside
    · exact later shape.2 statement behind

/-- A statement without objects and definitions is calm, in a well-shaped program whose returns are
statements. -/
theorem Program.calm {program : Program} (shape : program.wellShaped = true)
    (returns : program.ReturnsStand) {statement : Operation}
    (member : statement ∈ Block.statements program.main)
    (plain : ∀ part ∈ statement.parts, part.kind ≠ .new ∧ part.kind ≠ .defineMethod) :
    statement.Calm :=
  ⟨Block.expressions_of_wellShaped program.main shape statement member, plain, returns statement member⟩

/-! ## Dispatches inside a block -/

/-- A dispatch makes nothing that stays: it belongs to no statement that makes an object or defines a
method, and its instruction makes nothing that stays either. -/
structure Machine.Quiet (machine : Machine) (compiled : Compiled) (spans : List Span)
    (start after : Machine) : Prop where
  statements : ∀ span ∈ spans, span.Contains machine.registers.ip →
    ∀ part ∈ span.operation.parts, part.kind ≠ .new ∧ part.kind ≠ .defineMethod
  nothingLasting : ∀ opcode operand, machine.nextOpcode? compiled = some opcode →
    machine.nextOperand? compiled = some operand → start.MakesNothingLasting machine opcode operand after

/-- A run opens a block, and closes it with the first dispatch after which it is open no more. -/
structure Machine.Brackets (machine : Machine) (compiled : Compiled) (first last : Nat)
    (start after : Machine) : Prop where
  begins : machine.run compiled first = .running start
  enters : start.nextOpcode? compiled = some .enterLocal
  order : first < last
  inside : ∀ steps, first < steps → steps ≤ last →
    ∃ inner, machine.run compiled steps = .running inner ∧ start.Within inner
  leaves : ∃ inner, machine.run compiled last = .running inner
    ∧ inner.nextOpcode? compiled = some .leaveLocal
  ends : machine.run compiled (last + 1) = .running after
  closed : ¬ start.Within after

/-- A machine in front of a cell inside a block, with everything in place for its instruction. -/
def Booked (lost : ScopeId → Prop) (source : Program) (outset : Outset) : Assertion :=
  fun offset cell machine =>
    Placed True source offset cell machine ∧ Accounted lost source outset offset cell machine

section

variable {program : Program} {compiled : Compiled} (accepted : program.compile = .ok compiled)
  (shape : program.wellShaped = true) (addressable : Addressable program compiled)

include accepted shape

theorem Booked.moved {lost : ScopeId → Prop} {outset : Outset} {offset : Nat} {cell : Cell}
    {machine : Machine} (ip extended extensions line : Nat)
    (booked : Booked lost program outset offset cell machine) :
    Booked lost program outset offset cell (machine.moved ip extended extensions line) := by
  have counts : True → program.wellShaped = true := fun _ => shape
  obtain ⟨-, -, -, valid⟩ := program.compile_ok accepted
  obtain ⟨placed, frames, blocks, kinds, copies, opened, inside⟩ := booked
  exact ⟨(kept_placed (.of counts) valid).moved _ _ _ _ placed, frames, blocks, kinds, copies, opened,
    inside.moved ip extended extensions line⟩

include addressable

/-- A dispatch that makes nothing that stays keeps the books, if the block stays open. -/
theorem booked_advance {lost more : ScopeId → Prop} {outset : Outset} {spans : List Span}
    {machine after : Machine} (snugs : Snugs (image program) spans 0 (image program))
    (operations : spans.map Span.operation = Block.statements program.main)
    (returns : program.ReturnsStand)
    (at_ : (Booked lost program outset).At (image program) machine)
    (losing : Losing compiled machine lost more) (next : machine.advance compiled = .running after)
    (quiet : machine.Quiet compiled spans outset.machine after)
    (within : outset.machine.Within after) :
    (Booked more program outset).At (image program) after := by
  have counts : True → program.wellShaped = true := fun _ => shape
  obtain ⟨pools, -, -, valid⟩ := program.compile_ok accepted
  have encodes := encodes_image accepted addressable
  have kept := kept_placed (.of counts) valid
  obtain ⟨implies, dead, stranded⟩ := losing
  obtain ⟨offset, cell, index, stands, reading, here⟩ := at_
  obtain extension | last := Nat.lt_or_eq_of_le reading.inside
  · obtain ⟨ip, extended, extensions, advanced, reading⟩ :=
      reading.advance_extension encodes stands extension
    cases advanced.symm.trans next
    obtain ⟨placed, frames, blocks, kinds, copies, opened, inside⟩ :=
      here.moved accepted shape ip extended extensions machine.line
    rw [next] at dead
    exact ⟨offset, cell, index + 1, stands, reading, placed, frames, blocks, kinds, copies, opened,
      inside.mono implies dead⟩
  · have position : machine.registers.ip = offset + extensionCount cell.command.operand :=
      last ▸ reading.ip
    have code := nextOpcode?_of_stands accepted addressable stands position
    have operand := nextOperand?_of_reading accepted addressable stands reading last
    have advanced := reading.advance_instruction encodes stands last
    rw [pools] at advanced
    obtain ⟨placed, frames, blocks, kinds, copies, opened, inside⟩ :=
      here.moved accepted shape (offset + extensionCount cell.command.operand) 0 0
        (cell.line.getD machine.line)
    have snug : Snug (image program) offset cell := by
      have snug := snugs stands fun span member contains => by
        rw [Nat.zero_add, ← position] at contains
        refine Program.calm shape returns ?_ (quiet.statements span member contains)
        rw [← operations]
        exact List.mem_map_of_mem member
      rwa [Nat.zero_add] at snug
    have after_placed := kept.step stands placed rfl
    have going := advanced.symm.trans next
    rw [next] at dead
    obtain ⟨transfer, final, target, result, rfl, goes⟩ := Progress.after_running going
    have nothingLasting := quiet.nothingLasting _ _ code operand
    have loss : Loss lost more (machine.ready offset cell).frames final.heap
        ∨ cell.command.opcode ≠ .return := by
      by_cases leaves : cell.command.opcode = .return
      · refine .inl ⟨implies, dead, fun {frame scope} current own left => stranded
          ⟨leaves ▸ code, ⟨frame, current, own⟩, ?_, ?_⟩⟩
        · exact inside.inOrder.order.estates.liveScope (List.mem_of_mem_head? current)
            (List.mem_append_right _ (Option.mem_toList.mpr own))
        · rw [next]
          exact left
      · exact .inr leaves
    have accounted : (Accounted more program outset).After (image program) _ _ _ _ :=
      inside.step (flows_image accepted counts stands) snug.tight opened placed snug
        (fun _ => leads_sections (.of counts) valid) (Nat.add_assoc _ _ _) result loss implies dead
        goes within ⟨nothingLasting.arrays, nothingLasting.names, nothingLasting.returns⟩
    have both := after_placed.and (result ▸ accounted)
    have along := both.along fun ip extended extensions line here =>
      Booked.moved accepted shape ip extended extensions line here
    rw [going] at along
    exact along

/-- The dispatch that opens a block leads into it. -/
theorem booked_begin {config : Config} {input : List UInt8} {first : Nat} {start inner : Machine}
    (good : (Machine.boot config input compiled.pools).StrandsForGood compiled (first + 1))
    (reached : (Machine.boot config input compiled.pools).run compiled first = .running start)
    (enters : start.nextOpcode? compiled = some .enterLocal)
    (next : start.advance compiled = .running inner) :
    ∃ outset : Outset, outset.machine = start
      ∧ (Booked ((Machine.boot config input compiled.pools).HasStranded compiled (first + 1)) program
        outset).At (image program) inner := by
  have counts : True → program.wellShaped = true := fun _ => shape
  obtain ⟨-, -, -, valid⟩ := program.compile_ok accepted
  obtain ⟨operand, given⟩ := Machine.nextOperand?_of_nextOpcode? enters
  obtain ⟨implies, dead, -⟩ := good.losing (Nat.lt_succ_self first) reached
  obtain ⟨offset, cell, stands, command, ⟨placed, low, spans, inOrder⟩, -, advances⟩ :=
    placedInOrder_dispatch accepted shape addressable (good.mono (Nat.le_succ first)) reached enters (by simp)
      given
  have enter : cell.command.opcode = .enterLocal := congrArg Command.opcode command
  obtain rfl : cell.command.operand = operand := congrArg Command.operand command
  rw [← enter] at advances
  have flows := flows_image accepted counts stands
  have going := advances.symm.trans next
  rw [next] at dead
  obtain ⟨transfer, final, target, result, rfl, -⟩ := Progress.after_running going
  obtain ⟨base, callers, current⟩ : ∃ base callers, start.frames = base :: callers := by
    refine List.exists_cons_of_ne_nil fun none => ?_
    change Spans _ _ start.frames _ at spans
    rw [none] at spans
    exact spans
  let outset : Outset := ⟨start, base, callers, low, current, inOrder.fits⟩
  have flat := flows.flat enter
  have outside : Inside _ program outset cell.shape [] [] low [] (start.ready offset cell) :=
    outset.inside flat rfl rfl rfl rfl spans inOrder
  obtain ⟨rfl, frames, blocks, opened, inside⟩ := outside.entering (.inl rfl) enter
    (fun held => by
      rw [result]
      exact dead (implies held)) result
  have level : cell.command.shapeAfter cell.shape = [] := by
    rw [flat, command]
    rfl
  have leveled := leveled_of_plain (flows.next (by simp [enter]) (by simp [enter])) (by simp [level])
  have accounted : (Accounted ((Machine.boot config input compiled.pools).HasStranded compiled
      (first + 1)) program outset).After (image program) (fun _ _ => True) (fun _ _ => True) _
      (.ok .next final) := (inside.mono implies dead).arrives leveled opened
  have both := ((kept_placed (.of counts) valid).step stands placed rfl).and (result ▸ accounted)
  have along := both.along fun ip extended extensions line here =>
    Booked.moved accepted shape ip extended extensions line here
  rw [going] at along
  exact ⟨outset, rfl, along⟩

/-- From the opening of a block to its end, every dispatch finds the books kept, if none makes anything
that stays. -/
theorem booked_run {config : Config} {input : List UInt8} {first last : Nat} {start after : Machine}
    {spans : List Span} (snugs : Snugs (image program) spans 0 (image program))
    (operations : spans.map Span.operation = Block.statements program.main)
    (returns : program.ReturnsStand)
    (good : (Machine.boot config input compiled.pools).StrandsForGood compiled (last + 1))
    (brackets : (Machine.boot config input compiled.pools).Brackets compiled first last start after)
    (quiet : ∀ steps machine next, first < steps → steps < last →
      (Machine.boot config input compiled.pools).run compiled steps = .running machine →
      machine.advance compiled = .running next → machine.Quiet compiled spans start next) :
    ∃ outset : Outset, outset.machine = start ∧ ∀ steps machine, first < steps → steps ≤ last →
      (Machine.boot config input compiled.pools).run compiled steps = .running machine →
      (Booked ((Machine.boot config input compiled.pools).HasStranded compiled steps) program
        outset).At (image program) machine := by
  obtain ⟨begins, enters, order, within, -, -, -⟩ := brackets
  have advances {steps : Nat} {machine next : Machine}
      (here : (Machine.boot config input compiled.pools).run compiled steps = .running machine)
      (there : (Machine.boot config input compiled.pools).run compiled (steps + 1) = .running next) :
      machine.advance compiled = .running next := by
    rw [Machine.run_succ, here] at there
    exact there
  obtain ⟨inner, entered, -⟩ := within (first + 1) (Nat.lt_succ_self first) order
  obtain ⟨outset, rfl, begun⟩ := booked_begin accepted shape addressable
    (good.mono (Nat.le_succ_of_le order)) begins enters (advances begins entered)
  refine ⟨outset, rfl, fun steps => ?_⟩
  induction steps with
  | zero => exact fun _ less => absurd less (Nat.not_lt_zero first)
  | succ steps ih =>
    intro machine less inside reached
    obtain same | later := Nat.eq_or_lt_of_le (Nat.le_of_lt_succ less)
    · subst same
      cases entered.symm.trans reached
      exact begun
    · obtain ⟨middle, here, -⟩ := within steps later (Nat.le_of_lt inside)
      obtain ⟨again, there, open_⟩ := within (steps + 1) less inside
      cases there.symm.trans reached
      have next := advances here reached
      exact booked_advance accepted shape addressable snugs operations returns
        (ih middle later (Nat.le_of_lt inside) here)
        (good.losing (Nat.lt_succ_of_lt inside) here) next
        (quiet steps middle machine later inside here next) open_

/-- The dispatch that closes the block of the outset leaves nothing behind. -/
theorem booked_close {lost : ScopeId → Prop} {outset : Outset} {machine after : Machine}
    (at_ : (Booked lost program outset).At (image program) machine)
    (leaves : machine.nextOpcode? compiled = some .leaveLocal)
    (next : machine.advance compiled = .running after) (closed : ¬ outset.machine.Within after) :
    Ledger outset.machine after (fun _ => False) (fun _ => False) := by
  have counts : True → program.wellShaped = true := fun _ => shape
  obtain ⟨operand, given⟩ := Machine.nextOperand?_of_nextOpcode? leaves
  obtain ⟨offset, cell, stands, command, here, -, advances⟩ := at_.dispatches accepted addressable
    (fun ip extended extensions line here =>
      Booked.moved accepted shape ip extended extensions line here) leaves (by simp) given
  obtain ⟨placed, frames, blocks, kinds, copies, opened, inside⟩ := here
  have leave : cell.command.opcode = .leaveLocal := congrArg Command.opcode command
  obtain rfl : cell.command.operand = operand := congrArg Command.operand command
  rw [← leave] at advances
  obtain ⟨transfer, final, target, result, rfl, -⟩ :=
    Progress.after_running (advances.symm.trans next)
  obtain ⟨-, flat, above, behind, -, -, left⟩ :=
    inside.leaving (flows_image accepted counts stands) opened placed leave result
  have level : cell.command.shapeAfter cell.shape = [] := by
    rw [flat, command]
    rfl
  rw [level] at left
  obtain ⟨rfl, rfl⟩ : above = [] ∧ behind = [] := by
    have gone := mt left.within_iff.mpr closed
    simpa [not_or] using gone
  exact left.closed.same rfl rfl

end

/-! ## Counting what is left -/

/-- The Booleans that were shared for the first time between two machines. -/
def Machine.newBooleans (start after : Machine) : List Bool :=
  [false, true].filter fun value =>
    after.interned[Payload.boolean value]?.isSome && start.interned[Payload.boolean value]?.isNone

private theorem Machine.length_newBooleans_le (start after : Machine) :
    (start.newBooleans after).length ≤ 2 :=
  List.length_filter_le _ _

private theorem sharedSince_iff {start after : Machine} {id : BindingId} :
    SharedSince start after id
      ↔ ∃ value ∈ start.newBooleans after, after.interned[Payload.boolean value]? = some id := by
  constructor
  · rintro ⟨value, held, missing⟩
    refine ⟨value, List.mem_filter.mpr ⟨by cases value <;> simp, ?_⟩, held⟩
    rw [held, missing]
    rfl
  · rintro ⟨value, member, held⟩
    have new := (List.mem_filter.mp member).2
    rw [Bool.and_eq_true, Option.isNone_iff_eq_none] at new
    exact ⟨value, held, new.2⟩

/-- Where nothing is new but shared Booleans, there are as many scopes as before, and more bindings
only by these Booleans. -/
theorem Ledger.settles {start after : Machine}
    (ledger : Ledger start after (fun _ => False) (fun _ => False))
    (found : ∀ {payload : Payload} {id}, after.interned[payload]? = some id →
      after.heap.bindings.get? id = some payload.shared) :
    after.heap.scopes.occupied = start.heap.scopes.occupied
      ∧ after.heap.bindings.occupied
        = start.heap.bindings.occupied + (start.newBooleans after).length := by
  constructor
  · refine Arena.occupied_eq_add (List.nodup_nil : ([] : List ScopeId).Nodup) nofun fun scope =>
      ⟨fun live => ?_, fun held => ?_⟩
    · exact .inl ((ledger.entered live).resolve_right id)
    · exact ledger.scopes (held.resolve_right List.not_mem_nil)
  · have shared {id : BindingId} : id ∈ (start.newBooleans after).filterMap
        (fun value => after.interned[Payload.boolean value]?) ↔ SharedSince start after id :=
      List.mem_filterMap.trans sharedSince_iff.symm
    have length : ((start.newBooleans after).filterMap
        fun value => after.interned[Payload.boolean value]?).length
        = (start.newBooleans after).length := by
      rw [List.length_filterMap_eq_countP, List.countP_eq_length]
      intro value member
      exact ((Bool.and_eq_true _ _).mp (List.mem_filter.mp member).2).1
    rw [← length]
    refine Arena.occupied_eq_add ?_ (fun id member => ?_) fun id => ⟨fun live => ?_, ?_⟩
    · -- the binding of a shared value holds it, so no two Booleans have the same one
      refine List.Nodup.filterMap (fun first second id one other => ?_)
        (List.Nodup.filter _ (by simp))
      cases (found one).symm.trans (found other)
      rfl
    · exact Option.eq_none_iff_forall_ne_some.mpr fun value held =>
        ledger.shared (shared.mp member) ⟨value, held⟩
    · obtain held | ⟨scope, wrong, -⟩ | wrong | since := ledger.covered live
      · exact .inl held
      · exact wrong.elim
      · exact wrong.elim
      · exact .inr (shared.mpr since)
    · rintro (held | member)
      · exact ledger.live held
      · obtain ⟨value, held, -⟩ := shared.mp member
        exact ⟨_, found held⟩

/-! ## Runs -/

/-- Blocks and calls leave nothing behind. In a run of a well-shaped program whose returns are
statements, take the opening of a block and its end. In between nothing is made that is meant to stay:
no statement makes an object or defines a method, no array is called, names are declared only in scopes
that were opened since, and no call returns its own method or what needs the scope of it. Then, as long as
no stranded scope comes alive again, there are as many scopes as before, and more bindings only by the
Booleans that were shared for the first time, however many calls and blocks there were. -/
theorem blocks_leave_nothing {program : Program} {compiled : Compiled}
    (accepted : program.compile = .ok compiled) (shape : program.wellShaped = true)
    (addressable : Addressable program compiled) (returns : program.ReturnsStand) :
    ∃ spans stop, compiled.code.Spread compiled.pools program.main 0 stop spans
      ∧ compiled.code.marks.toList = spans.map Span.mark
      ∧ ∀ (config : Config) (input : List UInt8) (first last : Nat) (start after : Machine),
        (Machine.boot config input compiled.pools).StrandsForGood compiled (last + 1) →
        (Machine.boot config input compiled.pools).Brackets compiled first last start after →
        (∀ steps machine next, first < steps → steps < last →
          (Machine.boot config input compiled.pools).run compiled steps = .running machine →
          machine.advance compiled = .running next → machine.Quiet compiled spans start next) →
        after.heap.scopes.occupied = start.heap.scopes.occupied
          ∧ after.heap.bindings.occupied
            = start.heap.bindings.occupied + (start.newBooleans after).length
          ∧ (start.newBooleans after).length ≤ 2 := by
  obtain ⟨pools, -, -, valid⟩ := program.compile_ok accepted
  obtain ⟨spans, stop, spread, -, marks, snugs⟩ := spread_compiled accepted
  refine ⟨spans, stop, spread, marks,
    fun config input first last start after good brackets quiet => ?_⟩
  obtain ⟨outset, rfl, books⟩ := booked_run accepted shape addressable snugs spread.operations returns
    good brackets quiet
  obtain ⟨inner, reached, leaves⟩ := brackets.leaves
  have ends := brackets.ends
  rw [Machine.run_succ, reached] at ends
  have ledger := booked_close accepted shape addressable
    (books last inner brackets.order (Nat.le_refl last) reached) leaves ends brackets.closed
  have at_ := abiding_boot shape valid config input
  rw [← pools] at at_
  have retains := retains_run shape valid (encodes_image accepted addressable) pools at_ (last + 1)
  rw [brackets.ends] at retains
  obtain ⟨scopes, bindings⟩ := ledger.settles retains.found
  exact ⟨scopes, bindings, outset.machine.length_newBooleans_le after⟩

/-! ## Tests for quiet blocks -/

/-- Tells whether an instruction makes nothing that stays. -/
private def Machine.makesNothingLasting (start machine : Machine) (operand : Nat) (after : Machine) : Opcode → Bool
  | .evaluate =>
    match machine.stack[operand]? with
    | some (.binding method) =>
      (machine.heap.bindings.get? method).all fun target => target.tag != .array
    | _ => true
  | .resolveDirect | .resolveScoped =>
    after.heap.scopes.handles.all fun scope =>
      !start.heap.scopes.contains scope || (after.heap.scopes.get? scope).all fun found =>
        found.own.toList.all machine.heap.bindings.contains
  | .return =>
    match machine.frames with
    | [] => true
    | frame :: callers =>
      frame.methodScope.all fun own =>
        (machine.chosen? frame callers operand).all fun id =>
          id != frame.receiver && machine.heap.scopeOf id != some own
  | _ => true

private theorem Machine.makesNothingLasting_of_check {start machine after : Machine} {opcode : Opcode} {operand : Nat}
    (makesNothingLasting : start.makesNothingLasting machine operand after opcode = true) :
    start.MakesNothingLasting machine opcode operand after := by
  refine ⟨?_, ?_, ?_⟩
  · rintro rfl method target there held
    simp only [Machine.makesNothingLasting, there, held, Option.all_some, bne_iff_ne] at makesNothingLasting
    exact makesNothingLasting
  · intro resolves scope id owns dead live
    obtain ⟨found, there, member⟩ := owns
    have all : after.heap.scopes.handles.all (fun scope =>
        !start.heap.scopes.contains scope || (after.heap.scopes.get? scope).all fun found =>
          found.own.toList.all machine.heap.bindings.contains) = true := by
      obtain rfl | rfl := resolves <;> exact makesNothingLasting
    have here := List.all_eq_true.mp all scope (Arena.mem_handles.mpr ⟨found, there⟩)
    have contains : start.heap.scopes.contains scope = true := Option.isSome_iff_exists.mpr live
    rw [contains, there] at here
    have held : machine.heap.bindings.contains id = true := List.all_eq_true.mp here id member
    exact dead (Option.isSome_iff_exists.mp held)
  · rintro rfl frame callers id own current chosen has
    simp only [Machine.makesNothingLasting, current, has, chosen, Option.all_some, Bool.and_eq_true,
      bne_iff_ne] at makesNothingLasting
    refine ⟨makesNothingLasting.1, fun refers => makesNothingLasting.2 ?_⟩
    obtain ⟨binding, there, bound⟩ := refers
    rw [scopeOf, there, Option.bind_some, bound]

private instance (start machine : Machine) : Decidable (start.Within machine) :=
  inferInstanceAs (Decidable (_ ∨ _))

/-- Tells whether a dispatch is inside a block that an earlier machine opens, belongs to no statement
on a line, and makes nothing that stays. -/
private def Machine.quietly (start : Machine) (compiled : Compiled) (line : Nat) (machine after : Machine) :
    Bool :=
  decide (start.Within machine) && compiled.code.lineAt? machine.registers.ip != some line
    && match machine.nextOpcode? compiled, machine.nextOperand? compiled with
      | some opcode, some operand => start.makesNothingLasting machine operand after opcode
      | _, _ => true

/-- Only statements on a line make objects or define methods. -/
private def Program.ConfinesTo (program : Program) (line : Nat) : Prop :=
  ∀ statement ∈ Block.statements program.main, statement.line = line
    ∨ ∀ part ∈ statement.parts, part.kind ≠ .new ∧ part.kind ≠ .defineMethod

private instance (program : Program) (line : Nat) : Decidable (program.ConfinesTo line) :=
  inferInstanceAs (Decidable (∀ statement ∈ Block.statements program.main, statement.line = line
    ∨ ∀ part ∈ statement.parts, part.kind ≠ .new ∧ part.kind ≠ .defineMethod))

private theorem Machine.quiet_of_quietly {program : Program} {compiled : Compiled} {spans : List Span}
    {stop line : Nat} {start machine after : Machine} (confines : program.ConfinesTo line)
    (spread : compiled.code.Spread compiled.pools program.main 0 stop spans)
    (marks : compiled.code.marks.toList = spans.map Span.mark)
    (quietly : start.quietly compiled line machine after = true) :
    machine.Quiet compiled spans start after := by
  simp only [Machine.quietly, Bool.and_eq_true, bne_iff_ne] at quietly
  obtain ⟨⟨-, elsewhere⟩, makesNothingLasting⟩ := quietly
  refine ⟨fun span member contains => ?_, fun opcode operand code given => ?_⟩
  · have tells := Code.tells_of_marks marks spread.ordered fun span member =>
      (spread.bounds.2 span member).2.1
    have few : spans.length ≤ compiled.code.marks.size := by
      rw [← Array.length_toList, marks, List.length_map]
    have told := tells.lineAt? member contains few
    refine (confines span.operation ?_).resolve_left fun same => elsewhere (same ▸ told)
    rw [← spread.operations]
    exact List.mem_map_of_mem member
  · rw [code, given] at makesNothingLasting
    exact Machine.makesNothingLasting_of_check makesNothingLasting

/-- Where the end of a block leads that an earlier machine opens. -/
private def Machine.closing? (compiled : Compiled) (start last : Machine) : Option Machine :=
  if last.nextOpcode? compiled = some .leaveLocal ∧ start.Within last then
    match last.advance compiled with
    | .running after => if start.Within after then none else some after
    | _ => none
  else none

private theorem Machine.closing?_spec {compiled : Compiled} {start last after : Machine}
    (closing : start.closing? compiled last = some after) :
    last.nextOpcode? compiled = some .leaveLocal ∧ start.Within last
      ∧ last.advance compiled = .running after ∧ ¬ start.Within after := by
  unfold closing? at closing
  split at closing
  case isFalse => cases closing
  case isTrue leaves =>
    split at closing
    case h_2 => cases closing
    case h_1 next ends =>
      split at closing
      case isTrue => cases closing
      case isFalse closed =>
        cases closing
        exact ⟨leaves.1, leaves.2, ends, closed⟩

/-- A run whose dispatches pass the test from the opening of a block up to its end brackets the block. -/
private theorem Machine.Follows.brackets {program : Program} {compiled : Compiled} {spans : List Span}
    {stop line first count : Nat} {machine start inner last after : Machine}
    (confines : program.ConfinesTo line)
    (spread : compiled.code.Spread compiled.pools program.main 0 stop spans)
    (marks : compiled.code.marks.toList = spans.map Span.mark)
    (begins : machine.run compiled first = .running start)
    (enters : start.nextOpcode? compiled = some .enterLocal)
    (opens : start.advance compiled = .running inner)
    (follows : inner.Follows compiled (start.quietly compiled line) count last)
    (closing : start.closing? compiled last = some after) :
    machine.Brackets compiled first (first + 1 + count) start after
      ∧ ∀ steps middle next, first < steps → steps < first + 1 + count →
        machine.run compiled steps = .running middle → middle.advance compiled = .running next →
        middle.Quiet compiled spans start next := by
  obtain ⟨reached, each⟩ := follows
  obtain ⟨leaves, within, ends, closed⟩ := Machine.closing?_spec closing
  have behind (steps : Nat) :
      machine.run compiled (first + 1 + steps) = inner.run compiled steps := by
    rw [Machine.run_add, Machine.run_succ, begins]
    exact congrArg (Progress.run compiled steps) opens
  have middle (steps : Nat) (later : first < steps) :
      ∃ further, steps = first + 1 + further :=
    ⟨steps - (first + 1), by omega⟩
  refine ⟨⟨begins, enters, by omega, fun steps later inside => ?_, ⟨last, ?_, leaves⟩, ?_, closed⟩,
    fun steps middle_ next later inside here advances => ?_⟩
  · obtain ⟨further, rfl⟩ := middle steps later
    rw [behind]
    obtain less | rfl := Nat.lt_or_eq_of_le (Nat.le_of_add_le_add_left inside)
    · obtain ⟨machine, next, here, -, passes⟩ := each further less
      simp only [Machine.quietly, Bool.and_eq_true, decide_eq_true_eq] at passes
      exact ⟨machine, here, passes.1.1⟩
    · exact ⟨last, reached, within⟩
  · rw [behind, reached]
  · rw [Nat.add_assoc, behind, Machine.run_succ, reached]
    exact ends
  · obtain ⟨further, rfl⟩ := middle steps later
    obtain ⟨machine, following, there, goes, passes⟩ := each further (by omega)
    rw [behind, there] at here
    cases here
    cases goes.symm.trans advances
    exact Machine.quiet_of_quietly confines spread marks passes

/-! ## Calls inside a block -/

/-- Where a machine comes to that opens a block and closes it after a number of quiet dispatches. -/
private def Machine.crossing? (compiled : Compiled) (line count : Nat) (start : Machine) :
    Option Machine :=
  if start.nextOpcode? compiled = some .enterLocal then
    match start.advance compiled with
    | .running inner =>
      (inner.follow? compiled (start.quietly compiled line) count).bind (start.closing? compiled)
    | _ => none
  else none

private theorem Machine.brackets_of_crossing {program : Program} {compiled : Compiled}
    {spans : List Span} {stop line first count : Nat} {machine start after : Machine}
    (confines : program.ConfinesTo line)
    (spread : compiled.code.Spread compiled.pools program.main 0 stop spans)
    (marks : compiled.code.marks.toList = spans.map Span.mark)
    (begins : machine.run compiled first = .running start)
    (crossing : start.crossing? compiled line count = some after) :
    machine.Brackets compiled first (first + 1 + count) start after
      ∧ ∀ steps middle next, first < steps → steps < first + 1 + count →
        machine.run compiled steps = .running middle → middle.advance compiled = .running next →
        middle.Quiet compiled spans start next := by
  unfold Machine.crossing? at crossing
  split at crossing
  case isFalse => cases crossing
  case isTrue enters =>
    split at crossing
    case h_2 => cases crossing
    case h_1 inner opens =>
      obtain ⟨last, leads, closing⟩ := Option.bind_eq_some_iff.mp crossing
      exact (Machine.follows_of_follow leads).brackets confines spread marks begins enters opens closing

/-- The block calls the method with what was kept, and compares what it gives back. -/
private theorem crossing_doubling {compiled : Compiled} (accepted : doubling.compile = .ok compiled) :
    ∃ start after, (Machine.boot {} [] compiled.pools).run compiled 28 = .running start
      ∧ start.crossing? compiled 1 26 = some after := by
  have crosses : doubling.compile.map (fun compiled =>
      match (Machine.boot {} [] compiled.pools).run compiled 28 with
      | .running start => (start.crossing? compiled 1 26).isSome
      | _ => false) = .ok true := by cbv
  rw [accepted, Except.map, Except.ok.injEq] at crosses
  split at crosses
  case h_2 => cases crosses
  case h_1 start begins =>
    obtain ⟨after, crossing⟩ := Option.isSome_iff_exists.mp crosses
    exact ⟨start, after, begins, crossing⟩

theorem doubling_leaves_nothing :
    ∃ compiled start after, doubling.compile = .ok compiled ∧ doubling.wellShaped = true
      ∧ Addressable doubling compiled ∧ doubling.ReturnsStand
      ∧ (Machine.boot {} [] compiled.pools).StrandsForGood compiled 56
      ∧ (Machine.boot {} [] compiled.pools).Brackets compiled 28 55 start after
      ∧ (∃ spans stop, compiled.code.Spread compiled.pools doubling.main 0 stop spans
        ∧ ∀ steps machine next, 28 < steps → steps < 55 →
          (Machine.boot {} [] compiled.pools).run compiled steps = .running machine →
          machine.advance compiled = .running next → machine.Quiet compiled spans start next)
      ∧ after.heap.scopes.occupied = start.heap.scopes.occupied
      ∧ after.heap.bindings.occupied
        = start.heap.bindings.occupied + (start.newBooleans after).length := by
  obtain ⟨compiled, accepted⟩ := accepted_doubling
  obtain ⟨start, after, begins, crossing⟩ := crossing_doubling accepted
  have shape : doubling.wellShaped = true := by decide
  have addressable := addressable_doubling accepted
  have returns : doubling.ReturnsStand := by decide
  have good : (Machine.boot {} [] compiled.pools).StrandsForGood compiled 56 :=
    Machine.strandsForGood_of_few fun index => Machine.scopeReuses_lt _ compiled index (by decide)
  obtain ⟨spans, stop, spread, marks, leave⟩ := blocks_leave_nothing accepted shape addressable returns
  obtain ⟨brackets, quiet⟩ := Machine.brackets_of_crossing (by decide) spread marks begins crossing
  obtain ⟨scopes, bindings, -⟩ := leave {} [] 28 55 start after good brackets quiet
  exact ⟨compiled, start, after, accepted, shape, addressable, returns, good, brackets,
    ⟨spans, stop, spread, quiet⟩, scopes, bindings⟩

/-! ## A handle that finds another binding -/

/-- A method puts itself under a global name, and is gone when it has returned. Another method opens
blocks as long as empty lines are read. Then a method is called with what is found through the name, the
blocks are opened again, and what the last statement came to is assigned to. -/
private def aliasing : Program where
  main := [.statement ((Operation.define (.name "strand") ["p"]).atLine 1),
    .block [.statement (.assign (.name "g") (.name "self")),
      .statement (.giveBack (some (.integer 1)))],
    .statement ((Operation.define (.name "m") ["p"]).atLine 1),
    .block [.statement (.giveBack (some (.integer 1)))],
    .statement (.assign (.member (.name "m") "p") (.integer 1)),
    .statement ((Operation.define (.name "spin") []).atLine 1),
    .block [.statement (.assign (.name "c") (.boolean true)),
      .statement (.whileLoop (.name "c")),
      .block [.statement (.assign (.name "c") (.binary .isNotEqual (.ask none) (.text "x")))],
      .statement (.giveBack (some (.integer 1)))],
    .statement (.assign (.name "g") (.integer 1)),
    .statement (.assign (.name "c") (.integer 1)),
    .block [.block [.statement (.call none "strand" [.integer 1])],
      .statement (.call none "spin" [])],
    .block [.block [.statement (.binary .isNotEqual
      (.binary .isNotEqual (.call none "m" [.ask (some (.member (.name "g") "p"))])
        (.call none "spin" []))
      (.call none "m" [.assign (.name "it") (.name "strand")]))]]]

private def aliasingPools : Pools where
  constants := ⟨#[.root, .something, .nothing, .primitive (.integer 1), .primitive (.boolean true),
    .primitive (.text "x")], ∅⟩
  names := ⟨#["strand", "p", "g", "self", "m", "spin", "c", "it"], ∅⟩

private def aliasingCode : Compiled where
  code :=
    { instructions :=
        #[ -- strand(p)
          ⟨.loadName, 0⟩, ⟨.resolveDirect, 0⟩, ⟨.loadName, 1⟩, ⟨.defineMethod, 1⟩, ⟨.bindSection, 10⟩,
          ⟨.nop, 0⟩, ⟨.assign, 0⟩, ⟨.endStatement, 0⟩, ⟨.jump, 20⟩, ⟨.nop, 0⟩,
          -- its body: g = self, return 1
          ⟨.loadName, 2⟩, ⟨.resolveDirect, 0⟩, ⟨.loadName, 3⟩, ⟨.resolveDirect, 0⟩, ⟨.assign, 0⟩,
          ⟨.endStatement, 0⟩, ⟨.loadLiteral, 3⟩, ⟨.return, 1⟩, ⟨.endStatement, 0⟩, ⟨.return, 0⟩,
          -- m(p)
          ⟨.loadName, 4⟩, ⟨.resolveDirect, 0⟩, ⟨.loadName, 1⟩, ⟨.defineMethod, 1⟩, ⟨.bindSection, 30⟩,
          ⟨.nop, 0⟩, ⟨.assign, 0⟩, ⟨.endStatement, 0⟩, ⟨.jump, 34⟩, ⟨.nop, 0⟩,
          -- its body: return 1
          ⟨.loadLiteral, 3⟩, ⟨.return, 1⟩, ⟨.endStatement, 0⟩, ⟨.return, 0⟩,
          -- m.p = 1
          ⟨.loadName, 4⟩, ⟨.resolveDirect, 0⟩, ⟨.dereference, 0⟩, ⟨.loadName, 1⟩, ⟨.resolveScoped, 0⟩,
          ⟨.loadLiteral, 3⟩, ⟨.assign, 0⟩, ⟨.endStatement, 0⟩,
          -- spin()
          ⟨.loadName, 5⟩, ⟨.resolveDirect, 0⟩, ⟨.defineMethod, 0⟩, ⟨.bindSection, 51⟩, ⟨.nop, 0⟩,
          ⟨.assign, 0⟩, ⟨.endStatement, 0⟩, ⟨.jump, 75⟩, ⟨.nop, 0⟩,
          -- its body: c = true
          ⟨.loadName, 6⟩, ⟨.resolveDirect, 0⟩, ⟨.loadLiteral, 4⟩, ⟨.assign, 0⟩, ⟨.endStatement, 0⟩,
          -- while c
          ⟨.loadName, 6⟩, ⟨.resolveDirect, 0⟩, ⟨.dereference, 0⟩, ⟨.jumpIfFalse, 71⟩, ⟨.nop, 0⟩,
          -- c = (what is read is not "x")
          ⟨.enterLocal, 0⟩, ⟨.loadName, 6⟩, ⟨.resolveDirect, 0⟩, ⟨.syscall, 1⟩, ⟨.loadLiteral, 5⟩,
          ⟨.notEqual, 0⟩, ⟨.assign, 0⟩, ⟨.endStatement, 0⟩, ⟨.leaveLocal, 0⟩, ⟨.jump, 56⟩,
          -- return 1
          ⟨.loadLiteral, 3⟩, ⟨.return, 1⟩, ⟨.endStatement, 0⟩, ⟨.return, 0⟩,
          -- g = 1, c = 1
          ⟨.loadName, 2⟩, ⟨.resolveDirect, 0⟩, ⟨.loadLiteral, 3⟩, ⟨.assign, 0⟩, ⟨.endStatement, 0⟩,
          ⟨.loadName, 6⟩, ⟨.resolveDirect, 0⟩, ⟨.loadLiteral, 3⟩, ⟨.assign, 0⟩, ⟨.endStatement, 0⟩,
          -- a call of strand, in a block of its own, and one of spin
          ⟨.enterLocal, 0⟩, ⟨.enterLocal, 0⟩, ⟨.loadLiteral, 2⟩, ⟨.loadName, 0⟩, ⟨.resolveDirect, 0⟩,
          ⟨.dereference, 0⟩, ⟨.copy, 0⟩, ⟨.loadLiteral, 3⟩, ⟨.evaluate, 1⟩, ⟨.endStatement, 0⟩,
          ⟨.leaveLocal, 0⟩, ⟨.loadLiteral, 2⟩, ⟨.loadName, 5⟩, ⟨.resolveDirect, 0⟩, ⟨.dereference, 0⟩,
          ⟨.copy, 0⟩, ⟨.evaluate, 0⟩, ⟨.endStatement, 0⟩, ⟨.leaveLocal, 0⟩,
          -- a call of m with what is read after g.p was shown
          ⟨.enterLocal, 0⟩, ⟨.enterLocal, 0⟩, ⟨.loadLiteral, 2⟩, ⟨.loadName, 4⟩, ⟨.resolveDirect, 0⟩,
          ⟨.dereference, 0⟩, ⟨.copy, 0⟩, ⟨.loadName, 2⟩, ⟨.resolveDirect, 0⟩, ⟨.dereference, 0⟩,
          ⟨.loadName, 1⟩, ⟨.resolveScoped, 0⟩, ⟨.dereference, 0⟩, ⟨.syscall, 0⟩, ⟨.endStatement, 0⟩,
          ⟨.syscall, 1⟩, ⟨.evaluate, 1⟩,
          -- a call of spin
          ⟨.loadLiteral, 2⟩, ⟨.loadName, 5⟩, ⟨.resolveDirect, 0⟩, ⟨.dereference, 0⟩, ⟨.copy, 0⟩,
          ⟨.evaluate, 0⟩, ⟨.notEqual, 0⟩,
          -- a call of m, while strand is assigned to what the last statement came to
          ⟨.loadLiteral, 2⟩, ⟨.loadName, 4⟩, ⟨.resolveDirect, 0⟩, ⟨.dereference, 0⟩, ⟨.copy, 0⟩,
          ⟨.loadName, 7⟩, ⟨.resolveDirect, 0⟩, ⟨.loadName, 0⟩, ⟨.resolveDirect, 0⟩, ⟨.dereference, 0⟩,
          ⟨.assign, 0⟩, ⟨.evaluate, 1⟩, ⟨.notEqual, 0⟩, ⟨.endStatement, 0⟩, ⟨.leaveLocal, 0⟩,
          ⟨.leaveLocal, 0⟩, ⟨.return, 0⟩]
      marks :=
        #[⟨0, 1⟩, ⟨10, 0⟩, ⟨16, 0⟩, ⟨20, 1⟩, ⟨30, 0⟩, ⟨34, 0⟩, ⟨42, 1⟩, ⟨51, 0⟩, ⟨56, 0⟩, ⟨62, 0⟩,
          ⟨71, 0⟩, ⟨75, 0⟩, ⟨80, 0⟩, ⟨87, 0⟩, ⟨96, 0⟩, ⟨106, 0⟩] }
  pools := aliasingPools

private theorem compile_aliasing : aliasing.compile.map Compiled.unindexed = .ok aliasingCode := by cbv

/-- The machine in front of the program. -/
private def aliasingBoot (input : List UInt8) : Machine where
  config := {}
  heap :=
    { bindings :=
        { slots := #[
            .occupied 0 { tag := .object, scope := some ⟨0, 0⟩, constant := true },
            .occupied 0 { name := some "Nothing", constant := true },
            .occupied 0 { name := some "Array", tag := .array, scope := some ⟨1, 0⟩ },
            .occupied 0
              { name := some "Object", tag := .object, scope := some ⟨2, 0⟩, constant := true },
            .occupied 0
              { name := some "Something", tag := .something, scope := some ⟨3, 0⟩, constant := true },
            .occupied 0 { tag := .integer, payload := .integer 1, constant := true },
            .occupied 0 { tag := .boolean, payload := .boolean true, constant := true },
            .occupied 0 { tag := .text, payload := .text "x", constant := true }]
          size := 8 }
      scopes :=
        { slots := #[
            .occupied 0 { own := #[⟨2, 0⟩], durable := true }, .occupied 0 { durable := true },
            .occupied 0 { durable := true }, .occupied 0 { durable := true }]
          size := 4 } }
  stack := []
  frames := [{ caller := ⟨1, 0⟩, receiver := ⟨0, 0⟩ }]
  registers := { caller := ⟨1, 0⟩, receiver := ⟨0, 0⟩, localScope := ⟨0, 0⟩ }
  constants := #[⟨3, 0⟩, ⟨4, 0⟩, ⟨1, 0⟩, ⟨5, 0⟩, ⟨6, 0⟩, ⟨7, 0⟩]
  interned :=
    ((Std.HashMap.emptyWithCapacity.insert (.integer 1) ⟨5, 0⟩).insert (.boolean true) ⟨6, 0⟩).insert
      (.text "x") ⟨7, 0⟩
  programScope := ⟨0, 0⟩
  nothing := ⟨1, 0⟩
  console := { input }
  reports := #[]
  line := 0

private theorem aliasing_boot (input : List UInt8) :
    Machine.boot {} input aliasingPools = aliasingBoot input := by cbv

/-- The bindings of the constants, the methods and the two globals. -/
private def aliasingBindings (running : Bool) : Array (Slot Binding) :=
  (aliasingBoot []).heap.bindings.slots.append #[
    .occupied 0 { name := some "strand", tag := .method, scope := some ⟨4, 0⟩, body := 10 },
    .occupied 0 { tag := .method, scope := some ⟨4, 0⟩, body := 10 },
    .occupied 0 { name := some "m", tag := .method, scope := some ⟨5, 0⟩, body := 30 },
    .occupied 0 { tag := .method, scope := some ⟨5, 0⟩, body := 30 },
    .occupied 0 { name := some "p", tag := .integer, payload := .integer 1 },
    .occupied 0 { name := some "spin", tag := .method, scope := some ⟨6, 0⟩, body := 51 },
    .occupied 0 { tag := .method, scope := some ⟨6, 0⟩, body := 51 },
    .occupied 0 { name := some "g", tag := .method, scope := some ⟨9, 0⟩, body := 10 },
    .occupied 0 { name := some "c", tag := .boolean, payload := .boolean running }]

private def aliasingScopes : Array (Slot Scope) := #[
  .occupied 0
    { own := #[⟨2, 0⟩, ⟨8, 0⟩, ⟨10, 0⟩, ⟨13, 0⟩, ⟨15, 0⟩, ⟨16, 0⟩], durable := true },
  .occupied 0 { durable := true }, .occupied 0 { durable := true }, .occupied 0 { durable := true },
  .occupied 0 { parameters := ["p"], durable := true },
  .occupied 0 { own := #[⟨12, 0⟩], parameters := ["p"], durable := true },
  .occupied 0 { durable := true }]

/-- The machine in front of the loop that wears the scope of the name out. -/
private def aliasingFirst (generation : UInt32) (input : List UInt8) : Machine :=
  { aliasingBoot input with
    heap :=
      { bindings :=
          { slots := (aliasingBindings true).append #[
              .occupied 1 { name := some "spin", tag := .method, scope := some ⟨8, 1⟩, body := 51 },
              .vacant generation none]
            freeHead := some 18
            size := 18 }
        scopes :=
          { slots := aliasingScopes.append #[.occupied 0 { parent := some ⟨0, 0⟩ },
              .occupied 1 { durable := true }, .vacant generation none]
            freeHead := some 9
            size := 9 } }
    frames := [
      { returnAddress := 102, caller := ⟨1, 0⟩, receiver := ⟨17, 1⟩, methodScope := some ⟨8, 1⟩ },
      { caller := ⟨1, 0⟩, receiver := ⟨0, 0⟩, localScopes := [⟨7, 0⟩] }]
    registers := { ip := 56, caller := ⟨1, 0⟩, receiver := ⟨17, 1⟩, localScope := ⟨8, 1⟩ } }

/-- The machine in front of the inner block. -/
private def aliasingStart (input : List UInt8) : Machine :=
  { aliasingBoot input with
    heap :=
      { bindings :=
          { slots := (aliasingBindings false).append #[.vacant 2 (some 18), .vacant 0 none,
              .occupied 0 { tag := .boolean, payload := .boolean false, constant := true }]
            freeHead := some 17
            size := 18 }
        scopes :=
          { slots := aliasingScopes.append #[.occupied 1 { parent := some ⟨0, 0⟩ },
              .vacant 2 (some 9), .vacant 0 none]
            freeHead := some 8
            size := 8 } }
    frames := [{ caller := ⟨1, 0⟩, receiver := ⟨0, 0⟩, localScopes := [⟨7, 1⟩] }]
    registers := { ip := 105, caller := ⟨1, 0⟩, receiver := ⟨0, 0⟩, localScope := ⟨7, 1⟩ }
    interned := (aliasingBoot input).interned.insert (.boolean false) ⟨19, 0⟩ }

/-- The machine in front of the loop that wears the binding out. -/
private def aliasingSecond (binding scope : UInt32) (input : List UInt8) : Machine :=
  { aliasingStart input with
    heap :=
      { bindings :=
          { slots := (aliasingBindings true).append #[.vacant binding none,
              .occupied 1 { name := some "spin", tag := .method, scope := some ⟨9, 1⟩, body := 51 },
              .occupied 0 { tag := .boolean, payload := .boolean false, constant := true },
              .occupied 0 { tag := .text, payload := .text "" }]
            freeHead := some 17
            size := 20 }
        scopes :=
          { slots := aliasingScopes.append #[.occupied 1 { parent := some ⟨0, 0⟩ },
              .occupied 2 { own := #[⟨20, 0⟩], parent := some ⟨7, 1⟩ },
              .occupied 1 { durable := true }, .vacant scope none]
            freeHead := some 10
            size := 10 } }
    stack := [.binding ⟨5, 0⟩]
    frames := [
      { returnAddress := 127, stackMark := 1, caller := ⟨1, 0⟩, receiver := ⟨18, 1⟩,
        methodScope := some ⟨9, 1⟩, savedResult := some ⟨17, 2⟩ },
      { caller := ⟨1, 0⟩, receiver := ⟨0, 0⟩, localScopes := [⟨8, 2⟩, ⟨7, 1⟩] }]
    registers := { ip := 56, caller := ⟨1, 0⟩, receiver := ⟨18, 1⟩, localScope := ⟨9, 1⟩ }
    console := { input, output := "1\n" } }

private theorem addressable_aliasing {compiled : Compiled}
    (accepted : aliasing.compile = .ok compiled) : Addressable aliasing compiled := by
  have code : size (image aliasing) = 145 := by cbv
  have names : (Pools.ofProgram aliasing).names.size = 8 := by cbv
  have constants : (Pools.ofProgram aliasing).constants.size = 6 := by cbv
  exact addressable_of_image accepted (by decide) (code ▸ by decide) (names ▸ by decide)
    (constants ▸ by decide)

private theorem aliasingFirst_turns (turns : Nat) (rest : List UInt8) :
    (aliasingFirst 2 (List.replicate turns 10 ++ rest)).run aliasingCode (turns * 15)
      = .running (aliasingFirst (2 + UInt32.ofNat turns) rest) := by
  have turn (generation : UInt32) (rest : List UInt8) :
      (aliasingFirst generation (10 :: rest)).run aliasingCode 15
        = .running (aliasingFirst (generation + 1) rest) := by cbv
  have all := @Machine.run_turns aliasingCode (fun index => aliasingFirst (2 + UInt32.ofNat index)
    (List.replicate (turns - index) 10 ++ rest)) 15 turns fun index less => by
      obtain ⟨more, same⟩ : ∃ more, turns - index = more + 1 := ⟨turns - index - 1, by omega⟩
      have next : turns - (index + 1) = more := by omega
      rw [same, next, List.replicate_succ, List.cons_append, turn, UInt32.ofNat_add, ← UInt32.add_assoc]
      rfl
  simpa using all

private theorem aliasingStart_reached (rest : List UInt8) :
    (aliasingBoot (10 :: (List.replicate (2 ^ 32 - 3) 10 ++ 120 :: 10 :: rest))).run aliasingCode
      (89 + (2 ^ 32 - 3) * 15 + 24) = .running (aliasingStart rest) := by
  have start (rest : List UInt8) : (aliasingBoot (10 :: rest)).run aliasingCode 89
      = .running (aliasingFirst 2 rest) := by cbv
  have stop (rest : List UInt8) : (aliasingFirst (2 ^ 32 - 1) (120 :: 10 :: rest)).run aliasingCode 24
      = .running (aliasingStart rest) := by cbv
  rw [Machine.run_add, Machine.run_add, start]
  change ((aliasingFirst 2 _).run aliasingCode _).run aliasingCode 24 = _
  rw [aliasingFirst_turns]
  exact stop rest

private theorem aliasingSecond_turns (input : List UInt8) (turns : Nat) (rest : List UInt8) :
    (aliasingSecond 4 1 (List.replicate turns 10 ++ rest)).Follows aliasingCode
      ((aliasingStart input).quietly aliasingCode 1) (turns * 15)
      (aliasingSecond (4 + UInt32.ofNat turns) (1 + UInt32.ofNat turns) rest) := by
  have turn (binding scope : UInt32) (rest : List UInt8) :
      (aliasingSecond binding scope (10 :: rest)).follow? aliasingCode
        ((aliasingStart input).quietly aliasingCode 1) 15
        = some (aliasingSecond (binding + 1) (scope + 1) rest) := by cbv
  have all := @Machine.Follows.turns aliasingCode ((aliasingStart input).quietly aliasingCode 1) 15
    turns (fun index => aliasingSecond (4 + UInt32.ofNat index) (1 + UInt32.ofNat index)
      (List.replicate (turns - index) 10 ++ rest)) fun index less => by
      obtain ⟨more, same⟩ : ∃ more, turns - index = more + 1 := ⟨turns - index - 1, by omega⟩
      have next : turns - (index + 1) = more := by omega
      rw [same, next, List.replicate_succ, List.cons_append, UInt32.ofNat_add, ← UInt32.add_assoc,
        ← UInt32.add_assoc]
      exact Machine.follows_of_follow (turn _ _ _)
  simpa using all

/-- The block is closed with one binding more than there was in front of it. -/
private theorem aliasing_closes (input : List UInt8) :
    ∃ last after, (aliasingSecond 1 (2 ^ 32 - 2) [120]).Follows aliasingCode
        ((aliasingStart input).quietly aliasingCode 1) 44 last
      ∧ (aliasingStart input).closing? aliasingCode last = some after
      ∧ (aliasingStart input).heap.bindings.occupied = 18 ∧ after.heap.bindings.occupied = 19
      ∧ (aliasingStart input).newBooleans after = [] := by
  have closes : (((aliasingSecond 1 (2 ^ 32 - 2) [120]).follow? aliasingCode
      ((aliasingStart input).quietly aliasingCode 1) 44).bind
        ((aliasingStart input).closing? aliasingCode)).map (fun after =>
          ((aliasingStart input).heap.bindings.occupied, after.heap.bindings.occupied,
            (aliasingStart input).newBooleans after)) = some (18, 19, []) := by cbv
  obtain ⟨after, closes, counts⟩ := Option.map_eq_some_iff.mp closes
  obtain ⟨last, leads, closing⟩ := Option.bind_eq_some_iff.mp closes
  simp only [Prod.mk.injEq] at counts
  exact ⟨last, after, Machine.follows_of_follow leads, closing, counts⟩

private theorem aliasing_enters (rest : List UInt8) :
    (aliasingStart (10 :: 10 :: rest)).nextOpcode? aliasingCode = some .enterLocal
      ∧ ∃ inner, (aliasingStart (10 :: 10 :: rest)).advance aliasingCode = .running inner
        ∧ inner.Follows aliasingCode ((aliasingStart (10 :: 10 :: rest)).quietly aliasingCode 1) 43
          (aliasingSecond 4 1 rest) := by
  have leads : (match (aliasingStart (10 :: 10 :: rest)).advance aliasingCode with
      | .running inner =>
        inner.follow? aliasingCode ((aliasingStart (10 :: 10 :: rest)).quietly aliasingCode 1) 43
      | _ => none) = some (aliasingSecond 4 1 rest) := by cbv
  split at leads
  case h_2 => cases leads
  case h_1 inner opens => exact ⟨by cbv, inner, opens, Machine.follows_of_follow leads⟩

private theorem Machine.follows_unindexed {compiled : Compiled} {test : Machine → Machine → Bool}
    {count : Nat} {machine last : Machine} (follows : machine.Follows compiled.unindexed test count last) :
    machine.Follows compiled test count last := by
  simpa only [Machine.Follows, Machine.run_unindexed, Machine.advance_unindexed] using follows

private theorem Machine.closing?_unindexed (compiled : Compiled) (start last : Machine) :
    start.closing? compiled.unindexed last = start.closing? compiled last := by
  unfold Machine.closing?
  rw [Machine.advance_unindexed]
  rfl

/-- Where a scope that a return has freed comes alive again, a block may leave a binding behind. -/
theorem aliasing_leaves_binding :
    ¬ ∀ (program : Program) (compiled : Compiled), program.compile = .ok compiled →
      program.wellShaped = true → Addressable program compiled → program.ReturnsStand →
      ∃ spans stop, compiled.code.Spread compiled.pools program.main 0 stop spans
        ∧ compiled.code.marks.toList = spans.map Span.mark
        ∧ ∀ (config : Config) (input : List UInt8) (first last : Nat) (start after : Machine),
          (Machine.boot config input compiled.pools).Brackets compiled first last start after →
          (∀ steps machine next, first < steps → steps < last →
            (Machine.boot config input compiled.pools).run compiled steps = .running machine →
            machine.advance compiled = .running next → machine.Quiet compiled spans start next) →
          after.heap.scopes.occupied = start.heap.scopes.occupied
            ∧ after.heap.bindings.occupied
              = start.heap.bindings.occupied + (start.newBooleans after).length
            ∧ (start.newBooleans after).length ≤ 2 := by
  intro always
  obtain ⟨compiled, accepted, bare⟩ := Program.compile_of_unindexed compile_aliasing
  obtain ⟨spans, stop, spread, marks, leave⟩ := always aliasing compiled accepted (by decide)
    (addressable_aliasing accepted) (by decide)
  have confines : aliasing.ConfinesTo 1 := by decide
  have begins := aliasingStart_reached (10 :: 10 :: (List.replicate (2 ^ 32 - 3) 10 ++ [120]))
  obtain ⟨enters, inner, opens, follows⟩ :=
    aliasing_enters (List.replicate (2 ^ 32 - 3) 10 ++ [120])
  obtain ⟨last, after, ends, closing, before, more, none⟩ :=
    aliasing_closes (10 :: 10 :: (List.replicate (2 ^ 32 - 3) 10 ++ [120]))
  have turns := aliasingSecond_turns (10 :: 10 :: (List.replicate (2 ^ 32 - 3) 10 ++ [120]))
    (2 ^ 32 - 3) [120]
  have wraps : (4 + UInt32.ofNat (2 ^ 32 - 3), 1 + UInt32.ofNat (2 ^ 32 - 3))
      = ((1 : UInt32), (2 ^ 32 - 2 : UInt32)) := by decide
  rw [Prod.mk.injEq] at wraps
  rw [wraps.1, wraps.2] at turns
  have all := (follows.append turns).append ends
  rw [← bare, Machine.closing?_unindexed] at closing
  rw [← bare] at enters all
  rw [← bare, Machine.advance_unindexed] at opens
  rw [← aliasing_boot] at begins
  have begins := (Machine.run_of_unindexed bare {} _ _).trans begins
  obtain ⟨brackets, quiet⟩ := (Machine.follows_unindexed all).brackets confines spread marks begins
    enters opens closing
  have leaves := (leave {} _ _ _ _ after brackets quiet).2.1
  rw [before, more, none] at leaves
  exact absurd leaves (by decide)

end ScopeMachine
