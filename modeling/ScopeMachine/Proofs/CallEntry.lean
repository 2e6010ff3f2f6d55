import ScopeMachine.Proofs.MethodParameters
import ScopeMachine.Proofs.Store.Lookup

set_option autoImplicit false

/-!
# Entering calls

What a call does with its operands. It is refused before anything changes, or it binds the parameters
in the scope of the copy that it runs on, one after the other, and begins in a frame of its own unless
there are too many already.
-/

namespace ScopeMachine

open Assembly Heap

/-! ## Parameters -/

def Binding.asParameter (value : Binding) (parameter : String) : Binding :=
  { name := some parameter, scope := value.scope, tag := value.tag, body := value.body,
    payload := value.payload }

theorem Binding.assign_unassigned (value : Binding) (parameter : String) :
    (Binding.unassigned parameter).assign value = value.asParameter parameter := by
  simp [Binding.unassigned, assign, asParameter, isNull]

/-- A heap in which parameters were bound in a scope, one after the other. Each leads to a binding like
its argument, if no parameter comes twice. Other names of the scope lead to what they led to before,
and nothing outside of the scope has changed. -/
structure Heap.Binds (owner : ScopeId) (pairs : List (String × BindingId)) (before after : Heap) :
    Prop where
  bound : (pairs.map Prod.fst).Nodup → ∀ pair ∈ pairs, ∃ value id,
    before.bindings.get? pair.2 = some value ∧ after.first owner pair.1 = some id
      ∧ after.bindings.get? id = some (value.asParameter pair.1)
  old : ∀ {name id}, name ∉ pairs.map Prod.fst → before.first owner name = some id →
    after.first owner name = some id ∧ after.bindings.get? id = before.bindings.get? id
  kept : ∀ {id}, before.Live id → ¬ before.Owns owner id →
    after.bindings.get? id = before.bindings.get? id

section

variable {owner : ScopeId} {parameter : String} {argument id : BindingId} {value : Binding}
  {pairs : List (String × BindingId)} {before middle after : Heap}

/-- What lies outside of the scope is not what is bound. -/
theorem Heap.Rebinds.outside (first : Rebinds owner parameter id value before middle)
    {other : BindingId} (live : before.Live other) (outside : ¬ before.Owns owner other) :
    middle.bindings.get? other = before.bindings.get? other ∧ middle.Live other
      ∧ ¬ middle.Owns owner other := by
  have ne : other ≠ id := by
    rintro rfl
    exact first.place.elim outside fun dead => dead live
  have same := first.kept live ne
  refine ⟨same, ?_, fun owns => ?_⟩
  · obtain ⟨held, there⟩ := live
    exact ⟨held, same.trans there⟩
  · exact (first.owns owns).elim outside fun dead => dead live

theorem Heap.Binds.cons (given : before.bindings.get? argument = some value)
    (first : Rebinds owner parameter id (value.asParameter parameter) before middle)
    (rest : Binds owner pairs middle after)
    (outside : ∀ pair ∈ pairs, before.Live pair.2 ∧ ¬ before.Owns owner pair.2) :
    Binds owner ((parameter, argument) :: pairs) before after where
  bound := by
    intro once pair member
    obtain ⟨absent, once⟩ := List.nodup_cons.mp once
    obtain rfl | member := List.mem_cons.mp member
    · obtain ⟨found, same⟩ := rest.old absent first.found
      exact ⟨value, id, given, found, same.trans first.holds⟩
    · obtain ⟨source, held, there, found, holds⟩ := rest.bound once pair member
      obtain ⟨live, apart⟩ := outside pair member
      exact ⟨source, held, (first.outside live apart).1 ▸ there, found, holds⟩
  old := by
    intro name held absent found
    obtain ⟨other, absent⟩ : name ≠ parameter ∧ name ∉ pairs.map Prod.fst := by simpa using absent
    have still : middle.first owner name = some held := (first.others name other).trans found
    have ne : held ≠ id := by
      rintro rfl
      have called := (first_owns still).2
      rw [(first_owns first.found).2] at called
      exact other (Option.some.inj called).symm
    obtain ⟨last, same⟩ := rest.old absent still
    exact ⟨last, same.trans (first.kept (live_of_nameOf (first_owns found).2) ne)⟩
  kept := by
    intro other live apart
    obtain ⟨same, alive, outside⟩ := first.outside live apart
    exact (rest.kept alive outside).trans same

end

namespace Action

variable {machine : Machine} {owner : ScopeId}

/-- Parameters are bound in a scope to arguments that lie outside of it. -/
theorem bindParameters_binds {pairs : List (String × BindingId)} (tidy : machine.heap.Tidy)
    (live : machine.heap.LiveScope owner)
    (outside : ∀ pair ∈ pairs, machine.heap.Live pair.2 ∧ ¬ machine.heap.Owns owner pair.2) :
    ∃ heap, bindParameters owner pairs machine = .ok () { machine with heap } ∧ heap.Tidy
      ∧ heap.LiveScope owner ∧ Binds owner pairs machine.heap heap := by
  induction pairs generalizing machine with
  | nil => exact ⟨_, rfl, tidy, live, ⟨by simp, fun _ found => ⟨found, rfl⟩, fun _ _ => rfl⟩⟩
  | cons pair rest ih =>
    obtain ⟨parameter, argument⟩ := pair
    obtain ⟨⟨value, there⟩, -⟩ := outside _ (.head _)
    have others := fun pair member => outside pair (.tail _ member)
    obtain ⟨id, middle, declared, tidy, live, first⟩ :=
      redeclare_rebinds tidy live (rfl : (value.asParameter parameter).name = some parameter)
    have apart (pair : String × BindingId) (member : pair ∈ rest) :
        middle.Live pair.2 ∧ ¬ middle.Owns owner pair.2 :=
      (first.outside (others pair member).1 (others pair member).2).2
    obtain ⟨heap, bindings, tidy, live, binds⟩ := @ih { machine with heap := middle } tidy live apart
    refine ⟨heap, ?_, tidy, live, .cons there first binds others⟩
    rw [bindParameters, bind_of_ok (binding_of_get? there), Binding.assign_unassigned]
    exact (bind_of_ok (attempt_of_ok declared)).trans bindings

/-- A call is refused if there is no body, or if the number of arguments is not that of the
parameters. -/
theorem checkCall_eq {target : Binding} {scope : ScopeId} {declared : Scope}
    (refers : target.scope = some scope) (there : machine.heap.scopes.get? scope = some declared)
    (supplied : Nat) :
    checkCall target supplied machine
      = if target.body = 0 then .error (.notCallable target.label) machine
        else if declared.parameters.length ≠ supplied then
          .error (.argumentCount target.label declared.parameters.length supplied) machine
        else .ok () machine := by
  have reads : Action.scope scope machine = .ok declared machine := by
    simp [Action.scope, inspect, Heap.scope, there]
  have counts : parameterCount target machine = .ok declared.parameters.length machine := by
    unfold parameterCount
    rw [refers]
    exact bind_of_ok reads
  unfold checkCall
  by_cases bodiless : target.body = 0
  · simp only [Binding.isCallable, bodiless]
    rfl
  · simp only [Binding.isCallable, bodiless, ne_eq, not_false_eq_true, decide_true, if_true, if_false]
    rw [bind_of_ok counts]
    split <;> rfl

private theorem bindArguments_eq {target : Binding} {scope : ScopeId} {declared : Scope}
    (refers : target.scope = some scope) (there : machine.heap.scopes.get? scope = some declared)
    (arguments : List BindingId) :
    bindArguments target none arguments machine
      = bindParameters scope (declared.parameters.zip arguments) machine := by
  have reads : Action.scope scope machine = .ok declared machine := by
    simp [Action.scope, inspect, Heap.scope, there]
  unfold bindArguments
  rw [refers]
  exact bind_of_ok reads

end Action

/-! ## Calls -/

/-- A dispatch ends in a fault, with the heap and the frames as they were. -/
def Machine.Refuses (before : Machine) (compiled : Compiled) (fault : Fault) : Prop :=
  ∃ line after, before.advance compiled = .failed line fault after ∧ after.heap = before.heap
    ∧ after.frames = before.frames

/-- A call has begun. Control is at the body, in a new frame that owns the scope of the method. There
each parameter leads to a binding like the argument in its place, if no parameter comes twice. No
argument has changed, no binding outside of the scope has, and no binding that belongs to another
object than the method. -/
structure Machine.Begins (before : Machine) (arguments : List BindingId) (method caller : BindingId)
    (target : Binding) (scope : ScopeId) (parameters : List String) (rest : List StackItem)
    (after : Machine) : Prop where
  frames : ∃ frame, after.frames = frame :: before.frames ∧ frame.methodScope = some scope
    ∧ frame.receiver = method ∧ frame.caller = caller ∧ frame.localScopes = []
  registers : after.registers.receiver = method ∧ after.registers.caller = caller
    ∧ after.registers.ip = target.body
  stack : after.stack = rest
  bound : parameters.Nodup → ∀ (index : Nat) parameter argument,
    parameters[index]? = some parameter → arguments[index]? = some argument →
    ∃ value id, before.heap.bindings.get? argument = some value
      ∧ after.heap.findImmediate scope parameter = .ok (some id)
      ∧ after.heap.bindings.get? id = some (value.asParameter parameter)
  given : ∀ argument ∈ arguments,
    after.heap.bindings.get? argument = before.heap.bindings.get? argument
  kept : ∀ id, before.heap.Live id → ¬ before.heap.Owns scope id →
    after.heap.bindings.get? id = before.heap.bindings.get? id
  others : ∀ origin place id, origin ≠ method → before.heap.Refers origin place →
    before.heap.Owns place id → after.heap.bindings.get? id = before.heap.bindings.get? id

/-- What a call of a method of a program does. The parameters in the scope of a method with a body are
those that its definition lists, in their order. -/
def Machine.CallsMethod (before : Machine) (program : Program) (compiled : Compiled)
    (arguments : List BindingId) (method caller : BindingId) (target : Binding)
    (rest : List StackItem) : Prop :=
  ∃ scope declared, target.scope = some scope ∧ before.heap.scopes.get? scope = some declared
    ∧ (target.body ≠ 0 → program.Defines target.body declared.parameters)
    ∧ if target.body = 0 then before.Refuses compiled (.notCallable target.label)
      else if declared.parameters.length ≠ arguments.length then
        before.Refuses compiled
          (.argumentCount target.label declared.parameters.length arguments.length)
      else if before.frames.length < before.config.maxCallDepth then
        ∃ after, before.advance compiled = .running after
          ∧ before.Begins arguments method caller target scope declared.parameters rest after
      else ∃ line after, before.advance compiled
        = .failed line (.callDepthExceeded before.config.maxCallDepth) after

/-- Once the parameters are bound and the frame is there, the call has begun. -/
theorem PreparedCall.begins {lost : ScopeId → Prop} {copies arguments : List BindingId}
    {method caller : BindingId} {target : Binding} {ready before after : Machine} {scope : ScopeId}
    {parameters : List String} (prepared : PreparedCall lost copies method caller target arguments ready)
    (same : ready.heap = before.heap) (refers : target.scope = some scope)
    (length : parameters.length = arguments.length)
    (binds : Binds scope (parameters.zip arguments) before.heap after.heap) (tidy : after.heap.Tidy)
    (live : after.heap.LiveScope scope)
    (frames : ∃ frame, after.frames = frame :: before.frames ∧ frame.methodScope = some scope
      ∧ frame.receiver = method ∧ frame.caller = caller ∧ frame.localScopes = [])
    (attached : Attached after) (ip : after.registers.ip = target.body) :
    before.Begins arguments method caller target scope parameters after.stack after := by
  obtain ⟨own, again, kept, -⟩ := prepared.own
  cases refers.symm.trans again
  have outside {argument : BindingId} (member : argument ∈ arguments) :
      before.heap.Live argument ∧ ¬ before.heap.Owns scope argument := by
    have known := prepared.arguments argument member
    exact ⟨same ▸ known.live, same ▸ known.outside (.head _) kept.refers⟩
  refine ⟨frames, ?_, rfl, fun once index parameter argument at_ given => ?_,
    fun argument member => binds.kept (outside member).1 (outside member).2,
    fun id alive apart => binds.kept alive apart, fun origin place id ne origin_refers owns => ?_⟩
  · obtain ⟨frame, current, -, receiver, calling, -⟩ := frames
    obtain ⟨top, _, upper, calls, receives⟩ := attached
    cases current.symm.trans upper
    exact ⟨receives.trans receiver, calls.trans calling, ip⟩
  · have names : (parameters.zip arguments).map Prod.fst = parameters :=
      List.map_fst_zip (Nat.le_of_eq length)
    have member : (parameter, argument) ∈ parameters.zip arguments :=
      List.mem_iff_getElem?.mpr ⟨index, List.getElem?_zip_eq_some.mpr ⟨at_, given⟩⟩
    obtain ⟨value, id, reads, found, holds⟩ := binds.bound (names.symm ▸ once) _ member
    obtain ⟨level, there⟩ := live
    exact ⟨value, id, reads, (findImmediate_eq there fun _ owns => tidy.live owns).trans
      (congrArg Except.ok found), holds⟩
  · have tidied : before.heap.Tidy := same ▸ prepared.order.guarded.tidy
    refine binds.kept (tidied.live owns) fun inside => ne ?_
    cases tidied.single inside owns
    exact kept.only (same.symm ▸ origin_refers)

/-- A dispatch keeps to the number of frames that is allowed. -/
theorem Dispatches.bounded {shaped : Prop} {program : Program} {config : Config} {before after : Machine}
    (dispatches : Dispatches shaped program before after)
    (held : before.config = config ∧ before.frames.length ≤ max 1 config.maxCallDepth) :
    after.config = config ∧ after.frames.length ≤ max 1 config.maxCallDepth := by
  obtain ⟨same, bounded⟩ := held
  cases dispatches with
  | reads extended extensions => exact ⟨same, bounded⟩
  | moves stands here operand moves goes =>
    cases moves with
    | stays passes frames still config caller receiver stack =>
      refine ⟨config.trans same, ?_⟩
      rw [frames] at bounded
      rw [Machine.frames_goto, still]
      exact bounded
    | calls opcode room frames address mark saved config caller receiver stack =>
      refine ⟨config.trans same, ?_⟩
      rw [same] at room
      rw [Machine.frames_goto, frames, List.length_cons]
      exact Nat.le_trans room (Nat.le_max_right 1 _)
    | returns opcode frames back config registers stack =>
      refine ⟨config.trans same, ?_⟩
      rw [frames] at bounded
      rw [Machine.frames_goto, back]
      exact Nat.le_of_succ_le bounded
    | halts =>
      obtain ⟨none, -⟩ | goto := goes
      · cases none
      · cases goto

section

variable {program : Program} {compiled : Compiled} (accepted : program.compile = .ok compiled)
  (shape : program.wellShaped = true) (addressable : Addressable program compiled)

include accepted shape addressable

/-- No run of a program has more frames than it is allowed to have, and the outermost one. -/
theorem frames_bounded (config : Config) (input : List UInt8) (steps : Nat) {machine : Machine}
    (reached : (Machine.boot config input compiled.pools).run compiled steps = .running machine) :
    machine.config = config ∧ machine.frames.length ≤ max 1 config.maxCallDepth := by
  have counts : True → program.wellShaped = true := fun _ => shape
  obtain ⟨pools, -, -, valid⟩ := program.compile_ok accepted
  have boot := placed_boot counts valid config input
  rw [← pools] at boot
  have start : (Machine.boot config input compiled.pools).config = config
      ∧ (Machine.boot config input compiled.pools).frames.length ≤ max 1 config.maxCallDepth := by
    rw [boot_eq]
    exact ⟨rfl, Nat.le_max_left 1 _⟩
  exact (holds_run accepted counts addressable (fun held dispatches => dispatches.bounded held) boot start
    steps reached).2

/-- In a run in which no stranded scope comes alive again, a call of what is no array is refused with
nothing changed if there is no body, or if the number of arguments is not that of the parameters that the
definition lists. Otherwise it begins, unless as many frames are active as there may be. -/
theorem calls_enter (config : Config) (input : List UInt8) (steps : Nat) {before : Machine}
    (reached : (Machine.boot config input compiled.pools).run compiled steps = .running before) :
    (before.config = config ∧ before.frames.length ≤ max 1 config.maxCallDepth)
      ∧ ((Machine.boot config input compiled.pools).StrandsForGood compiled steps →
        ∀ count, before.nextOpcode? compiled = some .evaluate →
          before.nextOperand? compiled = some count →
          ∃ arguments method caller target rest, arguments.length = count
            ∧ before.stack
              = arguments.reverse.map .binding ++ .binding method :: .binding caller :: rest
            ∧ before.heap.bindings.get? method = some target
            ∧ (target.tag ≠ .array →
              before.CallsMethod program compiled arguments method caller target rest)) := by
  refine ⟨frames_bounded accepted shape addressable config input steps reached, ?_⟩
  intro good count next given
  obtain ⟨offset, cell, copies, rest, arguments, method, caller, target, length, stack, there, prepared, -,
    advances⟩ := preparedCall_call accepted shape addressable good reached next given
  refine ⟨arguments, method, caller, target, rest, length, stack, there, fun callable => ?_⟩
  rw [if_neg callable] at advances
  obtain ⟨scope, refers, kept, -⟩ := prepared.own
  obtain ⟨declared, held⟩ := kept.lasting.liveScope
  have tidy : before.heap.Tidy := prepared.order.guarded.tidy
  have outside : ∀ argument ∈ arguments, before.heap.Live argument
      ∧ ¬ before.heap.Owns scope argument := fun argument member =>
    ⟨(prepared.arguments argument member).live,
      (prepared.arguments argument member).outside (.head _) kept.refers⟩
  have suits := parametersSuit_run accepted shape addressable good reached
  refine ⟨scope, declared, refers, held, fun bodied => ?_, ?_⟩
  · obtain ⟨own, again, listed⟩ := suits target ⟨method, there⟩ bodied
    cases refers.symm.trans again
    exact listed declared held
  let ready : Machine := { before.ready offset cell with stack := rest }
  have checks : Action.checkCall target arguments.length ready = _ :=
    Action.checkCall_eq refers held arguments.length
  split
  · next bodiless =>
    rw [if_pos bodiless] at checks
    rw [Action.bind_of_error (Action.bind_of_error checks)] at advances
    exact ⟨_, _, advances, rfl, rfl⟩
  next bodied =>
  rw [if_neg bodied] at checks
  split
  · next differs =>
    rw [if_pos differs] at checks
    rw [Action.bind_of_error (Action.bind_of_error checks)] at advances
    exact ⟨_, _, advances, rfl, rfl⟩
  next agrees =>
  rw [if_neg agrees] at checks
  obtain ⟨heap, bindings, tidied, live, binds⟩ :=
    @Action.bindParameters_binds ready scope (declared.parameters.zip arguments) tidy ⟨declared, held⟩
      fun pair member => outside pair.2 (List.of_mem_zip member).2
  rw [← Action.bindArguments_eq refers held] at bindings
  have prepares : (Action.checkCall target arguments.length >>= fun _ =>
      Action.bindArguments target none arguments) ready = _ := (Action.bind_of_ok checks).trans bindings
  rw [Action.bind_of_ok prepares, Action.enterFrame_eq] at advances
  split
  · next room =>
    have works := prepared.prepares
    unfold Works at works
    rw [prepares] at works
    obtain ⟨after, focuses, rfl, frames, ⟨rfl, -⟩, -, -, attached⟩ := prepared.enters works.1 rfl
    have enters := advances.trans (congrArg _ ((if_pos room).trans (Action.bind_of_ok focuses)))
    refine ⟨after.goto target.body, enters, ?_⟩
    have begins : before.Begins arguments method caller target scope declared.parameters _
        (after.goto target.body) :=
      prepared.begins rfl refers (not_not.mp agrees) binds tidied live
        ⟨_, frames, refers, rfl, rfl, rfl⟩ attached rfl
    exact begins
  · next full =>
    exact ⟨_, _, advances.trans (congrArg _ (if_neg full))⟩

end

/-! ## A scope that comes alive again -/

/-- A method puts itself under a global name and is gone when it has returned. Blocks are opened as long
as empty lines are read. Then another method is called with arguments that are found through the name. -/
def revived : Program where
  main := [.statement (.assign (.name "g") (.integer 1)),
    .statement (.define (.name "strand") []),
    .block [.statement (.assign (.name "g") (.name "self")),
      .statement (.giveBack (some (.integer 1)))],
    .statement (.define (.name "m") ["p", "q", "r"]),
    .block [.statement (.giveBack (some (.boolean false)))],
    .statement (.assign (.member (.name "m") "p") (.integer 5)),
    .statement (.call none "strand" []),
    .statement (.assign (.name "c") (.boolean true)),
    .statement (.whileLoop (.name "c")),
    .block [.statement (.assign (.name "c") (.binary .isNotEqual (.ask none) (.text "x")))],
    .statement (.ifClause (.call none "m"
      [.integer 7, .member (.name "g") "p", .ask (some (.member (.name "g") "p"))])),
    .block []]

def revivedCode : Compiled where
  code :=
    { instructions :=
        #[ -- g = 1
          ⟨.loadName, 0⟩, ⟨.resolveDirect, 0⟩, ⟨.loadLiteral, 3⟩, ⟨.assign, 0⟩, ⟨.endStatement, 0⟩,
          -- strand()
          ⟨.loadName, 1⟩, ⟨.resolveDirect, 0⟩, ⟨.defineMethod, 0⟩, ⟨.bindSection, 14⟩, ⟨.nop, 0⟩,
          ⟨.assign, 0⟩, ⟨.endStatement, 0⟩, ⟨.jump, 24⟩, ⟨.nop, 0⟩,
          -- its body: g = self, return 1
          ⟨.loadName, 0⟩, ⟨.resolveDirect, 0⟩, ⟨.loadName, 2⟩, ⟨.resolveDirect, 0⟩, ⟨.assign, 0⟩,
          ⟨.endStatement, 0⟩, ⟨.loadLiteral, 3⟩, ⟨.return, 1⟩, ⟨.endStatement, 0⟩, ⟨.return, 0⟩,
          -- m(p, q, r)
          ⟨.loadName, 3⟩, ⟨.resolveDirect, 0⟩, ⟨.loadName, 4⟩, ⟨.loadName, 5⟩, ⟨.loadName, 6⟩,
          ⟨.defineMethod, 3⟩, ⟨.bindSection, 36⟩, ⟨.nop, 0⟩, ⟨.assign, 0⟩, ⟨.endStatement, 0⟩,
          ⟨.jump, 40⟩, ⟨.nop, 0⟩,
          -- its body: return false
          ⟨.loadLiteral, 4⟩, ⟨.return, 1⟩, ⟨.endStatement, 0⟩, ⟨.return, 0⟩,
          -- m.p = 5
          ⟨.loadName, 3⟩, ⟨.resolveDirect, 0⟩, ⟨.dereference, 0⟩, ⟨.loadName, 4⟩,
          ⟨.resolveScoped, 0⟩, ⟨.loadLiteral, 5⟩, ⟨.assign, 0⟩, ⟨.endStatement, 0⟩,
          -- a call of strand
          ⟨.loadLiteral, 2⟩, ⟨.loadName, 1⟩, ⟨.resolveDirect, 0⟩, ⟨.dereference, 0⟩, ⟨.copy, 0⟩,
          ⟨.evaluate, 0⟩, ⟨.endStatement, 0⟩,
          -- c = true
          ⟨.loadName, 7⟩, ⟨.resolveDirect, 0⟩, ⟨.loadLiteral, 6⟩, ⟨.assign, 0⟩, ⟨.endStatement, 0⟩,
          -- while c
          ⟨.loadName, 7⟩, ⟨.resolveDirect, 0⟩, ⟨.dereference, 0⟩, ⟨.jumpIfFalse, 75⟩, ⟨.nop, 0⟩,
          -- c = (what is read is not "x")
          ⟨.enterLocal, 0⟩, ⟨.loadName, 7⟩, ⟨.resolveDirect, 0⟩, ⟨.syscall, 1⟩, ⟨.loadLiteral, 7⟩,
          ⟨.notEqual, 0⟩, ⟨.assign, 0⟩, ⟨.endStatement, 0⟩, ⟨.leaveLocal, 0⟩, ⟨.jump, 60⟩,
          -- a call of m with 7, g.p and what is read
          ⟨.loadLiteral, 2⟩, ⟨.loadName, 3⟩, ⟨.resolveDirect, 0⟩, ⟨.dereference, 0⟩, ⟨.copy, 0⟩,
          ⟨.loadLiteral, 8⟩, ⟨.loadName, 0⟩, ⟨.resolveDirect, 0⟩, ⟨.dereference, 0⟩, ⟨.loadName, 4⟩,
          ⟨.resolveScoped, 0⟩, ⟨.dereference, 0⟩, ⟨.loadName, 0⟩, ⟨.resolveDirect, 0⟩,
          ⟨.dereference, 0⟩, ⟨.loadName, 4⟩, ⟨.resolveScoped, 0⟩, ⟨.dereference, 0⟩, ⟨.syscall, 0⟩,
          ⟨.endStatement, 0⟩, ⟨.syscall, 1⟩, ⟨.evaluate, 3⟩,
          -- if what it gives is true
          ⟨.jumpIfFalse, 103⟩, ⟨.nop, 0⟩, ⟨.enterLocal, 0⟩, ⟨.leaveLocal, 0⟩, ⟨.jump, 103⟩, ⟨.nop, 0⟩,
          ⟨.return, 0⟩]
      marks :=
        #[⟨0, 0⟩, ⟨5, 0⟩, ⟨14, 0⟩, ⟨20, 0⟩, ⟨24, 0⟩, ⟨36, 0⟩, ⟨40, 0⟩, ⟨48, 0⟩, ⟨55, 0⟩, ⟨60, 0⟩,
          ⟨66, 0⟩, ⟨75, 0⟩] }
  pools :=
    { constants := ⟨#[.root, .something, .nothing, .primitive (.integer 1), .primitive (.boolean false),
        .primitive (.integer 5), .primitive (.boolean true), .primitive (.text "x"),
        .primitive (.integer 7)], ∅⟩
      names := ⟨#["g", "strand", "self", "m", "p", "q", "r", "c"], ∅⟩ }

theorem accepted_revived :
    ∃ compiled, revived.compile = .ok compiled ∧ compiled.unindexed = revivedCode :=
  Program.compile_of_unindexed (by cbv)

/-- The bindings of the constants, the methods and the globals. -/
def revivedBindings (running : Bool) : Array (Slot Binding) :=
  (Machine.boot {} [] revivedCode.pools).heap.bindings.slots.append #[
    .occupied 0 { name := some "g", tag := .method, scope := some ⟨6, 0⟩, body := 14 },
    .occupied 0 { name := some "strand", tag := .method, scope := some ⟨4, 0⟩, body := 14 },
    .occupied 0 { tag := .method, scope := some ⟨4, 0⟩, body := 14 },
    .occupied 0 { name := some "m", tag := .method, scope := some ⟨5, 0⟩, body := 36 },
    .occupied 0 { tag := .method, scope := some ⟨5, 0⟩, body := 36 },
    .occupied 0 { name := some "p", tag := .integer, payload := .integer 5 },
    .occupied 1 { name := some "c", tag := .boolean, payload := .boolean running }]

def revivedScopes : Array (Slot Scope) := #[
  .occupied 0 { own := #[⟨2, 0⟩, ⟨11, 0⟩, ⟨12, 0⟩, ⟨14, 0⟩, ⟨17, 1⟩], durable := true },
  .occupied 0 { durable := true }, .occupied 0 { durable := true }, .occupied 0 { durable := true },
  .occupied 0 { durable := true },
  .occupied 0 { own := #[⟨16, 0⟩], parameters := ["p", "q", "r"], durable := true }]

/-- The machine in front of the loop, which has run a number of times. -/
def revivedAt (turns : UInt32) (input : List UInt8) : Machine :=
  let start := Machine.boot {} input revivedCode.pools
  { start with
    heap :=
      { bindings :=
          { slots := (revivedBindings true).push (.vacant turns none), freeHead := some 18, size := 18 }
        scopes :=
          { slots := revivedScopes.push (.vacant (turns + 1) none), freeHead := some 6, size := 6 } }
    registers := { start.registers with ip := 60 } }

/-- The machine in front of the last call. The global name and the copy of the method have the same
scope. -/
def revivedLast : Machine :=
  let start := Machine.boot {} [] revivedCode.pools
  { start with
    heap :=
      { bindings :=
          { slots := (revivedBindings false).append #[
              .occupied (2 ^ 32 - 1) { name := some "p", tag := .integer, payload := .integer 5 },
              .occupied 0 { name := some "m", tag := .method, scope := some ⟨6, 0⟩, body := 36 },
              .occupied 0 { tag := .text, payload := .text "" }]
            size := 21 }
        scopes :=
          { slots := revivedScopes.push (.occupied 0
              { own := #[⟨18, 2 ^ 32 - 1⟩], parameters := ["p", "q", "r"], durable := true })
            size := 7 } }
    stack := [.binding ⟨20, 0⟩, .binding ⟨18, 2 ^ 32 - 1⟩, .binding ⟨10, 0⟩, .binding ⟨19, 0⟩,
      .binding ⟨1, 0⟩]
    registers := { start.registers with ip := 96, lastResult := some ⟨18, 2 ^ 32 - 1⟩ }
    console := { output := "5\n" } }

theorem addressable_revived {compiled : Compiled} (accepted : revived.compile = .ok compiled) :
    Addressable revived compiled := by
  have code : size (image revived) = 104 := by cbv
  have names : (Pools.ofProgram revived).names.size = 8 := by cbv
  have constants : (Pools.ofProgram revived).constants.size = 9 := by cbv
  exact addressable_of_image accepted (by decide) (code ▸ by decide) (names ▸ by decide)
    (constants ▸ by decide)

private theorem revivedAt_turns (turns : Nat) (rest : List UInt8) :
    (Machine.boot {} (List.replicate (turns + 1) 10 ++ rest) revivedCode.pools).run revivedCode
      (67 + turns * 15) = .running (revivedAt (1 + UInt32.ofNat turns) rest) := by
  have start (rest : List UInt8) : (Machine.boot {} (10 :: rest) revivedCode.pools).run revivedCode 67
      = .running (revivedAt 1 rest) := by cbv
  have turn (generation : UInt32) (rest : List UInt8) :
      (revivedAt generation (10 :: rest)).run revivedCode 15
        = .running (revivedAt (generation + 1) rest) := by cbv
  rw [List.replicate_succ, List.cons_append, Machine.run_add, start]
  have all := @Machine.run_turns revivedCode (fun index => revivedAt (1 + UInt32.ofNat index)
    (List.replicate (turns - index) 10 ++ rest)) 15 turns fun index less => by
      obtain ⟨more, same⟩ : ∃ more, turns - index = more + 1 := ⟨turns - index - 1, by omega⟩
      have next : turns - (index + 1) = more := by omega
      rw [same, next, List.replicate_succ, List.cons_append, turn, UInt32.ofNat_add, ← UInt32.add_assoc]
      rfl
  simpa [Progress.run] using all

theorem revivedLast_reached {compiled : Compiled} (bare : compiled.unindexed = revivedCode) :
    (Machine.boot {} (List.replicate (2 ^ 32 - 3 + 1) 10 ++ [120]) compiled.pools).run compiled
      (67 + (2 ^ 32 - 3) * 15 + 40) = .running revivedLast := by
  have last : (revivedAt (2 ^ 32 - 2) [120]).run revivedCode 40 = .running revivedLast := by cbv
  rw [Machine.run_of_unindexed bare, Machine.run_add, revivedAt_turns]
  exact last

/-- The second argument lies in the scope of the method, which has become that of the copy. -/
theorem revivedLast_holds :
    (revivedLast.nextOpcode? revivedCode, revivedLast.nextOperand? revivedCode,
      revivedLast.stack, revivedLast.frames.length, revivedLast.config.maxCallDepth)
      = (some .evaluate, some 3, [.binding ⟨20, 0⟩, .binding ⟨18, 2 ^ 32 - 1⟩, .binding ⟨10, 0⟩,
          .binding ⟨19, 0⟩, .binding ⟨1, 0⟩], 1, 1024)
      ∧ (revivedLast.heap.bindings.get? ⟨19, 0⟩, revivedLast.heap.scopes.get? ⟨6, 0⟩,
          revivedLast.heap.bindings.get? ⟨18, 2 ^ 32 - 1⟩)
        = (some { name := some "m", tag := .method, scope := some ⟨6, 0⟩, body := 36 },
          some { own := #[⟨18, 2 ^ 32 - 1⟩], parameters := ["p", "q", "r"], durable := true },
          some { name := some "p", tag := .integer, payload := .integer 5 }) := by
  cbv

/-- Where an argument belongs to a scope that has come alive again as that of the copy, a parameter is
bound to what the parameters in front of it have made of it. -/
theorem revived_argument_changed :
    ¬ ∀ (program : Program) (compiled : Compiled), program.compile = .ok compiled →
      program.wellShaped = true → Addressable program compiled →
      ∀ (config : Config) (input : List UInt8) (steps : Nat) (before : Machine),
      (Machine.boot config input compiled.pools).run compiled steps = .running before →
      ∀ count, before.nextOpcode? compiled = some .evaluate →
        before.nextOperand? compiled = some count →
        ∃ arguments method caller target rest, arguments.length = count
          ∧ before.stack
            = arguments.reverse.map .binding ++ .binding method :: .binding caller :: rest
          ∧ before.heap.bindings.get? method = some target
          ∧ (target.tag ≠ .array →
            before.CallsMethod program compiled arguments method caller target rest) := by
  intro calls
  obtain ⟨compiled, accepted, bare⟩ := accepted_revived
  obtain ⟨machine, heap⟩ := revivedLast_holds
  rw [← bare] at machine
  simp only [Prod.mk.injEq] at machine heap
  obtain ⟨next, operand, layout, frames, depth⟩ := machine
  obtain ⟨held, level, old⟩ := heap
  obtain ⟨arguments, method, caller, target, rest, length, stack, there, called⟩ :=
    calls revived compiled accepted (by decide) (addressable_revived accepted) _ _ _ _
      (revivedLast_reached bare) 3 next operand
  obtain ⟨rfl, rfl⟩ : arguments = [⟨10, 0⟩, ⟨18, 2 ^ 32 - 1⟩, ⟨20, 0⟩] ∧ method = ⟨19, 0⟩ := by
    match arguments, length with
    | [first, second, third], _ =>
      rw [layout] at stack
      cases stack
      exact ⟨rfl, rfl⟩
  cases held.symm.trans there
  obtain ⟨scope, declared, refers, has, -, outcome⟩ := called (by decide)
  cases refers
  cases level.symm.trans has
  rw [if_neg (by decide), if_neg (by decide), if_pos (by rw [frames, depth]; decide)] at outcome
  obtain ⟨after, advances, begins⟩ := outcome
  obtain ⟨value, id, reads, found, holds⟩ := begins.bound (by decide) 1 "q" ⟨18, 2 ^ 32 - 1⟩ rfl rfl
  cases old.symm.trans reads
  have bound : let after := (revivedLast.advance revivedCode).machine
      (after.heap.findImmediate ⟨6, 0⟩ "q", after.heap.bindings.get? ⟨21, 0⟩)
        = (.ok (some ⟨21, 0⟩), some { name := some "q", tag := .integer, payload := .integer 7 }) := by
    cbv
  rw [← bare, Machine.advance_unindexed, advances] at bound
  obtain ⟨ends, value⟩ := Prod.mk.inj bound
  cases ends.symm.trans found
  cases value.symm.trans holds

/-! ## A method with a parameter -/

/-- Calls a method that gives back what its parameter is bound to. -/
def mirror : Program where
  main := [.statement (.define (.name "mirror") ["value"]),
    .block [.statement (.giveBack (some (.name "value")))],
    .statement (.call none "mirror" [.integer 5])]

theorem accepted_mirror : ∃ compiled, mirror.compile = .ok compiled :=
  ⟨_, by cbv⟩

theorem addressable_mirror {compiled : Compiled} (accepted : mirror.compile = .ok compiled) :
    Addressable mirror compiled := by
  have code : size (image mirror) = 25 := by cbv
  have names : (Pools.ofProgram mirror).names.size = 2 := by cbv
  have constants : (Pools.ofProgram mirror).constants.size = 4 := by cbv
  exact addressable_of_image accepted (by decide) (code ▸ by decide) (names ▸ by decide)
    (constants ▸ by decide)

theorem mirror_enters :
    ∃ compiled before, mirror.compile = .ok compiled ∧ mirror.wellShaped = true
      ∧ Addressable mirror compiled
      ∧ (Machine.boot {} [] compiled.pools).run compiled 15 = .running before
      ∧ before.frames.length ≤ 1024
      ∧ ∃ argument method caller target scope rest after, before.advance compiled = .running after
        ∧ mirror.Defines target.body ["value"]
        ∧ before.Begins [argument] method caller target scope ["value"] rest after := by
  obtain ⟨compiled, accepted⟩ := accepted_mirror
  have shape : mirror.wellShaped = true := by decide
  have addressable := addressable_mirror accepted
  have good := Program.strandsForGood 15 accepted (by cbv)
  have operands : mirror.operands? 15 = some (some .evaluate, some 1,
      [.binding ⟨5, 0⟩, .binding ⟨8, 0⟩, .binding ⟨1, 0⟩],
      [some { tag := .integer, payload := .integer 5, constant := true },
        some { name := some "mirror", tag := .method, scope := some ⟨5, 0⟩, body := 10 },
        some { name := some "Nothing", constant := true }]) := by cbv
  have level : (mirror.dispatch? 15).map (fun passed =>
      (passed.1.heap.scopes.get? ⟨5, 0⟩, passed.1.frames.length))
      = some (some { parameters := ["value"], durable := true }, 1) := by cbv
  simp only [Program.dispatch?, Program.operands?, accepted] at level operands
  cases reached : (Machine.boot {} [] compiled.pools).run compiled 15 with
  | finished | failed => simp [reached] at level
  | running before =>
    obtain ⟨⟨same, bounded⟩, calls⟩ := calls_enter accepted shape addressable {} [] 15 reached
    simp only [reached, Progress.machine, Option.some.injEq, Prod.mk.injEq] at operands
    obtain ⟨next, operand, stack, values⟩ := operands
    obtain ⟨arguments, method, caller, target, rest, length, layout, there, called⟩ :=
      calls good 1 next operand
    obtain ⟨argument, rfl⟩ := List.length_eq_one_iff.mp length
    cases stack.symm.trans layout
    rw [stack] at values
    simp only [List.map_cons, List.cons.injEq] at values
    cases there.symm.trans values.2.1
    obtain ⟨scope, declared, refers, held, listed, outcome⟩ := called (by decide)
    cases refers
    cases advanced : before.advance compiled with
    | finished | failed => simp [reached, advanced] at level
    | running after =>
      simp only [reached, advanced, Option.map_some, Option.some.injEq, Prod.mk.injEq] at level
      cases level.1.symm.trans held
      rw [if_neg (by decide), if_neg (by decide), if_pos (by rw [same, level.2]; decide)] at outcome
      obtain ⟨last, advances, begins⟩ := outcome
      exact ⟨compiled, before, accepted, shape, addressable, reached, bounded, _, _, _, _, _, _, last,
        advances, listed (by decide), begins⟩

end ScopeMachine
