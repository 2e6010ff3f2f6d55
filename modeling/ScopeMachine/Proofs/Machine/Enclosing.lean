import ScopeMachine.Proofs.Machine.Edits
import ScopeMachine.Proofs.Store.Levels

set_option autoImplicit false

/-!
# Enclosing scopes

What instructions do to the levels of names, whatever code they belong to. Only the entry into a block
makes a scope that inherits, and it inherits from a scope that encloses the current instruction: one
of an open block, that of the receiver or that of the program.
-/

namespace ScopeMachine

open Heap

variable {α β : Type}

/-! ## Levels under changes -/

section

variable {licence : Licence} {before after : Machine}

/-- Attributes are kept where they were kept before, or in a scope that was suitable for it. -/
theorem Edit.serves (edit : Edit licence before after) {scope : ScopeId}
    (serves : after.heap.Serves scope) :
    before.heap.Serves scope ∨ licence.grows ∧ before.heap.Suitable scope := by
  obtain ⟨id, value, there, refers⟩ := serves
  cases edit.stored ⟨id, there⟩ with
  | kept stored => exact .inl (stored.serves refers)
  | drawn drawn =>
    cases drawn with
    | plain none =>
      rw [none] at refers
      cases refers
    | copy name stored => exact .inl (stored.serves refers)
    | furnished allowed stored suitable | method allowed suitable =>
      cases refers
      exact .inr ⟨allowed, suitable⟩
  | assigned target source => exact .inl (source.serves refers)
  | shared => cases refers
  | furnished allowed stored suitable =>
    cases refers
    exact .inr ⟨allowed, suitable⟩
  | marked allowed stored same => exact .inl (stored.serves (same.symm.trans refers))

/-- What a change does to the scopes, if it opens no block: it leaves all of them on their level, makes
one for attributes, or frees one. -/
theorem Edit.scopes (edit : Edit licence before after) (shut : ¬ licence.opens) :
    SameScopes before.heap after.heap
      ∨ (∃ made : Scope, licence.grows ∧ made.durable = true
        ∧ (∀ parent, made.parent = some parent →
          ∃ other, before.heap.Serves other ∧ before.heap.Inherits other parent)
        ∧ SameScopes (before.heap.allocateScope made).2 after.heap)
      ∨ licence.frees ∧ ∃ owner, before.heap.LiveScope owner ∧ before.heap.Loses owner after.heap := by
  cases edit with
  | quiet same =>
    simp only [Machine.fixtures, Prod.mk.injEq] at same
    exact .inl (sameScopes_of_eq (congrArg Heap.scopes same.1))
  | report | write | allocate | assign | furnish | mark | freeBinding =>
    exact .inl (sameScopes_of_eq rfl)
  | declare scope drawn => exact .inl (sameScopes_declare _ scope _)
  | redeclare scope drawn => exact .inl (sameScopes_redeclare _ scope _)
  | intern payload =>
    refine .inl (sameScopes_of_eq ?_)
    by_cases absent : payload = .absent
    · subst absent
      rfl
    · cases known : before.interned[payload]? with
      | some id => rw [Machine.withInterned, Machine.internIn_of_some absent known]
      | none =>
        rw [Machine.withInterned, Machine.internIn_of_none absent known]
        rfl
  | @allocateScope made allowed empty durable top =>
    refine .inr (.inl ⟨made, allowed, durable, fun parent has => ?_, sameScopes_of_eq rfl⟩)
    cases top.symm.trans has
  | openScope parent allowed => exact absurd allowed shut
  | @copyScope source allowed serves =>
    obtain ⟨stale, fails⟩ | ⟨found, there, copied, -⟩ := copyScope_cases before.heap source
    · exact .inl (sameScopes_of_eq (by rw [fails]))
    · refine .inr (.inl ⟨{ parent := found.parent, parameters := found.parameters, durable := true },
        allowed, rfl, fun parent has => ⟨source, serves, found, there, has⟩, ?_⟩)
      rw [copied]
      exact sameScopes_copyInto _ _ _
  | releaseScope owner allowed =>
    obtain same | ⟨live, loses⟩ := releaseScope_cases before.heap owner
    · exact .inl (sameScopes_of_eq (congrArg Heap.scopes same))
    · exact .inr (.inr ⟨allowed, owner, live, loses⟩)
  | freeScope owner allowed =>
    obtain same | ⟨live, loses⟩ := freeScope_cases before.heap owner
    · exact .inl (sameScopes_of_eq (congrArg Heap.scopes same))
    · exact .inr (.inr ⟨allowed, owner, live, loses⟩)

/-- A change that opens and frees nothing adds scopes for attributes at most. -/
theorem Edit.widens (edit : Edit licence before after) (shut : ¬ licence.opens)
    (frees : ¬ licence.frees) (grounded : before.heap.Grounded) :
    Widens before.heap after.heap := by
  obtain ⟨kept, made⟩ : (∀ {scope found}, before.heap.scopes.get? scope = some found →
        ∃ larger, after.heap.scopes.get? scope = some larger ∧ SameLevel found larger)
      ∧ ∀ {scope}, after.heap.LiveScope scope →
        before.heap.LiveScope scope ∨ after.heap.Lasting scope := by
    obtain same | ⟨made, -, durable, above, same⟩ | ⟨allowed, -⟩ := edit.scopes shut
    · refine ⟨same.forth, fun ⟨found, there⟩ => ?_⟩
      obtain ⟨found, there, -⟩ := same.back there
      exact .inl ⟨found, there⟩
    · have top : made.parent = none := by
        cases has : made.parent with
        | none => rfl
        | some parent =>
          obtain ⟨other, serves, inherits⟩ := above parent has
          exact absurd inherits (grounded serves inherits.liveScope).not_inherits
      refine ⟨fun there => same.forth ((get?_allocateScope_of_live ⟨_, there⟩).trans there),
        fun {scope} ⟨larger, there⟩ => ?_⟩
      obtain ⟨found, known, parent, lasts, -⟩ := same.back there
      rw [get?_allocateScope] at known
      split at known
      · cases known
        exact .inr ⟨larger, there, lasts.trans durable, parent.trans top⟩
      · exact .inl ⟨found, known⟩
    · exact absurd allowed frees
  refine ⟨kept, made, fun serves => (edit.serves serves).imp_right fun ⟨_, suitable⟩ => ?_⟩
  obtain ⟨found, there, durable, top⟩ := grounded.lasting suitable
  obtain ⟨larger, there, parent, lasts, -⟩ := kept there
  exact ⟨larger, there, lasts.trans durable, parent.trans top⟩

/-- A change that makes no scope frees some at most. -/
theorem Edit.narrows (edit : Edit licence before after) (shut : ¬ licence.opens)
    (grows : ¬ licence.grows) : Narrows before.heap after.heap := by
  have serves {scope : ScopeId} (serves : after.heap.Serves scope) : before.heap.Serves scope :=
    (edit.serves serves).resolve_right fun made => grows made.1
  obtain same | ⟨made, allowed, -⟩ | ⟨-, owner, live, loses⟩ := edit.scopes shut
  · exact same.narrows serves
  · exact absurd allowed grows
  · exact loses.narrows live

end

/-! ## Enclosing scopes -/

/-- The scope is that of the program, the innermost one or that of an open block. -/
def Machine.Encloses (machine : Machine) (scope : ScopeId) : Prop :=
  scope = machine.programScope ∨ scope = machine.registers.localScope
    ∨ ∃ frame ∈ machine.frames, scope ∈ frame.localScopes

/-- An action after which no other scopes enclose than before. -/
def Confined (action : Action α) : Prop :=
  ∀ machine {scope}, (Action.final (action machine)).Encloses scope → machine.Encloses scope

/-- An action after which attributes may enclose too. -/
def Focusing (action : Action α) : Prop :=
  ∀ machine {scope}, (Action.final (action machine)).Encloses scope →
    machine.Encloses scope ∨ (Action.final (action machine)).heap.Serves scope

theorem Confined.focuses {action : Action α} {next : α → Action β} (first : Confined action)
    (second : ∀ value, Focusing (next value)) : Focusing (action >>= next) := by
  intro machine scope encloses
  have before := @first machine scope
  cases result : action machine with
  | error fault after =>
    rw [Action.bind_of_error result] at encloses ⊢
    rw [result] at before
    exact .inl (before encloses)
  | ok value after =>
    rw [Action.bind_of_ok result] at encloses ⊢
    rw [result] at before
    exact (second value after encloses).imp_left before

private theorem Confined.focusing {action : Action α} (confined : Confined action) : Focusing action :=
  fun machine _ encloses => .inl (confined machine encloses)

theorem Focusing.map {action : Action α} (focusing : Focusing action) (f : α → β) :
    Focusing (action >>= fun value => pure (f value)) := by
  intro machine scope encloses
  have focused := @focusing machine scope
  cases result : action machine with
  | error fault after =>
    rw [Action.bind_of_error result] at encloses ⊢
    rw [result] at focused
    exact focused encloses
  | ok value after =>
    rw [Action.bind_of_ok result] at encloses ⊢
    rw [result] at focused
    exact focused encloses

private theorem Continuing.confined {relates : Heap → Heap → Prop} {action : Action α}
    (continuing : Continuing relates action) : Confined action := by
  intro machine scope encloses
  obtain ⟨_, _, _, _, _, _, _, -, same⟩ := continuing machine
  rw [same] at encloses
  exact encloses

private theorem Steady.confined {relates : Heap → Heap → Prop} {action : Action α}
    (steady : Steady relates action) : Confined action :=
  steady.continuing.confined

namespace Action

/-- The scope in which bare names are declared encloses already, or holds the attributes of the
receiver. -/
theorem currentLocalScope_encloses {machine after : Machine} {scope : ScopeId}
    (reads : currentLocalScope machine = .ok scope after) :
    machine.Encloses scope ∨ machine.heap.Serves scope := by
  have receiver (reads : receiverScope machine = .ok scope after) :
      machine.Encloses scope ∨ machine.heap.Serves scope := by
    have unfolds : receiverScope machine = (binding machine.registers.receiver >>= fun receiver =>
      pure (receiver.scope.getD machine.programScope)) machine := rfl
    rw [unfolds] at reads
    cases found : machine.heap.bindings.get? machine.registers.receiver with
    | none =>
      rw [bind_of_error (binding_of_none found)] at reads
      cases reads
    | some value =>
      rw [bind_of_ok (binding_of_get? found)] at reads
      cases reads
      cases attributes : value.scope with
      | none => exact .inl (.inl rfl)
      | some scope => exact .inr ⟨_, value, found, attributes⟩
  obtain ⟨_, _, _, frames, _⟩ := machine
  match frames with
  | { localScopes := innermost :: _, .. } :: _ =>
    cases reads
    exact .inl (.inr (.inr ⟨_, .head _, .head _⟩))
  | [] | { localScopes := [], .. } :: _ => exact receiver reads

/-- Focusing on the current frame sets the innermost scope by what the frame has. -/
theorem focusing_refocus {f : Registers → Registers}
    (same : ∀ registers, (f registers).localScope = registers.localScope) :
    Focusing (currentLocalScope >>= fun localScope =>
      setRegisters fun registers => f { registers with localScope }) := by
  intro machine scope encloses
  obtain ⟨fault, reads⟩ | ⟨found, reads⟩ := currentLocalScope_reads machine
  · rw [bind_of_error reads] at encloses
    exact .inl encloses
  · rw [bind_of_ok reads] at encloses ⊢
    obtain program | inner | block := encloses
    · exact .inl (.inl program)
    · cases inner.trans (same _)
      exact currentLocalScope_encloses reads
    · exact .inl (.inr (.inr block))

private theorem focusing_leaveLocal : Focusing leaveLocal := by
  intro machine scope encloses
  cases frames : machine.frames with
  | nil =>
    have fails : leaveLocal machine = .error .missingFrame machine := by
      obtain ⟨_, _, _, _, _⟩ := machine
      cases frames
      rfl
    rw [fails] at encloses
    exact .inl encloses
  | cons frame rest =>
    cases blocks : frame.localScopes with
    | nil =>
      rw [leaveLocal_nil frames blocks] at encloses
      exact .inl encloses
    | cons innermost scopes =>
      have focusing := (steady_releaseScope decay_anyChange innermost).confined.focuses
        fun _ => focusing_refocus (f := fun registers => { registers with lastResult := none })
          fun _ => rfl
      rw [leaveLocal_eq frames blocks] at encloses ⊢
      refine (focusing (closing frame scopes rest machine) encloses).imp_left ?_
      rintro (program | inner | ⟨other, member, held⟩)
      · exact .inl program
      · exact .inr (.inl inner)
      · refine .inr (.inr ?_)
        rw [frames]
        cases member with
        | head => exact ⟨frame, .head _, blocks ▸ .tail _ held⟩
        | tail _ member => exact ⟨other, .tail _ member, held⟩

private theorem focusing_enterFrame (caller receiver : BindingId) (body : Nat)
    (methodScope : Option ScopeId) : Focusing (enterFrame caller receiver body methodScope) := by
  intro machine scope encloses
  have focusing : Focusing (refocus >>= fun _ => pure (Transfer.goto body)) :=
    Focusing.map (focusing_refocus fun _ => rfl) _
  rw [enterFrame_eq] at encloses ⊢
  split at encloses
  · next room =>
    rw [if_pos room]
    refine (focusing (opened caller receiver methodScope machine) encloses).imp_left ?_
    rintro (program | inner | ⟨frame, member, held⟩)
    · exact .inl program
    · exact .inr (.inl inner)
    · cases member with
      | head => cases held
      | tail _ member => exact .inr (.inr ⟨frame, member, held⟩)
  · exact .inl encloses

private theorem focusing_evaluate (count : Nat) : Focusing (evaluate count) := by
  have change := growth_anyChange.toChange
  rw [evaluate_eq]
  refine (steady_callOperands change count).confined.focuses fun operands => ?_
  obtain ⟨caller, method, target, arguments⟩ := operands
  dsimp only
  split
  · exact ((steady_constructArray growth_anyChange method arguments).bind change
      fun _ => .pure change _).confined.focusing
  · exact ((steady_checkCall change target _).bind change fun _ =>
      steady_bindArguments change target _ _).confined.focuses fun _ => focusing_enterFrame _ _ _ _

private theorem focusing_evaluateInPlace (count : Nat) : Focusing (evaluateInPlace count) := by
  have change := growth_anyChange.toChange
  exact (steady_popArguments change count []).confined.focuses fun arguments =>
    (steady_popBinding change).confined.focuses fun method =>
    (steady_binding change method).confined.focuses fun target =>
    (steady_checkCall change target _).confined.focuses fun _ =>
    (steady_receiverScope change).confined.focuses fun place =>
    (steady_bindArguments change target _ _).confined.focuses fun _ =>
    (steady_registers change).confined.focuses fun registers => focusing_enterFrame _ _ _ _

private theorem focusing_resumed (frame : Frame) (keep : Option BindingId) : Focusing (resumed frame keep) := by
  have change := growth_anyChange.toChange
  have framed : Confined currentFrame := by
    intro machine scope encloses
    obtain ⟨_, _, _, frames, _⟩ := machine
    cases frames <;> exact encloses
  have handing (top : Frame) : Confined (setRegisters fun registers =>
      { registers with
        caller := top.caller, receiver := top.receiver, lastResult := frame.savedResult }) :=
    fun machine scope encloses => encloses
  exact (Steady.get change).confined.focuses fun machine =>
    (steady_push change _).confined.focuses fun _ => framed.focuses fun top =>
    (handing top).focuses fun _ => Focusing.map (focusing_refocus fun _ => rfl) _

private theorem focusing_returnFromFrame (hasValue : Bool) : Focusing (returnFromFrame hasValue) := by
  intro machine scope encloses
  have change := decay_anyChange.toChange
  have pops : (final (popExplicit hasValue machine)).Encloses scope → machine.Encloses scope :=
    (steady_popExplicit change hasValue).confined machine
  cases explicit : popExplicit hasValue machine with
  | error fault middle =>
    rw [explicit] at pops
    rw [returnFromFrame, bind_of_error explicit] at encloses
    exact .inl (pops encloses)
  | ok value ready =>
    rw [explicit] at pops
    cases frames : ready.frames with
    | nil =>
      have fails : popFrame ready = .error .missingFrame ready := by simp only [popFrame, frames]
      rw [returnFromFrame, bind_of_ok explicit, bind_of_error fails] at encloses
      exact .inl (pops encloses)
    | cons frame rest =>
      have focusing : Focusing (settled frame rest.isEmpty value >>= fun keep =>
          if rest.isEmpty then pure (.halt keep) else resumed frame keep) := by
        refine (steady_settled decay_anyChange frame rest.isEmpty value).confined.focuses fun keep => ?_
        split
        · exact (Steady.pure change _).confined.focusing
        · exact focusing_resumed frame keep
      rw [returnFromFrame_eq frames explicit] at encloses ⊢
      refine (focusing (popped frame rest ready) encloses).imp_left fun before => pops ?_
      obtain program | inner | ⟨other, member, held⟩ := before
      · exact .inl program
      · exact .inr (.inl inner)
      · exact .inr (.inr ⟨other, frames ▸ .tail _ member, held⟩)

theorem final_andNext (action : Action Unit) (machine : Machine) :
    final (andNext action machine) = final (action machine) := by
  unfold andNext
  cases result : action machine with
  | error fault after =>
    rw [bind_of_error result]
    rfl
  | ok value after =>
    rw [bind_of_ok result]
    rfl

/-- The entry into a block adds the scope of the block, which inherits from the innermost one. -/
theorem enterLocal_opens (names : NamePool) (operand : Nat) (machine : Machine) :
    (final (step names .enterLocal operand machine)).heap
        = (machine.heap.allocateScope { parent := some machine.registers.localScope }).2
      ∧ ∀ {scope}, (final (step names .enterLocal operand machine)).Encloses scope →
        machine.Encloses scope
          ∨ scope = (machine.heap.allocateScope
            { parent := some machine.registers.localScope }).1 := by
  rw [step, final_andNext]
  cases frames : machine.frames with
  | nil =>
    obtain ⟨_, _, _, _, _⟩ := machine
    cases frames
    exact ⟨rfl, .inl⟩
  | cons frame rest =>
    rw [enterLocal_eq frames]
    refine ⟨rfl, ?_⟩
    rintro scope (program | inner | ⟨other, member, held⟩)
    · exact .inl (.inl program)
    · exact .inr inner
    · cases member with
      | head =>
        cases held with
        | head => exact .inr rfl
        | tail _ held => exact .inl (.inr (.inr ⟨frame, frames ▸ .head _, held⟩))
      | tail _ member => exact .inl (.inr (.inr ⟨other, frames ▸ .tail _ member, held⟩))

/-- After every instruction but the entry into a block, only attributes enclose that did not
before. -/
theorem focusing_step (names : NamePool) {opcode : Opcode} (operand : Nat)
    (enter : opcode ≠ .enterLocal) : Focusing (step names opcode operand) := by
  by_cases leave : opcode = .leaveLocal
  · subst leave
    exact Focusing.map focusing_leaveLocal _
  by_cases call : opcode = .evaluate
  · subst call
    exact focusing_evaluate operand
  by_cases inPlace : opcode = .evaluateInPlace
  · subst inPlace
    exact focusing_evaluateInPlace operand
  by_cases returns : opcode = .return
  · subst returns
    exact focusing_returnFromFrame _
  · exact (continuing_step growth_anyChange names operand enter leave call inPlace
      returns).confined.focusing

end Action

end ScopeMachine
