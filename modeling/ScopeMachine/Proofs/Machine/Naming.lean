import ScopeMachine.Proofs.Machine.Edits
import ScopeMachine.Proofs.Store.Tally

set_option autoImplicit false

/-!
# Names under instructions

An instruction that frees nothing declares names where they are missing, and one that frees declares
none. So every instruction leaves the names of scopes distinct, unless it fills an array whose scope has
names already.
-/

namespace ScopeMachine

open Heap

/-! ## Single changes -/

section

variable {licence : Licence} {before after : Machine}

/-- What a change that frees nothing does to handles. -/
theorem Edit.adds (edit : Edit licence before after) (keeps : ¬ licence.frees) :
    Adds before.heap after.heap := by
  cases edit with
  | quiet same =>
    simp only [Machine.fixtures, Prod.mk.injEq] at same
    rw [same.1]
    exact .refl _
  | report | write => exact .refl _
  | allocate => exact adds_allocate _
  | declare scope => exact adds_declare scope _
  | redeclare scope => exact adds_redeclare scope _
  | assign | furnish | mark => exact adds_modifyBinding _ _
  | intern payload =>
    obtain same | stored := before.heap_intern payload
    · rw [same]
      exact .refl _
    · rw [stored]
      exact adds_allocate _
  | allocateScope allowed empty => exact adds_allocateScope empty
  | openScope => exact adds_allocateScope rfl
  | copyScope => exact adds_copyScope _
  | releaseScope _ frees | freeScope _ frees | freeBinding _ frees => exact absurd frees keeps

/-- What a change does to the names of scopes. Only declarations and copies add any. -/
theorem Edit.naming (edit : Edit licence before after)
    (settled : licence.grows → before.heap.Settled) :
    Trims before.heap after.heap
      ∨ (∃ scope value, licence.names scope
        ∧ ((∀ name, value.name = some name → before.heap.findImmediate scope name = .ok none)
          ∨ licence.fills)
        ∧ after.heap = (before.heap.declare scope value).2)
      ∨ (∃ scope value, licence.names scope ∧ after.heap = (before.heap.redeclare scope value).2)
      ∨ licence.grows ∧ ∃ source, after.heap = (before.heap.copyScope source).2 := by
  cases edit with
  | quiet same =>
    simp only [Machine.fixtures, Prod.mk.injEq] at same
    rw [same.1]
    exact .inl (.refl _)
  | report | write => exact .inl (.refl _)
  | allocate drawn lone =>
    refine .inl (trims_of_eq ?_)
    obtain ⟨-, unnamed⟩ | grows := lone
    · exact entries_allocate_unnamed unnamed
    · exact (settled grows).entries_allocate
  | declare scope drawn place absent =>
    obtain ⟨-, unnamed⟩ | named := place
    · exact .inl (trims_of_eq (entries_declare_unnamed unnamed scope))
    · exact .inr (.inl ⟨scope, _, named, absent, rfl⟩)
  | redeclare scope drawn place => exact .inr (.inr (.inl ⟨scope, _, place, rfl⟩))
  | assign | furnish => exact .inl (trims_of_eq (entries_modifyBinding fun _ _ => rfl))
  | mark id f allowed scope name =>
    exact .inl (trims_of_eq (entries_modifyBinding fun value _ => name value))
  | intern payload =>
    refine .inl (trims_of_eq ?_)
    obtain same | stored := before.heap_intern payload
    · rw [same]
      exact fun _ => rfl
    · rw [stored]
      exact entries_allocate_unnamed rfl
  | allocateScope allowed empty => exact .inl (trims_of_eq (entries_allocateScope empty))
  | openScope => exact .inl (trims_of_eq (entries_allocateScope rfl))
  | copyScope grows => exact .inr (.inr (.inr ⟨grows, _, rfl⟩))
  | releaseScope owner => exact .inl (trims_releaseScope owner)
  | freeScope owner => exact .inl (trims_freeScope owner)
  | freeBinding => exact .inl (trims_freeBinding _)

theorem Edit.trims (edit : Edit licence before after) (grows : ¬ licence.grows)
    (names : ∀ scope, ¬ licence.names scope) : Trims before.heap after.heap := by
  obtain trims | ⟨_, _, named, -⟩ | ⟨_, _, named, -⟩ | ⟨grown, -⟩ := edit.naming fun grown => absurd grown grows
  · exact trims
  · exact absurd named (names _)
  · exact absurd named (names _)
  · exact absurd grown grows

theorem Edit.once (edit : Edit licence before after) (settled : before.heap.Settled)
    (once : before.heap.Once) : after.heap.Once := by
  obtain trims | ⟨scope, value, -, -, same⟩ | ⟨scope, value, -, same⟩ | ⟨-, source, same⟩ :=
    edit.naming fun _ => settled
  · exact once.trims trims
  · exact same ▸ once.declare settled scope value
  · exact same ▸ once.redeclare settled scope value
  · exact same ▸ once.copyScope settled source

theorem Edit.distinct (edit : Edit licence before after) (fills : ¬ licence.fills)
    (settled : before.heap.Settled) (distinct : before.heap.Distinct) : after.heap.Distinct := by
  obtain trims | ⟨scope, value, -, absent, same⟩ | ⟨scope, value, -, same⟩ | ⟨-, source, same⟩ :=
    edit.naming fun _ => settled
  · exact distinct.trims trims
  · exact same ▸ distinct.declare settled scope value fun name named =>
      not_mem_of_findImmediate (absent.resolve_right fills name named)
  · exact same ▸ distinct.redeclare settled scope value
  · exact same ▸ distinct.copyScope settled source

theorem Edit.spends (edit : Edit licence before after) (opens : ¬ licence.opens) (grows : ¬ licence.grows)
    (may : ∀ id, ¬ licence.may id) : Spends before.heap after.heap := by
  cases edit with
  | quiet same =>
    simp only [Machine.fixtures, Prod.mk.injEq] at same
    rw [same.1]
    exact .refl _
  | report | write => exact .refl _
  | allocate => exact spends_of_adds (adds_allocate _) rfl
  | declare scope => exact spends_of_adds (adds_declare scope _) (occupied_declare scope _)
  | redeclare scope => exact spends_of_adds (adds_redeclare scope _) (occupied_redeclare scope _)
  | assign | mark => exact spends_of_adds (adds_modifyBinding _ _) rfl
  | furnish allowed => exact absurd allowed (may _)
  | intern payload =>
    obtain same | stored := before.heap_intern payload
    · rw [same]
      exact .refl _
    · rw [stored]
      exact spends_of_adds (adds_allocate _) rfl
  | allocateScope allowed | copyScope allowed => exact absurd allowed grows
  | openScope _ allowed => exact absurd allowed opens
  | releaseScope owner => exact spends_releaseScope owner
  | freeScope owner => exact spends_freeScope owner
  | freeBinding allowed => exact absurd allowed (may _)

end

/-! ## Changes in a row -/

section

variable {licence : Licence} {before after : Machine} (edits : Edits licence before after)

include edits

theorem Edits.adds (keeps : ¬ licence.frees) : Adds before.heap after.heap :=
  edits.keeps (fun edit adds => Adds.trans adds (edit.adds keeps)) (.refl _)

theorem Edits.trims (grows : ¬ licence.grows) (names : ∀ scope, ¬ licence.names scope) :
    Trims before.heap after.heap :=
  edits.keeps (fun edit trims => Trims.trans trims (edit.trims grows names)) (.refl _)

theorem Edits.once (keeps : ¬ licence.frees) (settled : before.heap.Settled) (once : before.heap.Once) :
    after.heap.Once := by
  have both : after.heap.Settled ∧ after.heap.Once :=
    @Edits.keeps licence (fun machine => machine.heap.Settled ∧ machine.heap.Once) before after edits
      (fun edit held => ⟨held.1.adds (edit.adds keeps), edit.once held.1 held.2⟩) ⟨settled, once⟩
  exact both.2

theorem Edits.distinct (keeps : ¬ licence.frees) (fills : ¬ licence.fills)
    (settled : before.heap.Settled) (distinct : before.heap.Distinct) : after.heap.Distinct := by
  have both : after.heap.Settled ∧ after.heap.Distinct :=
    @Edits.keeps licence (fun machine => machine.heap.Settled ∧ machine.heap.Distinct) before after
      edits (fun edit held => ⟨held.1.adds (edit.adds keeps), edit.distinct fills held.1 held.2⟩)
      ⟨settled, distinct⟩
  exact both.2

theorem Edits.spends (opens : ¬ licence.opens) (grows : ¬ licence.grows) (may : ∀ id, ¬ licence.may id) :
    Spends before.heap after.heap :=
  edits.keeps (fun edit spends => Spends.trans spends (edit.spends opens grows may)) (.refl _)

end

/-! ## Arrays -/

/-- While an array is filled, its scope has the names of the first elements. -/
structure Heap.Filling (scope : ScopeId) (index : Nat) (heap : Heap) : Prop where
  settled : heap.Settled
  distinct : heap.Distinct
  elements : ∀ name ∈ (heap.entries scope).map Prod.snd, ∃ earlier < index, name = toString earlier

theorem Heap.Filling.declare {heap : Heap} {scope : ScopeId} {index : Nat}
    (filling : heap.Filling scope index) :
    (heap.declare scope (.unassigned (toString index))).2.Filling scope (index + 1) := by
  refine ⟨filling.settled.adds (adds_declare _ _),
    filling.distinct.declare filling.settled _ _ fun name named member => ?_, fun name member => ?_⟩
  · cases named
    obtain ⟨earlier, less, same⟩ := filling.elements _ member
    cases Nat.repr_inj.mp same
    exact Nat.lt_irrefl _ less
  · obtain old | new := filling.settled.mem_names_declare member
    · obtain ⟨earlier, less, same⟩ := filling.elements name old
      exact ⟨earlier, Nat.lt_succ_of_lt less, same⟩
    · cases new
      exact ⟨index, Nat.lt_succ_self index, rfl⟩

section

variable {heap : Heap}

/-- A new scope that a binding refers to has no names. -/
theorem entries_furnish (array : BindingId) (owner : ScopeId) :
    ((heap.allocateScope { durable := true }).2.modifyBinding array fun value =>
      { value with scope := some (heap.allocateScope { durable := true }).1 }).entries owner
      = heap.entries owner := by
  rw [entries_modifyBinding, entries_allocateScope rfl]
  exact fun _ _ => rfl

private theorem adds_furnish (array : BindingId) :
    Adds heap ((heap.allocateScope { durable := true }).2.modifyBinding array fun value =>
      { value with scope := some (heap.allocateScope { durable := true }).1 }) :=
  (adds_allocateScope rfl).trans (adds_modifyBinding _ _)

end

namespace Action

/-- What an action has done is done, whether or not its value is used for more. -/
theorem final_bind_pure {α β : Type} (action : Action α) (value : α → β) (machine : Machine) :
    final ((action >>= fun result => pure (value result)) machine) = final (action machine) := by
  cases result : action machine with
  | error fault after => rw [bind_of_error result]; rfl
  | ok result after => rw [bind_of_ok ‹_›]; rfl

variable {machine : Machine} {scope : ScopeId}

private theorem filling_declareElements {index : Nat} (count : Nat) (filling : machine.heap.Filling scope index) :
    ∃ top, (final (declareElements scope count index machine)).heap.Filling scope top := by
  induction count generalizing index machine with
  | zero => exact ⟨index, filling⟩
  | succ count ih =>
    have declared := heap_attempt (fun heap => heap.declare scope (.unassigned (toString index))) machine
    have next := filling.declare
    rw [← declared] at next
    unfold declareElements
    cases result : declare scope (.unassigned (toString index)) machine with
    | error fault after =>
      rw [bind_of_error result]
      exact ⟨index + 1, by rwa [← declare, result] at next⟩
    | ok id after =>
      rw [bind_of_ok result]
      exact ih (by rwa [← declare, result] at next)

theorem arraySize_reads (arguments : List BindingId) (machine : Machine) :
    final (arraySize arguments machine) = machine := by
  match arguments with
  | [] | _ :: _ :: _ => rfl
  | [argument] =>
    rw [arraySize, final_bind_pure, binding, inspect]
    split <;> rfl

/-- An array is filled without doubled names, if its scope has no names. -/
theorem distinct_elements {size : Int64} (settled : machine.heap.Settled)
    (distinct : machine.heap.Distinct) (bare : machine.heap.entries scope = []) (array : BindingId) :
    (final ((declareElements scope size.toInt.toNat 0 >>= fun _ =>
      declare scope { Binding.ofPayload (.integer size) with name := some Machine.sizeName } >>= fun _ =>
      push array) machine)).heap.Distinct := by
  have start : machine.heap.Filling scope 0 := ⟨settled, distinct, by simp [bare]⟩
  obtain ⟨top, filled⟩ := filling_declareElements size.toInt.toNat start
  cases elements : declareElements scope size.toInt.toNat 0 machine with
  | error fault after =>
    rw [bind_of_error elements]
    rw [elements] at filled
    exact filled.distinct
  | ok value after =>
    rw [bind_of_ok elements]
    rw [elements] at filled
    let value := { Binding.ofPayload (.integer size) with name := some Machine.sizeName }
    have last : (after.heap.declare scope value).2.Distinct := by
      refine filled.distinct.declare filled.settled _ _ fun name named member => ?_
      cases named
      obtain ⟨earlier, -, same⟩ := filled.elements _ member
      have number : Machine.sizeName.toNat? = some earlier := by rw [same]; exact Nat.toNat?_repr earlier
      have none : Machine.sizeName.toNat? = none := by cbv
      exact absurd (number.symm.trans none) (by simp)
    rw [← heap_attempt (fun heap => heap.declare scope value)] at last
    cases declared : declare scope value after with
    | error fault ended =>
      rw [bind_of_error declared]
      rwa [← declare, declared] at last
    | ok id ended =>
      rw [bind_of_ok declared]
      rwa [← declare, declared] at last

private theorem elementScope_new {array : BindingId} {value : Binding}
    (there : machine.heap.bindings.get? array = some value) (refers : value.scope = none) :
    elementScope array machine = .ok (machine.heap.allocateScope { durable := true }).1
      { machine with
        heap := (machine.heap.allocateScope { durable := true }).2.modifyBinding array fun value =>
          { value with scope := some (machine.heap.allocateScope { durable := true }).1 } } := by
  let made := machine.heap.allocateScope { durable := true }
  have opens : allocateScope { durable := true } machine = .ok made.1 { machine with heap := made.2 } :=
    rfl
  let opened : Machine := { machine with heap := made.2 }
  have still : opened.heap.bindings.get? array = some value := there
  have updates : updateBinding array (fun value => { value with scope := some made.1 }) opened = _ :=
    updateBinding_of_get? still _
  rw [elementScope, bind_of_ok (binding_of_get? there), refers]
  exact (bind_of_ok opens).trans (bind_of_ok updates)

/-- An array construction doubles no names, if the array has none. -/
theorem distinct_constructArray (settled : machine.heap.Settled) (distinct : machine.heap.Distinct)
    (array : BindingId) (arguments : List BindingId)
    (bare : ∀ size value scope, arraySize arguments machine = .ok (some size) machine →
      machine.heap.bindings.get? array = some value → value.scope = some scope →
      machine.heap.entries scope = []) :
    (final (constructArray array arguments machine)).heap.Distinct := by
  have reads := (arraySize_reads arguments machine).symm
  unfold constructArray
  cases sized : arraySize arguments machine with
  | error fault after =>
    rw [sized] at reads
    change machine = after at reads
    rwa [bind_of_error sized, ← reads]
  | ok size after =>
    rw [sized] at reads
    change machine = after at reads
    subst reads
    rw [bind_of_ok sized]
    cases size with
    | none => exact distinct
    | some size =>
      dsimp only
      cases there : machine.heap.bindings.get? array with
      | none =>
        have stale : elementScope array machine = .error (.staleHandle (.binding array)) machine :=
          bind_of_error (binding_of_none there)
        rw [bind_of_error stale]
        exact distinct
      | some value =>
        cases refers : value.scope with
        | some scope =>
          have found : elementScope array machine = .ok scope machine := by
            rw [elementScope, bind_of_ok (binding_of_get? there), refers]
            rfl
          rw [bind_of_ok found]
          exact distinct_elements settled distinct (bare size value scope sized there refers) array
        | none =>
          rw [bind_of_ok (elementScope_new there refers)]
          refine distinct_elements (settled.adds (adds_furnish array)) ?_ ?_ array
          · exact distinct.trims (trims_of_eq (entries_furnish array))
          · rw [entries_furnish]
            exact entries_of_dead (machine.heap.not_live_allocateScope _)

/-! ## Calls -/

theorem popBinding_ok {after : Machine} {id : BindingId} (result : popBinding machine = .ok id after) :
    machine.stack = .binding id :: after.stack ∧ after.heap = machine.heap := by
  obtain ⟨_, _, stack, _, _⟩ := machine
  match stack with
  | [] | .name _ :: _ => cases result
  | .binding _ :: rest =>
    cases result
    exact ⟨rfl, rfl⟩

private theorem popArguments_ok {count : Nat} {arguments taken : List BindingId} {after : Machine}
    (result : popArguments count arguments machine = .ok taken after) :
    ∃ popped : List BindingId, popped.length = count ∧ taken = popped.reverse ++ arguments
      ∧ machine.stack = popped.map .binding ++ after.stack ∧ after.heap = machine.heap := by
  induction count generalizing machine arguments with
  | zero =>
    cases result
    exact ⟨[], rfl, rfl, rfl, rfl⟩
  | succ count ih =>
    unfold popArguments at result
    cases pops : popBinding machine with
    | error fault last =>
      rw [bind_of_error pops] at result
      cases result
    | ok id last =>
      rw [bind_of_ok pops] at result
      obtain ⟨stack, heap⟩ := popBinding_ok pops
      obtain ⟨popped, length, rfl, lower, same⟩ := ih result
      exact ⟨id :: popped, congrArg (· + 1) length, by simp, by simp [stack, lower], same.trans heap⟩

theorem callOperands_ok {count : Nat} {caller method : BindingId} {target : Binding}
    {arguments : List BindingId} {after : Machine}
    (result : callOperands count machine = .ok (caller, method, target, arguments) after) :
    arguments.length = count
      ∧ machine.stack
        = arguments.reverse.map StackItem.binding ++ StackItem.binding method :: .binding caller :: after.stack
      ∧ machine.heap.bindings.get? method = some target ∧ after.heap = machine.heap := by
  unfold callOperands at result
  cases first : popArguments count [] machine with
  | error fault last => rw [bind_of_error first] at result; cases result
  | ok taken given =>
    rw [bind_of_ok first] at result
    obtain ⟨popped, length, rfl, stack, heap⟩ := popArguments_ok first
    cases second : popBinding given with
    | error fault last => rw [bind_of_error second] at result; cases result
    | ok callee called =>
      rw [bind_of_ok second] at result
      obtain ⟨upper, same⟩ := popBinding_ok second
      cases third : popBinding called with
      | error fault last => rw [bind_of_error third] at result; cases result
      | ok other last =>
        rw [bind_of_ok third] at result
        obtain ⟨lower, still⟩ := popBinding_ok third
        cases there : last.heap.bindings.get? callee with
        | none =>
          rw [bind_of_error (binding_of_none there)] at result
          cases result
        | some value =>
          rw [bind_of_ok (binding_of_get? there)] at result
          cases result
          have unchanged := still.trans (same.trans heap)
          exact ⟨by simpa using length, by simp [stack, upper, lower], unchanged ▸ there, unchanged⟩

end Action

/-- A call with a number of arguments would fill an array in the scope. -/
def Machine.Fills (machine : Machine) (count : Nat) (scope : ScopeId) : Prop :=
  ∃ argument method caller rest value target size, count = 1
    ∧ machine.stack = .binding argument :: .binding method :: .binding caller :: rest
    ∧ machine.heap.bindings.get? argument = some value ∧ value.payload.integer? = some size ∧ 0 ≤ size
    ∧ machine.heap.bindings.get? method = some target ∧ target.tag = .array
    ∧ target.scope = some scope

namespace Action

variable {machine : Machine}

private theorem distinct_evaluate {count : Nat} (settled : machine.heap.Settled)
    (distinct : machine.heap.Distinct)
    (bare : ∀ scope, machine.Fills count scope → machine.heap.entries scope = []) :
    (final (evaluate count machine)).heap.Distinct := by
  let declaring : Licence := { Licence.free with frees := False, fills := False }
  rw [evaluate_eq]
  cases operands : callOperands count machine with
  | error fault after =>
    rw [bind_of_error operands]
    have edits : Edits declaring machine _ := editing_callOperands count machine
    rw [operands] at edits
    exact edits.distinct id id settled distinct
  | ok taken after =>
    rw [bind_of_ok operands]
    obtain ⟨caller, method, target, arguments⟩ := taken
    obtain ⟨length, stack, there, same⟩ := callOperands_ok operands
    rw [← same] at settled distinct bare there
    dsimp only
    split
    · next array =>
      rw [final_bind_pure]
      refine distinct_constructArray settled distinct method arguments ?_
      intro size value scope sized found refers
      match arguments with
      | [] | _ :: _ :: _ => cases sized
      | [argument] =>
        cases reads : after.heap.bindings.get? argument with
        | none =>
          rw [arraySize, bind_of_error (binding_of_none reads)] at sized
          cases sized
        | some given =>
          rw [arraySize, bind_of_ok (binding_of_get? reads)] at sized
          obtain ⟨whole, inside⟩ : given.payload.integer? = some size ∧ 0 ≤ size := by
            simpa [Option.filter_eq_some_iff] using (EStateM.Result.ok.inj sized).1
          exact bare scope ⟨argument, method, caller, after.stack, given, target, size, length.symm,
            stack, same ▸ reads, whole, inside, same ▸ there, array,
            Option.some.inj (there.symm.trans found) ▸ refers⟩
    · have edits : Edits declaring after _ :=
        editing_callMethod (fun _ => trivial) trivial caller method target arguments after
      exact edits.distinct id id settled distinct

end Action

/-! ## Returns -/

/-- Changes that free scopes with what they own, but make no scopes. -/
def releasing : Licence :=
  ⟨False, False, True, False, fun _ => False, fun _ => False, True, False, False, False⟩

section

variable {α β : Type}

/-- An action that frees no slot more often than it frees scopes. -/
def Spending (action : Action α) : Prop :=
  ∀ machine, Spends machine.heap (Action.final (action machine)).heap

private theorem Editing.spending {action : Action α} (editing : Editing releasing action) : Spending action :=
  fun machine => (editing machine).spends id id fun _ => id

theorem Spending.bind {action : Action α} {next : α → Action β} (first : Spending action)
    (second : ∀ value, Spending (next value)) : Spending (action >>= next) := by
  intro machine
  have spends := first machine
  cases result : action machine with
  | error fault after =>
    rw [Action.bind_of_error result]
    rwa [result] at spends
  | ok value after =>
    rw [Action.bind_of_ok result]
    rw [result] at spends
    exact spends.trans (second value after)

end

namespace Action

/-- The method copy is freed right after its scope. -/
theorem spending_freeMethod (scope : ScopeId) (method : BindingId) :
    Spending (freeScope scope >>= fun _ => freeBinding method) := by
  intro machine
  by_cases live : machine.heap.LiveScope scope
  · obtain ⟨count, after, frees, -⟩ := freeScope_of_live live
    have freed : freeScope scope machine = .ok () { machine with heap := after } :=
      bind_of_ok (attempt_of_ok frees)
    have spends := spends_freeScope_freeBinding live method
    rw [frees] at spends
    rw [bind_of_ok freed]
    exact spends
  · have stale : freeScope scope machine = .error (.staleHandle (.scope scope)) machine :=
      bind_of_error (attempt_of_error (freeScope_of_dead live))
    rw [bind_of_error stale]
    exact .refl _

private theorem spending_releaseMethod (frame : Frame) (keep : Option BindingId) :
    Spending (releaseMethod frame keep) := by
  unfold releaseMethod
  split
  · exact (Editing.pure _).spending
  · next scope owner =>
    refine (editing_keepsMethod frame scope keep).spending.bind fun kept => ?_
    split
    · exact (Editing.pure _).spending
    · refine (editing_rescue scope keep).spending.bind fun rescued => ?_
      simpa only [bind_assoc] using (spending_freeMethod scope frame.receiver).bind fun _ =>
        (Editing.pure rescued).spending

private theorem spending_returnFromFrame (hasValue : Bool) : Spending (returnFromFrame hasValue) := by
  refine (editing_popExplicit hasValue).spending.bind fun explicit =>
    (editing_popFrame trivial).spending.bind fun frame => (editing_truncate _).spending.bind fun _ =>
    Editing.get.spending.bind fun machine => (editing_yielded frame _ explicit).spending.bind fun keep =>
    (editing_releaseScopes trivial frame.localScopes keep).spending.bind fun keep =>
    (spending_releaseMethod frame keep).bind fun keep => ?_
  split
  · exact (Editing.pure _).spending
  · simpa only [resumed, refocus, bind_assoc] using (editing_resumed frame keep).spending

/-! ## Instructions -/

section

variable (names : NamePool) {opcode : Opcode} (operand : Nat)

/-- What closes a block or a call declares nothing. -/
theorem editing_leaves (leaves : opcode = .leaveLocal ∨ opcode = .return) :
    Editing { Licence.free with opens := False, grows := False, names := fun _ => False }
      (step names opcode operand) := by
  refine editing_step names opcode operand ?_ ?_ (fun _ => trivial) (fun _ => trivial)
    (fun _ _ => trivial) ?_ (fun _ => trivial) (fun _ _ => trivial) (fun _ => trivial)
    fun _ => trivial
  all_goals obtain rfl | rfl := leaves <;> simp

/-- What closes neither a block nor a call frees nothing, and what is no call fills no array. -/
theorem editing_keeps (stays : ¬ (opcode = .leaveLocal ∨ opcode = .return)) {fills : Prop}
    (fills_ : opcode = .evaluate → fills) :
    Editing { Licence.free with frees := False, fills } (step names opcode operand) :=
  editing_step names opcode operand (fun _ => trivial) (fun _ => trivial) stays (fun _ => trivial)
    (fun _ _ => trivial) (fun _ _ => trivial) (fun _ => trivial) (fun _ _ => trivial) fills_
    fun _ => trivial

end

/-- No instruction doubles a name, unless it fills an array that has names already. -/
theorem distinct_step (names : NamePool) (opcode : Opcode) (operand : Nat) {machine : Machine}
    (settled : machine.heap.Settled) (distinct : machine.heap.Distinct)
    (bare : opcode = .evaluate → ∀ scope, machine.Fills operand scope → machine.heap.entries scope = []) :
    (final (step names opcode operand machine)).heap.Distinct := by
  by_cases call : opcode = .evaluate
  · subst call
    exact distinct_evaluate settled distinct (bare rfl)
  by_cases leaves : opcode = .leaveLocal ∨ opcode = .return
  · have editing := editing_leaves names operand leaves
    exact distinct.trims ((editing machine).trims id fun _ => id)
  · have editing := editing_keeps names operand leaves call
    exact (editing machine).distinct id id settled distinct

/-- No instruction lists a named binding twice. -/
theorem once_step (names : NamePool) (opcode : Opcode) (operand : Nat) {machine : Machine}
    (settled : machine.heap.Settled) (once : machine.heap.Once) :
    (final (step names opcode operand machine)).heap.Once := by
  by_cases leaves : opcode = .leaveLocal ∨ opcode = .return
  · have editing := editing_leaves names operand leaves
    exact once.trims ((editing machine).trims id fun _ => id)
  · have editing := editing_keeps names operand leaves fun _ => trivial
    exact (editing machine).once id settled once

/-- How often an instruction frees a slot. -/
theorem tallied_step (names : NamePool) (opcode : Opcode) (operand : Nat) (machine : Machine) :
    ∃ spent : Nat → Nat, (∀ index, spent index ≤ machine.heap.scopes.occupied)
      ∧ ∀ count, machine.heap.Tallied count →
        (final (step names opcode operand machine)).heap.Tallied fun index =>
          count index + spent index := by
  have bounded {after : Heap} (spends : Spends machine.heap after) :
      ∃ spent : Nat → Nat, (∀ index, spent index ≤ machine.heap.scopes.occupied)
        ∧ ∀ count, machine.heap.Tallied count → after.Tallied fun index =>
          count index + spent index := by
    obtain ⟨spent, less, tallies⟩ := spends
    exact ⟨spent, fun index => Nat.le_of_add_right_le (less index), tallies⟩
  by_cases leaves : opcode = .leaveLocal ∨ opcode = .return
  · obtain rfl | rfl := leaves
    · exact bounded ((editing_andNext (editing_leaveLocal trivial trivial)).spending machine)
    · exact bounded (spending_returnFromFrame _ machine)
  · have editing := editing_keeps names operand leaves fun _ => trivial
    exact ⟨fun _ => 0, fun _ => Nat.zero_le _, fun count tallied =>
      tallied.adds ((editing machine).adds id)⟩

end Action

end ScopeMachine
