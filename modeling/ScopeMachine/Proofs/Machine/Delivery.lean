import ScopeMachine.Proofs.Machine.Upkeep

set_option autoImplicit false

/-!
# Delivery

What the instructions that stay in a frame and make no copy do to the stack of a machine with a
guarded heap: they take public bindings and names from it and deliver public bindings and names.
-/

namespace ScopeMachine

open Heap

variable {α β : Type}

/-- What an instruction ends in: with entries of a shape over the rest of the stack, or in an excused
fault with nothing new on the stack. -/
def Delivered (lost : ScopeId → Prop) (copies : List BindingId) (before : Machine)
    (rest : List StackItem) (gives : Shape) : EStateM.Result Fault Machine α → Prop
  | .ok _ after => Went copies before after ∧ Furnished lost copies after
    ∧ ∃ made, after.stack = made ++ rest ∧ Fitting gives made
      ∧ ∀ {id}, .binding id ∈ made → after.heap.Public copies id
  | .error fault after => Went copies before after ∧ Furnished lost copies after
    ∧ after.stack <:+ before.stack ∧ Excused lost fault

/-- An instruction that delivers entries of a shape. -/
def Delivers (lost : ScopeId → Prop) (copies : List BindingId) (machine : Machine)
    (rest : List StackItem) (gives : Shape) (action : Action α) : Prop :=
  Delivered lost copies machine rest gives (action machine)

theorem Fitting.value {kinds : Shape} {items : List StackItem} (fits : Fitting (.value :: kinds) items) :
    ∃ id others, items = .binding id :: others ∧ Fitting kinds others := by
  match items with
  | [] => cases fits
  | .name _ :: _ => cases fits.1
  | .binding id :: others => exact ⟨id, others, rfl, fits.2⟩

theorem Fitting.name {kinds : Shape} {items : List StackItem} (fits : Fitting (.name :: kinds) items) :
    ∃ index others, items = .name index :: others ∧ Fitting kinds others := by
  match items with
  | [] => cases fits
  | .binding _ :: _ => cases fits.1
  | .name index :: others => exact ⟨index, others, rfl, fits.2⟩

theorem Fitting.nil {items : List StackItem} (fits : Fitting [] items) : items = [] := by
  cases items with
  | nil => rfl
  | cons => cases fits

theorem Fitting.one_value {items : List StackItem} (fits : Fitting [.value] items) :
    ∃ top, items = [.binding top] := by
  obtain ⟨top, others, rfl, none⟩ := fits.value
  exact ⟨top, by rw [none.nil]⟩

theorem Fitting.two_values {items : List StackItem} (fits : Fitting [.value, .value] items) :
    ∃ upper lower, items = [.binding upper, .binding lower] := by
  obtain ⟨upper, others, rfl, more⟩ := fits.value
  obtain ⟨lower, rfl⟩ := more.one_value
  exact ⟨upper, lower, rfl⟩

private theorem Fitting.one_name {items : List StackItem} (fits : Fitting [.name] items) :
    ∃ index, items = [.name index] := by
  obtain ⟨index, others, rfl, none⟩ := fits.name
  exact ⟨index, by rw [none.nil]⟩

private theorem Fitting.name_value {items : List StackItem} (fits : Fitting [.name, .value] items) :
    ∃ index target, items = [.name index, .binding target] := by
  obtain ⟨index, others, rfl, more⟩ := fits.name
  obtain ⟨target, rfl⟩ := more.one_value
  exact ⟨index, target, rfl⟩

section

variable {lost : ScopeId → Prop} {copies : List BindingId} {machine : Machine}
  {rest : List StackItem} {gives : Shape} {action : Action α} {next : α → Action β}

theorem Furnished.stack (furnished : Furnished lost copies machine) (stack : List StackItem) :
    Furnished lost copies { machine with stack } :=
  furnished.went (.of_heap (.refl copies machine.heap)) furnished.guarded

theorem Focused.stack (focused : Focused lost copies machine) (stack : List StackItem) :
    Focused lost copies { machine with stack } :=
  ⟨focused.caller, focused.receiver, focused.lastResult, focused.localScope⟩

/-- What is done with a shorter stack is done with the whole one. -/
theorem Delivered.of_suffix {stack : List StackItem} {result : EStateM.Result Fault Machine α}
    (suffix : stack <:+ machine.stack)
    (delivered : Delivered lost copies { machine with stack } rest gives result) :
    Delivered lost copies machine rest gives result := by
  have went : Went copies machine { machine with stack } := .of_heap (.refl copies machine.heap)
  cases result with
  | ok value after => exact ⟨went.trans delivered.1, delivered.2⟩
  | error fault after =>
    obtain ⟨later, furnished, shorter, excused⟩ := delivered
    exact ⟨went.trans later, furnished, shorter.trans suffix, excused⟩

theorem Action.popBinding_top {id : BindingId} {below : List StackItem}
    (stack : machine.stack = .binding id :: below) :
    Action.popBinding machine = .ok id { machine with stack := below } := by
  have top : Action.pop machine = .ok (.binding id) { machine with stack := below } := by
    simp [Action.pop, stack]
  rw [Action.popBinding, Action.bind_of_ok top]
  rfl

private theorem Action.popName_top {index : Nat} {below : List StackItem}
    (stack : machine.stack = .name index :: below) :
    Action.popName machine = .ok index { machine with stack := below } := by
  have top : Action.pop machine = .ok (.name index) { machine with stack := below } := by
    simp [Action.pop, stack]
  rw [Action.popName, Action.bind_of_ok top]
  rfl

namespace Delivers

theorem pop {id : BindingId} {below : List StackItem} (stack : machine.stack = .binding id :: below)
    {next : BindingId → Action β}
    (delivers : Delivers lost copies { machine with stack := below } rest gives (next id)) :
    Delivers lost copies machine rest gives (Action.popBinding >>= next) := by
  unfold Delivers at delivers ⊢
  rw [Action.bind_of_ok (Action.popBinding_top stack)]
  exact delivers.of_suffix (stack ▸ List.suffix_cons _ below)

theorem popName {index : Nat} {below : List StackItem} (stack : machine.stack = .name index :: below)
    {next : Nat → Action β}
    (delivers : Delivers lost copies { machine with stack := below } rest gives (next index)) :
    Delivers lost copies machine rest gives (Action.popName >>= next) := by
  unfold Delivers at delivers ⊢
  rw [Action.bind_of_ok (Action.popName_top stack)]
  exact delivers.of_suffix (stack ▸ List.suffix_cons _ below)

theorem read {value : α} (reads : action machine = .ok value machine)
    (delivers : Delivers lost copies machine rest gives (next value)) :
    Delivers lost copies machine rest gives (action >>= next) := by
  unfold Delivers
  rw [Action.bind_of_ok reads]
  exact delivers

theorem peek {id : BindingId} {below : List StackItem} (stack : machine.stack = .binding id :: below)
    {next : BindingId → Action β} (delivers : Delivers lost copies machine rest gives (next id)) :
    Delivers lost copies machine rest gives (Action.peekBinding >>= next) := by
  refine read ?_ delivers
  have top : Action.peek machine = .ok (.binding id) machine := by simp [Action.peek, stack]
  rw [Action.peekBinding, Action.bind_of_ok top]
  rfl

theorem throw (furnished : Furnished lost copies machine) {fault : Fault}
    (excused : Excused lost fault) :
    Delivers lost copies machine rest gives (MonadExcept.throw fault : Action α) :=
  ⟨.of_heap (.refl copies machine.heap), furnished, List.suffix_rfl, excused⟩

/-- The value of an instruction does not count. -/
theorem map (f : α → β) (delivers : Delivers lost copies machine rest gives action) :
    Delivers lost copies machine rest gives (action >>= fun value => pure (f value)) := by
  unfold Delivers at delivers ⊢
  cases result : action machine with
  | ok value after =>
    rw [result] at delivers
    rw [Action.bind_of_ok result]
    exact delivers
  | error fault after =>
    rw [result] at delivers
    rw [Action.bind_of_error result]
    exact delivers

end Delivers

namespace Works

variable {yields : α → Heap → Prop}

theorem bindDelivers (works : Works lost copies machine yields action)
    (delivers : ∀ value after, Keeps lost copies machine after → yields value after.heap →
      Delivers lost copies after rest gives (next value)) :
    Delivers lost copies machine rest gives (action >>= next) := by
  unfold Works at works
  unfold Delivers
  cases result : action machine with
  | error fault middle =>
    rw [result] at works
    rw [Action.bind_of_error result]
    obtain ⟨keeps, excused⟩ := works
    exact ⟨keeps.went, keeps.furnished, keeps.stack ▸ List.suffix_rfl, excused⟩
  | ok value middle =>
    rw [result] at works
    obtain ⟨keeps, yielded⟩ := works
    rw [Action.bind_of_ok result]
    have later := delivers value middle keeps yielded
    unfold Delivers at later
    cases followed : next value middle with
    | ok last after =>
      rw [followed] at later
      exact ⟨keeps.went.trans later.1, later.2⟩
    | error fault after =>
      rw [followed] at later
      obtain ⟨went, furnished, shorter, excused⟩ := later
      exact ⟨keeps.went.trans went, furnished, keeps.stack ▸ shorter, excused⟩

theorem delivers (works : Works lost copies machine yields action) {items : List StackItem}
    (stack : machine.stack = items ++ rest) (fits : Fitting gives items)
    (known : ∀ {id}, .binding id ∈ items → machine.heap.Public copies id) :
    Delivers lost copies machine rest gives action := by
  unfold Works at works
  unfold Delivers
  cases result : action machine with
  | error fault after =>
    rw [result] at works
    obtain ⟨keeps, excused⟩ := works
    exact ⟨keeps.went, keeps.furnished, keeps.stack ▸ List.suffix_rfl, excused⟩
  | ok value after =>
    rw [result] at works
    obtain ⟨keeps, -⟩ := works
    exact ⟨keeps.went, keeps.furnished, items, keeps.stack.trans stack, fits,
      fun member => keeps.public (known member)⟩

private theorem delivers_nil (works : Works lost copies machine yields action)
    (stack : machine.stack = rest) : Delivers lost copies machine rest [] action := by
  have items : machine.stack = [] ++ rest := stack
  exact works.delivers items trivial (by simp)

end Works

end

/-! ## Instructions -/

namespace Action

variable {lost : ScopeId → Prop} {copies : List BindingId} {machine : Machine}
  {rest : List StackItem} (furnished : Furnished lost copies machine)

include furnished

theorem delivers_push {id : BindingId} (stack : machine.stack = rest)
    (known : machine.heap.Public copies id) :
    Delivers lost copies machine rest [.value] (push id) := by
  refine ⟨.of_heap (.refl copies machine.heap), furnished.stack _, [.binding id],
    congrArg _ stack, ⟨trivial, trivial⟩, fun member => ?_⟩
  simp only [List.mem_singleton, StackItem.binding.injEq] at member
  exact member ▸ known

theorem delivers_recover (stack : machine.stack = rest) (trouble : Trouble) :
    Delivers lost copies machine rest [.value] (recover trouble) :=
  (works_report furnished trouble).bindDelivers fun _ _ keeps _ => .read rfl
    (delivers_push keeps.furnished (keeps.stack.trans stack) (keeps.furnished.roots .nothing))

private theorem delivers_pushResult (stack : machine.stack = rest) (result : Except OperatorError Payload) :
    Delivers lost copies machine rest [.value] (pushResult result) := by
  cases result with
  | ok payload =>
    exact (works_temporary furnished payload).bindDelivers fun _ _ keeps known =>
      delivers_push keeps.furnished (keeps.stack.trans stack) known
  | error error => exact delivers_recover furnished stack _

section

variable {upper lower : BindingId}
  (stack : machine.stack = .binding upper :: .binding lower :: rest)
  (first : machine.heap.Public copies upper) (second : machine.heap.Public copies lower)

include stack first second

/-- Both operands on the stack can be read. -/
theorem delivers_operands {gives : Shape} {next : Binding → Binding → Action Unit}
    (delivers : ∀ left right after, Furnished lost copies after → after.stack = rest →
      Delivers lost copies after rest gives (next left right)) :
    Delivers lost copies machine rest gives (popBinding >>= fun right => popBinding >>= fun left =>
      binding left >>= fun left => binding right >>= fun right => next left right) := by
  refine .pop stack (.pop rfl ?_)
  refine (works_binding (furnished.stack rest) second.live).bindDelivers fun left _ keeps _ => ?_
  refine (works_binding keeps.furnished (keeps.public first).live).bindDelivers
    fun right after again _ => ?_
  exact delivers left right after again.furnished (again.stack.trans keeps.stack)

private theorem delivers_binary (operator : Binding → Binding → Except OperatorError Payload) :
    Delivers lost copies machine rest [.value] (binary operator) :=
  delivers_operands furnished stack first second fun _ _ _ furnished stack =>
    delivers_pushResult furnished stack _

private theorem delivers_equality (wanted : Bool) :
    Delivers lost copies machine rest [.value] (equality wanted) :=
  delivers_operands furnished stack first second fun _ _ _ furnished stack =>
    (works_intern furnished _).bindDelivers fun _ _ keeps known =>
      delivers_push keeps.furnished (keeps.stack.trans stack) known

private theorem delivers_compare : Delivers lost copies machine rest [] compare := by
  refine delivers_operands furnished stack first second fun left right after furnished stack => ?_
  have sets (bits : UInt8) : Works lost copies after (fun _ _ => True)
      (setRegisters fun registers => { registers with comparison := bits }) := by
    have went : Went copies after { after with
        registers := { after.registers with comparison := bits } } :=
      ⟨⟨bits, after.registers.lastResult, _, _, _, _, _, .refl copies after.heap, rfl⟩, .inl, .inl⟩
    exact ⟨⟨went, furnished.went went furnished.guarded, rfl⟩, trivial⟩
  dsimp only
  split
  · exact (sets _).delivers_nil stack
  · exact (sets _).delivers_nil stack
  · exact (sets _).bindDelivers fun _ _ keeps _ =>
      (works_report keeps.furnished _).delivers_nil (keeps.stack.trans stack)

private theorem delivers_assign : Delivers lost copies machine rest [.value] assign := by
  refine .pop stack (.pop rfl ?_)
  refine (works_binding (furnished.stack rest) second.live).bindDelivers
    fun current middle keeps _ => ?_
  split
  · exact delivers_recover keeps.furnished keeps.stack _
  · refine (works_binding keeps.furnished (keeps.public first).live).bindDelivers
      fun source last again there => ?_
    have later := keeps.trans again
    have common : ∀ (binding : Binding) scope, last.heap.bindings.get? lower = some binding →
        (binding.assign source).scope = some scope → last.heap.Common lost copies scope :=
      fun _ scope _ refers => later.furnished.guarded.common ⟨source, there, refers⟩ first.other
    exact (works_updateBinding later.furnished (later.public second) common).bindDelivers
      fun _ _ more _ => delivers_push more.furnished (more.stack.trans later.stack)
        ((later.trans more).public second)

private theorem delivers_arrayIndex : Delivers lost copies machine rest [.value] arrayIndex := by
  refine .pop stack (.pop rfl ?_)
  refine (works_binding (furnished.stack rest) first.live).bindDelivers
    fun position middle keeps _ => ?_
  split
  · refine (works_binding keeps.furnished (keeps.public second).live).bindDelivers
      fun array third again there => ?_
    replace keeps := keeps.trans again
    refine (works_readSize keeps.furnished (keeps.public second) there).bindDelivers
      fun found fourth again common => ?_
    obtain ⟨scope, size⟩ := found
    replace keeps := keeps.trans again
    dsimp only
    split
    · exact .throw keeps.furnished fun same => by cases same
    · refine (works_findImmediate keeps.furnished common.reachable _).bindDelivers
        fun element last again known => ?_
      replace keeps := keeps.trans again
      split
      · exact delivers_push keeps.furnished keeps.stack (known _ rfl)
      · exact delivers_recover keeps.furnished keeps.stack _
  · exact .throw keeps.furnished fun same => by cases same

end

section

variable {top : BindingId} (stack : machine.stack = .binding top :: rest)
  (known : machine.heap.Public copies top)

include stack known

private theorem delivers_negate : Delivers lost copies machine rest [.value] negate := by
  refine .pop stack ?_
  exact (works_binding (furnished.stack rest) known.live).bindDelivers fun _ _ keeps _ =>
    delivers_pushResult keeps.furnished keeps.stack _

private theorem delivers_branch (operand : Nat) :
    Delivers lost copies machine rest [] (popBinding >>= fun condition => truthy condition >>=
      fun truth => pure (if truth then Transfer.next else .goto operand)) := by
  refine .pop stack (.map _ ?_)
  exact (works_truthy (furnished.stack rest) known).delivers_nil rfl

private theorem delivers_endStatement :
    Delivers lost copies machine rest [] (popBinding >>= fun result =>
      setRegisters fun registers => { registers with lastResult := some result }) := by
  refine .pop stack ?_
  have went : Went copies { machine with stack := rest } { machine with
      stack := rest, registers := { machine.registers with lastResult := some top } } := by
    refine ⟨⟨machine.registers.comparison, some top, _, _, _, _, _, .refl copies machine.heap, rfl⟩,
      .inl, fun last => ?_⟩
    cases last
    exact .inr known
  exact ⟨went, (furnished.stack rest).went went furnished.guarded, [], rfl, trivial, by simp⟩

omit furnished in
private theorem delivers_peek {action : BindingId → Action α} {yields : α → Heap → Prop}
    (works : Works lost copies machine yields (action top)) :
    Delivers lost copies machine rest [.value] (peekBinding >>= action) := by
  have items : machine.stack = [StackItem.binding top] ++ rest := stack
  refine .peek stack (works.delivers items ⟨trivial, trivial⟩ fun member => ?_)
  simp only [List.mem_singleton, StackItem.binding.injEq] at member
  exact member ▸ known

private theorem delivers_bindSection (body : Nat) :
    Delivers lost copies machine rest [.value]
      (peekBinding >>= fun id => updateBinding id fun binding => { binding with body }) := by
  refine delivers_peek stack known (works_updateBinding furnished known ?_)
  intro binding scope there refers
  exact furnished.guarded.common ⟨binding, there, refers⟩ known.other

private theorem delivers_dereference :
    Delivers lost copies machine rest [.value]
      (peekBinding >>= fun id => binding id >>= fun _ => pure ()) := by
  have works : Works lost copies machine (fun _ _ => True) (binding top >>= fun _ => pure ()) :=
    (works_binding furnished known.live).bind fun _ _ keeps _ => .pure keeps.furnished trivial
  exact delivers_peek stack known works

private theorem delivers_print : Delivers lost copies machine rest [.value] print := by
  have works : Works lost copies machine (fun _ _ => True) (binding top >>= fun value machine =>
      .ok () (machine.withConsole fun console => ((), console.writeLine value.display)).2) :=
    (works_binding furnished known.live).bind fun _ after keeps _ =>
      ⟨.of_heap keeps.furnished (.refl copies after.heap) keeps.furnished.guarded, trivial⟩
  exact delivers_peek stack known works

private theorem delivers_duplicate :
    Delivers lost copies machine rest [.value, .value] (peek >>= pushItem) := by
  have top_ : peek machine = .ok (.binding top) machine := by simp [peek, stack]
  refine .read top_ ⟨.of_heap (.refl copies machine.heap), furnished.stack _,
    [.binding top, .binding top], congrArg _ stack, ⟨trivial, trivial, trivial⟩, fun member => ?_⟩
  simp only [List.mem_cons, StackItem.binding.injEq, List.not_mem_nil, or_false, or_self] at member
  exact member ▸ known

end

private theorem delivers_loadComparisonBit (stack : machine.stack = rest) (operand : Nat) :
    Delivers lost copies machine rest [.value] (loadComparisonBit operand) := by
  unfold loadComparisonBit
  split
  · exact .throw furnished fun same => by cases same
  · exact .read rfl ((works_intern furnished _).bindDelivers fun _ _ keeps known =>
      delivers_push keeps.furnished (keeps.stack.trans stack) known)

private theorem delivers_readLine (stack : machine.stack = rest) :
    Delivers lost copies machine rest [.value] readLine := by
  refine Works.bindDelivers (?_ : Works lost copies machine (fun _ _ => True) _)
    fun line after keeps _ => ?_
  · simp only [Works, Machine.withConsole]
    obtain ⟨line, console⟩ := machine.console.readLine
    have keeps : Keeps lost copies machine { machine with console } :=
      .of_heap furnished (.refl copies machine.heap) furnished.guarded
    cases line with
    | some line => exact ⟨keeps, trivial⟩
    | none => exact ⟨keeps, fun same => by cases same⟩
  · have plain : ∀ scope, (Binding.ofPayload (.text line)).scope = some scope →
        after.heap.Common lost copies scope := fun scope refers => by cases refers
    exact (works_adopt keeps.furnished plain).bindDelivers fun _ _ again known =>
      delivers_push again.furnished (again.stack.trans (keeps.stack.trans stack)) known

private theorem delivers_loadLiteral (stack : machine.stack = rest) (operand : Nat) :
    Delivers lost copies machine rest [.value] (MonadState.get >>= fun machine : Machine =>
      match machine.constants[operand]? with
      | some id => push id
      | none => throw (.unknownConstant operand)) := by
  refine .read rfl ?_
  split
  · next id held =>
    exact delivers_push furnished stack (furnished.roots (.constant (Array.mem_of_getElem? held)))
  · exact .throw furnished fun same => by cases same

/-! ### Names -/

private theorem works_poolName (names : NamePool) (index : Nat) :
    Works lost copies machine (fun _ _ => True) (poolName names index) := by
  unfold poolName
  split
  · exact .pure furnished trivial
  · exact .throw furnished fun same => by cases same

private theorem delivers_resolveTop (focused : Focused lost copies machine) (names : NamePool) {index : Nat}
    (stack : machine.stack = .name index :: rest) :
    Delivers lost copies machine rest [.value] (resolveTop names) := by
  refine .popName stack ((works_poolName (furnished.stack rest) names index).bindDelivers
    fun name middle keeps _ => ?_)
  exact (works_resolveDirect keeps.furnished ((focused.stack rest).went keeps.went) name).bindDelivers
    fun _ _ again known => delivers_push again.furnished (again.stack.trans keeps.stack) known

private theorem delivers_resolveMember (names : NamePool) {index : Nat} {target : BindingId}
    (stack : machine.stack = .name index :: .binding target :: rest)
    (known : machine.heap.Public copies target) :
    Delivers lost copies machine rest [.value] (resolveMember names) := by
  refine .popName stack ((works_poolName (furnished.stack _) names index).bindDelivers
    fun name middle keeps _ => .pop keeps.stack ?_)
  have held := keeps.public known
  refine (works_resolveScoped (keeps.furnished.stack rest) held name).bindDelivers
    fun found last again found_ => ?_
  split
  · exact delivers_push again.furnished again.stack (found_ _ rfl)
  · exact (works_binding again.furnished (again.public held).live).bindDelivers fun _ _ more _ =>
      delivers_recover more.furnished (more.stack.trans again.stack) _

omit furnished in
/-- The names of parameters are taken from the stack, and nothing else happens. -/
theorem popParameters_reads (names : NamePool) {count : Nat} {items : List StackItem}
    (stack : machine.stack = items ++ rest) (fits : Fitting (List.replicate count .name) items)
    (parameters : List String) :
    (∃ index stack, popParameters names count parameters machine
        = .error (.unknownName index) { machine with stack } ∧ stack <:+ machine.stack)
      ∨ ∃ taken, popParameters names count parameters machine
        = .ok taken { machine with stack := rest } := by
  induction count generalizing machine items parameters with
  | zero =>
    cases fits.nil
    have same : { machine with stack := rest } = machine := by
      rw [← stack.trans (List.nil_append rest)]
    exact .inr ⟨parameters, by rw [same]; rfl⟩
  | succ count ih =>
    obtain ⟨index, others, rfl, fewer⟩ := Fitting.name fits
    have pops : popName machine = .ok index { machine with stack := others ++ rest } :=
      popName_top stack
    have shorter : others ++ rest <:+ machine.stack := stack ▸ List.suffix_cons _ _
    rw [popParameters, bind_of_ok pops]
    cases known : names.get? index with
    | none =>
      have fails : poolName names index { machine with stack := others ++ rest }
          = .error (.unknownName index) { machine with stack := others ++ rest } := by
        simp only [poolName, known]
        rfl
      exact .inl ⟨index, others ++ rest, bind_of_error fails, shorter⟩
    | some name =>
      have reads : poolName names index { machine with stack := others ++ rest }
          = .ok name { machine with stack := others ++ rest } := by
        simp only [poolName, known]
        rfl
      rw [bind_of_ok reads]
      obtain ⟨missing, left, fails, suffix⟩ | taken :=
        @ih { machine with stack := others ++ rest } others rfl fewer (name :: parameters)
      · exact .inl ⟨missing, left, fails, suffix.trans shorter⟩
      · exact .inr taken

/-- A new method refers to a scope of its own, which is not among the lost ones if these are gone
for good. -/
theorem delivers_defineMethod (names : NamePool) {count : Nat} {items : List StackItem}
    (stack : machine.stack = items ++ rest) (fits : Fitting (List.replicate count .name) items)
    (gone : ∀ {scope}, lost scope →
      ¬ (final (defineMethod names count machine)).heap.LiveScope scope) :
    Delivers lost copies machine rest [.value] (defineMethod names count) := by
  unfold Delivers
  obtain ⟨index, left, fails, suffix⟩ | ⟨parameters, taken⟩ := popParameters_reads names stack fits []
  · rw [defineMethod, bind_of_error fails]
    exact ⟨.of_heap (.refl copies machine.heap), furnished.stack left, suffix,
      fun same => by cases same⟩
  · let scope : Scope := { parameters, durable := true }
    let own := (machine.heap.allocateScope scope).1
    let middle := (machine.heap.allocateScope scope).2
    let method : Binding := { tag := .method, scope := some own }
    have defines : defineMethod names count machine
        = .ok () { machine with
          heap := (middle.allocate method).2
          stack := .binding (middle.allocate method).1 :: rest } := by
      rw [defineMethod, bind_of_ok taken]
      rfl
    have lasting : middle.Lasting own := lasting_allocateScope rfl rfl
    have new : ¬ lost own := fun held => gone held (by rw [defines]; exact lasting.liveScope)
    have guarded : Guarded lost copies middle := furnished.guarded.allocateScope rfl new
    have common : ∀ other, method.scope = some other → middle.Common lost copies other := by
      intro other refers
      cases refers
      exact ⟨.inl lasting, fun copy _ => furnished.guarded.unused_allocateScope new copy⟩
    have grows : Grows copies machine.heap (middle.allocate method).2 :=
      (grows_allocateScope rfl).trans (guarded.grows_allocate method)
    rw [defines]
    refine ⟨.of_heap grows, furnished.went (.of_heap grows) (guarded.allocate common),
      [.binding (middle.allocate method).1], rfl, ⟨trivial, trivial⟩, fun member => ?_⟩
    simp only [List.mem_singleton, StackItem.binding.injEq] at member
    subst member
    exact guarded.public_of_fresh (guarded.fresh_allocate method)

/-! ### All of them -/

/-- Every instruction that stays in its frame and makes no copy delivers what it gives. -/
theorem delivers_step (focused : Focused lost copies machine) {pools : Pools} {limit : Nat}
    {bodies : List Nat} {command : Command} (legal : Assembly.Legal pools limit bodies command)
    (copy : command.opcode ≠ .copy) (evaluate : command.opcode ≠ .evaluate)
    (returns : command.opcode ≠ .return) (enter : command.opcode ≠ .enterLocal)
    (leave : command.opcode ≠ .leaveLocal) {items : List StackItem}
    (stack : machine.stack = items ++ rest) (fits : Fitting command.takes items)
    (known : ∀ {id}, .binding id ∈ items → machine.heap.Public copies id)
    (gone : ∀ {scope}, lost scope →
      ¬ (final (step pools.names command.opcode command.operand machine)).heap.LiveScope scope) :
    Delivers lost copies machine rest command.gives
      (step pools.names command.opcode command.operand) := by
  have next {action : Action Unit} {gives : Shape}
      (delivers : Delivers lost copies machine rest gives action) :
      Delivers lost copies machine rest gives (Action.andNext action) :=
    Delivers.map (fun _ => Transfer.next) delivers
  obtain ⟨opcode, operand⟩ := command
  cases opcode with
  | copy => contradiction
  | evaluate => contradiction
  | «return» => contradiction
  | enterLocal => contradiction
  | leaveLocal => contradiction
  | loadName =>
    cases fits.nil
    refine next ?_
    split
    · exact ⟨.of_heap (.refl copies machine.heap), furnished.stack _, [.name operand],
        congrArg _ stack, ⟨trivial, trivial⟩, by simp⟩
    · exact .throw furnished fun same => by cases same
  | loadLiteral =>
    cases fits.nil
    exact next (delivers_loadLiteral furnished stack operand)
  | add | subtract | multiply | divide | and | or =>
    obtain ⟨upper, lower, rfl⟩ := fits.two_values
    exact next (delivers_binary furnished stack (known (by simp)) (known (by simp)) _)
  | notEqual =>
    obtain ⟨upper, lower, rfl⟩ := fits.two_values
    exact next (delivers_equality furnished stack (known (by simp)) (known (by simp)) _)
  | compare =>
    obtain ⟨upper, lower, rfl⟩ := fits.two_values
    exact next (delivers_compare furnished stack (known (by simp)) (known (by simp)))
  | assign =>
    obtain ⟨upper, lower, rfl⟩ := fits.two_values
    exact next (delivers_assign furnished stack (known (by simp)) (known (by simp)))
  | arrayIndex =>
    obtain ⟨upper, lower, rfl⟩ := fits.two_values
    exact next (delivers_arrayIndex furnished stack (known (by simp)) (known (by simp)))
  | not =>
    obtain ⟨top, rfl⟩ := fits.one_value
    exact next (delivers_negate furnished stack (known (by simp)))
  | loadComparisonBit =>
    cases fits.nil
    exact next (delivers_loadComparisonBit furnished stack operand)
  | jumpIfFalse =>
    obtain ⟨top, rfl⟩ := fits.one_value
    exact delivers_branch furnished stack (known (by simp)) operand
  | jump | nop =>
    cases fits.nil
    exact (Works.pure furnished trivial : Works lost copies machine (fun _ _ => True) _).delivers_nil
      stack
  | resolveDirect =>
    obtain ⟨index, rfl⟩ := fits.one_name
    exact next (delivers_resolveTop furnished focused pools.names stack)
  | resolveScoped =>
    obtain ⟨index, target, rfl⟩ := fits.name_value
    exact next (delivers_resolveMember furnished pools.names stack (known (by simp)))
  | defineMethod =>
    refine next (delivers_defineMethod furnished pools.names stack fits fun held => ?_)
    have same : final (step pools.names .defineMethod operand machine)
        = final (defineMethod pools.names operand machine) := by
      simp only [step, andNext]
      cases result : defineMethod pools.names operand machine with
      | ok value after => rw [bind_of_ok result]; rfl
      | error fault after => rw [bind_of_error result]; rfl
    rw [← same]
    exact gone held
  | bindSection =>
    obtain ⟨top, rfl⟩ := fits.one_value
    exact next (delivers_bindSection furnished stack (known (by simp)) operand)
  | syscall =>
    rcases operand with _ | _ | _
    · obtain ⟨top, rfl⟩ := fits.one_value
      exact next (delivers_print furnished stack (known (by simp)))
    · cases fits.nil
      exact next (delivers_readLine furnished stack)
    · simp [Assembly.Legal, Command.Straight, Syscall.ofOperand?] at legal
  | duplicate =>
    obtain ⟨top, rfl⟩ := fits.one_value
    exact next (delivers_duplicate furnished stack (known (by simp)))
  | endStatement =>
    obtain ⟨top, rfl⟩ := fits.one_value
    exact next (delivers_endStatement furnished stack (known (by simp)))
  | dereference =>
    obtain ⟨top, rfl⟩ := fits.one_value
    exact next (delivers_dereference furnished stack (known (by simp)))
  | equal | jumpIfNull | bindType | evaluateInPlace | swap | dropTop | extendArgument => cases legal

end Action

end ScopeMachine
