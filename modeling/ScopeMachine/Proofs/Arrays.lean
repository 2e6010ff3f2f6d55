import ScopeMachine.Program.Construct
import ScopeMachine.Proofs.RunsInOrder
import ScopeMachine.Proofs.Store.Lookup

set_option autoImplicit false

/-!
# Arrays

What a call makes of an array, and what an index finds in it. The elements and the size are declared
behind what the scope has already, and a search finds the first binding with a name. So the array has
the size that it was given if its scope had neither a size nor elements before; otherwise the old ones
stay in front of the new ones.
-/

namespace ScopeMachine

open Assembly Heap

/-! ## Filling -/

namespace Action

/-- The element of an array at an index, before anything is assigned to it. -/
def emptyElement (index : Nat) : Binding :=
  .unassigned (toString index)

def sizeAttribute (size : Int64) : Binding :=
  { Binding.ofPayload (.integer size) with name := some Machine.sizeName }

variable {machine : Machine} {scope : ScopeId}

private theorem declare_ok (live : machine.heap.LiveScope scope) (value : Binding) :
    declare scope value machine = .ok (machine.heap.allocate value).1
      { machine with heap := machine.heap.declared scope value } :=
  attempt_of_ok (declare_of_live live value)

private theorem declareElements_declares (live : machine.heap.LiveScope scope) (count index : Nat) :
    ∃ made heap, declareElements scope count index machine = .ok () { machine with heap }
      ∧ Declares scope made machine.heap heap
      ∧ made.map Prod.snd = (List.range' index count).map emptyElement := by
  induction count generalizing machine index with
  | zero => exact ⟨[], machine.heap, rfl, declares_nil live, rfl⟩
  | succ count ih =>
    let declared := machine.heap.declared scope (emptyElement index)
    have first := declares_declared live (emptyElement index)
    obtain ⟨made, heap, fills, later, names⟩ :=
      @ih { machine with heap := declared } (liveScope_adopt.mpr live) (index + 1)
    exact ⟨_ :: made, heap, (bind_of_ok (declare_ok live _)).trans fills, first.trans later,
      by simp [names, List.range'_succ]⟩

private theorem constructArray_declares {array argument : BindingId} {target value : Binding} {size : Int64}
    (live : machine.heap.LiveScope scope) (there : machine.heap.bindings.get? array = some target)
    (refers : target.scope = some scope) (given : machine.heap.bindings.get? argument = some value)
    (whole : value.payload = .integer size) (least : 0 ≤ size) :
    ∃ elements last heap, constructArray array [argument] machine
        = .ok () { machine with heap, stack := .binding array :: machine.stack }
      ∧ Declares scope (elements ++ [(last, sizeAttribute size)]) machine.heap heap
      ∧ elements.map Prod.snd = (List.range size.toInt.toNat).map emptyElement := by
  have sized : arraySize [argument] machine = .ok (some size) machine := by
    rw [arraySize, bind_of_ok (binding_of_get? given), whole]
    simp [Payload.integer?, least, pure, EStateM.pure]
  have found : elementScope array machine = .ok scope machine := by
    rw [elementScope, bind_of_ok (binding_of_get? there), refers]
    rfl
  obtain ⟨elements, heap, fills, first, names⟩ := declareElements_declares live size.toInt.toNat 0
  have still : heap.LiveScope scope := by
    obtain ⟨before, -, larger⟩ := first.own
    exact ⟨_, larger⟩
  have second := declares_declared still (sizeAttribute size)
  refine ⟨elements, _, _, ?_, first.trans second, by rw [names, List.range_eq_range']⟩
  unfold constructArray
  rw [bind_of_ok sized]
  dsimp only
  rw [bind_of_ok found, bind_of_ok fills]
  have declared : declare scope (sizeAttribute size) { machine with heap } = _ := declare_ok still _
  exact bind_of_ok declared

end Action

/-! ## What an array holds -/

/-- A scope has the attributes of an array: a size, and an element for each smaller number. -/
structure Heap.HoldsArray (heap : Heap) (scope : ScopeId) (size : Int64)
    (elements : List BindingId) : Prop where
  sized : ∃ id value, heap.findImmediate scope Machine.sizeName = .ok (some id)
    ∧ heap.bindings.get? id = some value ∧ value.payload = .integer size
  count : elements.length = size.toInt.toNat
  once : elements.Nodup
  element : ∀ (index : Nat) id, elements[index]? = some id →
    heap.findImmediate scope (toString index) = .ok (some id)

/-- A name that a new array gives to a binding: that of its size, or of an element. -/
def IsArrayName (count : Nat) (name : String) : Prop :=
  name = Machine.sizeName ∨ ∃ index < count, name = toString index

private theorem sizeName_ne_toString (index : Nat) : Machine.sizeName ≠ toString index := by
  intro same
  have number : Machine.sizeName.toNat? = some index := same ▸ Nat.toNat?_repr index
  have none : Machine.sizeName.toNat? = none := by cbv
  exact absurd (number.symm.trans none) (by simp)

section

variable {elements : List (BindingId × Binding)} {last : BindingId} {size : Int64} {count : Nat}

private theorem getElem_elements
    (names : elements.map Prod.snd = (List.range count).map Action.emptyElement) {index : Nat}
    (inside : index < elements.length) : elements[index].2 = Action.emptyElement index := by
  have same := congrArg (·[index]?) names
  have length := congrArg List.length names
  simp only [List.length_map, List.length_range] at length
  simpa [inside, length ▸ inside] using same

private theorem find?_element (names : elements.map Prod.snd = (List.range count).map Action.emptyElement)
    {index : Nat} (inside : index < elements.length) (others : List (BindingId × Binding)) :
    (elements ++ others).find? (fun entry => entry.2.name = some (toString index))
      = some elements[index] := by
  rw [List.find?_append]
  have found : elements.find? (fun entry => entry.2.name = some (toString index))
      = some elements[index] := by
    refine List.find?_eq_some_iff_getElem.mpr ⟨?_, index, inside, rfl, fun earlier less => ?_⟩
    · rw [getElem_elements names inside]
      simp [Action.emptyElement, Binding.unassigned]
    · rw [getElem_elements names (Nat.lt_trans less inside)]
      simpa [Action.emptyElement, Binding.unassigned] using
        fun same => Nat.ne_of_lt less (Nat.repr_inj.mp same)
  rw [found, Option.some_or]

private theorem find?_size (names : elements.map Prod.snd = (List.range count).map Action.emptyElement) :
    (elements ++ [(last, Action.sizeAttribute size)]).find?
        (fun entry => entry.2.name = some Machine.sizeName)
      = some (last, Action.sizeAttribute size) := by
  have none : elements.find? (fun entry => entry.2.name = some Machine.sizeName) = none := by
    refine List.find?_eq_none.mpr fun entry member => ?_
    obtain ⟨index, inside, rfl⟩ := List.getElem_of_mem member
    rw [getElem_elements names inside]
    simpa [Action.emptyElement, Binding.unassigned] using
      fun same => sizeName_ne_toString index same.symm
  rw [List.find?_append, none, Option.none_or]
  simp [Action.sizeAttribute]

private theorem Heap.Declares.holdsArray {scope : ScopeId} {before after : Heap}
    (declares : Declares scope (elements ++ [(last, Action.sizeAttribute size)]) before after)
    (names : elements.map Prod.snd = (List.range size.toInt.toNat).map Action.emptyElement)
    (live : ∀ id, before.Owns scope id → before.Live id)
    (free : ∀ name, IsArrayName size.toInt.toNat name → before.first scope name = none) :
    after.HoldsArray scope size (elements.map Prod.fst)
      ∧ ∀ index id, (elements.map Prod.fst)[index]? = some id →
        after.bindings.get? id = some (Action.emptyElement index) := by
  obtain ⟨found, -, there⟩ := declares.own
  have length : elements.length = size.toInt.toNat := by simpa using congrArg List.length names
  have search (name : String) (new : IsArrayName size.toInt.toNat name) :
      after.findImmediate scope name = .ok (((elements ++ [(last, Action.sizeAttribute size)]).find?
        fun entry => entry.2.name = some name).map Prod.fst) := by
    rw [findImmediate_eq there (declares.own_live live), declares.first_eq live, free name new,
      Option.none_or]
  refine ⟨⟨⟨last, Action.sizeAttribute size, ?_, declares.holds (last, Action.sizeAttribute size) (by simp), rfl⟩, ?_, ?_, ?_⟩,
    ?_⟩
  · rw [search _ (.inl rfl), find?_size names, Option.map_some]
  · rw [List.length_map, length]
  · have once := declares.once
    rw [List.map_append] at once
    exact once.of_append_left
  · intro index id found
    obtain ⟨entry, at_, rfl⟩ : ∃ entry, elements[index]? = some entry ∧ entry.1 = id := by
      simpa using found
    obtain ⟨inside, rfl⟩ := List.getElem?_eq_some_iff.mp at_
    rw [search _ (.inr ⟨index, length ▸ inside, rfl⟩), find?_element names inside, Option.map_some]
  · intro index id found
    obtain ⟨entry, at_, rfl⟩ : ∃ entry, elements[index]? = some entry ∧ entry.1 = id := by
      simpa using found
    obtain ⟨inside, rfl⟩ := List.getElem?_eq_some_iff.mp at_
    rw [declares.holds _ (List.mem_append_left _ (List.getElem_mem inside)),
      getElem_elements names inside]

end

/-! ## Indexing -/

section

variable {heap : Heap} {scope : ScopeId} {size : Int64} {elements : List BindingId}

/-- An array is the same as long as its scope and what it owns are. -/
theorem Heap.HoldsArray.untouched {after : Heap} (holds : heap.HoldsArray scope size elements)
    (same : Untouched scope heap after) : after.HoldsArray scope size elements := by
  obtain ⟨⟨id, value, found, there, whole⟩, count, once, element⟩ := holds
  refine ⟨⟨id, value, same.findImmediate ▸ found, ?_, whole⟩, count, once,
    fun index id at_ => same.findImmediate ▸ element index id at_⟩
  rw [same.own id (findImmediate_owns found), there]

theorem Heap.HoldsArray.arrayIndex {machine : Machine} (holds : machine.heap.HoldsArray scope size elements)
    {position array : BindingId} {rest : List StackItem} {value target : Binding} {index : Int64}
    (stack : machine.stack = .binding position :: .binding array :: rest)
    (given : machine.heap.bindings.get? position = some value) (whole : value.payload = .integer index)
    (there : machine.heap.bindings.get? array = some target) (refers : target.scope = some scope) :
    if 0 ≤ index ∧ index < size then
      ∃ element, elements[index.toInt.toNat]? = some element
        ∧ Action.arrayIndex machine = .ok () { machine with stack := .binding element :: rest }
    else Action.arrayIndex machine
      = .error (.indexOutOfBounds target.label index size) { machine with stack := rest } := by
  obtain ⟨id, held, found, reads, sized⟩ := holds.sized
  have size_read : Action.readSize target { machine with stack := rest }
      = .ok (scope, size) { machine with stack := rest } := by
    have finds : Action.findImmediate scope Machine.sizeName { machine with stack := rest }
        = .ok (some id) { machine with stack := rest } := by
      simp [Action.findImmediate, Action.inspect, found]
    have held_there : Action.binding id { machine with stack := rest }
        = .ok held { machine with stack := rest } := Action.binding_of_get? reads
    unfold Action.readSize
    rw [refers]
    dsimp only
    rw [Action.bind_of_ok finds]
    dsimp only
    rw [Action.bind_of_ok held_there, sized]
    rfl
  have unfolds : Action.arrayIndex machine
      = (if index < 0 ∨ size ≤ index then throw (.indexOutOfBounds target.label index size)
        else Action.findImmediate scope (toString index.toInt) >>= fun found =>
          found.elim (Action.recover (.noElement target.label index)) Action.push)
            { machine with stack := rest } := by
    have pops : Action.popBinding machine
        = .ok position { machine with stack := .binding array :: rest } := Action.popBinding_top stack
    have next : Action.popBinding { machine with stack := .binding array :: rest }
        = .ok array { machine with stack := rest } := Action.popBinding_top rfl
    have reads : Action.binding position { machine with stack := rest }
        = .ok value { machine with stack := rest } := Action.binding_of_get? given
    have again : Action.binding array { machine with stack := rest }
        = .ok target { machine with stack := rest } := Action.binding_of_get? there
    unfold Action.arrayIndex
    rw [Action.bind_of_ok pops, Action.bind_of_ok next, Action.bind_of_ok reads, whole]
    dsimp only
    rw [Action.bind_of_ok again]
    refine (Action.bind_of_ok size_read).trans ?_
    split
    · rfl
    · refine congrArg (fun next => (Action.findImmediate scope (toString index.toInt) >>= next) _) ?_
      funext found
      cases found <;> rfl
  rw [unfolds]
  split
  · next inside =>
    have bounds : ¬ (index < 0 ∨ size ≤ index) := by
      rw [not_or, Int64.not_lt, Int64.not_le]
      exact inside
    have least : 0 ≤ index.toInt := Int64.le_iff_toInt_le.mp inside.1
    have below : index.toInt < size.toInt := Int64.lt_iff_toInt_lt.mp inside.2
    have within : index.toInt.toNat < elements.length := by
      rw [holds.count]
      omega
    have named : toString index.toInt = toString index.toInt.toNat := by
      obtain ⟨number, same⟩ := Int.eq_ofNat_of_zero_le least
      rw [same]
      rfl
    have finds : Action.findImmediate scope (toString index.toInt) { machine with stack := rest }
        = .ok (some elements[index.toInt.toNat]) { machine with stack := rest } := by
      have element := holds.element _ _ (List.getElem?_eq_getElem within)
      rw [← named] at element
      simp only [Action.findImmediate, Action.inspect, element]
    refine ⟨_, List.getElem?_eq_getElem within, ?_⟩
    rw [if_neg bounds, Action.bind_of_ok finds]
    rfl
  · next outside =>
    have bounds : index < 0 ∨ size ≤ index := by
      obtain below | above := not_and_or.mp outside
      · exact .inl (Int64.not_le.mp below)
      · exact .inr (Int64.not_lt.mp above)
    rw [if_pos bounds]
    rfl

end

/-! ## Runs -/

/-- A machine is about to call an array with a size. -/
structure Machine.ConstructsArray (machine : Machine) (compiled : Compiled) (array : BindingId)
    (target : Binding) (size : Int64) (rest : List StackItem) : Prop where
  next : machine.nextOpcode? compiled = some .evaluate
  operand : machine.nextOperand? compiled = some 1
  stack : ∃ argument caller value, machine.stack
      = .binding argument :: .binding array :: .binding caller :: rest
    ∧ machine.heap.bindings.get? argument = some value ∧ value.payload = .integer size
  least : 0 ≤ size
  array : machine.heap.bindings.get? array = some target
  tag : target.tag = .array

/-- If a machine is about to index an array with a scope, it goes on with the element at the index and
reports nothing, or a fault tells the index and the size. -/
def Machine.IndexesArray (machine : Machine) (compiled : Compiled) (scope : ScopeId) (size : Int64)
    (elements : List BindingId) : Prop :=
  ∀ {position array rest value target index}, machine.nextOpcode? compiled = some .arrayIndex →
    machine.stack = .binding position :: .binding array :: rest →
    machine.heap.bindings.get? position = some value → value.payload = .integer index →
    machine.heap.bindings.get? array = some target → target.scope = some scope →
    if 0 ≤ index ∧ index < size then
      ∃ element after, elements[index.toInt.toNat]? = some element
        ∧ machine.advance compiled = .running after ∧ after.stack = .binding element :: rest
        ∧ after.heap = machine.heap ∧ after.reports = machine.reports
    else ∃ line after, machine.advance compiled
      = .failed line (.indexOutOfBounds target.label index size) after

private theorem Heap.HoldsArray.indexes {machine : Machine} {compiled : Compiled} {scope : ScopeId}
    {size : Int64} {elements : List BindingId}
    (holds : machine.heap.HoldsArray scope size elements) :
    machine.IndexesArray compiled scope size elements := by
  intro position array rest value target index next stack given whole there refers
  obtain ⟨instruction, found, opcode⟩ : ∃ instruction,
      compiled.code.instructions[machine.registers.ip]? = some instruction
        ∧ instruction.opcode = .arrayIndex := by
    simpa [Machine.nextOpcode?] using next
  have fetched : (machine.fetch compiled.code).heap.HoldsArray scope size elements := holds
  have indexing := fetched.arrayIndex stack given whole there refers
  unfold Machine.advance
  simp only [found, opcode, Action.step, Action.andNext]
  split
  · next inside =>
    rw [if_pos inside] at indexing
    obtain ⟨element, at_, result⟩ := indexing
    rw [Action.bind_of_ok result]
    exact ⟨element, _, at_, rfl, rfl, rfl, rfl⟩
  · next outside =>
    rw [if_neg outside] at indexing
    rw [Action.bind_of_error indexing]
    exact ⟨_, _, rfl⟩

section

variable {program : Program} {compiled : Compiled}

/-- In a run in which no stranded scope comes alive again, a call of an array with a size declares
elements and the size in the scope of the copy that was called, and pushes the copy. A name leads to
what had it in the scope before the call, or else to the first new binding with this name. So if the
scope had none of the names of the new bindings, then as long as it is left alone, the array has the
size and that many elements, unassigned at first, and each index leads to its element or to a fault. -/
theorem arrays_made (accepted : program.compile = .ok compiled) (shape : program.wellShaped = true)
    (addressable : Addressable program compiled) (config : Config) (input : List UInt8) (steps : Nat)
    (good : (Machine.boot config input compiled.pools).StrandsForGood compiled steps)
    {before : Machine}
    (reached : (Machine.boot config input compiled.pools).run compiled steps = .running before)
    {array : BindingId} {target : Binding} {size : Int64} {rest : List StackItem}
    (constructs : before.ConstructsArray compiled array target size rest) :
    ∃ scope after elements last, target.scope = some scope
      ∧ before.advance compiled = .running after ∧ after.stack = .binding array :: rest
      ∧ after.reports = before.reports ∧ after.heap.bindings.get? array = some target
      ∧ Declares scope (elements ++ [(last, Action.sizeAttribute size)]) before.heap after.heap
      ∧ elements.map Prod.snd = (List.range size.toInt.toNat).map Action.emptyElement
      ∧ (∀ name, after.heap.findImmediate scope name = .ok ((before.heap.first scope name).or
        (((elements ++ [(last, Action.sizeAttribute size)]).find?
          fun entry => entry.2.name = some name).map Prod.fst)))
      ∧ ((∀ name, IsArrayName size.toInt.toNat name → before.heap.first scope name = none) →
        (∀ index id, (elements.map Prod.fst)[index]? = some id →
          after.heap.bindings.get? id = some (Action.emptyElement index))
        ∧ ∀ later : Machine, Untouched scope after.heap later.heap →
          later.heap.HoldsArray scope size (elements.map Prod.fst)
            ∧ later.IndexesArray compiled scope size (elements.map Prod.fst)) := by
  obtain ⟨next, operand, ⟨argument, _, value, stack, given, whole⟩, least, there, tag⟩ := constructs
  obtain ⟨offset, cell, copies, under, arguments, method, caller, found, length, layout, reads, prepared,
    -, advances⟩ := preparedCall_call accepted shape addressable good reached next operand
  obtain ⟨only, rfl⟩ := List.length_eq_one_iff.mp length
  cases stack.symm.trans layout
  cases there.symm.trans reads
  obtain ⟨scope, refers, kept, -⟩ := prepared.own
  have owned : ∀ id, before.heap.Owns scope id → before.heap.Live id :=
    fun _ owns => prepared.order.guarded.tidy.live owns
  obtain ⟨elements, last, heap, result, declares, names⟩ :=
    @Action.constructArray_declares { before.ready offset cell with stack := rest } scope array argument
      target value size kept.lasting.liveScope there refers given whole least
  rw [if_pos tag, Action.bind_of_ok result] at advances
  obtain ⟨larger, -, found⟩ := declares.own
  refine ⟨scope, _, elements, last, refers, advances, rfl, rfl, ?_, declares, names, fun name => ?_,
    fun free => ?_⟩
  · exact (declares.get?_of_live ⟨target, there⟩).trans there
  · exact (findImmediate_eq found (declares.own_live owned)).trans
      (congrArg Except.ok (declares.first_eq owned name))
  · obtain ⟨holds, empty⟩ := declares.holdsArray names owned free
    refine ⟨empty, fun later same => ?_⟩
    have still := holds.untouched same
    exact ⟨still, still.indexes⟩

end

/-! ## A pair -/

/-- Makes an array of two elements. -/
def makePair : Program where
  main := [.statement (.call none Machine.arrayName [.integer 2])]

private theorem makePair_constructs {compiled : Compiled} (accepted : makePair.compile = .ok compiled)
    {before : Machine}
    (reached : (Machine.boot {} [] compiled.pools).run compiled 6 = .running before) :
    ∃ array target rest, before.ConstructsArray compiled array target 2 rest
      ∧ target.scope = some ⟨4, 0⟩ := by
  have operands : makePair.operands? 6 = some (some .evaluate, some 1,
      [.binding ⟨5, 0⟩, .binding ⟨6, 0⟩, .binding ⟨1, 0⟩],
      [some { tag := .integer, payload := .integer 2, constant := true },
        some { name := some "Array", tag := .array, scope := some ⟨4, 0⟩ },
        some { name := some "Nothing", constant := true }]) := by cbv
  simp only [Program.operands?, accepted, reached, Progress.machine, Option.some.injEq,
    Prod.mk.injEq] at operands
  obtain ⟨next, operand, stack, values⟩ := operands
  rw [stack] at values
  simp only [List.map_cons, List.cons.injEq] at values
  exact ⟨_, _, _, ⟨next, operand, ⟨_, _, _, stack, values.1, rfl⟩, by decide, values.2.1, rfl⟩,
    rfl⟩

theorem makePair_makes :
    ∃ compiled before array target rest, makePair.compile = .ok compiled
      ∧ makePair.wellShaped = true ∧ Addressable makePair compiled
      ∧ (Machine.boot {} [] compiled.pools).StrandsForGood compiled 6
      ∧ (Machine.boot {} [] compiled.pools).run compiled 6 = .running before
      ∧ before.ConstructsArray compiled array target 2 rest
      ∧ ∃ scope after elements, before.advance compiled = .running after
        ∧ after.stack = .binding array :: rest ∧ after.heap.HoldsArray scope 2 elements
        ∧ after.IndexesArray compiled scope 2 elements := by
  obtain ⟨compiled, accepted⟩ : ∃ compiled, makePair.compile = .ok compiled := ⟨_, by cbv⟩
  have shape : makePair.wellShaped = true := by decide
  have addressable : Addressable makePair compiled := by
    have code : size (image makePair) = 9 := by cbv
    have names : (Pools.ofProgram makePair).names.size = 1 := by cbv
    have constants : (Pools.ofProgram makePair).constants.size = 4 := by cbv
    exact addressable_of_image accepted (by decide) (code ▸ by decide) (names ▸ by decide)
      (constants ▸ by decide)
  have good := Program.strandsForGood 6 accepted (by cbv)
  have bare : (makePair.dispatch? 6).map (·.1.heap.scopes.get? ⟨4, 0⟩)
      = some (some { durable := true }) := by cbv
  simp only [Program.dispatch?, accepted] at bare
  cases reached : (Machine.boot {} [] compiled.pools).run compiled 6 with
  | finished | failed => simp [reached] at bare
  | running before =>
    obtain ⟨array, target, rest, constructs, own⟩ := makePair_constructs accepted reached
    obtain ⟨scope, after, elements, last, refers, advances, stack, -, -, -, -, -, law⟩ :=
      arrays_made accepted shape addressable {} [] 6 good reached constructs
    cases own.symm.trans refers
    have empty : before.heap.scopes.get? ⟨4, 0⟩ = some { durable := true } := by
      simpa [reached, advances] using bare
    obtain ⟨-, holds⟩ := law fun name _ => by rw [Heap.first, empty]; rfl
    obtain ⟨holds, indexes⟩ := holds after ⟨rfl, fun _ _ => rfl⟩
    exact ⟨compiled, before, array, target, rest, accepted, shape, addressable, good, reached,
      constructs, _, after, _, advances, stack, holds, indexes⟩

end ScopeMachine
