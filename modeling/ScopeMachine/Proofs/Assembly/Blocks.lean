import ScopeMachine.Proofs.Assembly.Statements

set_option autoImplicit false

/-!
# Code of blocks

The finished code of a block is its segment, and the code of a program is its image.
-/

namespace ScopeMachine

namespace Compile

open Assembly (Segment Site role setting)


/-- In front of a block that is no arm nothing waits, and the block is the target of what did. -/
theorem beforeBlock_settled {cursor base : Cursor} (sound : Sound cursor)
    (before : cursor.beforeBlock = .ok base) :
    base.draft.list.length = cursor.draft.list.length ∧ base.draft.marks = cursor.draft.marks
      ∧ Sound base
      ∧ ((setting cursor.owner = .arm ∨ setting cursor.owner = .last) → base = cursor)
      ∧ (setting cursor.owner ≠ .arm → setting cursor.owner ≠ .last →
        base.jumps = {} ∧ cursor.Accepts cursor.draft.list.length cursor.draft.list.length
          ∧ base.draft.list = cursor.settled cursor.draft.list.length cursor.draft.list.length) := by
  obtain ⟨rfl, chain⟩ | ⟨resolved, arm, last⟩ := beforeBlock_ok before
  · refine ⟨rfl, rfl, sound, fun _ => rfl, fun arm last => ?_⟩
    cases chain <;> contradiction
  · obtain ⟨accepts, list, marks, same, jumps, owner⟩ := Cursor.resolve_ok resolved
    have length : base.draft.list.length = cursor.draft.list.length := by
      rw [list, length_settled]
    refine ⟨length, marks, ?_, fun chain => ?_, fun _ _ => ⟨jumps, accepts, list⟩⟩
    · exact
        { exits := by simp [jumps]
          branches := by simp [jumps]
          method := by simpa [same, length] using sound.method
          single := by simp [jumps]
          apart := by simp [jumps] }
    · cases chain <;> contradiction

private theorem Finishes.enclose {cursor middle : Cursor} {tail block : Segment} {after : Draft}
    {front behind : List Assembly.Cell} {branch exit : Nat} {valid : Prop}
    (ends : Finishes middle tail after) (closed : cursor.draft.openMethod = none)
    (accepts : cursor.Accepts exit branch) (inside : block.valid) (holds : valid)
    (settles : finished middle tail = cursor.settled exit branch ++ (Assembly.slots front
      ++ (Assembly.slots block.cells ++ Assembly.slots behind)))
    (marks : middle.draft.marks = cursor.draft.marks ++ block.marks) :
    Finishes cursor (tail.around block front behind branch exit valid) after where
  valid := ⟨holds, inside, ends.valid⟩
  accepts := accepts
  method := by simp [closed]
  list := by
    rw [ends.list, settles]
    simp [finished, closed, Segment.around]
  marks := by
    rw [ends.marks, marks]
    simp [Segment.around]

private theorem settled_clear (draft : Draft) (owner : Option (Kind × Nat)) (exit branch : Nat) :
    Cursor.settled ⟨draft, {}, owner⟩ exit branch = draft.list :=
  rfl

private theorem inside_finishes {draft inner : Draft} {block : Segment}
    (finishes : Finishes ⟨draft, {}, none⟩ block inner) (closed : draft.openMethod = none) :
    inner.list = draft.list ++ Assembly.slots block.cells
      ∧ inner.marks = draft.marks ++ block.marks ∧ block.valid :=
  ⟨by rw [finishes.list, finished_of_closed (by exact closed), settled_clear], finishes.marks,
    finishes.valid⟩

/-- The entries of a block are finished by their segment, wherever they stand. -/
def Covered (pools : Pools) (block : Block) : Prop :=
  ∀ {cursor : Cursor} {after : Draft} {site : Site}, entries pools block cursor = .ok after →
    after.openMethod = none → Sound cursor → site.start = cursor.draft.list.length →
    site.owner = cursor.owner → Finishes cursor (Assembly.entries pools block site) after

theorem Covered.inside {pools : Pools} {body : Block} {draft inner : Draft}
    (covered : Covered pools body) (site : Site)
    (compiled : entries pools body ⟨draft, {}, none⟩ = .ok inner)
    (closed : inner.openMethod = none) (start : site.start = draft.list.length)
    (owner : site.owner = none) :
    draft.openMethod = none
      ∧ inner.list = draft.list ++ Assembly.slots (Assembly.entries pools body site).cells
      ∧ inner.marks = draft.marks ++ (Assembly.entries pools body site).marks
      ∧ (Assembly.entries pools body site).valid := by
  have none : draft.openMethod = .none := by
    cases waits : draft.openMethod with
    | none => rfl
    | some waiting =>
      have stays := entries_open body compiled (by simp [waits]) (by simp [setting])
      simp [closed] at stays
  have finishes := covered compiled closed (sound_clear (by simp [none])) start owner
  exact ⟨none, inside_finishes finishes none⟩

section

variable {pools : Pools} {body : Block} {cursor base : Cursor} {inner last after : Draft}
  {site : Site} {rest : Site → Segment} (sound : Sound cursor)
  (before : cursor.beforeBlock = .ok base) (covered : Covered pools body)
  (start : site.start = cursor.draft.list.length)

include sound before covered start

private theorem loop_finishes {condition : Nat} (owner : cursor.owner = some (.while, condition))
    (compiled : entries pools body
      ⟨base.draft.reserve.2.assemble [⟨.enterLocal, 0⟩], {}, none⟩ = .ok inner)
    (patched : (inner.assemble [⟨.leaveLocal, 0⟩, ⟨.jump, condition⟩]).patch base.draft.reserve.1
      .jumpIfFalse (inner.assemble [⟨.leaveLocal, 0⟩, ⟨.jump, condition⟩]).size = .ok last)
    (closed : last.openMethod = none)
    (ends : Sound ⟨last, base.jumps, none⟩ → ∀ next : Site, next.start = last.list.length →
      next.owner = none → Finishes ⟨last, base.jumps, none⟩ (rest next) after) :
    Finishes cursor (Assembly.loop condition (Assembly.entries pools body) site rest) after := by
  obtain ⟨length, marks, baseSound, -, resolved⟩ := beforeBlock_settled sound before
  obtain ⟨jumps, accepts, list⟩ := resolved (by simp [owner, setting]) (by simp [owner, setting])
  obtain ⟨holds, patchedList, patchedMarks, same⟩ := Draft.patch_ok patched
  rw [jumps] at ends
  replace ends := ends (sound_clear (by simp [closed]))
  rw [same, Draft.openMethod_assemble] at closed
  have begun : base.draft.list.length = site.start := length.trans start.symm
  have enter : (base.draft.reserve.2.assemble [⟨.enterLocal, 0⟩]).list.length
      = site.start + placeholderWidth site.start + 1 := by
    rw [length_assemble, length_reserve, begun]
    simp
  obtain ⟨none, insideList, insideMarks, valid⟩ := covered.inside
    (site.inside (site.start + placeholderWidth site.start + 1) (site.depth + 1))
    compiled closed enter.symm rfl
  have none : cursor.draft.openMethod = .none := (beforeBlock_same before).1 ▸ none
  simp only [Assembly.loop]
  generalize Assembly.entries pools body _ = block at insideList insideMarks valid ⊢
  have reached : (inner.assemble [⟨.leaveLocal, 0⟩, ⟨.jump, condition⟩]).size
      = site.start + placeholderWidth site.start + 1 + Assembly.size block.cells + 1
        + (Command.mk .jump condition).width := by
    rw [Draft.size_eq_length, length_assemble, insideList, List.length_append, enter,
      Assembly.length_slots]
    simp [Nat.add_assoc]
  generalize site.start + _ + 1 + Assembly.size block.cells + 1 + _ = stop at reached ⊢
  rw [reached] at holds patchedList
  have tail := ends (site.past block stop)
    (by rw [patchedList, filled, length_overwritten]; exact reached.symm) rfl
  have fits : Assembly.Fits stop site.start := begun ▸ (Placeholder.holds_iff _ _).mp holds
  refine tail.enclose none (start ▸ accepts) valid fits ?_ ?_
  · rw [finished_of_closed (by rw [same]; exact closed), settled_clear, patchedList,
      Draft.list_assemble, insideList, Draft.list_assemble, Draft.reserve_eq, Draft.list_append,
      begun]
    simp only [List.append_assoc]
    rw [filled_reserved_append .jumpIfFalse _ begun fits, start, list]
    simp [Site.cell]
  · rw [patchedMarks, Draft.marks_assemble, insideMarks, Draft.marks_assemble, Draft.reserve_eq,
      Draft.marks_append, marks]

private theorem method_finishes {condition line : Nat} {place : Placeholder} {code : Code}
    (owner : cursor.owner = some (.defineMethod, condition))
    (waits : base.draft.openMethod = some (place, line))
    (placed : base.draft.reserve.2.code.patch place .bindSection base.draft.reserve.2.size
      = .ok code)
    (compiled : entries pools body ⟨⟨code, none⟩, {}, none⟩ = .ok inner)
    (patched : (inner.assemble [⟨.return, 0⟩]).patch base.draft.reserve.1 .jump
      (inner.assemble [⟨.return, 0⟩]).size = .ok last)
    (closed : last.openMethod = none)
    (ends : Sound ⟨last, base.jumps, none⟩ → ∀ next : Site, next.start = last.list.length →
      next.owner = none → Finishes ⟨last, base.jumps, none⟩ (rest next) after) :
    Finishes cursor (Assembly.method body (Assembly.entries pools body) site rest) after := by
  obtain ⟨length, marks, baseSound, -, resolved⟩ := beforeBlock_settled sound before
  obtain ⟨jumps, accepts, list⟩ := resolved (by simp [owner, setting]) (by simp [owner, setting])
  obtain ⟨holds, patchedList, patchedMarks, same⟩ := Draft.patch_ok patched
  obtain ⟨placeHolds, placedList, placedMarks⟩ := Code.patch_ok placed
  rw [jumps] at ends
  replace ends := ends (sound_clear (by simp [closed]))
  rw [same, Draft.openMethod_assemble] at closed
  have begun : base.draft.list.length = site.start := length.trans start.symm
  have first : base.draft.reserve.2.size = site.start + placeholderWidth site.start := by
    rw [Draft.size_eq_length, length_reserve, begun]
  have placedList : (Draft.mk code none).list
      = filled .bindSection (site.start + placeholderWidth site.start)
        base.draft.reserve.2.list place := first ▸ placedList
  have inside : place.Inside base.draft.list.length := baseSound.method place line waits
  obtain ⟨-, insideList, insideMarks, valid⟩ := covered.inside
    (site.inside (site.start + placeholderWidth site.start) 0) compiled closed
    (by rw [placedList, filled, length_overwritten, length_reserve, begun]; rfl) rfl
  simp only [Assembly.method]
  generalize Assembly.entries pools body _ = block at insideList insideMarks valid ⊢
  have reached : (inner.assemble [⟨.return, 0⟩]).size
      = site.start + placeholderWidth site.start + Assembly.size block.cells + 1 := by
    rw [Draft.size_eq_length, length_assemble, insideList, List.length_append, placedList, filled,
      length_overwritten, length_reserve, begun, Assembly.length_slots]
    simp
  generalize site.start + _ + Assembly.size block.cells + 1 = stop at reached ⊢
  rw [reached] at holds patchedList
  have tail := ends (site.past block stop)
    (by rw [patchedList, filled, length_overwritten]; exact reached.symm) rfl
  have fits : Assembly.Fits stop site.start := begun ▸ (Placeholder.holds_iff _ _).mp holds
  rw [first] at placeHolds
  have lastList : last.list = filled .bindSection (site.start + placeholderWidth site.start)
      base.draft.list place ++ ((Assembly.hole .jump stop site.start).flatMap Command.slots
        ++ (Assembly.slots block.cells ++ [{ opcode := .return }])) := by
    rw [patchedList, Draft.list_assemble, insideList, placedList, Draft.reserve_eq,
      Draft.list_append, filled_append _ inside placeHolds, begun]
    simp only [List.append_assoc]
    rw [filled_reserved_append .jump _ (by rw [filled, length_overwritten, begun]) fits]
    simp [Command.slots]
  have open' := (beforeBlock_same before).1.symm.trans waits
  exact
    { valid := ⟨fits, valid, tail.valid⟩
      accepts := start ▸ accepts
      method := fun other _ known => by
        rw [open'] at known
        cases known
        exact ⟨placeHolds, by simp [placeholderWidth]⟩
      list := by
        rw [tail.list, finished_of_closed (by rw [same]; exact closed), settled_clear,
          lastList, list]
        simp [finished, open', Segment.around, start, Command.slots, Assembly.hole, Site.cell]
      marks := by
        have placed : (Draft.mk code none).marks = base.draft.reserve.2.marks :=
          congrArg Array.toList placedMarks
        rw [tail.marks, patchedMarks, Draft.marks_assemble, insideMarks, placed, Draft.reserve_eq,
          Draft.marks_append, marks]
        simp [Segment.around] }

private theorem arm_finishes (owner : setting cursor.owner = .arm)
    (compiled : entries pools body ⟨base.draft.assemble [⟨.enterLocal, 0⟩], {}, none⟩ = .ok inner)
    (closed : inner.openMethod = none)
    (ends : Sound ⟨(inner.assemble [⟨.leaveLocal, 0⟩]).reserve.2,
        base.jumps.addExit (inner.assemble [⟨.leaveLocal, 0⟩]).reserve.1, none⟩ → ∀ next : Site,
      next.start = (inner.assemble [⟨.leaveLocal, 0⟩]).reserve.2.list.length → next.owner = none →
      Finishes ⟨(inner.assemble [⟨.leaveLocal, 0⟩]).reserve.2,
        base.jumps.addExit (inner.assemble [⟨.leaveLocal, 0⟩]).reserve.1, none⟩ (rest next) after) :
    Finishes cursor (Assembly.arm (Assembly.entries pools body) site rest) after := by
  obtain ⟨-, -, -, kept, -⟩ := beforeBlock_settled sound before
  obtain rfl := kept (.inl owner)
  have enter : (base.draft.assemble [⟨.enterLocal, 0⟩]).list.length = site.start + 1 := by
    rw [length_assemble, start]
    simp
  obtain ⟨none, insideList, insideMarks, valid⟩ := covered.inside
    (site.inside (site.start + 1) (site.depth + 1)) compiled closed enter.symm rfl
  simp only [Assembly.arm]
  generalize Assembly.entries pools body _ = block at insideList insideMarks valid ⊢
  have reached : (inner.assemble [⟨.leaveLocal, 0⟩]).list.length
      = site.start + 1 + Assembly.size block.cells + 1 := by
    rw [length_assemble, insideList, List.length_append, enter, Assembly.length_slots]
    simp
  have list : (inner.assemble [⟨.leaveLocal, 0⟩]).list = base.draft.list
      ++ (Command.slots ⟨.enterLocal, 0⟩ ++ (Assembly.slots block.cells
        ++ Command.slots ⟨.leaveLocal, 0⟩)) := by
    rw [Draft.list_assemble, insideList, Draft.list_assemble]
    simp
  have longer : Sound ⟨inner.assemble [⟨.leaveLocal, 0⟩], base.jumps, .none⟩ :=
    sound.longer list closed
  have tail := ends longer.exit (site.past block _) (by rw [length_reserve, reached]; rfl) rfl
  obtain ⟨fits, accepts, settles⟩ := settled_exit longer tail.accepts
  rw [reached] at fits settles
  have accepts : base.Accepts _ _ := accepts_congr accepts rfl
  rw [settled_append sound accepts list] at settles
  refine tail.enclose none accepts valid fits ?_ ?_
  · rw [finished_of_closed (by exact closed), settles]
    simp [Site.cell]
  · rw [Draft.reserve_eq, Draft.marks_append, Draft.marks_assemble, insideMarks,
      Draft.marks_assemble]

private theorem nested_finishes (keeps : Bool)
    (owner : setting cursor.owner = if keeps then .last else .free)
    (compiled : entries pools body ⟨base.draft.assemble [⟨.enterLocal, 0⟩], {}, none⟩ = .ok inner)
    (closed : inner.openMethod = none)
    (ends : Sound ⟨inner.assemble [⟨.leaveLocal, 0⟩], base.jumps, none⟩ → ∀ next : Site,
      next.start = (inner.assemble [⟨.leaveLocal, 0⟩]).list.length → next.owner = none →
      Finishes ⟨inner.assemble [⟨.leaveLocal, 0⟩], base.jumps, none⟩ (rest next) after) :
    Finishes cursor (Assembly.nested keeps (Assembly.entries pools body) site rest) after := by
  obtain ⟨length, marks, baseSound, kept, resolved⟩ := beforeBlock_settled sound before
  have begun : base.draft.list.length = site.start := length.trans start.symm
  have enter : (base.draft.assemble [⟨.enterLocal, 0⟩]).list.length = site.start + 1 := by
    rw [length_assemble, begun]
    simp
  obtain ⟨none, insideList, insideMarks, valid⟩ := covered.inside
    (site.inside (site.start + 1) (site.depth + 1)) compiled closed enter.symm rfl
  have none : cursor.draft.openMethod = .none := (beforeBlock_same before).1 ▸ none
  simp only [Assembly.nested]
  generalize Assembly.entries pools body _ = block at insideList insideMarks valid ⊢
  have reached : (inner.assemble [⟨.leaveLocal, 0⟩]).list.length
      = site.start + 1 + Assembly.size block.cells + 1 := by
    rw [length_assemble, insideList, List.length_append, enter, Assembly.length_slots]
    simp
  have list : (inner.assemble [⟨.leaveLocal, 0⟩]).list = base.draft.list
      ++ (Command.slots ⟨.enterLocal, 0⟩ ++ (Assembly.slots block.cells
        ++ Command.slots ⟨.leaveLocal, 0⟩)) := by
    rw [Draft.list_assemble, insideList, Draft.list_assemble]
    simp
  have tail := ends (baseSound.longer list closed) (site.past block _) (by rw [reached]; rfl) rfl
  generalize rest (site.past block _) = segment at tail ⊢
  have accepts : base.Accepts segment.exit segment.branch := accepts_congr tail.accepts rfl
  have same : cursor.Accepts (if keeps then segment.exit else site.start)
        (if keeps then segment.branch else site.start)
      ∧ base.settled segment.exit segment.branch = cursor.settled
        (if keeps then segment.exit else site.start)
        (if keeps then segment.branch else site.start) := by
    cases keeps with
    | true =>
      obtain rfl := kept (.inr owner)
      exact ⟨accepts, rfl⟩
    | false =>
      obtain ⟨jumps, accepts, list⟩ := resolved (by simp [owner]) (by simp [owner])
      exact ⟨start ▸ accepts, by simp [Cursor.settled, jumps, list, start]⟩
  refine tail.enclose none same.1 valid trivial ?_ ?_
  · rw [finished_of_closed (by exact closed), settled_append baseSound accepts list, same.2]
    simp [Site.cell]
  · rw [Draft.marks_assemble, insideMarks, Draft.marks_assemble, marks]

end

/-! ## Whole blocks -/

private theorem role_ne_definition {kind : Kind} (other : role kind ≠ .definition) (start : Nat) :
    setting (some (kind, start)) ≠ .method := by
  cases kind <;> simp_all [role, setting]

/-- The place of a method that a statement opens lies within its draft. -/
theorem draft_inside {pools : Pools} {operation : Operation} {base : Cursor} {draft : Draft}
    (compiled : Compile.operation pools .value operation (marked operation base) = .ok draft)
    (closed : role operation.kind ≠ .definition → draft.openMethod = none) :
    base.draft.list.length ≤ draft.list.length
      ∧ ∀ place line, draft.openMethod = some (place, line) → place.Inside draft.list.length := by
  by_cases definition : role operation.kind = .definition
  · have defines := Assembly.role_eq_definition.mp definition
    obtain ⟨own, -, -, rfl⟩ := definition_assembled defines compiled
    have list (waiting : Option (Placeholder × Nat)) : (Draft.mk
        (((marked operation base).assemble own).code.reserve.2.push { opcode := .assign })
          waiting).list
        = ((marked operation base).assemble own).reserve.2.list ++ [{ opcode := .assign }] := by
      simp [Code.push, Draft.reserve, Draft.list]
    refine ⟨?_, ?_⟩
    · rw [list, Draft.reserve_eq, Draft.list_append, list_marked_assemble]
      simp
    · intro place line waits
      cases waits
      rw [list, Draft.reserve_eq, Draft.list_append]
      simp [Placeholder.Inside, Code.reserve, Code.size_eq_length, Draft.list]
  · obtain ⟨-, own, -, rfl⟩ := statement_assembled compiled definition (closed definition)
    refine ⟨by rw [list_marked_assemble]; simp, fun place line waits => ?_⟩
    rw [closed definition] at waits
    cases waits

/-- The finished code of a block is its segment. -/
theorem covered (pools : Pools) (block : Block) : Covered pools block := by
  induction block using Block.induction with
  | nil =>
    intro cursor after site compiled closed sound start owner
    unfold entries at compiled
    cases resolved : cursor.resolve with
    | error => simp [resolved] at compiled
    | ok last =>
      simp only [resolved, Except.ok.injEq] at compiled
      subst compiled
      obtain ⟨accepts, list, marks, same, -, -⟩ := Cursor.resolve_ok resolved
      rw [same] at closed
      simp only [Assembly.entries]
      exact
        { valid := trivial
          accepts := start ▸ accepts
          method := by simp [closed]
          list := by simp [list, finished, closed, start]
          marks := by simp [marks] }
  | statement operation rest ih =>
    intro cursor after site compiled closed sound start owner
    obtain ⟨middle, head, tail⟩ := bind_ok compiled
    obtain ⟨base, draft, resolved, own, rfl⟩ := statement_ok head
    have draftClosed : role operation.kind ≠ .definition → draft.openMethod = none := by
      intro other
      cases waits : draft.openMethod with
      | none => rfl
      | some waiting =>
        have stays := entries_open rest tail (by simp [openMethod_statementEnd, waits])
          (by rw [owner_statementEnd]; exact role_ne_definition other _)
        simp [closed] at stays
    obtain ⟨-, -, alone, baseSound, -⟩ := statementBase_settled sound resolved
    obtain ⟨longer, method⟩ := draft_inside own draftClosed
    have ends : ∀ next : Site, next.start = (statementEnd operation base draft).draft.list.length →
        next.owner = (statementEnd operation base draft).owner →
        Finishes (statementEnd operation base draft) (Assembly.entries pools rest next) after :=
      fun next => ih tail closed (sound_statementEnd baseSound alone longer method)
    simp only [Assembly.entries, Assembly.entry]
    cases kind : role operation.kind with
    | condition => exact condition_finishes sound resolved own start ends kind (draftClosed (by simp [kind]))
    | bare => exact bare_finishes sound resolved own start ends kind (draftClosed (by simp [kind]))
    | definition => exact definition_finishes sound resolved own start ends kind
    | plain => exact plain_finishes sound resolved own start ends kind (draftClosed (by simp [kind]))
  | block body rest inner later =>
    intro cursor after site compiled closed sound start owner
    obtain ⟨middle, head, tail⟩ := bind_ok compiled
    obtain ⟨base, before, enclosed⟩ := block_ok head
    obtain ⟨-, sameOwner⟩ := beforeBlock_same before
    have closedMiddle (free : middle.owner = none) : middle.draft.openMethod = none := by
      cases waits : middle.draft.openMethod with
      | none => rfl
      | some waiting =>
        have stays := entries_open rest tail (by simp [waits]) (by simp [free, setting])
        simp [closed] at stays
    simp only [Assembly.entries, Assembly.entry, Assembly.block, owner]
    cases enclosed with
    | loop kind compiled patched =>
      rw [sameOwner] at kind
      simp only [kind, setting]
      exact loop_finishes sound before inner start kind compiled patched (closedMiddle rfl)
        fun sound next => later tail closed sound
    | method kind waits placed compiled patched =>
      rw [sameOwner] at kind
      simp only [kind, setting]
      exact method_finishes sound before inner start kind waits placed compiled patched
        (closedMiddle rfl) fun sound next => later tail closed sound
    | arm kind compiled =>
      rw [sameOwner] at kind
      simp only [kind]
      exact arm_finishes sound before inner start kind compiled (closedMiddle rfl)
        fun sound next => later tail closed sound
    | nested kind compiled =>
      rw [sameOwner] at kind
      obtain kind | kind := kind
      · simp only [kind]
        exact nested_finishes sound before inner start true kind compiled
          (closedMiddle rfl) fun sound next => later tail closed sound
      · simp only [kind]
        exact nested_finishes sound before inner start false kind compiled
          (closedMiddle rfl) fun sound next => later tail closed sound

end Compile

theorem Program.compile_ok {program : Program} {compiled : Compiled}
    (accepted : program.compile = .ok compiled) :
    compiled.pools = Pools.ofProgram program
      ∧ compiled.code.instructions.toList = Assembly.slots (Assembly.image program)
      ∧ compiled.code.marks.toList = (Assembly.program program).marks
      ∧ (Assembly.program program).valid := by
  obtain ⟨draft, entries, accepted⟩ := Compile.bind_ok accepted
  cases closed : draft.openMethod with
  | some waiting => simp [closed] at accepted
  | none =>
    simp only [closed, Except.ok.injEq] at accepted
    subst accepted
    have finishes : Compile.Finishes { draft := {} } (Assembly.program program) draft :=
      Compile.covered _ program.main entries closed (Compile.sound_clear (by simp)) rfl rfl
    have list : draft.list = Assembly.slots (Assembly.program program).cells := finishes.list
    have marks : draft.marks = (Assembly.program program).marks := finishes.marks
    refine ⟨rfl, ?_, ?_, finishes.valid⟩
    · rw [Draft.emit_eq_assemble]
      change (draft.assemble [⟨.return, 0⟩]).list = _
      simp [list, Assembly.image]
    · rw [Draft.emit_eq_assemble]
      change (draft.assemble [⟨.return, 0⟩]).marks = _
      rw [Draft.marks_assemble, marks]

end ScopeMachine
