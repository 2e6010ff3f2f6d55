import ScopeMachine.Proofs.Assembly.Expression
import ScopeMachine.Proofs.Assembly.Segment

set_option autoImplicit false

/-!
# Patching

Placeholders are filled after the code behind them has been written. Filling changes the run that was
reserved and nothing else, so it can be moved in front of all code that was added since.
-/

namespace ScopeMachine

/-! ## Overwriting a list -/

/-- Replaces elements from an offset on. -/
def overwritten (list : List Instruction) (offset : Nat) : List Instruction → List Instruction
  | [] => list
  | instruction :: rest => overwritten (list.set offset instruction) (offset + 1) rest

@[simp] theorem length_overwritten (list : List Instruction) (offset : Nat)
    (new : List Instruction) : (overwritten list offset new).length = list.length := by
  induction new generalizing list offset with
  | nil => rfl
  | cons instruction rest ih => simp [overwritten, ih]

private theorem overwritten_append {first : List Instruction} (second : List Instruction) {offset : Nat}
    {new : List Instruction} (inside : offset + new.length ≤ first.length) :
    overwritten (first ++ second) offset new = overwritten first offset new ++ second := by
  induction new generalizing first offset with
  | nil => rfl
  | cons instruction rest ih =>
    simp only [List.length_cons] at inside
    simp only [overwritten]
    rw [List.set_append_left offset instruction (by omega)]
    exact ih (by simp; omega)

/-- A run at the end of a list keeps what the new elements leave of it. -/
theorem overwritten_run (first run : List Instruction) {new : List Instruction}
    (room : new.length ≤ run.length) :
    overwritten (first ++ run) first.length new = first ++ (new ++ run.drop new.length) := by
  induction new generalizing first run with
  | nil => simp [overwritten]
  | cons instruction rest ih =>
    cases run with
    | nil => simp at room
    | cons old run =>
      have moved := ih (first ++ [instruction]) run (by simpa using room)
      simp only [List.length_append, List.length_cons, List.length_nil, List.append_assoc,
        List.cons_append, List.nil_append] at moved
      simp [overwritten, moved]

private theorem overwritten_set {list : List Instruction} {offset index : Nat} {new : List Instruction}
    {instruction : Instruction} (apart : index < offset ∨ offset + new.length ≤ index) :
    overwritten (list.set index instruction) offset new
      = (overwritten list offset new).set index instruction := by
  induction new generalizing list offset with
  | nil => rfl
  | cons first rest ih =>
    simp only [List.length_cons] at apart
    simp only [overwritten]
    rw [List.set_comm instruction first (by omega)]
    exact ih (by omega)

/-- Runs that do not overlap can be replaced in either order. -/
theorem overwritten_comm {list : List Instruction} {offset offset' : Nat}
    {new new' : List Instruction}
    (apart : offset + new.length ≤ offset' ∨ offset' + new'.length ≤ offset) :
    overwritten (overwritten list offset new) offset' new'
      = overwritten (overwritten list offset' new') offset new := by
  induction new generalizing list offset with
  | nil => rfl
  | cons instruction rest ih =>
    simp only [List.length_cons] at apart
    simp only [overwritten]
    rw [ih (by omega), overwritten_set (by omega)]

/-- New elements stand where they were put. -/
theorem getElem?_overwritten {list : List Instruction} {offset index : Nat}
    {new : List Instruction} (inside : offset + new.length ≤ list.length)
    (within : index < new.length) : (overwritten list offset new)[offset + index]? = new[index]? := by
  induction new generalizing list offset index with
  | nil => cases within
  | cons instruction rest ih =>
    simp only [List.length_cons] at inside within
    cases index with
    | zero =>
      have room : offset < (overwritten list (offset + 1) rest).length := by
        rw [length_overwritten]
        omega
      rw [overwritten, overwritten_set (.inl (Nat.lt_succ_self _))]
      exact List.getElem?_set_self room
    | succ index =>
      have room : offset + 1 + rest.length ≤ (list.set offset instruction).length := by
        rw [List.length_set]
        omega
      rw [overwritten, List.getElem?_cons_succ, ← ih room (by omega), Nat.add_right_comm,
        Nat.add_assoc]

/-- Elements outside of the run stay. -/
theorem getElem?_overwritten_of_outside {list : List Instruction} {offset index : Nat}
    {new : List Instruction} (outside : index < offset ∨ offset + new.length ≤ index) :
    (overwritten list offset new)[index]? = list[index]? := by
  induction new generalizing list offset with
  | nil => rfl
  | cons instruction rest ih =>
    simp only [List.length_cons] at outside
    rw [overwritten, ih (by omega), List.getElem?_set_ne (by omega)]

/-! ## Filling placeholders -/

@[simp] theorem length_encode (opcode : Opcode) (operand : Nat) :
    (encode opcode operand).length = extensionCount operand + 1 := by
  simp [encode]

namespace Code

@[simp] theorem toList_overwrite (code : Code) (offset : Nat) (new : List Instruction) :
    (code.overwrite offset new).instructions.toList
      = overwritten code.instructions.toList offset new := by
  induction new generalizing code offset with
  | nil => rfl
  | cons instruction rest ih => simp [overwrite, overwritten, ih]

@[simp] theorem marks_overwrite (code : Code) (offset : Nat) (new : List Instruction) :
    (code.overwrite offset new).marks = code.marks := by
  induction new generalizing code offset with
  | nil => rfl
  | cons instruction rest ih => simp [overwrite, ih]

end Code

def filled (opcode : Opcode) (target : Nat) (list : List Instruction) (placeholder : Placeholder) :
    List Instruction :=
  overwritten list placeholder.start (encode opcode target)

def filledAll (opcode : Opcode) (target : Nat) (placeholders : List Placeholder)
    (list : List Instruction) : List Instruction :=
  placeholders.foldl (filled opcode target) list

namespace Placeholder

/-- The placeholder lies within a list. -/
def Inside (placeholder : Placeholder) (length : Nat) : Prop :=
  placeholder.start + placeholder.width ≤ length

/-- Two placeholders do not overlap. -/
def Apart (first second : Placeholder) : Prop :=
  first.start + first.width ≤ second.start ∨ second.start + second.width ≤ first.start

theorem Inside.mono {placeholder : Placeholder} {length longer : Nat}
    (inside : placeholder.Inside length) (le : length ≤ longer) : placeholder.Inside longer :=
  Nat.le_trans inside le

theorem holds_iff (placeholder : Placeholder) (target : Nat) :
    placeholder.holds target = true ↔ extensionCount target + 1 ≤ placeholder.width := by
  simp [holds]

end Placeholder

@[simp] theorem length_filledAll (opcode : Opcode) (target : Nat) (placeholders : List Placeholder)
    (list : List Instruction) :
    (filledAll opcode target placeholders list).length = list.length := by
  induction placeholders generalizing list with
  | nil => rfl
  | cons placeholder rest ih => simp [filledAll, filled] at ih ⊢; simp [ih]

theorem filled_append {opcode : Opcode} {target : Nat} {first : List Instruction}
    (second : List Instruction) {placeholder : Placeholder}
    (inside : placeholder.Inside first.length) (holds : placeholder.holds target) :
    filled opcode target (first ++ second) placeholder
      = filled opcode target first placeholder ++ second := by
  have room := (placeholder.holds_iff target).mp holds
  unfold Placeholder.Inside at inside
  exact overwritten_append second (by simp; omega)

theorem filledAll_append {opcode : Opcode} {target : Nat} {placeholders : List Placeholder}
    {first : List Instruction} (second : List Instruction)
    (inside : ∀ placeholder ∈ placeholders, placeholder.Inside first.length)
    (holds : ∀ placeholder ∈ placeholders, placeholder.holds target) :
    filledAll opcode target placeholders (first ++ second)
      = filledAll opcode target placeholders first ++ second := by
  induction placeholders generalizing first with
  | nil => rfl
  | cons placeholder rest ih =>
    simp only [filledAll, List.foldl_cons] at ih ⊢
    rw [filled_append second (inside _ (.head _)) (holds _ (.head _))]
    refine ih (fun other member => ?_) (fun other member => holds other (.tail _ member))
    simpa [filled] using inside other (.tail _ member)

theorem filledAll_filled {opcode opcode' : Opcode} {target target' : Nat}
    {placeholders : List Placeholder} {list : List Instruction} {placeholder : Placeholder}
    (apart : ∀ other ∈ placeholders, placeholder.Apart other)
    (holds : ∀ other ∈ placeholders, other.holds target)
    (fits : placeholder.holds target') :
    filledAll opcode target placeholders (filled opcode' target' list placeholder)
      = filled opcode' target' (filledAll opcode target placeholders list) placeholder := by
  induction placeholders generalizing list with
  | nil => rfl
  | cons other rest ih =>
    have room := (other.holds_iff target).mp (holds _ (.head _))
    have room' := (placeholder.holds_iff target').mp fits
    have swapped : filled opcode target (filled opcode' target' list placeholder) other
        = filled opcode' target' (filled opcode target list other) placeholder := by
      refine overwritten_comm ?_
      obtain before | behind := apart other (.head _)
      · exact .inl (by simp; omega)
      · exact .inr (by simp; omega)
    simp only [filledAll, List.foldl_cons] at ih ⊢
    rw [swapped]
    exact ih (fun other member => apart other (.tail _ member))
      (fun other member => holds other (.tail _ member))

/-- A placeholder at the end of the code becomes a jump with the empty rest of its run. -/
theorem filled_reserved (opcode : Opcode) {target offset : Nat} {first : List Instruction}
    (length : first.length = offset) (fits : Assembly.Fits target offset) :
    filled opcode target (first ++ List.replicate (placeholderWidth offset) { opcode := .nop })
        ⟨offset, placeholderWidth offset⟩
      = first ++ (Assembly.hole opcode target offset).flatMap Command.slots := by
  subst length
  unfold filled
  rw [overwritten_run]
  · simp [Assembly.hole, Assembly.padding, Command.slots, List.flatMap_replicate]
  · simpa [Assembly.Fits] using fits

theorem filled_reserved_append (opcode : Opcode) {target offset : Nat} {first : List Instruction}
    (more : List Instruction) (length : first.length = offset)
    (fits : Assembly.Fits target offset) :
    filled opcode target
        (first ++ (List.replicate (placeholderWidth offset) { opcode := .nop } ++ more))
        ⟨offset, placeholderWidth offset⟩
      = first ++ ((Assembly.hole opcode target offset).flatMap Command.slots ++ more) := by
  have holds : Placeholder.holds ⟨offset, placeholderWidth offset⟩ target :=
    (Placeholder.holds_iff _ _).mpr fits
  rw [← List.append_assoc, filled_append more (by simp [Placeholder.Inside, length]) holds,
    filled_reserved opcode length fits, List.append_assoc]

@[simp] theorem filledAll_nil (opcode : Opcode) (target : Nat) (list : List Instruction) :
    filledAll opcode target [] list = list :=
  rfl

@[simp] theorem filledAll_concat (opcode : Opcode) (target : Nat) (placeholders : List Placeholder)
    (placeholder : Placeholder) (list : List Instruction) :
    filledAll opcode target (placeholders ++ [placeholder]) list
      = filled opcode target (filledAll opcode target placeholders list) placeholder := by
  simp [filledAll]

/-! ## Resolving jumps -/

private theorem Code.patchAll_ok {opcode : Opcode} {target : Nat} {placeholders : List Placeholder}
    {code after : Code} (patched : code.patchAll opcode target placeholders = (none, after)) :
    (∀ placeholder ∈ placeholders, placeholder.holds target)
      ∧ after.instructions.toList
        = filledAll opcode target placeholders code.instructions.toList
      ∧ after.marks = code.marks := by
  induction placeholders generalizing code with
  | nil =>
    cases patched
    exact ⟨by simp, rfl, rfl⟩
  | cons placeholder rest ih =>
    unfold Code.patchAll at patched
    split at patched
    case isTrue holds =>
      obtain ⟨others, list, marks⟩ := ih patched
      refine ⟨by simpa using ⟨holds, others⟩, ?_, ?_⟩
      · simpa [filledAll, filled, Code.fill] using list
      · simpa [Code.fill] using marks
    case isFalse => cases patched

theorem Code.patch_ok {opcode : Opcode} {target : Nat} {placeholder : Placeholder}
    {code after : Code} (patched : code.patch placeholder opcode target = .ok after) :
    placeholder.holds target
      ∧ after.instructions.toList = filled opcode target code.instructions.toList placeholder
      ∧ after.marks = code.marks := by
  unfold Code.patch at patched
  split at patched
  case isTrue holds =>
    cases patched
    exact ⟨holds, by simp [Code.fill, filled], by simp [Code.fill]⟩
  case isFalse => cases patched

namespace Draft

def list (draft : Draft) : List Instruction :=
  draft.code.instructions.toList

def marks (draft : Draft) : List LineMark :=
  draft.code.marks.toList

@[simp] theorem list_append (draft : Draft) (instructions : List Instruction) :
    (draft.append instructions).list = draft.list ++ instructions := by
  simp [list, append]

@[simp] theorem marks_append (draft : Draft) (instructions : List Instruction) :
    (draft.append instructions).marks = draft.marks := by
  simp [marks, append]

@[simp] theorem openMethod_append (draft : Draft) (instructions : List Instruction) :
    (draft.append instructions).openMethod = draft.openMethod :=
  rfl

@[simp] theorem list_assemble (draft : Draft) (commands : List Command) :
    (draft.assemble commands).list = draft.list ++ commands.flatMap Command.slots :=
  list_append draft _

@[simp] theorem marks_assemble (draft : Draft) (commands : List Command) :
    (draft.assemble commands).marks = draft.marks :=
  marks_append draft _

theorem size_eq_length (draft : Draft) : draft.size = draft.list.length :=
  rfl

theorem reserve_eq (draft : Draft) :
    draft.reserve = (⟨draft.list.length, placeholderWidth draft.list.length⟩,
      draft.append (List.replicate (placeholderWidth draft.list.length) { opcode := .nop })) :=
  rfl

theorem patch_ok {opcode : Opcode} {target : Nat} {placeholder : Placeholder}
    {draft after : Draft} (patched : draft.patch placeholder opcode target = .ok after) :
    placeholder.holds target ∧ after.list = filled opcode target draft.list placeholder
      ∧ after.marks = draft.marks ∧ after.openMethod = draft.openMethod := by
  obtain ⟨code, openMethod⟩ := draft
  cases result : code.patch placeholder opcode target with
  | error => simp [Draft.patch, result] at patched
  | ok final =>
    simp only [Draft.patch, result, Except.ok.injEq] at patched
    subst patched
    obtain ⟨holds, list, marks⟩ := Code.patch_ok result
    exact ⟨holds, list, congrArg Array.toList marks, rfl⟩

end Draft

namespace Cursor

/-- The code once the jumps that wait have got a target: exits one and false branches another. -/
def settled (cursor : Cursor) (exit branch : Nat) : List Instruction :=
  filledAll .jumpIfFalse branch cursor.jumps.branches.toList
    (filledAll .jump exit cursor.jumps.exits.toList cursor.draft.list)

/-- The jumps that wait have room for their targets. -/
structure Accepts (cursor : Cursor) (exit branch : Nat) : Prop where
  exits : ∀ placeholder ∈ cursor.jumps.exits.toList, placeholder.holds exit
  branches : ∀ placeholder ∈ cursor.jumps.branches.toList, placeholder.holds branch

theorem resolve_ok {cursor after : Cursor} (resolved : cursor.resolve = .ok after) :
    cursor.Accepts cursor.draft.list.length cursor.draft.list.length
      ∧ after.draft.list = cursor.settled cursor.draft.list.length cursor.draft.list.length
      ∧ after.draft.marks = cursor.draft.marks
      ∧ after.draft.openMethod = cursor.draft.openMethod
      ∧ after.jumps = {} ∧ after.owner = cursor.owner := by
  obtain ⟨⟨code, openMethod⟩, jumps, owner⟩ := cursor
  simp only [Cursor.resolve, PendingJumps.resolve] at resolved
  rcases exits : code.patchAll .jump code.size jumps.exits.toList with ⟨failure, middle⟩
  cases failure with
  | some => simp [exits] at resolved
  | none =>
    rcases branches : middle.patchAll .jumpIfFalse code.size jumps.branches.toList with
      ⟨failure, final⟩
    cases failure with
    | some => simp [exits, branches] at resolved
    | none =>
      simp only [exits, branches, Except.ok.injEq] at resolved
      subst resolved
      obtain ⟨exitsHold, exitsList, exitsMarks⟩ := Code.patchAll_ok exits
      obtain ⟨branchesHold, branchesList, branchesMarks⟩ := Code.patchAll_ok branches
      refine ⟨⟨exitsHold, branchesHold⟩, ?_, ?_, rfl, rfl, rfl⟩
      · exact branchesList.trans (congrArg _ exitsList)
      · exact congrArg Array.toList (branchesMarks.trans exitsMarks)

/-- A clause takes over the latest false branch that waits. -/
theorem resolveClause_ok {cursor after : Cursor} {kind : Kind} {line : Nat}
    (resolved : cursor.resolveClause kind line = .ok after) :
    ∃ placeholder, cursor.jumps.branches.back? = some placeholder
      ∧ placeholder.holds cursor.draft.list.length
      ∧ after.draft.list = filled .jumpIfFalse cursor.draft.list.length cursor.draft.list placeholder
      ∧ after.draft.marks = cursor.draft.marks
      ∧ after.draft.openMethod = cursor.draft.openMethod
      ∧ after.jumps = { cursor.jumps with branches := cursor.jumps.branches.pop } := by
  obtain ⟨⟨code, openMethod⟩, jumps, owner⟩ := cursor
  cases latest : jumps.branches.back? with
  | none => simp [resolveClause, PendingJumps.resolveClause, latest] at resolved
  | some placeholder =>
    rcases result : code.patchAll .jumpIfFalse code.size [placeholder] with ⟨failure, final⟩
    cases failure with
    | some => simp [resolveClause, PendingJumps.resolveClause, latest, result] at resolved
    | none =>
      simp only [resolveClause, PendingJumps.resolveClause, latest, result, Except.ok.injEq]
        at resolved
      subst resolved
      obtain ⟨holds, list, marks⟩ := Code.patchAll_ok result
      exact ⟨placeholder, rfl, holds _ (.head _), list, congrArg Array.toList marks, rfl, rfl⟩

end Cursor

end ScopeMachine
