import Mathlib
import ScopeMachine.Code.Listing
import ScopeMachine.Proofs.Assembly.Completion
import ScopeMachine.Proofs.Assembly.Patching
import ScopeMachine.Proofs.Assembly.Room
import ScopeMachine.Proofs.Machine.Overflow
import ScopeMachine.Proofs.Machine.Running

set_option autoImplicit false

/-!
# Operand coding

An operand is written as extensions and a low byte, by emitting an instruction or by filling a
placeholder. A run and a listing read it back, each by bookkeeping of its own. Both find the operand
that was written, and a placeholder takes exactly the targets that its bytes can hold.
-/

namespace ScopeMachine

open Assembly

/-! ## The number of extensions -/

/-- The bytes of an operand are as many as its size in base 256. -/
theorem extensionCount_le_iff (operand count : Nat) :
    extensionCount operand ≤ count ↔ operand < 256 ^ (count + 1) := by
  have range : byteRange (count + 1) = 256 ^ (count + 1) := by
    rw [byteRange, Nat.one_shiftLeft, Nat.pow_mul]
  refine ⟨fun few => ?_, fun small => extensionCount_le (range ▸ small)⟩
  have high : operand / 256 < byteRange count := by
    refine Nat.lt_of_lt_of_le (div_lt_extensionCount operand) ?_
    rw [byteRange, byteRange, Nat.one_shiftLeft, Nat.one_shiftLeft]
    exact Nat.pow_le_pow_right (by omega) (by omega)
  rw [← range, byteRange_succ]
  exact (Nat.div_lt_iff_lt_mul (by omega)).mp high

/-- A placeholder has room for the targets below a power of 256. -/
theorem Placeholder.holds_iff_lt {placeholder : Placeholder} (wide : 0 < placeholder.width)
    (target : Nat) : placeholder.holds target = true ↔ target < 256 ^ placeholder.width := by
  have width : placeholder.width - 1 + 1 = placeholder.width := by omega
  rw [placeholder.holds_iff, ← width, ← extensionCount_le_iff]
  omega

/-! ## Dispatching -/

/-- Run from an offset on with nothing collected, code executes an instruction once, with the whole
operand. -/
structure Performs (compiled : Compiled) (start : Nat) (opcode : Opcode) (operand : Nat) :
    Prop where
  /-- The extensions move the machine and change nothing else. -/
  reads : ∀ machine : Machine, machine.registers.ip = start → Clear machine.registers →
    ∀ index ≤ extensionCount operand, machine.run compiled index
      = .running (machine.moved (start + index) (collected operand index) index machine.line)
  /-- The dispatch after them is that of the instruction, with nothing collected any more. -/
  executes : ∀ machine : Machine, machine.registers.ip = start → Clear machine.registers →
    machine.run compiled (extensionCount operand + 1)
      = Progress.after (start + (extensionCount operand + 1))
        (Action.step compiled.pools.names opcode operand
          (machine.moved (start + extensionCount operand) 0 0
            ((compiled.code.lineAt? (start + extensionCount operand)).getD machine.line)))
  never : ∀ machine : Machine, machine.registers.ip = start → Clear machine.registers →
    ∀ fuel ≤ extensionCount operand + 1, ∀ line limit after,
      machine.run compiled fuel ≠ .failed line (.operandOverflow limit) after

namespace Carries

variable {compiled : Compiled} {offset : Nat} {cell : Cell}
  (carries : Carries compiled.code offset cell)

include carries

private theorem run_extensions {machine : Machine} (ip : machine.registers.ip = offset)
    (clear : Clear machine.registers) {index : Nat}
    (inside : index ≤ extensionCount cell.command.operand) :
    machine.run compiled index = .running
      (machine.moved (offset + index) (collected cell.command.operand index) index machine.line) := by
  induction index with
  | zero =>
    have still : machine.moved machine.registers.ip machine.registers.extended
        machine.registers.extensions machine.line = machine := rfl
    rw [ip, clear.1, clear.2] at still
    rw [collected_zero, Nat.add_zero, still]
    rfl
  | succ index ih =>
    rw [Machine.run_succ, ih (by omega)]
    exact carries.advance_extension ⟨by omega, rfl, rfl, rfl⟩ inside

theorem performs :
    Performs compiled offset cell.command.opcode cell.command.operand := by
  have executes {machine : Machine} (ip : machine.registers.ip = offset)
      (clear : Clear machine.registers) :
      machine.run compiled (extensionCount cell.command.operand + 1)
        = Progress.after (offset + cell.command.width)
          (Action.step compiled.pools.names cell.command.opcode cell.command.operand
            (machine.ready offset cell)) := by
    rw [Machine.run_succ, carries.run_extensions ip clear (Nat.le_refl _)]
    exact carries.advance_instruction ⟨Nat.le_refl _, rfl, rfl, rfl⟩ rfl
  refine ⟨fun machine ip clear index inside => carries.run_extensions ip clear inside,
    fun machine ip clear => ?_, fun machine ip clear fuel few line limit after overflows => ?_⟩
  · rw [executes ip clear, Machine.ready, carries.line]
    rfl
  · obtain inside | rfl := Nat.le_or_eq_of_le_succ few
    · rw [carries.run_extensions ip clear inside] at overflows
      cases overflows
    · rw [executes ip clear] at overflows
      cases result : Action.step compiled.pools.names cell.command.opcode cell.command.operand
          (machine.ready offset cell) with
      | error fault last =>
        rw [result] at overflows
        cases overflows
        cases (Action.unbounded_step result rfl).1
      | ok transfer last =>
        rw [result] at overflows
        cases transfer <;> cases overflows

end Carries

/-! ## Listing -/

namespace Code

/-- The listing of the first instructions, with what is collected for the next row. -/
def listed (code : Code) (pools : Pools) (count : Nat) : ListingState :=
  (code.instructions.toList.take count).foldl (code.listInstruction pools) {}

/-- The slot in front of an offset, if there is one, holds no extension. -/
def Fresh (code : Code) (offset : Nat) : Prop :=
  ∀ index instruction, index + 1 = offset → code.instructions[index]? = some instruction →
    instruction.opcode ≠ .extendArgument

/-- The listing of code shows an instruction with its whole operand, in the row of its last slot. -/
def Lists (code : Code) (pools : Pools) (start : Nat) (opcode : Opcode) (operand : Nat) : Prop :=
  ∃ rest, code.listing pools
    = (code.listed pools (start + extensionCount operand)).text
      ++ row (code.lineCell (start + extensionCount operand)) (start + extensionCount operand)
        opcode operand (note? pools opcode operand) ++ "\n" ++ rest

variable {code : Code} {pools : Pools}

private theorem listed_succ {offset : Nat} {instruction : Instruction}
    (found : code.instructions[offset]? = some instruction) :
    code.listed pools (offset + 1)
      = code.listInstruction pools (code.listed pools offset) instruction := by
  rw [← Array.getElem?_toList] at found
  rw [listed, List.take_add_one, found, List.foldl_append]
  rfl

private theorem offset_listInstruction (state : ListingState) (instruction : Instruction) :
    (code.listInstruction pools state instruction).offset = state.offset + 1 := by
  unfold listInstruction
  dsimp only
  split <;> rfl

private theorem offset_listed {count : Nat} (inside : count ≤ code.size) :
    (code.listed pools count).offset = count := by
  induction count with
  | zero => simp [listed]
  | succ count ih =>
    rw [listed_succ (Array.getElem?_eq_getElem inside), offset_listInstruction,
      ih (Nat.le_of_succ_le inside)]

variable (code pools)

/-- Rows are added behind those that are there. -/
theorem text_foldl (instructions : List Instruction) (state : ListingState) :
    ∃ rest, (instructions.foldl (code.listInstruction pools) state).text = state.text ++ rest := by
  induction instructions generalizing state with
  | nil => exact ⟨"", String.append_empty.symm⟩
  | cons instruction others ih =>
    obtain ⟨later, extends_⟩ := ih (code.listInstruction pools state instruction)
    obtain ⟨own, adds⟩ : ∃ own,
        (code.listInstruction pools state instruction).text = state.text ++ own := by
      unfold listInstruction
      dsimp only
      split <;> exact ⟨_, String.append_assoc ..⟩
    exact ⟨own ++ later, by rw [List.foldl_cons, extends_, adds, String.append_assoc]⟩

private theorem listing_of_listed (count : Nat) :
    ∃ rest, code.listing pools = (code.listed pools count).text ++ rest := by
  obtain ⟨rest, extends_⟩ := text_foldl code pools (code.instructions.toList.drop count)
    (code.listed pools count)
  refine ⟨rest, ?_⟩
  rw [← extends_, listed, ← List.foldl_append, List.take_append_drop, listing,
    Array.foldl_toList]

variable {code pools}

/-- Nothing is collected behind an instruction that is no extension. -/
theorem Fresh.listed {offset : Nat} (fresh : code.Fresh offset) (inside : offset ≤ code.size) :
    (code.listed pools offset).extended = 0 ∧ (code.listed pools offset).extensions = 0 := by
  cases offset with
  | zero => simp [Code.listed]
  | succ offset =>
    have found := Array.getElem?_eq_getElem (show offset < code.instructions.size from inside)
    rw [listed_succ found, listInstruction, if_neg (fresh offset _ rfl found)]
    exact ⟨rfl, rfl⟩

end Code

namespace Carries

variable {compiled : Compiled} {offset : Nat} {cell : Cell}
  (carries : Carries compiled.code offset cell) (fresh : compiled.code.Fresh offset)

include carries

theorem inside : offset + extensionCount cell.command.operand < compiled.code.size :=
  (Array.getElem?_eq_some_iff.mp carries.instruction).1

include fresh

private theorem listed_extensions (pools : Pools) {index : Nat}
    (few : index ≤ extensionCount cell.command.operand) :
    (compiled.code.listed pools (offset + index)).extended = collected cell.command.operand index
      ∧ (compiled.code.listed pools (offset + index)).extensions = index := by
  have inside := carries.inside
  induction index with
  | zero =>
    rw [collected_zero]
    exact fresh.listed (by omega)
  | succ index ih =>
    obtain ⟨extended, extensions⟩ := ih (by omega)
    have short : index + 1 < 8 := Nat.lt_of_le_of_lt few (Nat.lt_succ_of_le carries.few)
    rw [← Nat.add_assoc, Code.listed_succ (carries.extension few), Code.listInstruction, if_pos rfl]
    simp only [extended, extensions, if_pos short]
    exact ⟨collected_succ _ _, trivial⟩

theorem lists (pools : Pools) :
    compiled.code.Lists pools offset cell.command.opcode cell.command.operand := by
  have inside := carries.inside
  obtain ⟨extended, -⟩ := carries.listed_extensions fresh pools (Nat.le_refl _)
  obtain ⟨rest, listing⟩ := compiled.code.listing_of_listed pools
    (offset + extensionCount cell.command.operand + 1)
  refine ⟨rest, ?_⟩
  rw [listing, Code.listed_succ carries.instruction, Code.listInstruction, if_neg carries.whole]
  simp only [extended, collected_all, Code.offset_listed (Nat.le_of_lt inside)]

end Carries

/-! ## Placeholders -/

namespace Code

/-- Two codes have the same instructions in a run of slots. -/
def Agrees (first second : Code) (start width : Nat) : Prop :=
  ∀ index < width, first.instructions[start + index]? = second.instructions[start + index]?

theorem Agrees.carries {code written : Code} {start width operand : Nat} {opcode : Opcode}
    (agrees : code.Agrees written start width) (room : extensionCount operand < width)
    (holds : ∀ index < extensionCount operand + 1,
      written.instructions[start + index]? = (encode opcode operand)[index]?)
    (small : operand < 2 ^ 64) (whole : opcode ≠ .extendArgument) :
    Carries code start
      ⟨⟨opcode, operand⟩, code.lineAt? (start + extensionCount operand), 0, []⟩ where
  slots {index} inside := by
    have inside : index < extensionCount operand + 1 := inside
    rw [agrees index (by omega), holds index inside]
    rfl
  line := rfl
  narrow := small
  whole := whole

private theorem getElem?_emit (before : Code) (opcode : Opcode) (operand index : Nat) :
    (before.emit opcode operand).instructions[before.size + index]?
      = (encode opcode operand)[index]? := by
  have list : (before.emit opcode operand).instructions.toList
      = before.instructions.toList ++ encode opcode operand := by
    rw [emit, toList_append]
  rw [← Array.getElem?_toList, list, List.getElem?_append_right (by simp [size])]
  simp [size]

private theorem getElem?_reserve (before : Code) {index : Nat} (inside : index < before.reserve.1.width) :
    before.reserve.2.instructions[before.reserve.1.start + index]? = some { opcode := .nop } := by
  have list : before.reserve.2.instructions.toList = before.instructions.toList
      ++ List.replicate before.reserve.1.width { opcode := .nop } := by
    rw [reserve]
    exact toList_append _ _
  have start : before.reserve.1.start = before.instructions.toList.length := by
    simp [reserve, size]
  rw [← Array.getElem?_toList, list, start, List.getElem?_append_right (by simp)]
  simp [inside]

end Code

/-- A placeholder was turned into an instruction. -/
structure Patched (code after : Code) (placeholder : Placeholder) (opcode : Opcode) (target : Nat) :
    Prop where
  performs : ∀ compiled : Compiled,
    compiled.code.Agrees after placeholder.start placeholder.width →
    Performs compiled placeholder.start opcode target
      ∧ (compiled.code.Fresh placeholder.start →
        compiled.code.Lists compiled.pools placeholder.start opcode target)
  /-- The rest of the run stays empty. -/
  empty : ∀ index, extensionCount target < index → index < placeholder.width →
    after.instructions[placeholder.start + index]? = some { opcode := .nop }
  outside : ∀ index, index < placeholder.start ∨ placeholder.start + placeholder.width ≤ index →
    after.instructions[index]? = code.instructions[index]?
  marks : after.marks = code.marks

/-- Filling a reserved run makes an instruction of it. -/
theorem Code.patched {before code after : Code} {opcode : Opcode} {target : Nat}
    (reserved : code.Agrees before.reserve.2 before.reserve.1.start before.reserve.1.width)
    (patched : code.patch before.reserve.1 opcode target = .ok after) (small : target < 2 ^ 64)
    (whole : opcode ≠ .extendArgument) : Patched code after before.reserve.1 opcode target := by
  obtain ⟨holds, list, marks⟩ := Code.patch_ok patched
  have room := (before.reserve.1.holds_iff target).mp holds
  have empty {index : Nat} (inside : index < before.reserve.1.width) :
      code.instructions[before.reserve.1.start + index]? = some { opcode := .nop } :=
    (reserved index inside).trans (before.getElem?_reserve inside)
  have fits : before.reserve.1.start + (encode opcode target).length
      ≤ code.instructions.toList.length := by
    obtain ⟨inside, -⟩ := Array.getElem?_eq_some_iff.mp (empty (by omega : extensionCount target < _))
    rw [length_encode, Array.length_toList]
    omega
  have outside {index : Nat} (apart : index < before.reserve.1.start
      ∨ before.reserve.1.start + (extensionCount target + 1) ≤ index) :
      after.instructions[index]? = code.instructions[index]? := by
    rw [← Array.getElem?_toList, list, filled,
      getElem?_overwritten_of_outside (by rwa [length_encode]), Array.getElem?_toList]
  have written : ∀ index < extensionCount target + 1,
      after.instructions[before.reserve.1.start + index]? = (encode opcode target)[index]? := by
    intro index inside
    rw [← Array.getElem?_toList, list, filled, getElem?_overwritten fits (by rwa [length_encode])]
  refine ⟨fun compiled agrees => ?_, fun index behind inside => ?_, fun index apart => ?_, marks⟩
  · have carries := agrees.carries (by omega) written small whole
    exact ⟨carries.performs, fun fresh => carries.lists fresh _⟩
  · rw [outside (.inr (by omega)), empty inside]
  · exact outside (by omega)

/-- An operand of 64 bits has at most seven extensions. Wherever its instruction was emitted, a run
executes it once with that operand, and the listing shows it. A reserved placeholder takes the
targets below the power of 256 of its width: it becomes such an instruction in front of empty ones,
and where a target is refused the code stays as it is. -/
theorem operand_coding {opcode : Opcode} (whole : opcode ≠ .extendArgument) {operand : Nat}
    (small : operand < 2 ^ 64) :
    ((extensionBytes operand).length = extensionCount operand ∧ extensionCount operand ≤ 7)
      ∧ (∀ (before : Code) (compiled : Compiled),
        compiled.code.Agrees (before.emit opcode operand) before.size (extensionCount operand + 1) →
        Performs compiled before.size opcode operand
          ∧ (compiled.code.Fresh before.size →
            compiled.code.Lists compiled.pools before.size opcode operand))
      ∧ ∀ before code : Code,
        code.Agrees before.reserve.2 before.reserve.1.start before.reserve.1.width →
        ((∃ after, code.patch before.reserve.1 opcode operand = .ok after)
            ↔ operand < 256 ^ before.reserve.1.width)
          ∧ (∀ after, code.patch before.reserve.1 opcode operand = .ok after →
            Patched code after before.reserve.1 opcode operand)
          ∧ ∀ error, code.patch before.reserve.1 opcode operand = .error error →
            error = .jumpTargetOverflow before.reserve.1.start operand
              ∧ code.patchAll opcode operand [before.reserve.1] = (some error, code) := by
  refine ⟨⟨length_extensionBytes operand, (extensionCount_le_iff operand 7).mpr small⟩, fun before compiled agrees => ?_,
    fun before code reserved => ⟨?_, fun after patched => ?_, fun error refused => ?_⟩⟩
  · have carries := agrees.carries (Nat.lt_succ_self _)
      (fun index _ => before.getElem?_emit opcode operand index) small whole
    exact ⟨carries.performs, fun fresh => carries.lists fresh _⟩
  · have wide : 0 < before.reserve.1.width := Nat.lt_of_lt_of_le (by decide) (Nat.le_add_right 2 _)
    rw [← Placeholder.holds_iff_lt wide]
    exact ⟨fun ⟨_, patched⟩ => (Code.patch_ok patched).1, fun holds => code.patch_of_holds opcode holds⟩
  · exact Code.patched reserved patched small whole
  · unfold Code.patch at refused
    split at refused
    · cases refused
    · next full =>
      cases refused
      exact ⟨rfl, by rw [Code.patchAll, if_neg full]⟩

/-- A jump to the first target that two slots cannot hold takes two extensions. -/
theorem operand_coding_wide_jump : Opcode.jump ≠ .extendArgument ∧ 65536 < 2 ^ 64
    ∧ extensionCount 65536 = 2
    ∧ (∀ compiled : Compiled, compiled.code = Code.emit {} .jump 65536 →
      Performs compiled 0 .jump 65536 ∧ compiled.code.Lists compiled.pools 0 .jump 65536)
    ∧ ∃ error, Code.patch (Code.reserve {}).2 (Code.reserve {}).1 .jump 65536 = .error error := by
  have coding := operand_coding (by decide : Opcode.jump ≠ .extendArgument)
    (by decide : 65536 < 2 ^ 64)
  obtain ⟨-, emitted, reserved⟩ := coding
  refine ⟨by decide, by decide, by cbv, fun compiled same => ?_, ?_⟩
  · obtain ⟨performs, lists⟩ := emitted {} compiled fun _ _ => same ▸ rfl
    exact ⟨performs, lists fun index _ next => by cases next⟩
  · obtain ⟨takes, -, -⟩ := reserved {} (Code.reserve {}).2 fun _ _ => rfl
    cases patched : Code.patch (Code.reserve {}).2 (Code.reserve {}).1 .jump 65536 with
    | ok after => exact absurd (takes.mp ⟨after, patched⟩) (by cbv)
    | error error => exact ⟨error, rfl⟩

end ScopeMachine
