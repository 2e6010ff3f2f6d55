import ScopeMachine.Code.Listing
import ScopeMachine.Compile.Operation

set_option autoImplicit false

/-!
# Code of blocks

Statements are emitted in order. A block belongs to the statement before it: the body of a clause,
a loop or a method, or a block of its own. Jumps around the arms of an if chain wait until the chain
is over.
-/

namespace ScopeMachine

structure Compiled where
  code : Code
  pools : Pools

namespace Compiled

def listing (compiled : Compiled) : String :=
  compiled.code.listing compiled.pools

end Compiled

/-- A position within a block: the code so far, the jumps of this block that wait, and the kind and
the start of the statement that owns the next entry, if that is a block. -/
structure Cursor where
  draft : Draft
  jumps : PendingJumps := {}
  owner : Option (Kind × Nat) := none

namespace Cursor

/-- Points all waiting jumps at the next instruction. -/
def resolve : Cursor → Except CompileError Cursor
  | ⟨⟨code, openMethod⟩, jumps, owner⟩ =>
    let target := code.size
    match jumps.resolve target code with
    | (none, jumps, code) => .ok ⟨⟨code, openMethod⟩, jumps, owner⟩
    | (some error, _, _) => .error error

/-- Points the latest false branch at the next instruction, where a further clause begins. -/
def resolveClause (kind : Kind) (line : Nat) : Cursor → Except CompileError Cursor
  | ⟨⟨code, openMethod⟩, jumps, owner⟩ =>
    let target := code.size
    match jumps.resolveClause target code with
    | (.ok true, jumps, code) => .ok ⟨⟨code, openMethod⟩, jumps, owner⟩
    | (.ok false, _, _) => .error (.danglingClause kind line)
    | (.error error, _, _) => .error error

def branch : Cursor → Cursor
  | ⟨draft, jumps, owner⟩ =>
    let (placeholder, draft) := draft.reserve
    ⟨draft, jumps.addBranch placeholder, owner⟩

def exit : Cursor → Cursor
  | ⟨draft, jumps, owner⟩ =>
    let (placeholder, draft) := draft.reserve
    ⟨draft, jumps.addExit placeholder, owner⟩

/-- Adds a statement. A clause that continues a chain takes over the false branch before it; any
other statement ends the chain. Only conditions leave no result to pop. -/
def statement (pools : Pools) (operation : Operation) (cursor : Cursor) :
    Except CompileError Cursor := do
  let kind := operation.kind
  let ⟨⟨code, openMethod⟩, jumps, _⟩ ←
    (if kind.continuesIfChain then cursor.resolveClause kind operation.line else cursor.resolve)
  let start := code.size
  let draft ← Compile.operation pools .value operation ⟨code.mark start operation.line, openMethod⟩
  let draft := if kind.isConditionalJump then draft else draft.simple .endStatement
  let cursor : Cursor := ⟨draft, jumps, some (kind, start)⟩
  .ok (if kind.isIfConditional then cursor.branch else cursor)

/-- Gets ready for a block. The body of an arm keeps the jumps of its chain waiting. -/
def beforeBlock (cursor : Cursor) : Except CompileError Cursor :=
  match cursor.owner with
  | some (kind, _) => if kind.isIfChain then .ok cursor else cursor.resolve
  | none => cursor.resolve

end Cursor

namespace Draft

/-- Fills the place of the open method's body with the next instruction, after room for the jump
around the body. -/
def beginMethod : Draft → Except CompileError (Placeholder × Draft)
  | ⟨_, none⟩ => .error (.missingMethodBody 0)
  | ⟨code, some (place, _)⟩ =>
    let (skip, code) := code.reserve
    let start := code.size
    match code.patch place .bindSection start with
    | .ok code => .ok (skip, ⟨code, none⟩)
    | .error error => .error error

end Draft

namespace Compile

mutual

def entry (pools : Pools) : Entry → Cursor → Except CompileError Cursor
  | .statement operation, cursor => cursor.statement pools operation
  | .block body, cursor => do
    let ⟨draft, jumps, owner⟩ ← cursor.beforeBlock
    match owner with
    | some (.while, start) =>
      let (exit, draft) := draft.reserve
      let draft ← entries pools body ⟨draft.simple .enterLocal, {}, none⟩
      let draft := (draft.simple .leaveLocal).emit .jump start
      let target := draft.size
      let draft ← draft.patch exit .jumpIfFalse target
      .ok ⟨draft, jumps, none⟩
    | some (.defineMethod, _) =>
      let (skip, draft) ← draft.beginMethod
      let draft ← entries pools body ⟨draft, {}, none⟩
      let draft := draft.emit .return 0
      let target := draft.size
      let draft ← draft.patch skip .jump target
      .ok ⟨draft, jumps, none⟩
    | owner =>
      let draft ← entries pools body ⟨draft.simple .enterLocal, {}, none⟩
      let cursor : Cursor := ⟨draft.simple .leaveLocal, jumps, none⟩
      match owner with
      | some (.if, _) | some (.elseIf, _) => .ok cursor.exit
      | _ => .ok cursor
termination_by structural entry => entry

/-- Adds the entries of a block from a position on, and points the jumps that still wait past its
end. -/
def entries (pools : Pools) : List Entry → Cursor → Except CompileError Draft
  | [], cursor =>
    match cursor.resolve with
    | .ok cursor => .ok cursor.draft
    | .error error => .error error
  | first :: rest, cursor => do
    let cursor ← entry pools first cursor
    entries pools rest cursor
termination_by structural block => block

end

def block (pools : Pools) (body : Block) (draft : Draft) : Except CompileError Draft :=
  entries pools body { draft }

end Compile

namespace Program

/-- The code of a program. The main block ends with an implicit return. -/
def compile (program : Program) : Except CompileError Compiled := do
  let pools := Pools.ofProgram program
  let draft ← Compile.block pools program.main {}
  match draft.openMethod with
  | some (_, line) => .error (.missingMethodBody line)
  | none => .ok ⟨(draft.emit .return 0).code, pools⟩

end Program

end ScopeMachine
