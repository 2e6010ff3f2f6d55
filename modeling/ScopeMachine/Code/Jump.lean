import ScopeMachine.Code.Basic
import ScopeMachine.Compile.Error

set_option autoImplicit false

/-!
# Jumps that wait for their target

A forward jump is emitted before its target is known. A run of empty instructions keeps its place
and is overwritten once the target is there. The run has room for one extension more than the
current length of the code needs.
-/

namespace ScopeMachine

structure Placeholder where
  start : Nat
  width : Nat
deriving DecidableEq, Repr, Inhabited

/-- The number of instructions reserved when the code has the given length. -/
def placeholderWidth (length : Nat) : Nat :=
  2 + extensionCount length

/-- The run has room for a jump to the target. -/
def Placeholder.holds (placeholder : Placeholder) (target : Nat) : Bool :=
  extensionCount target + 1 ≤ placeholder.width

namespace Code

def reserve (code : Code) : Placeholder × Code :=
  let width := placeholderWidth code.size
  (⟨code.size, width⟩, code.append (List.replicate width { opcode := .nop }))

def overwrite (code : Code) (offset : Nat) : List Instruction → Code
  | [] => code
  | instruction :: rest =>
    overwrite { code with instructions := code.instructions.setIfInBounds offset instruction }
      (offset + 1) rest

def fill (code : Code) (placeholder : Placeholder) (opcode : Opcode) (target : Nat) : Code :=
  code.overwrite placeholder.start (encode opcode target)

/-- Fills a placeholder, unless the target needs more room than was reserved. -/
def patch (code : Code) (placeholder : Placeholder) (opcode : Opcode) (target : Nat) :
    Except CompileError Code :=
  if placeholder.holds target then .ok (code.fill placeholder opcode target)
  else .error (.jumpTargetOverflow placeholder.start target)

def patchAll (opcode : Opcode) (target : Nat) :
    List Placeholder → Code → Option CompileError × Code
  | [], code => (none, code)
  | placeholder :: rest, code =>
    if placeholder.holds target then
      patchAll opcode target rest (code.fill placeholder opcode target)
    else (some (.jumpTargetOverflow placeholder.start target), code)

end Code

/-- The jumps of one block that still wait for their target. -/
structure PendingJumps where
  /-- Jumps out of the finished arms of an if chain. -/
  exits : Array Placeholder := #[]
  /-- False branches of conditions. -/
  branches : Array Placeholder := #[]
deriving DecidableEq, Repr, Inhabited

namespace PendingJumps

def isPending (jumps : PendingJumps) : Bool :=
  !jumps.exits.isEmpty || !jumps.branches.isEmpty

def addExit (jumps : PendingJumps) (placeholder : Placeholder) : PendingJumps :=
  { jumps with exits := jumps.exits.push placeholder }

def addBranch (jumps : PendingJumps) (placeholder : Placeholder) : PendingJumps :=
  { jumps with branches := jumps.branches.push placeholder }

/-- Points every waiting jump at the target, exits first. A refusal stops the work: the list that
it occurred in is dropped, and branches are kept if they were not reached. -/
def resolve (jumps : PendingJumps) (target : Nat) (code : Code) :
    Option CompileError × PendingJumps × Code :=
  match code.patchAll .jump target jumps.exits.toList with
  | (some error, code) => (some error, { jumps with exits := #[] }, code)
  | (none, code) =>
    let (failure, code) := code.patchAll .jumpIfFalse target jumps.branches.toList
    (failure, {}, code)

/-- Points the latest false branch at the target and leaves the exits waiting. The truth value says
whether there was a branch; it is removed even when its target is refused. -/
def resolveClause (jumps : PendingJumps) (target : Nat) (code : Code) :
    Except CompileError Bool × PendingJumps × Code :=
  match jumps.branches.back? with
  | none => (.ok false, jumps, code)
  | some placeholder =>
    let jumps := { jumps with branches := jumps.branches.pop }
    match code.patchAll .jumpIfFalse target [placeholder] with
    | (some error, code) => (.error error, jumps, code)
    | (none, code) => (.ok true, jumps, code)

end PendingJumps

end ScopeMachine
