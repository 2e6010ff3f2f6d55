import ScopeMachine.Machine.Run
import ScopeMachine.Program.Exchange

set_option autoImplicit false

/-!
# The engine

An engine runs programs one after the other on one machine. Each run resets the machine first; the
configuration and the unread input carry over, and the state of the last run stays readable.
-/

namespace ScopeMachine

inductive Failure where
  | unreadable
  | malformed
  | compile (error : CompileError)
  | fatal (line : Nat) (fault : Fault)
  /-- The bound on instructions was reached. -/
  | unfinished
deriving DecidableEq

namespace Failure

def message : Failure → String
  | .unreadable => "I/O error: No such file or directory (os error 2)"
  | .malformed => "JSON parse error: not a program"
  | .compile error => "CompileError: " ++ error.message
  | .fatal line fault => "line " ++ toString line ++ ": " ++ fault.message
  | .unfinished => "the program did not end"

end Failure

structure Execution where
  output : String
  result : Option Binding
  reports : List Report

/-! ## Runs in succession -/

/-- A machine with what its last run came to. A run that is over, by a return of the program, has
halted. -/
structure Runner where
  machine : Machine
  result : Option BindingId := none
  halted : Bool := false

namespace Runner

def reset (runner : Runner) (pools : Pools) : Runner :=
  { machine := runner.machine.reset pools, result := none, halted := false }

/-- Dispatches until the runner has halted, up to a number of instructions. -/
def run (compiled : Compiled) (fuel : Nat) (runner : Runner) : Progress :=
  if runner.halted then .finished runner.result runner.machine
  else runner.machine.run compiled fuel

/-- What is left of a run. A program that has returned has no frames, unlike one whose code came to its
end without a return. -/
def ofProgress : Progress → Runner
  | .running machine => { machine }
  | .finished result machine => { machine, result, halted := machine.frames.isEmpty }
  | .failed _ _ machine => { machine }

/-- Runs code, whatever the runner has run before and however that ended. -/
def execute (compiled : Compiled) (fuel : Nat) (runner : Runner) : Progress × Runner :=
  let progress := (runner.reset compiled.pools).run compiled fuel
  (progress, ofProgress progress)

end Runner

/-- A runner and the bound on the instructions of a run. -/
structure Engine extends Runner where
  fuel : Nat

namespace Engine

def start (config : Config) (input : List UInt8) (fuel : Nat) : Engine :=
  { machine := .fresh config input, fuel }

def setConfig (engine : Engine) (config : Config) : Engine :=
  { engine with machine := { engine.machine with config } }

def setInput (engine : Engine) (input : List UInt8) : Engine :=
  { engine with machine :=
    { engine.machine with console := { engine.machine.console with input } } }

/-- Runs compiled code. The engine keeps the machine, also after a fault. -/
def runCompiled (engine : Engine) (compiled : Compiled) : Except Failure Execution × Engine :=
  let ⟨runner, fuel⟩ := engine
  let (progress, runner) := runner.execute compiled fuel
  let answer := match progress with
    | .finished result machine =>
      .ok
        { output := machine.console.output
          result := result.bind machine.heap.bindings.get?
          reports := machine.reports.toList }
    | .failed line fault _ => .error (.fatal line fault)
    | .running _ => .error .unfinished
  (answer, ⟨runner, fuel⟩)

/-- Compiles and runs a program. A program that is refused leaves the engine as it was. -/
def run (engine : Engine) (program : Program) : Except Failure Execution × Engine :=
  match program.compile with
  | .error error => (.error (.compile error), engine)
  | .ok compiled => engine.runCompiled compiled

def runText (engine : Engine) (text : String) : Except Failure Execution × Engine :=
  match Program.parse? text with
  | none => (.error .malformed, engine)
  | some program => engine.run program

/-- Runs the program of a file, given what the file holds if it can be read. -/
def runFile (engine : Engine) (content : Option String) : Except Failure Execution × Engine :=
  match content with
  | none => (.error .unreadable, engine)
  | some text => engine.runText text

def runFiles (engine : Engine) (contents : List (Option String)) :
    List (Except Failure Execution) × Engine :=
  let (results, engine) := contents.foldl
    (fun (results, engine) content =>
      let (result, engine) := runFile engine content
      (result :: results, engine))
    ([], engine)
  (results.reverse, engine)

end Engine

def compileFile (content : Option String) : Except Failure Compiled :=
  match content with
  | none => .error .unreadable
  | some text =>
    match Program.parse? text with
    | none => .error .malformed
    | some program => program.compile.mapError .compile

def compileAll (programs : List Program) : List (Except CompileError Compiled) :=
  programs.map Program.compile

end ScopeMachine
