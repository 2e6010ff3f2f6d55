import ScopeMachine.CommandLine

set_option autoImplicit false

/-!
# The process

Reads the files that the arguments name and the standard input, and writes the answer.
-/

namespace ScopeMachine

def readFile? (path : String) : IO (Option String) := do
  try
    return some (← IO.FS.readFile path)
  catch _ =>
    return none

/-- The paths that arguments may name, with what the files hold. -/
def readFiles (options : CommandLine.Options) : IO (List (String × String)) := do
  let paths := options.program.toList ++ options.config.toList
  let mut files := []
  for path in paths do
    if let some content ← readFile? path then
      files := (path, content) :: files
  return files

def processFuel : Nat := 0x4000000000000000

end ScopeMachine

open ScopeMachine in
def main (arguments : List String) : IO UInt32 := do
  let options := (CommandLine.parse? arguments).getD {}
  let files ← readFiles options
  let input ← (← IO.getStdin).readBinToEnd
  let answer := CommandLine.answer arguments (fun path => files.lookup path) input.toList
    processFuel
  IO.print answer.output
  for line in answer.errors do
    IO.eprintln line
  return answer.exitCode.toUInt32
