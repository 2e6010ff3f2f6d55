import ScopeMachine.Json.Decode
import ScopeMachine.Json.Reader

set_option autoImplicit false

/-!
# Configuration

Settings of a machine, and their JSON form.
-/

namespace ScopeMachine

structure Config where
  /-- Show output while it is written. -/
  echoOutput : Bool := false
  /-- The largest number of active frames, the program's own included. -/
  maxCallDepth : Nat := 1024
  traceInstructions : Bool := false
deriving DecidableEq, Repr, Inhabited

namespace Config

def fieldNames : List String := ["echo_output", "max_call_depth", "trace_instructions"]

def decode? (json : Json) : Option Config :=
  match json.fields? fieldNames with
  | some [echo, depth, trace] => do
    let base : Config := {}
    some
      { echoOutput := ← Json.optional base.echoOutput Json.boolean? echo
        maxCallDepth := ← Json.optional base.maxCallDepth Json.word? depth
        traceInstructions := ← Json.optional base.traceInstructions Json.boolean? trace }
  | _ => none

def parse? (text : String) : Option Config :=
  Json.parse? text >>= decode?

end Config

end ScopeMachine
