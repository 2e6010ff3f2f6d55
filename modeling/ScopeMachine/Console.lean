set_option autoImplicit false

/-!
# The console

The lines a program has written and the bytes it can still read.
-/

namespace ScopeMachine

structure Console where
  output : String := ""
  input : List UInt8 := []
deriving Inhabited

namespace Console

def writeLine (console : Console) (text : String) : Console :=
  { console with output := console.output ++ text ++ "\n" }

def clear (console : Console) : Console :=
  { console with output := "" }

def splitLine (bytes : List UInt8) : List UInt8 × List UInt8 :=
  match bytes.dropWhile (· != 10) with
  | [] => (bytes, [])
  | newline :: rest => (bytes.takeWhile (· != 10) ++ [newline], rest)

def trimLine (text : String) : String :=
  String.ofList (text.toList.reverse.dropWhile fun c => c == '\n' || c == '\r').reverse

/-- Reads one line without its end. The end of the input reads as an empty line, and `none` stands
for bytes that are not UTF-8; those are consumed as well. -/
def readLine (console : Console) : Option String × Console :=
  let (line, rest) := splitLine console.input
  ((String.fromUTF8? line.toByteArray).map trimLine, { console with input := rest })

end Console

end ScopeMachine
