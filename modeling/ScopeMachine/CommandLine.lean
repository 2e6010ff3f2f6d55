import ScopeMachine.Engine

set_option autoImplicit false

/-!
# The command line

A program file is run, or listed, as the arguments say. Everything that the process reads is given:
the files by name and the standard input; the answer says what it writes and its exit code.
-/

namespace ScopeMachine.CommandLine

structure Options where
  program : Option String := none
  disassemble : Bool := false
  quiet : Bool := false
  config : Option String := none
  maxCallDepth : Option Nat := none
  verbose : Bool := false
  trace : Bool := false
deriving DecidableEq, Repr

structure Answer where
  exitCode : Nat
  output : String := ""
  errors : List String := []
deriving DecidableEq, Repr

/-! ## Arguments -/

/-- A natural number of 64 bits in decimal digits, with an optional plus sign. -/
def number? (text : String) : Option Nat :=
  let digits := match text.toList with
    | '+' :: rest => rest
    | cs => cs
  if digits.isEmpty || !digits.all Json.isDigit then none
  else
    let value := Json.Numeral.valueOf digits
    if value < UInt64.size then some value else none

def flag (options : Options) (name : String) : Option Options :=
  if name = "disassemble" && !options.disassemble then some { options with disassemble := true }
  else if name = "quiet" && !options.quiet then some { options with quiet := true }
  else if name = "verbose" && !options.verbose then some { options with verbose := true }
  else if name = "trace" && !options.trace then some { options with trace := true }
  else none

def setting (options : Options) (name value : String) : Option Options :=
  if name = "config" && options.config.isNone then some { options with config := some value }
  else if name = "max-call-depth" && options.maxCallDepth.isNone then
    (number? value).map fun depth => { options with maxCallDepth := some depth }
  else none

def positional (options : Options) (argument : String) : Option Options :=
  if options.program.isNone then some { options with program := some argument } else none

inductive Argument where
  /-- A long option with the value after its equals sign, if there is one. -/
  | long (name : String) (value : Option String)
  /-- Short options, of which the last may be followed by its value. -/
  | short (letters : List Char)
  /-- The mark after which all arguments are positional. -/
  | separator
  | positional (text : String)
deriving DecidableEq, Repr

def Argument.ofText (text : String) : Argument :=
  match text.toList with
  | ['-', '-'] => .separator
  | '-' :: '-' :: rest =>
    match rest.dropWhile (· != '=') with
    | [] => .long (String.ofList rest) none
    | _ :: value => .long (String.ofList (rest.takeWhile (· != '='))) (some (String.ofList value))
  | ['-'] => .positional text
  | '-' :: letters => .short letters
  | _ => .positional text

def shortFlag? : Char → Option String
  | 'd' => some "disassemble"
  | 'q' => some "quiet"
  | _ => none

/-- Short options in one argument. The value of an option follows it directly, perhaps after an
equals sign; when nothing follows, the truth value asks for the next argument. -/
def shorts (options : Options) : List Char → Option (Options × Bool)
  | [] => some (options, false)
  | 'c' :: [] => some (options, true)
  | 'c' :: '=' :: value => (setting options "config" (String.ofList value)).map (·, false)
  | 'c' :: value => (setting options "config" (String.ofList value)).map (·, false)
  | letter :: rest =>
    match (shortFlag? letter).bind (flag options) with
    | some options => shorts options rest
    | none => none

/-- An option that takes a value and has none of its own. -/
def awaitsValue (name : String) : Bool :=
  name = "config" || name = "max-call-depth"

/-- A text that can be the value of an option given as a separate argument. -/
def isValue (text : String) : Bool :=
  match Argument.ofText text with
  | .positional _ => true
  | _ => false

/-- Reads arguments in order; `none` when they make no sense. -/
def parseFrom (options : Options) : List String → Option Options
  | [] => if options.program.isSome then some options else none
  | argument :: rest =>
    match Argument.ofText argument with
    | .separator =>
      match rest.foldlM positional options with
      | some options => if options.program.isSome then some options else none
      | none => none
    | .positional text => (positional options text).bind fun options => parseFrom options rest
    | .long name (some value) =>
      (setting options name value).bind fun options => parseFrom options rest
    | .long name none =>
      if awaitsValue name then
        match rest with
        | value :: rest =>
          if isValue value then
            (setting options name value).bind fun options => parseFrom options rest
          else none
        | [] => none
      else (flag options name).bind fun options => parseFrom options rest
    | .short letters =>
      match shorts options letters with
      | none => none
      | some (options, false) => parseFrom options rest
      | some (options, true) =>
        match rest with
        | value :: rest =>
          if isValue value then
            (setting options "config" value).bind fun options => parseFrom options rest
          else none
        | [] => none

def parse? (arguments : List String) : Option Options :=
  parseFrom {} arguments

/-! ## Output -/

/-- The escape character of terminal colours. -/
def escapeCode (number : String) : String :=
  String.ofList [Char.ofNat 0x1b, '['] ++ number ++ "m"

def highlighted (colour word : String) : String :=
  escapeCode "1" ++ escapeCode colour ++ word ++ escapeCode "39" ++ escapeCode "0"

def errorLine (message : String) : String :=
  highlighted "31" "Error" ++ ": " ++ message

def reportLine (report : Report) : String :=
  if report.isFatal then errorLine report.display
  else highlighted "33" "Warning" ++ ": " ++ report.display

/-- An error outside of any program, with its cause. -/
def failureLines (message cause : String) : List String :=
  ["Error: " ++ message, "", "Caused by:", "    " ++ cause]

/-! ## The process -/

/-- The configuration that the options name, or the lines that say why there is none. -/
def readConfig (options : Options) (files : String → Option String) :
    Except (List String) Config :=
  match options.config with
  | none => .ok {}
  | some path =>
    match files path with
    | none =>
      .error (failureLines ("failed to read config " ++ path)
        "No such file or directory (os error 2)")
    | some text =>
      match Config.parse? text with
      | none => .error (failureLines ("invalid config " ++ path) "not a configuration")
      | some config => .ok config

/-- A configuration as the options change it. Echo is theirs alone to decide. -/
def adjust (options : Options) (config : Config) : Config :=
  { echoOutput := !options.quiet
    traceInstructions := config.traceInstructions || options.trace
    maxCallDepth := options.maxCallDepth.getD config.maxCallDepth }

/-- Runs a program. Output is echoed unless the process is to be quiet. -/
def execute (config : Config) (content : Option String) (input : List UInt8) (fuel : Nat) :
    Answer :=
  let (result, engine) := (Engine.start config input fuel).runFile content
  let output := if config.echoOutput then engine.machine.console.output else ""
  match result with
  | .ok execution => { exitCode := 0, output, errors := execution.reports.map reportLine }
  | .error (.fatal _ _) =>
    { exitCode := 1, output, errors := engine.machine.reports.toList.map reportLine }
  | .error failure => { exitCode := 1, output, errors := [errorLine failure.message] }

def disassemble (path : String) (content : Option String) : Answer :=
  match compileFile content with
  | .ok compiled => { exitCode := 0, output := compiled.listing }
  | .error failure =>
    { exitCode := 1, errors := failureLines ("failed to compile " ++ path) failure.message }

def answer (arguments : List String) (files : String → Option String) (input : List UInt8)
    (fuel : Nat) : Answer :=
  match parse? arguments with
  | some options =>
    match options.program with
    | some path =>
      match readConfig options files with
      | .error lines => { exitCode := 1, errors := lines }
      | .ok config =>
        if options.disassemble then disassemble path (files path)
        else execute (adjust options config) (files path) input fuel
    | none => { exitCode := 2, errors := ["error: no program file"] }
  | none => { exitCode := 2, errors := ["error: invalid arguments"] }

end ScopeMachine.CommandLine
