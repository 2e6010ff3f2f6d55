import ScopeMachine.Program.Kind

set_option autoImplicit false

/-!
# Compile errors

Why a program has no code: a malformed shape, or a jump that does not fit its place.
-/

namespace ScopeMachine

/-- The reasons for which a program is refused. Lines are those of the offending nodes. -/
inductive CompileError where
  | operandCount (kind : Kind) (line expected found : Nat)
  | expectedName (line : Nat)
  | missingReference (line : Nat)
  /-- A tuple that is no argument or parameter list. -/
  | misplacedTuple (line : Nat)
  /-- A clause that continues no if. -/
  | danglingClause (kind : Kind) (line : Nat)
  | missingMethodBody (line : Nat)
  /-- A leaf that the pools do not hold. -/
  | notInterned (text : String)
  /-- A jump target that needs more bytes than were reserved at the placeholder. -/
  | jumpTargetOverflow (start target : Nat)
deriving DecidableEq, Repr

namespace CompileError

def message : CompileError → String
  | .operandCount kind line expected found =>
    "line " ++ toString line ++ ": " ++ kind.name ++ " expects " ++ toString expected
      ++ " operand(s), found " ++ toString found
  | .expectedName line => "line " ++ toString line ++ ": expected a name"
  | .missingReference line => "line " ++ toString line ++ ": reference carries no value"
  | .misplacedTuple line =>
    "line " ++ toString line ++ ": a tuple is only valid as an argument or parameter list"
  | .danglingClause kind line =>
    "line " ++ toString line ++ ": " ++ kind.name ++ " without a preceding if"
  | .missingMethodBody line => "line " ++ toString line ++ ": method definition has no body"
  | .notInterned text => "'" ++ text ++ "' is missing from the interning pools"
  | .jumpTargetOverflow start target =>
    "jump target " ++ toString target ++ " does not fit the placeholder at " ++ toString start

end CompileError

end ScopeMachine
