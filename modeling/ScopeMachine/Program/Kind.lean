set_option autoImplicit false

/-!
# Kinds of operations

What a node of a program does. The kind alone decides how many operands a node takes and where it
may stand.
-/

namespace ScopeMachine

/-- The kind of a statement or expression node. -/
inductive Kind where
  | ref
  /-- A name by itself, or a member of a target. -/
  | scopeResolution
  | assign
  | isEqual
  | isNotEqual
  | isLessThan
  | isGreaterThan
  | isLessThanOrEqual
  | isGreaterThanOrEqual
  | add
  | subtract
  | multiply
  | divide
  | and
  | or
  | not
  | evaluate
  | print
  | ask
  | return
  | if
  | elseIf
  | else
  | while
  | defineMethod
  | new
  /-- A list of arguments or parameters. -/
  | tuple
  | index
deriving DecidableEq, Repr, Inhabited

namespace Kind

def all : List Kind :=
  [.ref, .scopeResolution, .assign, .isEqual, .isNotEqual, .isLessThan, .isGreaterThan,
    .isLessThanOrEqual, .isGreaterThanOrEqual, .add, .subtract, .multiply, .divide, .and, .or, .not,
    .evaluate, .print, .ask, .return, .if, .elseIf, .else, .while, .defineMethod, .new, .tuple,
    .index]

def name : Kind → String
  | .ref => "Ref"
  | .scopeResolution => "ScopeResolution"
  | .assign => "Assign"
  | .isEqual => "IsEqual"
  | .isNotEqual => "IsNotEqual"
  | .isLessThan => "IsLessThan"
  | .isGreaterThan => "IsGreaterThan"
  | .isLessThanOrEqual => "IsLessThanOrEqual"
  | .isGreaterThanOrEqual => "IsGreaterThanOrEqual"
  | .add => "Add"
  | .subtract => "Subtract"
  | .multiply => "Multiply"
  | .divide => "Divide"
  | .and => "And"
  | .or => "Or"
  | .not => "Not"
  | .evaluate => "Evaluate"
  | .print => "Print"
  | .ask => "Ask"
  | .return => "Return"
  | .if => "If"
  | .elseIf => "ElseIf"
  | .else => "Else"
  | .while => "While"
  | .defineMethod => "DefineMethod"
  | .new => "New"
  | .tuple => "Tuple"
  | .index => "Index"

def ofName? (text : String) : Option Kind :=
  all.find? fun kind => kind.name == text

/-- Statements that transfer control and leave no result. -/
def isConditionalJump : Kind → Bool
  | .if | .elseIf | .else | .while => true
  | _ => false

/-- Clauses that test a condition before their body. -/
def isIfConditional : Kind → Bool
  | .if | .elseIf => true
  | _ => false

def isIfChain : Kind → Bool
  | .if | .elseIf | .else => true
  | _ => false

/-- Clauses that continue an if chain opened earlier. -/
def continuesIfChain : Kind → Bool
  | .elseIf | .else => true
  | _ => false

theorem ofName?_name (kind : Kind) : ofName? kind.name = some kind := by
  cases kind <;> rfl

end Kind

end ScopeMachine
