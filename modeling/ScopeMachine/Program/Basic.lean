import ScopeMachine.Decimal.Basic
import ScopeMachine.Program.Kind

set_option autoImplicit false

/-!
# Programs

A program is a block: a list of statements and nested blocks. A statement is a tree of operations.
A control-flow statement or a method definition owns the block that follows it.
-/

namespace ScopeMachine

inductive Literal where
  | integer (value : Int64)
  | decimal (value : Decimal)
  | boolean (value : Bool)
  | text (value : String)
deriving DecidableEq, Repr

inductive Reference where
  | name (name : String)
  | literal (literal : Literal)
deriving DecidableEq, Repr

/-- A statement or expression node. A line of zero means that none is known. -/
structure Operation where
  kind : Kind
  operands : List Operation := []
  value : Option Reference := none
  line : Nat := 0

namespace Operation

mutual

def decEq : (a b : Operation) → Decidable (a = b)
  | ⟨kind, operands, value, line⟩, ⟨kind', operands', value', line'⟩ =>
    if own : kind = kind' ∧ value = value' ∧ line = line' then
      match decEqAll operands operands' with
      | .isTrue below => .isTrue (by rw [own.1, own.2.1, own.2.2, below])
      | .isFalse differ => .isFalse fun same => differ (Operation.mk.inj same).2.1
    else .isFalse fun same =>
      own ⟨(Operation.mk.inj same).1, (Operation.mk.inj same).2.2⟩
termination_by structural a => a

def decEqAll : (a b : List Operation) → Decidable (a = b)
  | [], [] => .isTrue rfl
  | [], _ :: _ => .isFalse nofun
  | _ :: _, [] => .isFalse nofun
  | first :: rest, first' :: rest' =>
    match decEq first first', decEqAll rest rest' with
    | .isTrue head, .isTrue tail => .isTrue (by rw [head, tail])
    | .isFalse differ, _ => .isFalse fun same => differ (List.cons.inj same).1
    | _, .isFalse differ => .isFalse fun same => differ (List.cons.inj same).2
termination_by structural a => a

end

instance : DecidableEq Operation := decEq

end Operation

inductive Entry where
  | statement (operation : Operation)
  | block (body : List Entry)

namespace Entry

mutual

def decEq : (a b : Entry) → Decidable (a = b)
  | .statement operation, .statement operation' =>
    if same : operation = operation' then .isTrue (by rw [same])
    else .isFalse fun equal => same (Entry.statement.inj equal)
  | .statement _, .block _ => .isFalse nofun
  | .block _, .statement _ => .isFalse nofun
  | .block body, .block body' =>
    match decEqAll body body' with
    | .isTrue same => .isTrue (by rw [same])
    | .isFalse differ => .isFalse fun equal => differ (Entry.block.inj equal)
termination_by structural a => a

def decEqAll : (a b : List Entry) → Decidable (a = b)
  | [], [] => .isTrue rfl
  | [], _ :: _ => .isFalse nofun
  | _ :: _, [] => .isFalse nofun
  | first :: rest, first' :: rest' =>
    match decEq first first', decEqAll rest rest' with
    | .isTrue head, .isTrue tail => .isTrue (by rw [head, tail])
    | .isFalse differ, _ => .isFalse fun same => differ (List.cons.inj same).1
    | _, .isFalse differ => .isFalse fun same => differ (List.cons.inj same).2
termination_by structural a => a

end

instance : DecidableEq Entry := decEq

end Entry

abbrev Block := List Entry

structure Program where
  main : Block := []
deriving DecidableEq

/-! ## Names -/

/-- The name of the object that stands for no value, no caller and no arguments. -/
def nothingName : String := "Nothing"

namespace Operation

def leafName? : Operation → Option String
  | ⟨.ref, _, some (.name name), _⟩ => some name
  | ⟨.scopeResolution, [inner], _, _⟩ => inner.leafName?
  | _ => none

def isNothing (operation : Operation) : Bool :=
  operation.leafName? == some nothingName

mutual

/-- Gives a line to a node and to every node below it that has none. -/
def atLine (line : Nat) : Operation → Operation
  | ⟨kind, operands, value, own⟩ =>
    ⟨kind, atLineAll line operands, value, if own = 0 then line else own⟩

def atLineAll (line : Nat) : List Operation → List Operation
  | [] => []
  | operation :: rest => atLine line operation :: atLineAll line rest

end

end Operation

end ScopeMachine
