set_option autoImplicit false

/-!
# Numerals

A number of a JSON text, kept as it is spelled. What it denotes depends on who reads it: an integer
field takes only whole spellings, a decimal field takes all of them.
-/

namespace ScopeMachine.Json

/-- A spelled number: an optional minus sign, digits, and optionally a fraction and an exponent.
The exponent carries its own sign, true for negative. -/
structure Numeral where
  negative : Bool
  whole : List Char
  fraction : Option (List Char)
  exponent : Option (Bool × List Char)
deriving DecidableEq, Repr, Inhabited

namespace Numeral

def digitValue (c : Char) : Nat :=
  c.toNat - '0'.toNat

/-- The number that a run of digits spells. -/
def valueOf (digits : List Char) : Nat :=
  digits.foldl (fun value digit => value * 10 + digitValue digit) 0

/-- The usual spelling of a natural number. -/
def ofNat (n : Nat) : Numeral :=
  { negative := false, whole := Nat.toDigits 10 n, fraction := none, exponent := none }

/-- The usual spelling of an integer. -/
def ofInt (n : Int) : Numeral :=
  { negative := n < 0, whole := Nat.toDigits 10 n.natAbs, fraction := none, exponent := none }

/-- A spelling without fraction and exponent. -/
def isWhole (n : Numeral) : Bool :=
  n.fraction.isNone && n.exponent.isNone

/-- The natural number of a whole spelling without a minus sign. -/
def toNat? (n : Numeral) : Option Nat :=
  if n.isWhole && !n.negative then some (valueOf n.whole) else none

/-- The integer of a whole spelling. A zero with a minus sign is not an integer. -/
def toInt? (n : Numeral) : Option Int :=
  if n.isWhole then
    let value := valueOf n.whole
    if n.negative then (if value = 0 then none else some (-(value : Int))) else some value
  else none

def write (n : Numeral) (rest : List Char) : List Char :=
  let tail := match n.exponent with
    | none => rest
    | some (false, digits) => 'e' :: (digits ++ rest)
    | some (true, digits) => 'e' :: '-' :: (digits ++ rest)
  let tail := match n.fraction with
    | none => tail
    | some digits => '.' :: (digits ++ tail)
  let body := n.whole ++ tail
  if n.negative then '-' :: body else body

end Numeral

end ScopeMachine.Json
