import ScopeMachine.Decimal.Shortest

set_option autoImplicit false

/-!
# Decimals as text

Program output and listings write a decimal positionally: shortest digits, never an exponent, and
no fraction for a whole number. Of two equally near spellings the one further from zero is written.
-/

namespace ScopeMachine.Decimal

def digitsOf (n : Nat) : List Char :=
  Nat.toDigits 10 n

/-- `digits * 10 ^ exponent` without an exponent. -/
def positional (digits : List Char) (exponent : Int) : List Char :=
  let point : Int := digits.length + exponent
  if 0 ≤ exponent then digits ++ List.replicate exponent.toNat '0'
  else if 0 < point then digits.take point.toNat ++ '.' :: digits.drop point.toNat
  else '0' :: '.' :: (List.replicate (-point).toNat '0' ++ digits)

/-- The text of a decimal in program output. The sign of a zero is written. -/
def toText (d : Decimal) : String :=
  if d.isNaN then "NaN" else
  let sign := if d.negative then "-" else ""
  if d.isInfinite then sign ++ "inf"
  else if d.magnitude = 0 then sign ++ "0"
  else
    let (count, exponent) := d.shortest .away
    sign ++ String.ofList (positional (digitsOf count) exponent)

end ScopeMachine.Decimal
