import ScopeMachine.Decimal.Layout
import ScopeMachine.Json.Basic

set_option autoImplicit false

/-!
# Decimals in JSON

Reading takes the leading digits that fit in 64 bits as an integer and scales it by a power of ten,
rounding at each machine operation; long spellings may therefore miss the nearest decimal by a
unit. Writing takes the shortest digits, of two equally near ones the even, with an exponent outside
of the middle range, and always shows that the number is a decimal.
-/

namespace ScopeMachine.Decimal

open Json (Numeral)

/-! ## Reading -/

/-- Appends digits to an integer while it fits in 64 bits; returns it with the number of digits
taken and the number left. -/
def accumulate (significand : Nat) : List Char → Nat → Nat × Nat × Nat
  | [], taken => (significand, taken, 0)
  | digit :: digits, taken =>
    let next := significand * 10 + Numeral.digitValue digit
    if next < UInt64.size then accumulate next digits (taken + 1)
    else (significand, taken, digits.length + 1)

/-- The power of ten nearest to `10 ^ n`, exact or correctly rounded. -/
def powerOfTen (n : Nat) : Float :=
  Float.ofScientific 1 false n

def maxPower : Nat := 308

/-- Scales a number by a power of ten. One operation suffices up to the largest power; below that,
the number is divided by the largest power until it vanishes or the rest fits. An overflow to
infinity is refused. -/
def scaleBy (f : Float) (exponent : Int) : Option Float :=
  if 0 ≤ exponent then
    if exponent.natAbs ≤ maxPower then
      let scaled := f * powerOfTen exponent.natAbs
      if scaled.isInf then none else some scaled
    else if f == 0 then some f else none
  else if exponent.natAbs ≤ maxPower then some (f / powerOfTen exponent.natAbs)
  else if f == 0 then some f
  else scaleBy (f / powerOfTen maxPower) (exponent + maxPower)
termination_by exponent.natAbs
decreasing_by
  simp only [maxPower] at *
  omega

/-- The largest exponent that is read as written. -/
def exponentLimit : Nat := Int32.maxValue.toInt.toNat

/-- A sum of exponents, kept within the 32-bit range. -/
def addExponent (a b : Int) : Int :=
  max Int32.minValue.toInt (min Int32.maxValue.toInt (a + b))

/-- The decimal that a spelling denotes; an infinite one is refused. -/
def ofNumeral? (n : Numeral) : Option Decimal :=
  let (significand, _, left) := accumulate 0 n.whole 0
  let (significand, exponent) : Nat × Int :=
    match n.fraction with
    | none => (significand, left)
    | some digits =>
      let (significand, taken, _) := accumulate significand digits 0
      (significand, (left : Int) - taken)
  let signed (f : Float) : Decimal := if n.negative then (ofFloat f).negate else ofFloat f
  let scaled (exponent : Int) : Option Decimal :=
    (scaleBy (UInt64.ofNat significand).toFloat exponent).map signed
  match n.exponent with
  | none => scaled exponent
  | some (negative, digits) =>
    let written := Numeral.valueOf digits
    if exponentLimit < written then
      if significand = 0 || negative then some (signed 0) else none
    else scaled (addExponent exponent (if negative then -(written : Int) else written))

/-! ## Writing -/

/-- The spelling of finite digits: positional while the point falls within sixteen places, else one
digit in front of the point and an exponent. -/
def spell (negative : Bool) (digits : List Char) (exponent : Int) : Numeral :=
  let point : Int := digits.length + exponent
  if 0 ≤ exponent && point ≤ 16 then
    { negative, whole := digits ++ List.replicate exponent.toNat '0', fraction := some ['0'],
      exponent := none }
  else if 0 < point && point ≤ 16 then
    { negative, whole := digits.take point.toNat, fraction := some (digits.drop point.toNat),
      exponent := none }
  else if -5 < point && point ≤ 0 then
    { negative, whole := ['0'], fraction := some (List.replicate (-point).toNat '0' ++ digits),
      exponent := none }
  else
    { negative, whole := digits.take 1,
      fraction := if digits.length = 1 then none else some (digits.drop 1),
      exponent := some (point - 1 < 0, digitsOf (point - 1).natAbs) }

/-- A decimal as a JSON value. What is not a finite number becomes null. -/
def toJson (d : Decimal) : Json :=
  if d.isNaN || d.isInfinite then .null
  else if d.magnitude = 0 then
    .number { negative := d.negative, whole := ['0'], fraction := some ['0'], exponent := none }
  else
    let (count, exponent) := d.shortest .even
    .number (spell d.negative (digitsOf count) exponent)

def ofJson? : Json → Option Decimal
  | .number numeral => ofNumeral? numeral
  | _ => none

end ScopeMachine.Decimal
