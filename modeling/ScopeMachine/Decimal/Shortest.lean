import ScopeMachine.Decimal.Basic

set_option autoImplicit false

/-!
# Shortest digits

The fewest decimal digits that identify a finite number among all numbers of its format. A number
is `mantissa * 2 ^ exponent`; every real in its rounding interval reads back as that number. For
one digit, two digits and so on, the two neighbours of the number on that decimal grid are tried,
in exact integer arithmetic.
-/

namespace ScopeMachine.Decimal

/-- The value of the significand's leading bit, which is not stored. -/
def leadingBit : Nat := 0x10000000000000

def exponentField (d : Decimal) : Nat :=
  d.magnitude / leadingBit

def fractionField (d : Decimal) : Nat :=
  d.magnitude % leadingBit

/-- The integer significand. Numbers with a zero exponent field have no leading bit. -/
def mantissa (d : Decimal) : Nat :=
  if d.exponentField = 0 then d.fractionField else d.fractionField + leadingBit

/-- The power of two that scales the significand. -/
def scale (d : Decimal) : Int :=
  if d.exponentField = 0 then -1074 else (d.exponentField : Int) - 1075

/-- Which of two neighbours is taken when both are equally near. -/
inductive Tie where
  /-- The one further from zero. -/
  | away
  /-- The one whose last digit is even. -/
  | even
deriving DecidableEq, Repr

/-- The upper one of a neighbour and its successor wins a tie. -/
def Tie.takesUpper (tie : Tie) (below : Nat) : Bool :=
  match tie with
  | .away => true
  | .even => below % 2 = 1

/-- A number and the ends of its rounding interval as integers over one power of ten. -/
structure Interval where
  value : Nat
  low : Nat
  high : Nat
  /-- The ends belong to the interval. -/
  closed : Bool
  exponent : Int

/-- The rounding interval of a finite number, ignoring its sign. The gap below a power of two is
half as wide as the one above it. Quarters of the significand's unit keep all three integral, and
a negative power of two becomes a power of five over a power of ten. -/
def interval (d : Decimal) : Interval :=
  let m := d.mantissa
  let narrow := d.fractionField = 0 && 1 < d.exponentField
  let exponent := d.scale - 2
  let unit := Nat.pow (if exponent < 0 then 5 else 2) exponent.natAbs
  { value := 4 * m * unit
    low := (4 * m - if narrow then 1 else 2) * unit
    high := (4 * m + 2) * unit
    closed := m % 2 = 0
    exponent := min exponent 0 }

namespace Interval

/-- An integer, over the same power of ten, that reads back as the number. -/
def contains (i : Interval) (candidate : Nat) : Bool :=
  if i.closed then i.low ≤ candidate && candidate ≤ i.high
  else i.low < candidate && candidate < i.high

/-- The better of the two neighbours on the grid of multiples of `step`, counted in steps. Of two
hits the nearer one wins. -/
def onGrid (tie : Tie) (i : Interval) (step : Nat) : Option Nat :=
  let below := i.value / step
  let above := below + 1
  match i.contains (below * step), i.contains (above * step) with
  | true, true =>
    let distance := 2 * (i.value - below * step)
    if distance < step || distance = step && !tie.takesUpper below then some below else some above
  | true, false => some below
  | false, true => some above
  | false, false => none

/-- Tries grids from the coarsest to the finest. The grid of single units always has a hit, because
the value itself lies on it. -/
def search (tie : Tie) (i : Interval) : Nat → Nat × Int
  | 0 => (i.value, i.exponent)
  | places + 1 =>
    match i.onGrid tie (10 ^ places) with
    | some count => (count, i.exponent + places)
    | none => i.search tie places

end Interval

/-- Drops trailing zeros of a positive count into the power of ten. The first argument bounds the
number of zeros. -/
def dropZeros : Nat → Nat × Int → Nat × Int
  | 0, result => result
  | fuel + 1, (count, exponent) =>
    if count ≠ 0 && count % 10 = 0 then dropZeros fuel (count / 10, exponent + 1)
    else (count, exponent)

/-- The shortest digits of a finite nonzero number, as an integer and a power of ten. -/
def shortest (tie : Tie) (d : Decimal) : Nat × Int :=
  let i := d.interval
  dropZeros 2 (i.search tie (Nat.toDigits 10 i.value).length)

end ScopeMachine.Decimal
