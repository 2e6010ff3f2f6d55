set_option autoImplicit false

/-!
# Decimals

A decimal is a 64-bit floating-point number, held as its bit pattern. Two decimals with the same
pattern are the same decimal, so patterns serve as keys; numeric equality and order are separate
operations, which a not-a-number pattern never satisfies.
-/

namespace ScopeMachine

/-- A double-precision number by its bit pattern. -/
structure Decimal where
  bits : UInt64
deriving DecidableEq, Hashable, Repr, Inhabited

namespace Decimal

def signBit : Nat := 0x8000000000000000

/-- The pattern without its sign bit. -/
def magnitude (d : Decimal) : Nat :=
  d.bits.toNat % signBit

/-- The sign bit, which a zero has as well. -/
def negative (d : Decimal) : Bool :=
  signBit ≤ d.bits.toNat

/-- The magnitude of the infinities; larger magnitudes are not numbers. -/
def infiniteMagnitude : Nat := 0x7ff0000000000000

/-- Patterns that stand for no number. -/
def isNaN (d : Decimal) : Bool :=
  infiniteMagnitude < d.magnitude

def isInfinite (d : Decimal) : Bool :=
  d.magnitude = infiniteMagnitude

/-- The position of a number on the line, by which numbers are ordered. Both zeros share one. -/
def rank (d : Decimal) : Int :=
  if d.negative then -(d.magnitude : Int) else d.magnitude

/-- Numeric order; `none` when an operand is not a number. -/
def compare? (a b : Decimal) : Option Ordering :=
  if a.isNaN || b.isNaN then none else some (compare a.rank b.rank)

/-- Numeric equality: both zeros are equal and not-a-number equals nothing. -/
def equal (a b : Decimal) : Bool :=
  a.compare? b == some .eq

def negate (d : Decimal) : Decimal :=
  ⟨d.bits ^^^ 0x8000000000000000⟩

/-- The pattern of an operation that has no numeric result. -/
def invalid : Decimal := ⟨0xfff8000000000000⟩

/-- A not-a-number pattern made quiet, as it leaves an operation. -/
def quiet (d : Decimal) : Decimal :=
  ⟨d.bits ||| 0x0008000000000000⟩

def toFloat (d : Decimal) : Float :=
  Float.ofBits d.bits

/-- The pattern of a machine number; every not-a-number becomes the invalid pattern. -/
def ofFloat (f : Float) : Decimal :=
  if f.isNaN then invalid else ⟨f.toBits⟩

/-- Lifts a machine operation to patterns. A not-a-number operand is passed on quietly, the left
one first. -/
def lift (operation : Float → Float → Float) (a b : Decimal) : Decimal :=
  if a.isNaN then a.quiet
  else if b.isNaN then b.quiet
  else ofFloat (operation a.toFloat b.toFloat)

def add (a b : Decimal) : Decimal := lift (· + ·) a b

def sub (a b : Decimal) : Decimal := lift (· - ·) a b

def mul (a b : Decimal) : Decimal := lift (· * ·) a b

def div (a b : Decimal) : Decimal := lift (· / ·) a b

end Decimal

end ScopeMachine
