/-! # One decimal place

A finite, nonnegative binary floating-point number is an integer times a power of two. Its value is
written with one decimal place by rounding the exact value to the nearest tenth; a value half-way
between two tenths goes to the even one.
-/
namespace ExternalAtoms.Decimal

structure BinaryFraction where
  mantissa : Nat
  exponent : Int

/-- The value of a sign-free double from its bits: 52 bits of fraction under 11 of exponent. -/
def BinaryFraction.ofBits (bits : UInt64) : BinaryFraction :=
  let fraction : Nat := bits.toNat % Nat.pow 2 52
  let biased : Nat := bits.toNat / Nat.pow 2 52 % Nat.pow 2 11
  if biased = 0 then ⟨fraction, -1074⟩ else ⟨Nat.pow 2 52 + fraction, biased - 1075⟩

/-- The integer nearest to `num / den`; a half goes to the even neighbour. -/
def roundDiv (num den : Nat) : Nat :=
  let quotient := num / den
  let remainder := num % den
  if 2 * remainder < den then quotient
  else if den < 2 * remainder then quotient + 1
  else quotient + quotient % 2

def BinaryFraction.tenths (x : BinaryFraction) : Nat :=
  roundDiv (10 * x.mantissa * Nat.pow 2 x.exponent.toNat) (Nat.pow 2 (-x.exponent).toNat)

def writeTenths (n : Nat) : String := Nat.repr (n / 10) ++ "." ++ Nat.repr (n % 10)

def writeFloat (x : Float) : String := writeTenths (BinaryFraction.ofBits x.toBits).tenths

end ExternalAtoms.Decimal
