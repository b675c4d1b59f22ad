set_option autoImplicit false

/-! # Double precision numbers

A double precision number is its 64 bits: one of sign, eleven of exponent and fifty-two
of fraction. The magnitude of every finite one is a whole multiple of the least positive
one, `2⁻¹⁰⁷⁴`, so all arithmetic here is exact arithmetic on natural numbers that count
these **units**. Only one product is needed, a small whole number times a factor below
one, rounded to the nearest representable magnitude and then cut down to its whole part.
-/

namespace TierIndex

/-- A double precision number, given by its bits. -/
structure Double where
  bits : UInt64
  deriving DecidableEq

namespace Double

/-- The sign bit is set. -/
def negative (x : Double) : Bool := x.bits.toNat >>> 63 == 1

/-- The eleven exponent bits. -/
def exponent (x : Double) : Nat := (x.bits.toNat >>> 52) % 2048

/-- The fifty-two fraction bits. -/
def fraction (x : Double) : Nat := x.bits.toNat % (1 <<< 52)

/-- The number is neither infinite nor undefined. -/
def finite (x : Double) : Bool := x.exponent != 2047

/-- The units in the number one. -/
def unitsInOne : Nat := 1 <<< 1074

/-- The magnitude of a finite number in units. The least exponent has no implicit leading
bit, and each later one doubles the weight of the fraction. -/
def units (x : Double) : Nat :=
  if x.exponent = 0 then x.fraction else ((1 <<< 52) + x.fraction) <<< (x.exponent - 1)

/-- The number lies strictly between zero and one. -/
abbrev InUnit (x : Double) : Prop :=
  x.negative = false ∧ x.finite = true ∧ 0 < x.units ∧ x.units < unitsInOne

/-! ## Rounding -/

/-- The quotient rounded to the nearest whole number, a half to the even one. -/
def roundQuotient (n d : Nat) : Nat :=
  let q := n / d
  let twice := 2 * (n % d)
  if d < twice ∨ (d = twice ∧ q % 2 = 1) then q + 1 else q

/-- The distance between neighbouring representable magnitudes around `n` units: the
weight of the last of the fifty-three leading bits. -/
def spacing (n : Nat) : Nat := 1 <<< (n.log2 - 52)

/-- The representable magnitude nearest to `n` units, of two the one with an even last
bit. -/
def nearest (n : Nat) : Nat := roundQuotient n (spacing n) * spacing n

/-- The whole part of the rounded product `n · x`, for a factor `x` between zero and
one. -/
def scale (x : Double) (n : Nat) : Nat := nearest (n * x.units) / unitsInOne

/-- The number one tenth. -/
def tenth : Double := ⟨0x3FB999999999999A⟩

end Double

end TierIndex
