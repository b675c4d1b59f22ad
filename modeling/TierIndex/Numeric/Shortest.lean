import TierIndex.Numeric.Double

set_option autoImplicit false

/-! # The shortest decimal text of a double precision number

The text of a number has as few digits as can be, provided that reading it gives the same
number back. It is always positional: no exponent, no point after a whole number.

The decimals that read back as a number `x` fill an interval around `x` that reaches half
way to its two neighbours. A **grid** is the set of multiples of one power of ten. Going
from coarse grids to fine ones, the first grid with a point in the interval gives the
text, and only the two grid points next to `x` have to be looked at.
-/

namespace TierIndex

namespace Double

/-- The ends of the interval of decimals that read back as `x`, in quarters of a unit. A
magnitude with fraction zero has its lower neighbour at half the distance, unless the
exponent is too small for that. -/
def readBackEnds (x : Double) : Nat × Nat :=
  let s := spacing x.units
  let below := if x.fraction = 0 ∧ 1 < x.exponent then s else 2 * s
  (4 * x.units - below, 4 * x.units + 2 * s)

/-- The decimal `d · p / q` reads back as `x`. The ends of the interval read back exactly
when the fraction is even. -/
def readsBack (x : Double) (d p q : Nat) : Bool :=
  let (lo, hi) := x.readBackEnds
  let c := 4 * d * p * unitsInOne
  if x.fraction % 2 = 0 then lo * q ≤ c && c ≤ hi * q else lo * q < c && c < hi * q

/-- The multiple of `10^e` next to `x` that reads back as `x`, as a count of `10^e`. Where
both neighbours do, the nearer one is taken, and the greater one at equal distance. -/
def onGrid? (x : Double) (e : Int) : Option Nat :=
  let p := Nat.pow 10 e.toNat
  let q := Nat.pow 10 (-e).toNat
  let n := x.units * q
  let d := p * unitsInOne
  let lower := n / d
  let gap := n % d
  match x.readsBack lower p q, x.readsBack (lower + 1) p q with
  | true, true => some (if d ≤ 2 * gap then lower + 1 else lower)
  | true, false => some lower
  | false, true => some (lower + 1)
  | false, false => none

/-- The decimal `d · 10^e` on the coarsest grid that has one reading back as `x`, for `x`
not zero. Magnitudes lie below `10^309`, and the grid of `10^-324` is finer than every
spacing. -/
def shortest? (x : Double) : Option (Nat × Int) :=
  (List.range 634).findSome? fun (i : Nat) =>
    let e : Int := 309 - i
    (x.onGrid? e).map fun d => (d, e)

/-- The text of `d · 10^e` without an exponent. -/
def positional (d : Nat) (e : Int) : String :=
  let digits := Nat.toDigits 10 d
  if 0 ≤ e then
    String.ofList (digits ++ List.replicate e.toNat '0')
  else
    let places := (-e).toNat
    let padded := List.replicate (places + 1 - digits.length) '0' ++ digits
    let whole := padded.length - places
    String.ofList (padded.take whole ++ '.' :: padded.drop whole)

/-- The text of a number: sign, then the shortest positional decimal. Zero keeps its
sign. -/
def text (x : Double) : String :=
  if x.finite then
    let sign := if x.negative then "-" else ""
    let (d, e) := if x.units = 0 then (0, 0) else x.shortest?.getD (0, 0)
    sign ++ positional d e
  else if x.fraction = 0 then
    if x.negative then "-inf" else "inf"
  else "NaN"

end Double

end TierIndex
