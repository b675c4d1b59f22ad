set_option autoImplicit false

/-! # The cooling clock

A countdown that rings once in every period. It starts with a full period ahead; the tick
that takes the last step rings and adds a full period again.
-/

namespace TierIndex

/-- A countdown with its period, in ticks. -/
structure Clock where
  period : Nat
  remaining : Nat
  deriving DecidableEq

namespace Clock

/-- A clock with the given period, or with period one if that is too short. -/
def start (period : Int) : Clock :=
  let n := max period.toNat 1
  ⟨n, n⟩

/-- Take one step. Fails if no step remains; else the second component tells whether the
clock rang. -/
def step? (c : Clock) : Option (Clock × Bool) :=
  if c.remaining = 0 then none
  else if c.remaining = 1 then some (⟨c.period, c.period⟩, true)
  else some (⟨c.period, c.remaining - 1⟩, false)

/-- One tick. A clock without remaining steps stands still and does not ring. -/
def tick (c : Clock) : Clock × Bool := c.step?.getD (c, false)

end Clock

end TierIndex
