import TierIndex.Fault

set_option autoImplicit false

/-! # Parameters of a heat map

The two thresholds divide the heats. A zone at or above the **boiling** point is hot and
belongs in the fast tier, one at or below the **freezing** point belongs out of it, and in
between nothing is asked for. The target is the number of zones that the map aims at; it
may be passed, but a map that has passed it merges more eagerly.
-/

namespace TierIndex

/-- Where a new zone goes. -/
inductive SlotPolicy where
  /-- Into the lowest free slot. -/
  | lowest
  /-- Behind all slots if the zone is colder than every other one, else into the lowest
  free slot. -/
  | colderBehind
  deriving DecidableEq

/-- How keys compare, how many zones to aim at, and what counts as hot and as frozen. -/
structure Params where
  order : KeyOrder
  target : Nat
  boiling : Int
  freezing : Int
  policy : SlotPolicy
  target_pos : 0 < target
  freezing_nonneg : 0 ≤ freezing
  freezing_le_boiling : freezing ≤ boiling
  boiling_le : boiling ≤ maxHeat

namespace Params

/-- Parameters from unchecked numbers, or the first reason why they are none. -/
def make (order : KeyOrder) (target : Nat) (boiling freezing : Int) (policy : SlotPolicy) :
    Except Fault Params :=
  if ht : target = 0 then .error (.map .noTarget)
  else if hr : boiling < freezing then .error (.map (.reversed boiling freezing))
  else if ho : freezing < 0 ∨ maxHeat < boiling then .error (.map .outsideHeats)
  else .ok ⟨order, target, boiling, freezing, policy, by omega, by omega, by omega, by omega⟩

/-- The zone is at or above the boiling point. -/
abbrev Hot (p : Params) (z : Zone) : Prop := p.boiling ≤ z.heat

/-- A change of heat calls for a move: up to the boiling point outside the fast tier, or
down to the freezing point inside it. -/
def crosses (p : Params) (before after : Int) (fast : Bool) : Bool :=
  if fast then p.freezing < before && after ≤ p.freezing
  else before < p.boiling && p.boiling ≤ after

/-! ## When there are parameters -/

section

variable {p : Params} {before after : Int} {fast : Bool}

/-- A rise crosses the boiling point only, and only outside the fast tier. -/
theorem crosses_of_rise (h : before ≤ after) :
    p.crosses before after fast = true ↔
      fast = false ∧ before < p.boiling ∧ p.boiling ≤ after := by
  cases fast with
  | false => simp [crosses]
  | true =>
      simp [crosses]
      omega

/-- A fall crosses the freezing point only, and only inside the fast tier. -/
theorem crosses_of_fall (h : after ≤ before) :
    p.crosses before after fast = true ↔
      fast = true ∧ p.freezing < before ∧ after ≤ p.freezing := by
  cases fast with
  | true => simp [crosses]
  | false =>
      simp [crosses]
      omega

/-- Heat that stays what it is crosses no threshold. -/
theorem crosses_self : p.crosses before before fast = false := by
  cases fast <;> simp [crosses]

/-- A fall to zero crosses what a fall below zero would. -/
theorem crosses_zero (hbefore : 0 ≤ before) (hafter : after ≤ 0) :
    p.crosses before 0 fast = p.crosses before after fast := by
  have hzero := p.freezing_nonneg
  rw [Bool.eq_iff_iff, crosses_of_fall hbefore, crosses_of_fall (Int.le_trans hafter hbefore)]
  constructor
  · rintro ⟨hfast, hlt, -⟩
    exact ⟨hfast, hlt, Int.le_trans hafter hzero⟩
  · rintro ⟨hfast, hlt, -⟩
    exact ⟨hfast, hlt, hzero⟩

end

end Params

end TierIndex
