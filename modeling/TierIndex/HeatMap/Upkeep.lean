import TierIndex.HeatMap.Basic

set_option autoImplicit false

/-! # Upkeep: confirming tiers and cooling

Two passes go over all slots. **Confirming** notes that the data of a span now lies in a
given tier, for every zone that lies wholly inside the span. **Cooling** scales the heat of
every zone down, frees the zones that lose all heat, and reports the zones of the fast tier
that have fallen to the freezing point.
-/

namespace TierIndex

namespace HeatMap

/-! ## Confirming a tier -/

/-- Note the tier of every zone inside the keys between `a` and `b`, and count these
zones. -/
def setTier (m : HeatMap) (a b : Key) (fast : Bool) : HeatMap × Nat :=
  let s := Span.between m.order a b
  let inside (z : Zone) : Bool := s.Covers m.order z.span
  let mark (z : Zone) : Zone := if inside z then { z with fast } else z
  ({ m with slots := m.slots.map (Option.map mark) }, m.zones.countP inside)

/-! ## Cooling -/

/-- A slot after its zone has taken on the heat that `decay` makes of its own. -/
def coolSlot (decay : Int → Int) (z : Zone) : Option Zone :=
  if decay z.heat = 0 then none else some { z with heat := decay z.heat }

/-- The zone leaves the fast tier when its heat decays: it lies above the freezing point
and falls to it or below. -/
def freezes (p : Params) (decay : Int → Int) (z : Zone) : Bool :=
  z.fast && p.freezing < z.heat && decay z.heat ≤ p.freezing

/-- Let every heat decay, and report the spans that freeze, in slot order. -/
def decayBy (m : HeatMap) (decay : Int → Int) : HeatMap × List Span :=
  let spent := m.zones.countP fun z => decay z.heat = 0
  ({ m with slots := m.slots.map (·.bind (coolSlot decay)), live := m.live - spent },
    (m.zones.filter (freezes m.params decay)).map Zone.span)

/-- The heat left of `h` when it is scaled by the factor: the whole part of their
product. -/
def cooledHeat (factor : Double) (h : Int) : Int := factor.scale h.toNat

/-- Scale every heat by a factor strictly between zero and one, and report the spans that
freeze, in slot order. -/
def cool (m : HeatMap) (factor : Double) : Except Fault (HeatMap × List Span) :=
  if factor.InUnit then .ok (m.decayBy (cooledHeat factor))
  else .error (.map (.factorOutside factor))

end HeatMap

end TierIndex
