import TierIndex.Span

set_option autoImplicit false

/-! # Zones: spans with a heat

A zone is what the index remembers of a span of keys: how hot it is, a number from `1` to
`maxHeat`, and whether its data has been confirmed to lie in the fast tier.

Heat arrives in two ways. **Shifting** is what a further access does to a zone that it hits
exactly: a rise past the limit is dropped whole, and a fall stops at zero. **Pooling** is
what happens when heat of two origins comes together: the sum is cut off at the limit.
-/

namespace TierIndex

/-- The greatest heat a zone can have. -/
def maxHeat : Int := 250

/-- A span of keys with its heat and its confirmed tier. -/
structure Zone where
  span : Span
  heat : Int
  fast : Bool
  deriving DecidableEq

namespace Zone

/-- Heat `h` shifted by `d`: unchanged where the sum would pass the limit, and never below
zero. -/
def shiftHeat (h d : Int) : Int := if maxHeat < h + d then h else max 0 (h + d)

/-- The heats `h` and `d` taken together, cut off at the limit. -/
def poolHeat (h d : Int) : Int := min maxHeat (h + d)

/-- The zone `v` merged into `u`: the union of the spans, the pooled heat, and in the fast
tier only if both are. -/
def absorb (o : KeyOrder) (u v : Zone) : Zone :=
  ⟨u.span.union o v.span, poolHeat u.heat v.heat, u.fast && v.fast⟩

/-- A zone as the index holds it: its ends in order and its heat from `1` to the limit. -/
structure Sound (o : KeyOrder) (z : Zone) : Prop where
  proper : z.span.Proper o
  heat_pos : 1 ≤ z.heat
  heat_le : z.heat ≤ maxHeat

theorem sound_iff {o : KeyOrder} {z : Zone} :
    z.Sound o ↔ z.span.Proper o ∧ 1 ≤ z.heat ∧ z.heat ≤ maxHeat :=
  ⟨fun h => ⟨h.proper, h.heat_pos, h.heat_le⟩, fun h => ⟨h.1, h.2.1, h.2.2⟩⟩

instance (o : KeyOrder) (z : Zone) : Decidable (z.Sound o) :=
  decidable_of_iff _ sound_iff.symm

/-! ## Shifted and pooled heat stays within bounds -/

theorem shiftHeat_nonneg {h : Int} (hh : 0 ≤ h) (d : Int) : 0 ≤ shiftHeat h d := by
  unfold shiftHeat
  split <;> omega

theorem shiftHeat_le {h : Int} (hh : h ≤ maxHeat) (d : Int) : shiftHeat h d ≤ maxHeat := by
  unfold shiftHeat maxHeat at *
  split <;> omega

theorem le_shiftHeat {h d : Int} (hd : 0 ≤ d) : h ≤ shiftHeat h d := by
  unfold shiftHeat
  split <;> omega

theorem poolHeat_le (h d : Int) : poolHeat h d ≤ maxHeat := Int.min_le_left _ _

theorem le_poolHeat {h d : Int} (hh : h ≤ maxHeat) (hd : 0 ≤ d) : h ≤ poolHeat h d := by
  unfold poolHeat
  omega

theorem absorb_sound {o : KeyOrder} {u v : Zone} (hu : u.Sound o) (hv : v.Sound o) :
    (u.absorb o v).Sound o where
  proper := Span.union_proper hu.proper v.span
  heat_pos := by
    have := le_poolHeat hu.heat_le (d := v.heat) (by have := hv.heat_pos; omega)
    exact Int.le_trans hu.heat_pos this
  heat_le := poolHeat_le _ _

end Zone

end TierIndex
