import TierIndex.HeatMap.Basic

set_option autoImplicit false

/-! # Asking a heat map

A key belongs to the hottest zone that holds it. Besides that zone a reader may want to
know whether the answer holds for the whole of its span: it does when every key of the span
lies on the same side of the boiling point.
-/

namespace TierIndex

namespace HeatMap

/-- The hottest zone that holds the key, with its slot. -/
def findSlot? (m : HeatMap) (k : Key) : Option (Nat × Zone) :=
  m.hottest? fun z => z.span.Holds m.order k

/-- The hottest zone that holds the key. -/
def find? (m : HeatMap) (k : Key) : Option Zone := (m.findSlot? k).map Prod.snd

/-- No hot zone meets the span. -/
def clearOfHot (m : HeatMap) (s : Span) : Bool :=
  m.hotEntries.all fun e => ¬ e.2.span.Meets m.order s

/-- The hottest zone that holds the key, and whether all keys of its span lie on the same
side of the boiling point. Inside a hot zone every key is at least as hot; a cold zone is
uniform when no hot zone meets it. -/
def findUniform? (m : HeatMap) (k : Key) : Option (Zone × Bool) :=
  (m.find? k).map fun z => (z, m.params.Hot z || m.clearOfHot z.span)

/-- The zones whose confirmed tier disagrees with their heat. -/
structure Misplaced where
  /-- In the fast tier, but frozen. -/
  demote : List Span
  /-- Outside the fast tier, but hot. -/
  promote : List Span

/-- Nothing is misplaced. -/
def Misplaced.isEmpty (l : Misplaced) : Bool := l.demote.isEmpty && l.promote.isEmpty

/-- All misplaced zones, in slot order. -/
def misplaced (m : HeatMap) : Misplaced where
  demote := (m.zones.filter fun z => z.fast && z.heat ≤ m.params.freezing).map Zone.span
  promote := (m.zones.filter fun z => !z.fast && m.params.Hot z).map Zone.span

/-- The bytes that one zone takes besides its keys. -/
def zoneBytes : Nat := 72

/-- The bytes that the zones and their keys take. -/
def footprint (m : HeatMap) : Nat :=
  m.zones.foldl (fun n z => n + (zoneBytes + z.span.lo.length + z.span.hi.length)) 0

end HeatMap

end TierIndex
