import TierIndex.HeatMap.Settle

set_option autoImplicit false

/-! # Recording an access

An access brings heat to a span of keys. It happens in three steps. **Landing** decides
which zone takes the heat: the zone of exactly that span, or, once the map has passed its
target, a zone nearby that can take it in, or else a new zone. **Receiving** changes that
one zone and nothing else. **Settling**, where it is needed, repairs the overlaps with
other hot zones.

The answer says whether the access calls for a move between the tiers, and it bounds the
span of keys whose side of the boiling point may have changed.
-/

namespace TierIndex

/-- Where an access lands. -/
inductive Landing where
  /-- On the zone of exactly this span. -/
  | exact (i : Nat) (z : Zone)
  /-- On a hot zone that covers the span. -/
  | inside (i : Nat) (z : Zone)
  /-- On a hot zone that overlaps the span and is widened over it. -/
  | joining (i : Nat) (z : Zone)
  /-- On a cold zone that overlaps the span and is widened over it. -/
  | widening (i : Nat) (z : Zone)
  /-- On no zone: a new one is needed. -/
  | fresh

/-- What receiving an access does before anything is settled. -/
structure Receipt where
  /-- The map with only the receiving zone changed. -/
  map : HeatMap
  /-- The slot of the receiving zone, or nothing if the zone has lost its heat and its slot
  has been freed. -/
  slot : Option Nat
  /-- The receiving zone has to be settled. -/
  unsettled : Bool
  /-- The access calls for a move between the tiers. -/
  crossed : Bool
  /-- The keys whose side of the boiling point may have changed. -/
  span : Span

/-- The outcome of an access. -/
structure Outcome where
  map : HeatMap
  crossed : Bool
  span : Span

namespace HeatMap

/-! ## Landing -/

/-- The hot zone that meets the span and starts first, with its slot. -/
def firstHotMeeting? (m : HeatMap) (s : Span) : Option (Nat × Zone) :=
  leftmostBest (fun a b => m.order.Lt a.2.span.lo b.2.span.lo)
    (m.hotEntries.filter fun e => e.2.span.Meets m.order s)

/-- One union is smaller than another: it ends earlier, or ends alike and starts later. -/
def smallerUnion (o : KeyOrder) (s t : Span) : Bool :=
  o.Lt s.hi t.hi || (o.Same s.hi t.hi && o.Lt t.lo s.lo)

/-- The cold zone that meets the span and has the smallest union with it, with its slot. -/
def smallestColdUnion? (m : HeatMap) (s : Span) : Option (Nat × Zone) :=
  leftmostBest
    (fun a b => smallerUnion m.order (a.2.span.union m.order s) (b.2.span.union m.order s))
    (m.entries.filter fun e => ¬ m.params.Hot e.2 ∧ e.2.span.Meets m.order s)

/-- Where an access of heat `d` to the span `s` lands. -/
def landing (m : HeatMap) (s : Span) (d : Int) : Landing :=
  match m.hottest? fun z => z.span.Same m.order s with
  | some (i, z) => .exact i z
  | none =>
      if m.live ≤ m.params.target then .fresh
      else
        -- past the target an access is taken in by a zone nearby, if one is suited
        match m.hottest? fun z => m.params.Hot z ∧ z.span.Covers m.order s with
        | some (i, z) => .inside i z
        | none =>
            if d ≤ 0 then .fresh
            -- hot heat joins a hot zone, and the rest widens a cold one
            else if m.params.boiling ≤ d then
              match m.firstHotMeeting? s with
              | some (i, z) => .joining i z
              | none => .fresh
            else
              match m.smallestColdUnion? s with
              | some (i, z) => .widening i z
              | none => .fresh

/-! ## Receiving -/

/-- The zone `z` in slot `i` takes the heat `d` without a change of its span. `covering`
says that the accessed span is only a part of the zone's, in which case a zone that stays
hot is settled again. -/
def receiveShift (m : HeatMap) (i : Nat) (z : Zone) (d : Int) (covering : Bool) (s : Span) :
    Except Fault Receipt :=
  if d = 0 then .error (.map .noHeat)
  else
    let after := Zone.shiftHeat z.heat d
    let crossed := m.params.crosses z.heat after z.fast
    -- a zone that has lost its heat is not kept
    if after = 0 then .ok ⟨m.free i, none, false, crossed, s⟩
    else
      let unsettled := m.params.boiling ≤ after && (z.heat < m.params.boiling || covering)
      .ok ⟨m.put i { z with heat := after }, some i, unsettled, crossed, s⟩

/-- The hot zone `z` in slot `i` is widened over the span and takes the heat `d`. It has
never been moved as a whole, so it counts as outside the fast tier. -/
def receiveJoining (m : HeatMap) (i : Nat) (z : Zone) (s : Span) (d : Int) : Receipt :=
  let grown := z.span.union m.order s
  ⟨m.put i ⟨grown, Zone.poolHeat z.heat d, false⟩, some i, true, true, grown⟩

/-- The cold zone `z` in slot `i` is widened over the span and takes the heat `d`. Only a
zone that already covered the span keeps its tier. -/
def receiveWidening (m : HeatMap) (i : Nat) (z : Zone) (s : Span) (d : Int) : Receipt :=
  let grown := z.span.union m.order s
  let after := Zone.poolHeat z.heat d
  let fast := z.fast && decide (z.span.Covers m.order s)
  let unsettled := z.heat < m.params.boiling && m.params.boiling ≤ after
  ⟨m.put i ⟨grown, after, fast⟩, some i, unsettled, m.params.crosses z.heat after fast, grown⟩

/-- The slot for a new zone of the given heat. -/
def slotFor (m : HeatMap) (heat : Int) : Option Nat :=
  match m.params.policy with
  | .lowest => m.firstFree?
  | .colderBehind =>
      if m.zones ≠ [] ∧ ∀ z ∈ m.zones, heat < z.heat then none else m.firstFree?

/-- A new zone of the span takes the heat `d`. -/
def receiveFresh (m : HeatMap) (s : Span) (d : Int) : Except Fault Receipt :=
  if d ≤ 0 then .error (.map (.coldStart d))
  else
    let heat := min d maxHeat
    let hot := decide (m.params.boiling ≤ heat)
    let (m', i) := m.place (m.slotFor heat) ⟨s, heat, false⟩
    .ok ⟨m', some i, hot, hot, s⟩

/-- Change the zone that an access of heat `d` to the span `s` lands on. -/
def receive (m : HeatMap) (s : Span) (d : Int) : Except Fault Receipt :=
  match m.landing s d with
  | .exact i z => m.receiveShift i z d false s
  | .inside i z => m.receiveShift i z d true z.span
  | .joining i z => .ok (m.receiveJoining i z s d)
  | .widening i z => .ok (m.receiveWidening i z s d)
  | .fresh => m.receiveFresh s d

end HeatMap

/-- The map with the receiving zone settled, where that is needed. -/
def Receipt.settled (r : Receipt) : HeatMap :=
  match r.slot with
  | some i => if r.unsettled then r.map.settle i else r.map
  | none => r.map

namespace HeatMap

/-- Record an access of heat `d` to the keys between `a` and `b`. -/
def access (m : HeatMap) (a b : Key) (d : Int) : Except Fault Outcome :=
  (m.receive (Span.between m.order a b) d).map fun r => ⟨r.settled, r.crossed, r.span⟩

end HeatMap

end TierIndex
