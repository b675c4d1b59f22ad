import TierIndex.HeatMap.Upkeep
import TierIndex.Proofs.Slots

set_option autoImplicit false

/-! # The representation invariant

A heat map is **intact** when its running count is the number of its zones, it has at least
as many slots as its target asks for, and every zone has its ends in order and a heat from `1`
to the limit. Each of the four writes keeps a map intact, provided that the slot it touches is
in use, or is free, as the write expects, and that the zone it stores is sound. So do the
operations that treat all slots alike.
-/

namespace TierIndex

namespace HeatMap

/-- The count is right, there are slots enough, and all zones are sound. -/
structure Intact (m : HeatMap) : Prop where
  live_eq : m.live = m.zones.length
  target_le : m.params.target ≤ m.slots.length
  sound : ∀ i z, m.at? i = some z → z.Sound m.order

namespace Intact

variable {m : HeatMap}

theorem sound_of_mem (h : m.Intact) {z : Zone} (hz : z ∈ m.zones) : z.Sound m.order := by
  obtain ⟨i, hi⟩ := mem_zones.mp hz
  exact h.sound i z hi

theorem live_pos (h : m.Intact) {i : Nat} {y : Zone} (hy : m.at? i = some y) : 0 < m.live := by
  rw [h.live_eq]
  exact length_zones_pos hy

/-! ## The four writes -/

theorem put (h : m.Intact) {i : Nat} {y z : Zone} (hy : m.at? i = some y)
    (hz : z.Sound m.order) : (m.put i z).Intact where
  live_eq := by
    rw [length_zones_put hy]
    exact h.live_eq
  target_le := by
    rw [put_params, put_length]
    exact h.target_le
  sound := by
    intro j w hw
    rw [at?_put (lt_of_at? hy)] at hw
    split at hw
    · cases hw
      exact hz
    · exact h.sound j w hw

theorem free (h : m.Intact) {i : Nat} {y : Zone} (hy : m.at? i = some y) :
    (m.free i).Intact where
  live_eq := by
    rw [length_zones_free hy, ← h.live_eq]
    rfl
  target_le := by
    rw [free_params, free_length]
    exact h.target_le
  sound := by
    intro j w hw
    rw [at?_free] at hw
    split at hw
    · cases hw
    · exact h.sound j w hw

theorem place (h : m.Intact) {slot : Option Nat} {z : Zone} (hs : m.Vacant slot)
    (hz : z.Sound m.order) : (m.place slot z).1.Intact where
  live_eq := by
    rw [length_zones_place hs, ← h.live_eq]
    cases slot <;> rfl
  target_le := by
    rw [place_params]
    exact Nat.le_trans h.target_le (place_length_le m slot z)
  sound := by
    intro j w hw
    rw [at?_place fun i hi => (hs i hi).1] at hw
    show w.Sound (m.place slot z).1.params.order
    rw [place_params]
    split at hw
    · cases hw
      exact hz
    · exact h.sound j w hw

/-! ## Starting and loading -/

theorem empty (p : Params) : (HeatMap.empty p).Intact where
  live_eq := by
    rw [zones_empty]
    rfl
  target_le := by simp [HeatMap.empty]
  sound := by
    intro i z hz
    rw [at?_empty] at hz
    cases hz

end Intact

theorem zones_ofZones (p : Params) (zs : List Zone) : (ofZones p zs).zones = zs := by
  simp [ofZones, zones, List.filterMap_append, List.filterMap_replicate_of_none]

theorem ofZones_intact {p : Params} {zs : List Zone} (hzs : ∀ z ∈ zs, z.Sound p.order) :
    (ofZones p zs).Intact where
  live_eq := by
    rw [zones_ofZones]
    rfl
  target_le := by
    show p.target ≤ (zs.map some ++ List.replicate (p.target - zs.length) none).length
    rw [List.length_append, List.length_map, List.length_replicate]
    omega
  sound := by
    intro i z hz
    have hmem : z ∈ (ofZones p zs).zones := mem_zones.mpr ⟨i, hz⟩
    rw [zones_ofZones] at hmem
    exact hzs z hmem

/-! ## Upkeep

Cooling and confirming go over the slots one by one, so their zones are found by going over
the zones one by one. -/

/-- No heat cools to less than zero, and none rises. -/
abbrev Decays (decay : Int → Int) : Prop :=
  ∀ h : Int, 1 ≤ h → h ≤ maxHeat → 0 ≤ decay h ∧ decay h ≤ h

theorem at?_of_slots {m m' : HeatMap} {f : Zone → Option Zone}
    (h : m'.slots = m.slots.map (·.bind f)) (i : Nat) : m'.at? i = (m.at? i).bind f := by
  simp only [at?, h, List.getElem?_map]
  cases m.slots[i]? with
  | none => rfl
  | some x => cases x <;> rfl

theorem zones_of_slots {m m' : HeatMap} {f : Zone → Option Zone}
    (h : m'.slots = m.slots.map (·.bind f)) : m'.zones = m.zones.filterMap f := by
  simp only [zones, h, List.filterMap_map, List.filterMap_filterMap]
  rfl

/-- The zone that `setTier` makes of a zone. -/
def markTier (o : KeyOrder) (s : Span) (fast : Bool) (z : Zone) : Zone :=
  if s.Covers o z.span then { z with fast } else z

theorem setTier_slots (m : HeatMap) (a b : Key) (fast : Bool) :
    (m.setTier a b fast).1.slots =
      m.slots.map (·.bind (some ∘ markTier m.order (Span.between m.order a b) fast)) := by
  apply List.map_congr_left
  intro x _
  cases x with
  | none => rfl
  | some z => simp [markTier]

theorem markTier_span (o : KeyOrder) (s : Span) (fast : Bool) (z : Zone) :
    (markTier o s fast z).span = z.span := by
  unfold markTier
  split <;> rfl

theorem markTier_heat (o : KeyOrder) (s : Span) (fast : Bool) (z : Zone) :
    (markTier o s fast z).heat = z.heat := by
  unfold markTier
  split <;> rfl

theorem coolSlot_eq_some {decay : Int → Int} {z w : Zone} :
    coolSlot decay z = some w ↔ decay z.heat ≠ 0 ∧ w = { z with heat := decay z.heat } := by
  unfold coolSlot
  split
  · simp [*]
  · simp [*, eq_comm]

namespace Intact

variable {m : HeatMap}

theorem setTier (h : m.Intact) (a b : Key) (fast : Bool) : (m.setTier a b fast).1.Intact where
  live_eq := by
    rw [zones_of_slots (setTier_slots m a b fast), List.filterMap_eq_map, List.length_map]
    exact h.live_eq
  target_le := by
    rw [setTier_slots, List.length_map]
    exact h.target_le
  sound := by
    intro i z hz
    rw [at?_of_slots (setTier_slots m a b fast)] at hz
    obtain ⟨y, hy, hmark⟩ := Option.bind_eq_some_iff.mp hz
    cases hmark
    have hs := h.sound i y hy
    refine ⟨?_, ?_, ?_⟩
    · rw [markTier_span]
      exact hs.proper
    · rw [markTier_heat]
      exact hs.heat_pos
    · rw [markTier_heat]
      exact hs.heat_le

theorem decayBy (h : m.Intact) {decay : Int → Int} (hd : Decays decay) :
    (m.decayBy decay).1.Intact where
  live_eq := by
    -- every zone is spent or left
    have hcount : m.zones.countP (fun z => decay z.heat = 0) +
        m.zones.countP (fun z => (coolSlot decay z).isSome) = m.zones.length := by
      rw [Nat.add_comm, List.length_eq_countP_add_countP fun z => (coolSlot decay z).isSome]
      congr 1
      apply List.countP_congr
      intro z _
      unfold coolSlot
      split <;> simp [*]
    rw [zones_of_slots rfl, List.length_filterMap_eq_countP, ← Nat.add_sub_cancel_left
      (n := m.zones.countP fun z => decay z.heat = 0) (m := List.countP _ _), hcount, ← h.live_eq]
    rfl
  target_le := by
    show m.params.target ≤ (m.slots.map _).length
    rw [List.length_map]
    exact h.target_le
  sound := by
    intro i z hz
    rw [at?_of_slots (m := m) rfl] at hz
    obtain ⟨y, hy, hcool⟩ := Option.bind_eq_some_iff.mp hz
    obtain ⟨hne, rfl⟩ := coolSlot_eq_some.mp hcool
    have hs := h.sound i y hy
    obtain ⟨hge, hle⟩ := hd y.heat hs.heat_pos hs.heat_le
    exact ⟨hs.proper, show 1 ≤ decay y.heat by omega,
      Int.le_trans (show decay y.heat ≤ y.heat from hle) hs.heat_le⟩

end Intact

end HeatMap

end TierIndex
