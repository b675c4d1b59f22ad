import TierIndex.Proofs.Guard
import TierIndex.Proofs.RoundTrip
import TierIndex.Store.Checkpoint

set_option autoImplicit false

/-! # Heat maps that can come about

A heat map starts empty and is asked to record accesses, to confirm tiers, to cool, to merge
and to load files. A request that is refused leaves the map as it was. The maps that come about
in this way are the **reachable** ones; nothing is known about the files that are loaded, nor
about the amount by which a cooling lowers a heat, beyond that it is no rise.

Every reachable map is intact, and so no request that it is asked for makes a write out of
order.
-/

namespace TierIndex

/-- A way for heats to cool: no heat cools to less than zero, and none rises. -/
structure Decay where
  left : Int → Int
  decays : HeatMap.Decays left

/-- What changes the zones of a heat map, apart from loading. -/
inductive MapRequest where
  /-- An access of heat `d` to the keys between `a` and `b`. -/
  | access (a b : Key) (d : Int)
  /-- The data between `a` and `b` now lies in a tier. -/
  | setTier (a b : Key) (fast : Bool)
  /-- Cooling by a factor. -/
  | cool (factor : Double)
  /-- Cooling in some other way. -/
  | decay (c : Decay)
  /-- Merging of all hot zones that overlap. -/
  | mergeHot

namespace HeatMap

/-- The map after a request. -/
def serve (m : HeatMap) : MapRequest → HeatMap
  | .access a b d =>
      match m.access a b d with
      | .error _ => m
      | .ok out => out.map
  | .setTier a b fast => (m.setTier a b fast).1
  | .cool factor =>
      match m.cool factor with
      | .error _ => m
      | .ok (m', _) => m'
  | .decay c => (m.decayBy c.left).1
  | .mergeHot => m.mergeHot.1

/-- The map after loading. -/
def reload (m : HeatMap) (f : Folder) : HeatMap :=
  match m.load f with
  | .error _ => m
  | .ok (m', _) => m'

/-- The maps that come about from an empty one. -/
inductive Reachable : HeatMap → Prop
  | empty (p : Params) : Reachable (.empty p)
  | serve {m : HeatMap} (h : Reachable m) (q : MapRequest) : Reachable (m.serve q)
  | reload {m : HeatMap} (h : Reachable m) (f : Folder) : Reachable (m.reload f)

/-! ## One request -/

/-- **What a request does.** It is refused, or it is one of four changes; cooling by a factor is
one way for heats to cool. -/
theorem serve_cases (m : HeatMap) (q : MapRequest) :
    m.serve q = m ∨
    (∃ a b d out, m.access a b d = .ok out ∧ m.serve q = out.map) ∨
    (∃ a b fast, m.serve q = (m.setTier a b fast).1) ∨
    (∃ c : Decay, m.serve q = (m.decayBy c.left).1) ∨
    m.serve q = m.mergeHot.1 := by
  cases q with
  | access a b d =>
      cases hout : m.access a b d with
      | error e => exact Or.inl (by rw [serve, hout])
      | ok out => exact Or.inr (Or.inl ⟨a, b, d, out, hout, by rw [serve, hout]⟩)
  | setTier a b fast => exact Or.inr (Or.inr (Or.inl ⟨a, b, fast, rfl⟩))
  | cool factor =>
      cases hcool : m.cool factor with
      | error e => exact Or.inl (by rw [serve, hcool])
      | ok r =>
          obtain ⟨m', frozen⟩ := r
          obtain ⟨hunit, hdecay⟩ := cool_eq_ok hcool
          refine Or.inr (Or.inr (Or.inr (Or.inl ⟨⟨_, cooledHeat_decays hunit⟩, ?_⟩)))
          show m.serve (.cool factor) = (m.decayBy (cooledHeat factor)).1
          rw [serve, hcool, hdecay]
  | decay c => exact Or.inr (Or.inr (Or.inr (Or.inl ⟨c, rfl⟩)))
  | mergeHot => exact Or.inr (Or.inr (Or.inr (Or.inr rfl)))

theorem reload_cases (m : HeatMap) (f : Folder) :
    m.reload f = m ∨
      ∃ zs, Checkpoint.read m.order f = .ok zs ∧ m.reload f = ofZones m.params zs := by
  unfold reload load
  cases hread : Checkpoint.read m.order f with
  | error e => exact Or.inl rfl
  | ok zs => exact Or.inr ⟨zs, rfl, rfl⟩

theorem read_sound {o : KeyOrder} {f : Folder} {zs : List Zone}
    (h : Checkpoint.read o f = .ok zs) : ∀ z ∈ zs, z.Sound o := by
  unfold Checkpoint.read at h
  split at h
  · cases h
  · exact Record.decode_sound h

section

variable {m : HeatMap}

/-- **No request breaks the invariant.** -/
theorem Intact.serve (h : m.Intact) (q : MapRequest) : (m.serve q).Intact := by
  rcases serve_cases m q with hs | ⟨a, b, d, out, hout, hs⟩ | ⟨a, b, fast, hs⟩ | ⟨c, hs⟩ | hs
  · rw [hs]
    exact h
  · rw [hs]
    exact h.access hout
  · rw [hs]
    exact h.setTier a b fast
  · rw [hs]
    exact h.decayBy c.decays
  · rw [hs]
    exact h.mergeHot

theorem serve_params (h : m.Intact) (q : MapRequest) : (m.serve q).params = m.params := by
  rcases serve_cases m q with hs | ⟨a, b, d, out, hout, hs⟩ | ⟨a, b, fast, hs⟩ | ⟨c, hs⟩ | hs
  · rw [hs]
  · rw [hs, access_params h hout]
  · rw [hs]
    rfl
  · rw [hs]
    rfl
  · rw [hs, mergeHot_params h]

theorem Intact.reload (h : m.Intact) (f : Folder) : (m.reload f).Intact := by
  rcases reload_cases m f with hs | ⟨zs, hzs, hs⟩
  · rw [hs]
    exact h
  · rw [hs]
    exact ofZones_intact (read_sound hzs)

theorem reload_params (m : HeatMap) (f : Folder) : (m.reload f).params = m.params := by
  rcases reload_cases m f with hs | ⟨zs, -, hs⟩
  · rw [hs]
  · rw [hs]
    rfl

end

/-! ## Every run -/

theorem Reachable.intact {m : HeatMap} (h : m.Reachable) : m.Intact := by
  induction h with
  | empty p => exact Intact.empty p
  | serve _ q ih => exact ih.serve q
  | reload _ f ih => exact ih.reload f

/-- **The representation invariant of every reachable map.** The running count is the number
of zones, there are as many slots as the target asks for, and every zone has its ends in order
and a heat from `1` to the limit. Therefore no check of a write fails: whatever the map is
asked for next stays within the slots, never lowers a count of zero and never stores a heat out
of range. -/
theorem Reachable.in_order {m : HeatMap} (h : m.Reachable) :
    (m.live = m.zones.length ∧ m.params.target ≤ m.capacity ∧
      ∀ z ∈ m.zones, z.span.Proper m.order ∧ 1 ≤ z.heat ∧ z.heat ≤ maxHeat) ∧
    (∀ a b d, m.access? a b d = some (m.access a b d)) ∧
    (∀ factor, m.cool? factor = some (m.cool factor)) ∧
    (∀ c : Decay, m.decayBy? c.left = some (m.decayBy c.left)) ∧
    m.mergeHot? = some m.mergeHot := by
  have hm := h.intact
  refine ⟨⟨hm.live_eq, hm.target_le, fun z hz => ?_⟩, access?_eq hm, cool?_eq hm,
    fun c => decayBy?_eq hm c.decays, mergeHot?_eq hm⟩
  exact Zone.sound_iff.mp (hm.sound_of_mem hz)

/-- The second access is split with the first one, past the slots there were. -/
theorem Reachable.in_order_split :
    let p : Params := ⟨.bytewise, 2, 10, 3, .lowest, by decide, by decide, by decide, by decide⟩
    let m := ((HeatMap.empty p).serve (.access [1] [5] 20)).serve (.access [9] [3] 30)
    m.zones = [⟨⟨[1], [3]⟩, 20, false⟩, ⟨⟨[5], [9]⟩, 30, false⟩, ⟨⟨[3], [5]⟩, 50, false⟩] ∧
      m.live = m.zones.length ∧ m.mergeHot? = some m.mergeHot := by
  intro p m
  have h : m.Reachable := ((Reachable.empty p).serve _).serve _
  obtain ⟨⟨hlive, -, -⟩, -, -, -, hmerge⟩ := h.in_order
  exact ⟨by decide, hlive, hmerge⟩

end HeatMap

end TierIndex
