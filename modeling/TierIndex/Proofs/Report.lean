import TierIndex.Proofs.FastKeys
import TierIndex.Proofs.HotKeys

set_option autoImplicit false

/-! # What an access reports

An access answers whether it calls for a move. The answer is fixed when the access is received,
before anything is settled; settling changes no answer for a key, so the report may be compared
with the map as it is afterwards. Of an access that brings heat:

* a reported crossing leaves every key of the accessed span hot (`Reception.hot_of_crossed`);
* where none is reported, a key that becomes hot lay in the fast tier already
  (`Reception.silent`).

An access that takes heat away is reported exactly when the zone it lands on leaves the fast tier
by it, and that zone is the hottest one of the span or, past the target, the hottest hot one
around it (`receive_loss`).
-/

namespace TierIndex

namespace HeatMap

section

variable {m : HeatMap} {s : Span} {d : Int} {r : Receipt} {i : Nat} {new : Option Zone} {z : Zone}

/-! ## Heat comes -/

/-- A zone that comes out of a reported crossing is hot and covers the span. -/
theorem Reception.hot_of_crossed (h : m.Intact) (hrec : Reception m s d r i new) (hd : 0 < d)
    (hcross : r.crossed = true) : ∃ u, new = some u ∧ m.params.Hot u ∧ u.span.Covers m.order s := by
  have hrise : ∀ {z : Zone}, z.heat ≤ Zone.shiftHeat z.heat d :=
    Zone.le_shiftHeat (Int.le_of_lt hd)
  cases hrec with
  | @spent _ z _ hz hcov hts htz hzero =>
      -- a sound zone does not lose its heat by a rise
      have hpos := (h.sound _ _ hz).heat_pos
      have hle := @hrise z
      omega
  | shifted hz hcov =>
      exact ⟨_, rfl, ((Params.crosses_of_rise hrise).mp hcross).2.2, hcov⟩
  | joined hz hot hmeets =>
      exact ⟨_, rfl, Int.le_trans hot (Zone.le_poolHeat (h.sound _ _ hz).heat_le (Int.le_of_lt hd)),
        Span.union_covers_right _ _ _⟩
  | widened hz hcold hmeets =>
      have hle := Zone.le_poolHeat (h.sound _ _ hz).heat_le (Int.le_of_lt hd)
      exact ⟨_, rfl, ((Params.crosses_of_rise hle).mp hcross).2.2, Span.union_covers_right _ _ _⟩
  | fresh => exact ⟨_, rfl, of_decide_eq_true hcross, Span.covers_refl _ _⟩

/-- A hot zone that comes out of an access without a report was hot before, or lay in the fast tier
before, with the same keys. -/
theorem Reception.silent (h : m.Intact) (hrec : Reception m s d r i new) (hd : 0 < d)
    (hquiet : r.crossed = false) {u : Zone} (hu : new = some u) (hot : m.params.Hot u) :
    ∃ z, m.at? i = some z ∧ z.span.Covers m.order u.span ∧ (m.params.Hot z ∨ z.fast = true) := by
  -- a rise to the boiling point that is not reported starts there or ends inside the fast tier
  have hsilent : ∀ {before after : Int} {fast : Bool}, before ≤ after → m.params.boiling ≤ after →
      m.params.crosses before after fast = false → m.params.boiling ≤ before ∨ fast = true := by
    intro before after fast hle hafter hno
    by_cases hbefore : m.params.boiling ≤ before
    · exact Or.inl hbefore
    · cases fast with
      | true => exact Or.inr rfl
      | false =>
          have hcross := (Params.crosses_of_rise hle).mpr ⟨rfl, Int.not_le.mp hbefore, hafter⟩
          exact absurd (hcross.symm.trans hno) (by simp)
  cases hrec with
  | spent => cases hu
  | @shifted _ z _ _ hz hcov =>
      cases hu
      exact ⟨z, hz, Span.covers_refl _ _,
        hsilent (Zone.le_shiftHeat (Int.le_of_lt hd)) hot hquiet⟩
  | joined => cases hquiet
  | @widened _ z hz hcold hmeets =>
      cases hu
      have hle := Zone.le_poolHeat (h.sound _ _ hz).heat_le (Int.le_of_lt hd)
      have hkept := (hsilent hle hot hquiet).resolve_left hcold
      obtain ⟨hfast, hcov⟩ := (Bool.and_eq_true _ _).mp hkept
      exact ⟨z, hz, Span.covers_union_iff.mpr ⟨Span.covers_refl _ _, of_decide_eq_true hcov⟩,
        Or.inr hfast⟩
  | fresh =>
      cases hu
      exact absurd hot (of_decide_eq_false hquiet)

/-! ## Heat goes -/

/-- The zone that an access to the span takes heat from: the hottest one of the same span or, past
the target and if there is none, the hottest hot one that covers the span. -/
def Taker (m : HeatMap) (s : Span) (i : Nat) (z : Zone) : Prop :=
  m.Hottest (fun y => y.span.Same m.order s) i z ∨
    (m.Unmatched s ∧ m.params.target < m.live ∧
      m.Hottest (fun y => m.params.Hot y ∧ y.span.Covers m.order s) i z)

/-- What an access that takes heat away lands on, if it is not refused. -/
theorem receive_loss (hd : d < 0) (hr : m.receive s d = .ok r) :
    ∃ i z covering t, m.Taker s i z ∧ m.receiveShift i z d covering t = .ok r := by
  have hsuits := landing_suits m s d
  unfold receive at hr
  cases hl : m.landing s d with
  | exact i z =>
      rw [hl] at hr hsuits
      exact ⟨i, z, false, s, Or.inl hsuits, hr⟩
  | inside i z =>
      rw [hl] at hr hsuits
      exact ⟨i, z, true, z.span, Or.inr hsuits, hr⟩
  | joining i z =>
      rw [hl] at hsuits
      obtain ⟨-, -, -, -, hpos⟩ := hsuits
      omega
  | widening i z =>
      rw [hl] at hsuits
      obtain ⟨-, -, -, -, hpos⟩ := hsuits
      omega
  | fresh =>
      rw [hl] at hr
      have hrefused : m.receiveFresh s d = .error (.map (.coldStart d)) := if_pos (Int.le_of_lt hd)
      rw [hrefused] at hr
      cases hr

/-- What becomes of a zone that heat is taken from, and when that is reported: heat stops at zero,
and a zone without heat is gone. -/
theorem receiveShift_loss (hz : m.at? i = some z) (hsound : z.Sound m.order) (hd : d < 0)
    {covering : Bool} {t : Span} (hr : m.receiveShift i z d covering t = .ok r) :
    r.map.at? i = (if z.heat + d ≤ 0 then none else some { z with heat := z.heat + d }) ∧
      (r.crossed = true ↔
        z.fast = true ∧ m.params.freezing < z.heat ∧ z.heat + d ≤ m.params.freezing) := by
  have hmax := hsound.heat_le
  have hpos := hsound.heat_pos
  have hzero := m.params.freezing_nonneg
  have hafter : Zone.shiftHeat z.heat d = max 0 (z.heat + d) := if_neg (by omega)
  have hcross : m.params.crosses z.heat (max 0 (z.heat + d)) z.fast = true ↔
      z.fast = true ∧ m.params.freezing < z.heat ∧ z.heat + d ≤ m.params.freezing := by
    rw [Params.crosses_of_fall (by omega)]
    constructor
    · rintro ⟨hfast, hbefore, hfrozen⟩
      exact ⟨hfast, hbefore, by omega⟩
    · rintro ⟨hfast, hbefore, hfrozen⟩
      exact ⟨hfast, hbefore, by omega⟩
  unfold receiveShift at hr
  rw [if_neg (Int.ne_of_lt hd)] at hr
  dsimp only at hr
  rw [hafter] at hr
  split at hr
  · next hspent =>
      cases hr
      refine ⟨?_, hcross⟩
      rw [if_pos (by omega)]
      exact (at?_free m i i).trans (if_pos rfl)
  · next hleft =>
      cases hr
      refine ⟨?_, hcross⟩
      have hheat : max 0 (z.heat + d) = z.heat + d := by omega
      rw [if_neg (by omega), hheat]
      exact (at?_put (lt_of_at? hz) i).trans (if_pos rfl)

theorem Taker.at_eq (h : m.Taker s i z) : m.at? i = some z := by
  rcases h with hsame | ⟨-, -, hinside⟩
  · exact hsame.at_eq
  · exact hinside.at_eq

end

/-! ## The report of an access -/

section

variable {m : HeatMap} {a b : Key} {d : Int} {out : Outcome} {k : Key}

/-- **No promotion is false.** -/
theorem hotAt_of_crossed (h : m.Intact) (hout : m.access a b d = .ok out) (hd : 0 < d)
    (hcross : out.crossed = true) (hk : (Span.between m.order a b).Holds m.order k) :
    out.map.HotAt k := by
  obtain ⟨r, hr, rfl⟩ := access_eq_ok hout
  obtain ⟨i, new, hrec⟩ := receive_cases hr
  have hone := hrec.receives h (Span.between_proper m.order a b)
  obtain ⟨u, hnew, hot, hcov⟩ := hrec.hot_of_crossed h hd hcross
  show r.settled.HotAt k
  rw [hotAt_settled h hone, hotAt_iff hone.write.params]
  exact ⟨i, u, hone.write.at?_self.trans hnew, hot, hcov.holds hk⟩

/-- **No promotion is silent.** -/
theorem fastAt_of_silent (h : m.Intact) (hout : m.access a b d = .ok out) (hd : 0 < d)
    (hquiet : out.crossed = false) (hafter : out.map.HotAt k) (hbefore : ¬ m.HotAt k) :
    m.FastAt k := by
  obtain ⟨r, hr, rfl⟩ := access_eq_ok hout
  obtain ⟨i, new, hrec⟩ := receive_cases hr
  have hone := hrec.receives h (Span.between_proper m.order a b)
  have hreceived : r.map.HotAt k := (hotAt_settled h hone).mp hafter
  obtain ⟨j, u, hu, hot, hk⟩ := (hotAt_iff hone.write.params).mp hreceived
  rw [hone.write.at?] at hu
  split at hu
  · -- the zone that was written was hot before, or it was fast
    obtain ⟨z, hz, hcov, hhot | hfast⟩ := hrec.silent h hd hquiet hu hot
    · exact absurd ⟨i, z, hz, hhot, hcov.holds hk⟩ hbefore
    · exact ⟨i, z, hz, hfast, hcov.holds hk⟩
  · exact absurd ⟨j, u, hu, hot, hk⟩ hbefore

end

/-- **The report of an access is right.** In a reachable map, an access that brings heat and
reports a crossing leaves every key of its span hot; if it reports none, a key that has become hot
lay in the fast tier before. An access that takes heat away reports a crossing exactly when the
zone that the heat is taken from lay in the fast tier and falls to the freezing point from above
it, be it that it loses all heat and is gone. -/
theorem access_report {m : HeatMap} (hm : m.Reachable) {a b : Key} {d : Int} {out : Outcome}
    (hout : m.access a b d = .ok out) :
    (0 < d → out.crossed = true → ∀ k, (Span.between m.order a b).Holds m.order k →
      ∃ z, out.map.find? k = some z ∧ m.params.boiling ≤ z.heat) ∧
    (0 < d → out.crossed = false → ∀ k,
      (∃ z, out.map.find? k = some z ∧ m.params.boiling ≤ z.heat) →
      ¬ (∃ z, m.find? k = some z ∧ m.params.boiling ≤ z.heat) → m.FastAt k) ∧
    (d < 0 → ∃ r i z, m.receive (Span.between m.order a b) d = .ok r ∧ out.map = r.settled ∧
      m.Taker (Span.between m.order a b) i z ∧
      r.map.at? i = (if z.heat + d ≤ 0 then none else some { z with heat := z.heat + d }) ∧
      (out.crossed = true ↔
        z.fast = true ∧ m.params.freezing < z.heat ∧ z.heat + d ≤ m.params.freezing)) := by
  have h := hm.intact
  have hfound : ∀ k, (∃ z, out.map.find? k = some z ∧ m.params.boiling ≤ z.heat) ↔
      out.map.HotAt k := fun k => by
    rw [← find?_hot_iff, access_params h hout]
  refine ⟨fun hd hcross k hk => ?_, fun hd hquiet k hafter hbefore => ?_, fun hd => ?_⟩
  · exact (hfound k).mpr (hotAt_of_crossed h hout hd hcross hk)
  · exact fastAt_of_silent h hout hd hquiet ((hfound k).mp hafter) (mt find?_hot_iff.mpr hbefore)
  · obtain ⟨r, hr, rfl⟩ := access_eq_ok hout
    obtain ⟨i, z, covering, t, htaker, hshift⟩ := receive_loss hd hr
    have hz := htaker.at_eq
    obtain ⟨hleft, hcross⟩ := receiveShift_loss hz (h.sound i z hz) hd hshift
    exact ⟨r, i, z, hr, rfl, htaker, hleft, hcross⟩

/-- Past the target, heat is taken from a hot fast zone around the accessed span until the zone
freezes. -/
theorem access_report_inside :
    let p : Params := ⟨.bytewise, 1, 10, 3, .lowest, by decide, by decide, by decide, by decide⟩
    let m := (((empty p).serve (.access [1] [5] 20)).serve (.access [7] [9] 5)).serve
      (.setTier [1] [5] true)
    ∃ out i z, m.access [2] [3] (-17) = .ok out ∧ out.crossed = true ∧
      m.Taker (Span.between m.order [2] [3]) i z ∧ z.fast = true ∧
      m.params.freezing < z.heat ∧ z.heat + -17 ≤ m.params.freezing := by
  intro p m
  have hm : m.Reachable := (((Reachable.empty p).serve (.access [1] [5] 20)).serve
    (.access [7] [9] 5)).serve (.setTier [1] [5] true)
  have hrun : (m.access [2] [3] (-17)).toOption.map Outcome.crossed = some true := by decide
  cases hout : m.access [2] [3] (-17) with
  | error e =>
      rw [hout] at hrun
      cases hrun
  | ok out =>
      rw [hout] at hrun
      have hcross : out.crossed = true := Option.some.inj hrun
      obtain ⟨r, i, z, -, -, htaker, -, hiff⟩ := (access_report hm hout).2.2 (by decide)
      exact ⟨out, i, z, rfl, hcross, htaker, hiff.mp hcross⟩

end HeatMap

end TierIndex
