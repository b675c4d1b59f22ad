import TierIndex.Proofs.Coherence
import TierIndex.Proofs.Report

set_option autoImplicit false

/-! # Which keys an access moves

An access that calls for a move sends one, and that is for the accessed span. The heat can land on
a zone that reaches further, but only past the target:

* A key that becomes hot, and lay in no zone of the fast tier, lies in the span that is moved in.
  Otherwise it has been a key of a cold zone that the access has brought to the boiling point
  (`promoted`).
* A zone of the fast tier that freezes lies in the span that is moved out. Otherwise it is a hot
  zone that covers the accessed span (`demoted`).

Within the target the heat lands on the accessed span itself, so all that crosses is moved.
-/

namespace TierIndex

/-- Heat that goes leaves no more than there was. -/
theorem Zone.shiftHeat_le_self {h d : Int} (hh : 0 ≤ h) (hd : d ≤ 0) : shiftHeat h d ≤ h := by
  unfold shiftHeat
  split <;> omega

namespace HeatMap

section

variable {m : HeatMap} {s : Span} {d : Int} {r : Receipt} {i : Nat} {new : Option Zone} {u z : Zone}
  {k : Key}

/-! ## What is received -/

/-- Within the target the heat lands on a zone of the accessed span, or on a new one. -/
theorem same_or_past_target (hl : (m.landing s d).zone? = some (i, z)) :
    z.span.Same m.order s ∨ m.params.target < m.live := by
  by_cases hlive : m.live ≤ m.params.target
  · have hsuits := landing_suits m s d
    have hwithin : (∃ j y, m.landing s d = .exact j y) ∨ m.landing s d = .fresh := by
      unfold landing
      cases m.hottest? fun y => y.span.Same m.order s with
      | some e => exact Or.inl ⟨e.1, e.2, rfl⟩
      | none => exact Or.inr (if_pos hlive)
    rcases hwithin with ⟨j, y, hexact⟩ | hfresh
    · rw [hexact] at hl hsuits
      cases hl
      exact Or.inl (of_decide_eq_true hsuits.suits)
    · rw [hfresh] at hl
      cases hl
  · exact Or.inr (Nat.not_le.mp hlive)

/-- Where heat goes, only what was hot comes out hot. -/
theorem Reception.hot_of_loss (h : m.Intact) (hrec : Reception m s d r i new) (hd : d ≤ 0)
    (hnew : new = some u) (hot : m.params.Hot u) :
    ∃ z, m.at? i = some z ∧ m.params.Hot z ∧ z.span = u.span := by
  cases hrec with
  | spent => cases hnew
  | @shifted _ z _ _ hz =>
      cases hnew
      have hpos := (h.sound _ _ hz).heat_pos
      have hle : Zone.shiftHeat z.heat d ≤ z.heat := Zone.shiftHeat_le_self (by omega) hd
      exact ⟨z, hz, Int.le_trans hot hle, rfl⟩
  | joined _ _ _ hpos => omega
  | widened _ _ _ hpos => omega
  | fresh _ hpos => omega

end

section

variable {m : HeatMap} {a b : Key} {d : Int} {out : Outcome} {i : Nat} {z : Zone} {k : Key}

/-! ## Keys that become hot -/

/-- **What is promoted.** -/
theorem promoted (h : m.Intact) (hout : m.access a b d = .ok out) (hafter : out.map.HotAt k)
    (hbefore : ¬ m.HotAt k) (hslow : ¬ m.FastAt k) :
    0 < d ∧ out.crossed = true ∧
      ((Span.between m.order a b).Holds m.order k ∨
        (m.params.target < m.live ∧
          ∃ i z, (m.landing (Span.between m.order a b) d).zone? = some (i, z) ∧
            ¬ m.params.Hot z ∧ z.span.Holds m.order k)) := by
  obtain ⟨r, hr, rfl⟩ := access_eq_ok hout
  obtain ⟨i, new, hrec, hland⟩ := receive_at_landing hr
  have hone := hrec.receives h (Span.between_proper m.order a b)
  have hreceived : r.map.HotAt k := (hotAt_settled h hone).mp hafter
  obtain ⟨j, u, hu, hot, hk⟩ := (hotAt_iff hone.write.params).mp hreceived
  have hji : j = i := by
    by_cases hji : j = i
    · exact hji
    · rw [hone.write.at?_of_ne hji] at hu
      exact absurd ⟨j, u, hu, hot, hk⟩ hbefore
  subst hji
  have hnew : new = some u := hone.write.at?_self.symm.trans hu
  have hd : 0 < d := by
    by_cases hd : d ≤ 0
    · obtain ⟨y, hy, hhot, hspan⟩ := hrec.hot_of_loss h hd hnew hot
      exact absurd ⟨j, y, hy, hhot, hspan ▸ hk⟩ hbefore
    · exact Int.not_le.mp hd
  refine ⟨hd, ?_, ?_⟩
  · cases hcross : r.crossed with
    | true => rfl
    | false => exact absurd (fastAt_of_silent h hout hd hcross hafter hbefore) hslow
  · rcases hrec.holds_new hnew hk with hks | ⟨y, hy, hky⟩
    · exact Or.inl hks
    · have hzone := hland y hy
      have hcold : ¬ m.params.Hot y := fun hhot => hbefore ⟨j, y, hy, hhot, hky⟩
      rcases same_or_past_target hzone with hsame | hlive
      · exact Or.inl ((Span.same_iff_covers.mp hsame).2.holds hky)
      · exact Or.inr ⟨hlive, j, y, hzone, hcold, hky⟩

/-! ## Zones that freeze -/

/-- **What is demoted.** -/
theorem demoted (h : m.Intact) (hout : m.access a b d = .ok out)
    (hl : (m.landing (Span.between m.order a b) d).zone? = some (i, z)) (hfast : z.fast = true)
    (hwarm : m.params.freezing < z.heat) (hfrozen : z.heat + d ≤ m.params.freezing) :
    d < 0 ∧ out.crossed = true ∧
      ((Span.between m.order a b).Covers m.order z.span ∨
        (m.params.target < m.live ∧ m.params.Hot z ∧
          z.span.Covers m.order (Span.between m.order a b))) := by
  have hd : d < 0 := by omega
  obtain ⟨r, hr, rfl⟩ := access_eq_ok hout
  have hsuits := landing_suits m (Span.between m.order a b) d
  unfold receive at hr
  refine ⟨hd, ?_⟩
  cases hland : m.landing (Span.between m.order a b) d with
  | exact j y =>
      rw [hland] at hl hr hsuits
      cases hl
      have hz := hsuits.at_eq
      obtain ⟨-, hcross⟩ := receiveShift_loss hz (h.sound i z hz) hd hr
      have hsame := Span.same_iff_covers.mp (of_decide_eq_true hsuits.suits)
      exact ⟨hcross.mpr ⟨hfast, hwarm, hfrozen⟩, Or.inl hsame.2⟩
  | inside j y =>
      rw [hland] at hl hr hsuits
      cases hl
      obtain ⟨-, hlive, hbest⟩ := hsuits
      have hz := hbest.at_eq
      obtain ⟨-, hcross⟩ := receiveShift_loss hz (h.sound i z hz) hd hr
      obtain ⟨hot, hcov⟩ := of_decide_eq_true hbest.suits
      exact ⟨hcross.mpr ⟨hfast, hwarm, hfrozen⟩, Or.inr ⟨hlive, hot, hcov⟩⟩
  | joining j y =>
      rw [hland] at hsuits
      obtain ⟨-, -, -, -, hpos⟩ := hsuits
      omega
  | widening j y =>
      rw [hland] at hsuits
      obtain ⟨-, -, -, -, hpos⟩ := hsuits
      omega
  | fresh =>
      rw [hland] at hl
      cases hl

end

end HeatMap

/-! ## What is sent -/

namespace Placer

/-- The moves that an access calls for: one for the accessed span, or none. -/
def accessMoves (o : KeyOrder) (a b : Key) (d : Int) (crossed : Bool) : List Move :=
  if crossed then [⟨Span.between o a b, decide (0 < d)⟩] else []

/-- A recorded access has changed the map and sent its moves, wherever moves go. -/
theorem record_eq_ok {p : Placer} {a b : Key} {d : Int} (hok : (p.record a b d).2 = .ok ()) :
    ∃ out, p.map.access a b d = .ok out ∧ (p.record a b d).1.map = out.map ∧
      ∀ outlet, ({ p with outlet }.record a b d).1.outlet =
        outlet.sendAll (accessMoves p.order a b d out.crossed) := by
  unfold record at hok ⊢
  cases hout : p.map.access a b d with
  | error e =>
      rw [hout] at hok
      cases hok
  | ok out =>
      refine ⟨out, rfl, rfl, fun outlet => ?_⟩
      dsimp only
      rw [hout]
      rfl

end Placer

namespace Session

/-- **What crosses is moved, within the accessed span.** Whatever has been asked of a placer with
usable settings before, a successful access sends at most one move, for the accessed span. A key
that has come to belong in the fast tier, and that no zone of the fast tier held before, is covered
by a promotion of that span, unless the map was past its target and the access has brought a cold
zone that held the key to the boiling point; the promotion is sent even then. If the zone that takes
the heat lay in the fast tier and falls to the freezing point from above it, be it that it loses all
heat, a demotion of the span is sent, and it covers the whole zone, unless the map was past its
target and the zone is a hot one around the span. -/
theorem crossings_are_commanded {o : KeyOrder} {s : Settings} {out : Outlet} {p : Placer}
    (hp : Placer.new o s out = .ok p) (f : Folder) (before : List Request) {a b : Key} {d : Int}
    (hok : ((run ⟨p, f⟩ before).1.placer.record a b d).2 = .ok ()) :
    let q := (run ⟨p, f⟩ before).1.placer
    let q' := (q.record a b d).1
    let t := Span.between o a b
    let pastTarget := q.map.params.target < q.map.live
    let Lands (i : Nat) (z : Zone) := (q.map.landing t d).zone? = some (i, z)
    let Belongs (m : HeatMap) (k : Key) := ∃ z, m.find? k = some z ∧ s.boiling ≤ z.heat
    ∃ moves : List Move,
      (∀ outlet, ({ q with outlet }.record a b d).1.outlet = outlet.sendAll moves) ∧
      (moves = [] ∨ moves = [⟨t, decide (0 < d)⟩]) ∧
      (∀ k, Belongs q'.map k → ¬ Belongs q.map k → ¬ q.map.FastAt k →
        ⟨t, true⟩ ∈ moves ∧
          (t.Holds o k ∨
            (pastTarget ∧ ∃ i z, Lands i z ∧ z.heat < s.boiling ∧ z.span.Holds o k))) ∧
      (∀ i z, Lands i z → z.fast = true → s.freezing < z.heat → z.heat + d ≤ s.freezing →
        ⟨t, false⟩ ∈ moves ∧
          (t.Covers o z.span ∨ (pastTarget ∧ s.boiling ≤ z.heat ∧ z.span.Covers o t))) := by
  intro q q' t pastTarget Lands Belongs
  have hq : q.Coherent o s := run_coherent (σ := ⟨p, f⟩) (Placer.new_coherent hp) before
  have hq' : q'.Coherent o s := hq.record a b d
  obtain ⟨horder, hboiling, hfreezing⟩ := Settings.params_eq_ok hq.params_eq
  have ho : q.map.order = o := horder
  obtain ⟨out, hout, hmap, hsent⟩ := Placer.record_eq_ok hok
  have hmoves : ∀ fast, out.crossed = true → decide (0 < d) = fast →
      (⟨t, fast⟩ : Move) ∈ Placer.accessMoves q.order a b d out.crossed := by
    intro fast hcross hfast
    rw [hcross, hq.order_eq, ← hfast]
    exact List.mem_cons_self
  refine ⟨_, hsent, ?_, fun k hafter hbefore hslow => ?_, fun i z hl hfast hwarm hfrozen => ?_⟩
  · rw [hq.order_eq]
    cases out.crossed with
    | false => exact Or.inl rfl
    | true => exact Or.inr rfl
  · have hhot : out.map.HotAt k := by
      rw [← hmap]
      exact (hq'.hotAt_iff k).mpr hafter
    have hcold : ¬ q.map.HotAt k := mt (hq.hotAt_iff k).mp hbefore
    obtain ⟨hd, hcross, hwhere⟩ := HeatMap.promoted hq.intact hout hhot hcold hslow
    refine ⟨hmoves true hcross (decide_eq_true hd), ?_⟩
    simpa only [ho, Params.Hot, hboiling, Int.not_le] using hwhere
  · rw [← hfreezing] at hwarm hfrozen
    have hland : (q.map.landing (Span.between q.map.order a b) d).zone? = some (i, z) := by
      rw [ho]
      exact hl
    obtain ⟨hd, hcross, hwhere⟩ := HeatMap.demoted hq.intact hout hland hfast hwarm hfrozen
    refine ⟨hmoves false hcross (decide_eq_false (by omega)), ?_⟩
    simpa only [ho, Params.Hot, hboiling] using hwhere

/-- Past the target, a hot access joins a hot zone. Its part of the grown zone is promoted. -/
theorem crossings_are_commanded_joining :
    let s : Settings := { target := 1 }
    let p : Placer := ⟨s, .empty ⟨.bytewise, 1, 10, 3, .lowest, by decide, by decide, by decide,
      by decide⟩, .empty, .start 10, .ledger []⟩
    let before : List Request := [.record [1] [5] 20, .record [20] [30] 1]
    let q := (run ⟨p, .missing⟩ before).1.placer
    (q.record [4] [9] 12).1.map.find? [7] = some ⟨⟨[1], [9]⟩, 32, false⟩ ∧
      ∃ moves : List Move,
        (∀ w, ({ q with outlet := w }.record [4] [9] 12).1.outlet = w.sendAll moves) ∧
          ⟨⟨[4], [9]⟩, true⟩ ∈ moves := by
  intro s p before q
  have hp : Placer.new .bytewise s (.ledger []) = .ok p :=
    Placer.new_eq_ok (by decide +kernel) rfl _
  have hdone : (q.record [4] [9] 12).2.toOption = some () := by decide
  have hok : (q.record [4] [9] 12).2 = .ok () := by
    cases hr : (q.record [4] [9] 12).2 with
    | ok u => rfl
    | error e =>
        rw [hr] at hdone
        cases hdone
  have hfound : (q.record [4] [9] 12).1.map.find? [7] = some ⟨⟨[1], [9]⟩, 32, false⟩ := by decide
  have hnone : q.map.find? [7] = none := by decide
  have hslow : ∀ z ∈ q.map.zones, z.fast = false := by decide
  dsimp only [q] at hok hfound hnone hslow ⊢
  obtain ⟨moves, hsent, -, hpromoted, -⟩ := crossings_are_commanded hp .missing before hok
  refine ⟨hfound, moves, hsent, (hpromoted [7] ⟨_, hfound, by decide⟩ ?_ ?_).1⟩
  · rintro ⟨z, hz, -⟩
    rw [hnone] at hz
    cases hz
  · rintro ⟨i, z, hz, hfast, -⟩
    rw [hslow z (HeatMap.mem_zones.mpr ⟨i, hz⟩)] at hfast
    cases hfast

/-- Past the target, a hot zone that freezes by an access inside it is not moved as a whole, and a
cold zone that boils by such an access is not either: a key of it that has become hot lies in no
promotion. -/
theorem commands_stop_at_the_accessed_span :
    let s : Settings := { target := 1 }
    let p : Placer := ⟨s, .empty ⟨.bytewise, 1, 10, 3, .lowest, by decide, by decide, by decide,
      by decide⟩, .empty, .start 10, .ledger []⟩
    let q₁ := (run ⟨p, .missing⟩
      [.record [1] [5] 20, .record [7] [9] 5, .setTier [1] [5] true]).1.placer
    let q₂ := (run ⟨p, .missing⟩ [.record [1] [9] 5, .record [20] [30] 1]).1.placer
    let t : Span := ⟨[2], [3]⟩
    Placer.new .bytewise s (.ledger []) = .ok p ∧
      ((q₁.map.landing t (-17)).zone? = some (0, ⟨⟨[1], [5]⟩, 20, true⟩) ∧
        (q₁.record [2] [3] (-17)).2.toOption = some () ∧
        (q₁.record [2] [3] (-17)).1.map.find? [5] = some ⟨⟨[1], [5]⟩, 3, true⟩ ∧
        ({ q₁ with outlet := .ledger [] }.record [2] [3] (-17)).1.outlet.recorded = [⟨t, false⟩] ∧
        ¬ t.Covers .bytewise ⟨[1], [5]⟩) ∧
      ((q₂.record [2] [3] 5).2.toOption = some () ∧
        (∀ z ∈ q₂.map.zones, z.fast = false) ∧
        (q₂.belongsFast [6]).2 = false ∧ ((q₂.record [2] [3] 5).1.belongsFast [6]).2 = true ∧
        ({ q₂ with outlet := .ledger [] }.record [2] [3] 5).1.outlet.recorded = [⟨t, true⟩] ∧
        ¬ t.Holds .bytewise [6]) := by
  intro s p q₁ q₂ t
  have hp : Placer.new .bytewise s (.ledger []) = .ok p :=
    Placer.new_eq_ok (by decide +kernel) rfl _
  refine ⟨hp, ⟨by decide, by decide, by decide, by decide, by decide⟩, ?_⟩
  exact ⟨by decide, by decide, by decide, by decide, by decide, by decide⟩

end Session

end TierIndex
